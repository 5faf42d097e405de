import SlashCommand.Text.Letter
import SlashCommand.Text.Split

/-!
# Requirements

What a command asks of the member who invokes it: a permission of the platform,
known by name, or a role of the guild.
-/

namespace SlashCommand

def knownPermissions : List String :=
  ["CREATE_INSTANT_INVITE", "KICK_MEMBERS", "BAN_MEMBERS", "ADMINISTRATOR",
    "MANAGE_CHANNELS", "MANAGE_GUILD", "ADD_REACTIONS", "VIEW_AUDIT_LOG",
    "PRIORITY_SPEAKER", "STREAM", "VIEW_CHANNEL", "SEND_MESSAGES",
    "SEND_TTS_MESSAGES", "MANAGE_MESSAGES", "EMBED_LINKS", "ATTACH_FILES",
    "READ_MESSAGE_HISTORY", "MENTION_EVERYONE", "USE_EXTERNAL_EMOJIS",
    "VIEW_GUILD_INSIGHTS", "CONNECT", "SPEAK", "MUTE_MEMBERS", "DEAFEN_MEMBERS",
    "MOVE_MEMBERS", "USE_VAD", "CHANGE_NICKNAME", "MANAGE_NICKNAMES",
    "MANAGE_ROLES", "MANAGE_WEBHOOKS", "MANAGE_EMOJIS_AND_STICKERS",
    "USE_APPLICATION_COMMANDS", "REQUEST_TO_SPEAK", "MANAGE_EVENTS",
    "MANAGE_THREADS", "CREATE_PUBLIC_THREADS", "CREATE_PRIVATE_THREADS",
    "USE_EXTERNAL_STICKERS", "SEND_MESSAGES_IN_THREADS",
    "START_EMBEDDED_ACTIVITIES", "MODERATE_MEMBERS"]

/-- The known permission a text names, in any case. -/
def permissionNamed? (text : List Char) : Option String :=
  let name := String.ofList (Text.upper text)
  if knownPermissions.contains name then some name else none

def isPermission (name : String) : Bool :=
  (permissionNamed? name.toList).isSome

/-! ## Requirements -/

inductive Requirement where
  | permission (name : String)
  | role (name : String)
deriving DecidableEq

namespace Requirement

def roleNamed? (name : List Char) : Option Requirement :=
  if name.isEmpty then none else some (.role (String.ofList name))

/-- The requirement a token stands for: a role behind an at sign, else a known
permission, else a role.  A role without a name is no requirement. -/
def ofToken? (token : String) : Option Requirement :=
  match Text.trim token.toList with
  | '@' :: name => roleNamed? name
  | name =>
      match permissionNamed? name with
      | some known => some (.permission known)
      | none => roleNamed? name

/-- Permissions come before roles. -/
def rank : Requirement → Nat
  | .permission _ => 0
  | .role _ => 1

def name : Requirement → String
  | .permission name => name
  | .role name => name

def permission? : Requirement → Option String
  | .permission name => some name
  | .role _ => none

def role? : Requirement → Option String
  | .permission _ => none
  | .role name => some name

instance : Ord Requirement :=
  ⟨compareLex (compareOn rank) (compareOn name)⟩

instance : Std.TransOrd Requirement :=
  inferInstanceAs <| Std.TransCmp (compareLex (compareOn rank) (compareOn name))

instance : Std.LawfulEqOrd Requirement where
  eq_of_compare {first second} h := by
    have hlex : compareLex (compareOn rank) (compareOn name) first second = .eq := h
    simp only [compareLex_eq_eq, compareOn, Std.LawfulEqCmp.compare_eq_iff_eq] at hlex
    cases first <;> cases second <;> simp_all [rank, name]

end Requirement

end SlashCommand
