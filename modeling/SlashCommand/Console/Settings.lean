import SlashCommand.Console.Environment
import SlashCommand.Console.File

/-!
# Settings

The settings of the console host: what commands start with, and the identity of
the console user.  Defaults are overridden by a configuration file, and that by
environment variables, key by key; a value that ends up with the wrong type is an
error, an unknown key is not.
-/

namespace SlashCommand.Console

structure Settings where
  /-- What a text message that invokes a command starts with. -/
  lead : String := "!"
  userId : String := "console"
  channelId : String := "stdin"
  guildId : Option String := none
deriving DecidableEq

/-- A configuration file: its path, and its content if there is such a file. -/
structure ConfigFile where
  path : String
  content : Option String

inductive SettingsError where
  | fileNotFound (path : String)
  /-- The file is malformed or a value has the wrong type. -/
  | invalid
deriving DecidableEq

def SettingsError.message : SettingsError → String
  | .fileNotFound path => "configuration file " ++ path ++ " not found"
  | .invalid => "invalid configuration"

namespace Settings

/-! ## Loading -/

def toNode (settings : Settings) : Node :=
  let guild :=
    match settings.guildId with
    | none => []
    | some id => [("guild_id", .text id)]
  .mapping
    [("console", .mapping <|
      [("prefix", .text settings.lead), ("user_id", .text settings.userId),
        ("channel_id", .text settings.channelId)] ++ guild)]

def requiredText? : Option Node → Option String
  | some (.text value) => some value
  | _ => none

/-- The text of an optional setting, none if that is missing or null. -/
def optionalText? : Option Node → Option (Option String)
  | none => some none
  | some .null => some none
  | some (.text value) => some (some value)
  | some _ => none

def ofLookup? (look : String → Option Node) : Option Settings := do
  let lead ← requiredText? (look "prefix")
  let userId ← requiredText? (look "user_id")
  let channelId ← requiredText? (look "channel_id")
  let guildId ← optionalText? (look "guild_id")
  return { lead, userId, channelId, guildId }

/-- The keys of the settings, in the order of their values in a sequence. -/
def keys : List String :=
  ["prefix", "user_id", "channel_id", "guild_id"]

/-- The settings a tree describes, key by key or in their order. -/
def ofNode? (node : Node) : Option Settings := do
  let console ← node.field? "console"
  match console with
  | .sequence items => ofLookup? fun key => (keys.zip items).lookup key
  | other => ofLookup? other.field?

/-- The tree of a configuration file, empty when there is no file. -/
def fileNode (file : Option ConfigFile) : Except SettingsError Node :=
  match file with
  | none => .ok (.mapping [])
  | some ⟨path, none⟩ => .error (.fileNotFound path)
  | some ⟨_, some content⟩ =>
      match File.read? content with
      | some node => .ok node
      | none => .error .invalid

/-- Loads the settings from a file, if one is given, and the environment. -/
def load (file : Option ConfigFile) (environment : List (String × String)) :
    Except SettingsError Settings := do
  let written ← fileNode file
  let merged := ((toNode {}).merge written).merge (Environment.node environment)
  match ofNode? merged with
  | some settings => return settings
  | none => throw .invalid

end Settings

end SlashCommand.Console
