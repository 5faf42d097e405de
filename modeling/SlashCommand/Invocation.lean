import SlashCommand.Dict
import SlashCommand.Value

/-!
# Invocations and replies

An invocation is one use of a command as the platform reports it: named options
and a subcommand, the target of a context menu, a request for suggestions with a
focused option, or the raw text of a message.  A reply is what a command answers.
-/

namespace SlashCommand

structure Invocation where
  commandName : String
  subcommand : Option String := none
  options : Dict String Value := ∅
  /-- The entries a context menu was opened on. -/
  target : Dict String Value := ∅
  /-- The option being typed, in a request for suggestions. -/
  focused : Option String := none
  /-- The arguments of a text message, not yet split. -/
  raw : Option String := none
  userId : String
  channelId : Option String := none
  guildId : Option String := none

namespace Invocation

def plain (commandName userId : String) : Invocation :=
  { commandName := commandName
    userId := userId }

/-- The text typed so far into the focused option. -/
def focusedText? (invocation : Invocation) : Option String :=
  match invocation.focused with
  | none => none
  | some name => (invocation.options.get? name).map Value.display

/-! ## JSON form -/

def valuesToJson (values : Dict String Value) : Json :=
  .object (values.entries.map fun entry => (entry.1, entry.2.toJson))

/-- A field that is left out when there is nothing to say. -/
def optionalField (name : String) : Option String → List (String × Json)
  | none => []
  | some value => [(name, .text value)]

def toJson (invocation : Invocation) : Json :=
  .object <|
    [("command_name", .text invocation.commandName)] ++
      optionalField "subcommand" invocation.subcommand ++
      [("options", valuesToJson invocation.options),
        ("target", valuesToJson invocation.target)] ++
      optionalField "focused" invocation.focused ++
      optionalField "raw" invocation.raw ++
      [("user_id", .text invocation.userId)] ++
      optionalField "channel_id" invocation.channelId ++
      optionalField "guild_id" invocation.guildId

def entryOfJson? (field : String × Json) : Option (String × Value) :=
  (Value.ofJson? field.2).map fun value => (field.1, value)

/-- The dictionary of values in a field, empty when the field is absent. -/
def valuesOfJson? : Option Json → Option (Dict String Value)
  | none => some ∅
  | some (.object fields) => (fields.mapM entryOfJson?).map Dict.ofList
  | some _ => none

/-- The optional text in a field, none when the field is absent or null. -/
def optionalOfJson? : Option Json → Option (Option String)
  | none => some none
  | some .null => some none
  | some (.text value) => some (some value)
  | some _ => none

/-- The invocation a document describes.  Fields it does not know are ignored. -/
def ofJson? (document : Json) : Option Invocation := do
  let commandName ← (document.field? "command_name").bind Value.textOfJson?
  let subcommand ← optionalOfJson? (document.field? "subcommand")
  let options ← valuesOfJson? (document.field? "options")
  let target ← valuesOfJson? (document.field? "target")
  let focused ← optionalOfJson? (document.field? "focused")
  let raw ← optionalOfJson? (document.field? "raw")
  let userId ← (document.field? "user_id").bind Value.textOfJson?
  let channelId ← optionalOfJson? (document.field? "channel_id")
  let guildId ← optionalOfJson? (document.field? "guild_id")
  return { commandName, subcommand, options, target, focused, raw, userId, channelId, guildId }

end Invocation

/-! ## Replies -/

inductive Reply where
  /-- A message everyone in the channel can see. -/
  | message (content : String)
  /-- A message only the invoking user can see. -/
  | ephemeral (content : String)
  | silent
deriving DecidableEq

def Reply.content? : Reply → Option String
  | .message content => some content
  | .ephemeral content => some content
  | .silent => none

end SlashCommand
