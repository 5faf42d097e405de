import SlashCommand.Declaration.Fragment
import SlashCommand.Invocation
import SlashCommand.Requirement
import SlashCommand.Resolution

/-!
# Commands

A command is a frozen declaration: its parameters, what values they admit, who
may use it where, and the action that answers it.  Actions and suggesters share a
state `α` that outlives a single invocation.  A command can be written back as the
declaration text it would be read from.
-/

namespace SlashCommand

inductive Outcome where
  | replied (reply : Reply)
  | failed (reason : String)
  /-- The action broke off without an answer. -/
  | crashed

/-- The action of a command: from an invocation, its argument object and its
resolution to an outcome, on the shared state. -/
abbrev Action (α : Type) :=
  Invocation → Arguments → Resolution → α → Outcome × α

/-- The source of suggestions for a parameter: from the text typed so far and the
invocation to a list of suggestions, or the reason why there are none. -/
abbrev Suggester (α : Type) :=
  String → Invocation → α → Except String (List String) × α

/-- The action of a command that declares none. -/
def Action.silent {α : Type} : Action α :=
  fun _ _ _ state => (.replied .silent, state)

inductive CommandType where
  | chatInput
  | user
  | message
deriving DecidableEq, Inhabited

namespace CommandType

def code : CommandType → Nat
  | .chatInput => 1
  | .user => 2
  | .message => 3

def isContextMenu : CommandType → Bool
  | .chatInput => false
  | _ => true

/-- The kind of context menu a text names, in any case and between any blanks. -/
def ofMenuName? (name : String) : Option CommandType :=
  let word := Text.lower (Text.trim name.toList)
  if word = "user".toList then
    some .user
  else if word = "message".toList then
    some .message
  else
    none

end CommandType

/-! ## Frozen declarations -/

structure Command (α : Type) where
  name : String
  /-- The description, empty for context menus. -/
  description : String
  arguments : List Argument
  type : CommandType
  choices : Dict ScopeKey (List String)
  autocomplete : Dict ScopeKey (Suggester α)
  defaults : Dict ScopeKey Value
  requires : OrderedSet Requirement
  /-- The channels in which the command may be used, any if there are none. -/
  channels : OrderedSet String
  guilds : OrderedSet String
  action : Action α

namespace Command

variable {α : Type}

def subcommands (command : Command α) : List Argument :=
  command.arguments.filter Argument.isCommand

def subcommand? (command : Command α) (name : String) : Option Argument :=
  command.subcommands.find? fun argument => argument.name == name

def hasSubcommands (command : Command α) : Bool :=
  command.arguments.any Argument.isCommand

/-- Every flag, of the command itself and of its subcommands. -/
def flags (command : Command α) : List Argument :=
  (command.arguments.flatMap fun argument => argument :: argument.subarguments).filter
    Argument.isFlag

def permissions (command : Command α) : List String :=
  command.requires.toList.filterMap Requirement.permission?

def roles (command : Command α) : List String :=
  command.requires.toList.filterMap Requirement.role?

/-- The parameters of the command itself before the first subcommand.  In a
message the name of the subcommand follows them. -/
def leading (command : Command α) : List Argument :=
  command.arguments.takeWhile fun argument => !argument.isCommand

/-- The parameters of the command itself behind the first subcommand.  In a
message they follow the parameters of the subcommand. -/
def trailing (command : Command α) : List Argument :=
  (command.arguments.dropWhile fun argument => !argument.isCommand).filter fun argument =>
    !argument.isCommand

/-- A usage line with the given words between leading and trailing parameters. -/
def usageLine (command : Command α) (middle : List String) : String :=
  Text.join " " <|
    command.name :: command.leading.map Argument.usage ++ middle ++
      command.trailing.map Argument.usage

/-- One usage line for every subcommand, or a single one if there is none. -/
def usage (command : Command α) : List String :=
  if command.hasSubcommands then
    command.subcommands.map fun subcommand =>
      command.usageLine (subcommand.name :: subcommand.subarguments.map Argument.usage)
  else
    [command.usageLine []]

/-! ## Written form -/

def namePiece (name description : String) : String :=
  Declaration.Payload.write ⟨name, some description, none⟩

/-- The head of a positional parameter: its name, its datatype unless it is a
text, and the dots of a variadic parameter. -/
def positionalHead (argument : Argument) : String :=
  argument.name ++
    (if argument.datatype = .string then "" else ": " ++ argument.datatype.name) ++
    (if argument.variadic then "..." else "")

/-- The written form of a parameter.  The choices of a flag are its token, so they
are not written again. -/
def argumentPiece (command : Command α) (subcommand : Option String) (argument : Argument) :
    String :=
  let description := some argument.description
  match argument.kind with
  | .flag =>
      let head := argument.token.getD "" ++ " " ++ argument.name
      "(" ++ Declaration.Payload.write ⟨head, description, none⟩ ++ ")"
  | _ =>
      let choices := command.choices.get? ⟨subcommand, argument.name⟩
      let payload := Declaration.Payload.write ⟨positionalHead argument, description, choices⟩
      if argument.optional then "[" ++ payload ++ "]" else "<" ++ payload ++ ">"

def subcommandPieces (command : Command α) (subcommand : Argument) : List String :=
  namePiece subcommand.name subcommand.description ::
    subcommand.subarguments.map (command.argumentPiece (some subcommand.name))

/-- The declaration text of a command: its name, its own parameters, and every
subcommand with its parameters.  Names, datatypes, dots, descriptions and literal
choices are written; bounds, defaults, suggesters and restrictions are not. -/
def write (command : Command α) : String :=
  let own := command.arguments.filter fun argument => !argument.isCommand
  Text.join " " <|
    namePiece command.name command.description ::
      own.map (command.argumentPiece none) ++
        command.subcommands.flatMap command.subcommandPieces

end Command

end SlashCommand
