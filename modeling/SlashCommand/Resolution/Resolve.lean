import SlashCommand.Resolution.Message

/-!
# Resolving invocations

An invocation of a context menu resolves to the entries of its target, one with a
raw text to what its tokens say, and any other to its named options.  Absent input
is no error: the only errors are a parameter without a name and a subcommand the
command does not declare.
-/

namespace SlashCommand

inductive ResolutionError where
  | unnamedArgument (command : String)
  | unknownSubcommand (name : String)
deriving DecidableEq

def ResolutionError.message : ResolutionError → String
  | .unnamedArgument command => "an argument of `" ++ command ++ "` has no name"
  | .unknownSubcommand name => "unknown subcommand `" ++ name ++ "`"

namespace Resolution

variable {α : Type}

/-! ## Named options -/

/-- The option of a parameter: under its name, or under its name behind the
subcommand and a colon. -/
def option? (options : Dict String Value) (scope : Option String) (argument : Argument) :
    Option Value :=
  match options.get? argument.name, scope with
  | some value, _ => some value
  | none, none => none
  | none, some subcommand => options.get? (ScopeKey.display ⟨some subcommand, argument.name⟩)

def entryOf (command : Command α) (options : Dict String Value) (scope : Option String)
    (argument : Argument) : Entry :=
  .ofArgument command scope argument (option? options scope argument)

/-- The entries a parameter of the command contributes: its own, or those of the
parameters of the active subcommand. -/
def entriesOf (command : Command α) (options : Dict String Value) (active : Option String)
    (argument : Argument) : List Entry :=
  if !argument.isCommand then
    [entryOf command options none argument]
  else if active = some argument.name then
    argument.subarguments.map (entryOf command options (some argument.name))
  else
    []

def ofOptions (command : Command α) (options : Dict String Value) (active : Option String) :
    Resolution :=
  ofEntries (command.arguments.flatMap (entriesOf command options active)) active

/-- The name of a target entry the platform could not determine. -/
def unresolvedTarget : String :=
  "null"

/-- The resolution of the target of a context menu, its entries in name order. -/
def ofTarget (target : Dict String Value) : Resolution :=
  let known := target.entries.filter fun entry => entry.1 != unresolvedTarget
  let entries := known.map fun (name, value) =>
    { name := name
      value := some value
      flag := none
      subcommand := none
      defaulted := false : Entry }
  ofEntries entries none

end Resolution

namespace Command

variable {α : Type}

/-! ## Strategies -/

/-- A parameter of the command or of one of its subcommands has a void name. -/
def hasUnnamed (command : Command α) : Bool :=
  (command.arguments.flatMap fun argument => argument :: argument.subarguments).any
    fun argument => Text.isVoid argument.name

/-- The resolution of named options, whose subcommand must be declared. -/
def resolveOptions (command : Command α) (invocation : Invocation) :
    Except ResolutionError Resolution :=
  match invocation.subcommand with
  | none => .ok (.ofOptions command invocation.options none)
  | some name =>
      match command.subcommand? name with
      | none => .error (.unknownSubcommand name)
      | some _ => .ok (.ofOptions command invocation.options (some name))

def resolve (command : Command α) (invocation : Invocation) :
    Except ResolutionError Resolution :=
  if command.hasUnnamed then
    .error (.unnamedArgument command.name)
  else if command.type.isContextMenu then
    .ok (.ofTarget invocation.target)
  else
    match invocation.raw with
    | some raw => .ok (Message.resolve command raw)
    | none => command.resolveOptions invocation

end Command

end SlashCommand
