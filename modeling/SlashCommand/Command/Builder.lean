import SlashCommand.Command
import SlashCommand.Command.BuildError

/-!
# Building commands

A builder gathers a declaration call by call.  It starts unnamed, becomes a draft
when the command is named, and is built once; a built command never changes.
Every call leaves a builder behind together with its outcome, so what a refused
call leaves behind is part of the account.
-/

namespace SlashCommand

/-- Where the admitted values of a parameter come from. -/
inductive ChoiceSource (α : Type) where
  /-- From its payload, if that has choices. -/
  | payload
  | literal (choices : List String)
  /-- From a suggester, while the value is being typed. -/
  | dynamic (suggester : Suggester α)

structure ArgumentOptions where
  default : Option Value := none
  min : Option Float := none
  max : Option Float := none

/-! ## Drafts -/

/-- A declaration that has a name and is not built yet. -/
structure Draft (α : Type) where
  name : String
  description : Option String := none
  type : CommandType := .chatInput
  arguments : List Argument := []
  /-- The place of each subcommand among the arguments. -/
  subcommands : Dict String Nat := ∅
  /-- The subcommands that parameters brought about and nothing declared yet. -/
  implicit : List String := []
  choices : Dict ScopeKey (List String) := ∅
  autocomplete : Dict ScopeKey (Suggester α) := ∅
  defaults : Dict ScopeKey Value := ∅
  requires : OrderedSet Requirement := ∅
  channels : OrderedSet String := ∅
  guilds : OrderedSet String := ∅
  action : Option (Action α) := none

/-- The description of what has none. -/
def fillerDescription : String :=
  "No description provided."

namespace Draft

variable {α : Type}

def named (name : String) (description : Option String) : Except BuildError (Draft α) :=
  match Declaration.checkWord name with
  | .error fault => .error (.malformed fault)
  | .ok () => .ok { name := name, description := Text.unlessVoid description }

def isSubcommand (name : String) (argument : Argument) : Bool :=
  argument.isCommand && argument.name == name

def subcommandIndex? (draft : Draft α) (name : String) : Option Nat :=
  draft.subcommands.get? name

def hasSubcommand (draft : Draft α) (name : String) : Bool :=
  draft.subcommands.contains name

/-- A parameter or subcommand of the command itself has the name. -/
def hasArgument (draft : Draft α) (name : String) : Bool :=
  draft.arguments.any fun argument => argument.name == name

def changeSubcommand (draft : Draft α) (name : String) (change : Argument → Argument) :
    Draft α :=
  { draft with
    arguments := draft.arguments.map fun argument =>
      if isSubcommand name argument then change argument else argument }

/-- The draft with a description of a subcommand, unless there is none to give. -/
def describeSubcommand (draft : Draft α) (name : String) : Option String → Draft α
  | none => draft
  | some description =>
      draft.changeSubcommand name fun argument => { argument with description := description }

def appendSubcommand (draft : Draft α) (name : String) (description : Option String) : Draft α :=
  { draft with
    arguments := draft.arguments ++
      [Argument.subcommand name (description.getD fillerDescription)]
    subcommands := draft.subcommands.insert name draft.arguments.length }

/-- Declares a subcommand.  One that parameters brought about counts as declared
from now on and takes the description; one that was declared before is refused. -/
def declareSubcommand (draft : Draft α) (name : String) (description : Option String) :
    Except BuildError (Draft α) :=
  if draft.hasSubcommand name then
    if draft.implicit.contains name then
      .ok <| describeSubcommand { draft with implicit := draft.implicit.erase name } name
        description
    else
      .error (.duplicate (.top name))
  else if draft.hasArgument name then
    .error (.duplicate (.top name))
  else
    .ok (draft.appendSubcommand name description)

/-- Mentions a subcommand in the declaration of a parameter, bringing it about if
there is none.  Until it is declared, the latest description counts. -/
def mentionSubcommand (draft : Draft α) (name : String) (description : Option String) :
    Except BuildError (Draft α) :=
  if draft.hasSubcommand name then
    if draft.implicit.contains name then
      .ok (draft.describeSubcommand name description)
    else
      .ok draft
  else if draft.hasArgument name then
    .error (.duplicate (.top name))
  else
    .ok <| appendSubcommand { draft with implicit := name :: draft.implicit } name description

def discardSubcommand (draft : Draft α) (name : String) : Draft α :=
  match draft.subcommandIndex? name with
  | none => draft
  | some index =>
      { draft with
        arguments := draft.arguments.eraseIdx index
        subcommands := draft.subcommands.erase name
        implicit := draft.implicit.erase name }

/-- The parameters in a scope: those of the command itself, subcommands included,
or those of a subcommand. -/
def inScope (draft : Draft α) : Option String → List Argument
  | none => draft.arguments
  | some name => (draft.arguments.filter (isSubcommand name)).flatMap Argument.subarguments

/-- Gives a parameter its bounds, which must be in order and on a number. -/
def bounded (key : ScopeKey) (options : ArgumentOptions) (argument : Argument) :
    Except BuildError Argument :=
  if options.min.isNone && options.max.isNone then
    .ok argument
  else if !argument.datatype.isNumeric then
    .error (.invalidBounds key (.notNumeric argument.datatype))
  else
    let limited := { argument with min := options.min, max := options.max }
    match options.min, options.max with
    | some min, some max =>
        if max < min then .error (.invalidBounds key (.reversed min max)) else .ok limited
    | _, _ => .ok limited

/-- Records the choices or the suggester of a parameter.  A flag admits its token
only; a suggester and choices of the payload exclude each other. -/
def withSource (draft : Draft α) (key : ScopeKey) (argument : Argument)
    (payload : Option (List String)) (source : ChoiceSource α) : Except BuildError (Draft α) :=
  if argument.isFlag then
    match source, payload with
    | .payload, none =>
        .ok { draft with choices := draft.choices.insert key [argument.token.getD ""] }
    | _, _ => .error (.conflictingChoices key)
  else
    match source, payload with
    | .literal choices, _ => .ok { draft with choices := draft.choices.insert key choices }
    | .dynamic _, some _ => .error (.conflictingChoices key)
    | .dynamic suggester, none =>
        .ok { draft with autocomplete := draft.autocomplete.insert key suggester }
    | .payload, some choices => .ok { draft with choices := draft.choices.insert key choices }
    | .payload, none => .ok draft

/-- Records the default of an optional positional parameter.  Flags and required
parameters have none. -/
def withDefault (draft : Draft α) (key : ScopeKey) (argument : Argument) :
    Option Value → Draft α
  | none => draft
  | some value =>
      if argument.optional && !argument.isFlag then
        { draft with defaults := draft.defaults.insert key value }
      else
        draft

def place (draft : Draft α) (argument : Argument) : Option String → Draft α
  | none => { draft with arguments := draft.arguments ++ [argument] }
  | some name =>
      draft.changeSubcommand name fun subcommand =>
        { subcommand with subarguments := subcommand.subarguments ++ [argument] }

/-- Adds the parameter of a fragment to a scope.  A description given beside the
fragment takes precedence over that of its payload. -/
def addParameter (draft : Draft α) (scope : Option String) (fragment : Declaration.Fragment)
    (description : Option String) (source : ChoiceSource α) (options : ArgumentOptions) :
    Except BuildError (Draft α) := do
  let key : ScopeKey := ⟨scope, fragment.argument.name⟩
  if (draft.inScope scope).any fun argument => argument.name == key.name then
    throw (.duplicate key)
  let given := (Text.unlessVoid description).or (Text.unlessVoid (some fragment.argument.description))
  let described := { fragment.argument with description := given.getD fillerDescription }
  let argument ← bounded key options described
  let sourced ← draft.withSource key argument fragment.choices source
  return (sourced.withDefault key argument options.default).place argument scope

/-- The outcome of a step that leaves the draft alone when it is refused. -/
def settle (draft : Draft α) : Except BuildError (Draft α) → Draft α × Except BuildError Unit
  | .ok next => (next, .ok ())
  | .error error => (draft, .error error)

/-- Describes the command.  A void description is ignored. -/
def describe (draft : Draft α) (description : String) : Except BuildError (Draft α) :=
  match Text.unlessVoid (some description), draft.description with
  | none, _ => .ok draft
  | some _, some _ => .error (.alreadySet .description)
  | some text, none => .ok { draft with description := some text }

/-- Adds the parameter of a declaration text.  The subcommand it mentions is
brought about first; when the parameter is refused, a subcommand brought about for
it goes again, while the description of an older one keeps its change. -/
def addArgument (draft : Draft α) (declaration : String) (description : Option String)
    (source : ChoiceSource α) (options : ArgumentOptions) :
    Draft α × Except BuildError Unit :=
  match Declaration.Parameter.parse declaration with
  | .error fault => (draft, .error (.malformed fault))
  | .ok ⟨none, fragment⟩ =>
      draft.settle (draft.addParameter none fragment description source options)
  | .ok ⟨some mention, fragment⟩ =>
      let name := mention.argument.name
      match draft.mentionSubcommand name (Text.unlessVoid (some mention.argument.description)) with
      | .error error => (draft, .error error)
      | .ok mentioned =>
          match mentioned.addParameter (some name) fragment description source options with
          | .ok next => (next, .ok ())
          | .error error =>
              let kept :=
                if draft.hasSubcommand name then mentioned else mentioned.discardSubcommand name
              (kept, .error error)

/-- Requires a permission or a role.  A token that names neither is ignored. -/
def addRequirement (draft : Draft α) (token : String) : Draft α :=
  match Requirement.ofToken? token with
  | none => draft
  | some requirement => { draft with requires := draft.requires.add requirement }

def setAction (draft : Draft α) (action : Action α) : Except BuildError (Draft α) :=
  match draft.action with
  | some _ => .error (.alreadySet .action)
  | none => .ok { draft with action := some action }

/-- The command a draft freezes to.  Context menus have no description. -/
def freeze (draft : Draft α) : Command α :=
  { name := draft.name
    description :=
      if draft.type.isContextMenu then "" else draft.description.getD fillerDescription
    arguments := draft.arguments
    type := draft.type
    choices := draft.choices
    autocomplete := draft.autocomplete
    defaults := draft.defaults
    requires := draft.requires
    channels := draft.channels
    guilds := draft.guilds
    action := draft.action.getD Action.silent }

/-- Where the values of a parameter in a command declaration come from: choices of its payload
are listed as if they were given with it. -/
def fragmentSource (fragment : Declaration.Fragment) : ChoiceSource α :=
  match fragment.choices with
  | some choices => .literal choices
  | none => .payload

/-- Adds the next fragment of a command declaration to a draft, given the
subcommand that the latest bareword opened. -/
def addFragment (progress : Draft α × Option String) (fragment : Declaration.Fragment) :
    Except BuildError (Draft α × Option String) :=
  let (draft, scope) := progress
  let argument := fragment.argument
  if argument.isCommand then
    (draft.declareSubcommand argument.name (Text.unlessVoid (some argument.description))).map
      fun next => (next, some argument.name)
  else
    (draft.addParameter scope fragment none (fragmentSource fragment) {}).map fun next =>
      (next, scope)

end Draft

/-! ## Builders -/

/-- The stages of a declaration. -/
inductive Builder (α : Type) where
  | unnamed
  | drafting (draft : Draft α)
  | built (command : Command α)

inductive Call (α : Type) where
  | setCommand (name : String) (description : Option String)
  | setDescription (description : String)
  | setType (type : CommandType)
  | addSubcommand (name : String) (description : Option String)
  | addArgument (declaration : String) (description : Option String) (source : ChoiceSource α)
      (options : ArgumentOptions)
  | addRequirement (token : String)
  | addChannel (id : String)
  | addGuild (id : String)
  | setAction (action : Action α)

namespace Builder

variable {α : Type}

def callUnnamed : Call α → Builder α × Except BuildError Unit
  | .setCommand name description =>
      match Draft.named name description with
      | .ok draft => (.drafting draft, .ok ())
      | .error error => (.unnamed, .error error)
  | .setDescription _ => (.unnamed, .error (.premature .setDescription))
  | .setType _ => (.unnamed, .error (.premature .setType))
  | .addSubcommand _ _ => (.unnamed, .error (.premature .addSubcommand))
  | .addArgument _ _ _ _ => (.unnamed, .error (.premature .addArgument))
  | .addRequirement _ => (.unnamed, .error (.premature .addRequirement))
  | .addChannel _ => (.unnamed, .error (.premature .addChannel))
  | .addGuild _ => (.unnamed, .error (.premature .addGuild))
  | .setAction _ => (.unnamed, .error (.premature .setAction))

def callDraft (draft : Draft α) : Call α → Draft α × Except BuildError Unit
  | .setCommand _ _ => (draft, .error (.alreadySet .commandName))
  | .setDescription description => draft.settle (draft.describe description)
  | .setType type => ({ draft with type := type }, .ok ())
  | .addSubcommand name description =>
      match Declaration.checkWord name with
      | .error fault => (draft, .error (.malformed fault))
      | .ok () => draft.settle (draft.declareSubcommand name (Text.unlessVoid description))
  | .addArgument declaration description source options =>
      draft.addArgument declaration description source options
  | .addRequirement token => (draft.addRequirement token, .ok ())
  | .addChannel id => ({ draft with channels := draft.channels.add id }, .ok ())
  | .addGuild id => ({ draft with guilds := draft.guilds.add id }, .ok ())
  | .setAction action => draft.settle (draft.setAction action)

def call : Builder α → Call α → Builder α × Except BuildError Unit
  | .unnamed, call => callUnnamed call
  | .drafting draft, call =>
      let (next, outcome) := callDraft draft call
      (.drafting next, outcome)
  | .built command, _ => (.built command, .error .finalized)

/-- Freezes the declaration.  Building again gives the same command. -/
def build : Builder α → Builder α × Except BuildError (Command α)
  | .unnamed => (.unnamed, .error (.premature .build))
  | .drafting draft => (.built draft.freeze, .ok draft.freeze)
  | .built command => (.built command, .ok command)

/-- The builder of the declaration text of a whole command.  The first fragment
names the command; a later bareword opens a subcommand, and every other fragment
is a parameter of the subcommand opened last. -/
def ofDeclaration (text : String) : Except BuildError (Builder α) :=
  match Declaration.fragments .command text with
  | .error fault => .error (.malformed fault)
  | .ok [] => .error (.malformed ⟨text, .emptyCommand⟩)
  | .ok (root :: rest) =>
      if root.argument.isCommand then do
        let draft ← Draft.named root.argument.name (some root.argument.description)
        let (filled, _) ← rest.foldlM Draft.addFragment (draft, none)
        return .drafting filled
      else
        .error (.malformed ⟨root.source, .missingCommandName⟩)

/-- Makes calls one after the other until one is refused. -/
def calls (builder : Builder α) : List (Call α) → Except BuildError (Builder α)
  | [] => .ok builder
  | next :: rest =>
      match builder.call next with
      | (changed, .ok ()) => changed.calls rest
      | (_, .error error) => .error error

def chatInput (name : String) (description : Option String) : Except BuildError (Builder α) :=
  calls .unnamed [.setCommand name description]

/-- Starts the declaration of a context menu, for users until its kind is set. -/
def contextMenu (name : String) : Except BuildError (Builder α) :=
  calls .unnamed [.setCommand name none, .setType .user]

def menuKind (builder : Builder α) (kind : String) : Except BuildError (Builder α) :=
  match CommandType.ofMenuName? kind with
  | none => .error (.invalidMenu kind)
  | some type => builder.calls [.setType type]

def finish (builder : Builder α) (action : Option (Action α)) : Except BuildError (Command α) := do
  let acting ← builder.calls (action.toList.map .setAction)
  acting.build.2

end Builder

end SlashCommand
