import SlashCommand.Argument
import SlashCommand.Decimal.Layout
import SlashCommand.Declaration.Malformed

/-!
# Declaration errors

The ways in which a step of a command declaration can be refused.
-/

namespace SlashCommand

/-- A step of a declaration, as an error names it. -/
inductive Operation where
  | setDescription
  | setType
  | addSubcommand
  | addArgument
  | addRequirement
  | addChannel
  | addGuild
  | setAction
  | build
deriving DecidableEq

def Operation.wording : Operation → String
  | .setDescription => "set a description"
  | .setType => "set the command type"
  | .addSubcommand => "add a subcommand"
  | .addArgument => "add an argument"
  | .addRequirement => "add a requirement"
  | .addChannel => "add a channel"
  | .addGuild => "add a guild"
  | .setAction => "set the action"
  | .build => "build"

/-- A part of a declaration that can be set once. -/
inductive UniquePart where
  | commandName
  | description
  | action
deriving DecidableEq

def UniquePart.wording : UniquePart → String
  | .commandName => "command name"
  | .description => "description"
  | .action => "action"

inductive BoundFault where
  | notNumeric (datatype : DataType)
  | reversed (min max : Float)

def BoundFault.message : BoundFault → String
  | .notNumeric datatype => "bounds require a numeric type, found " ++ datatype.name
  | .reversed min max =>
      "min " ++ Decimal.Layout.plain.text min ++ " is greater than max " ++
        Decimal.Layout.plain.text max

/-- Why a step of a declaration is refused. -/
inductive BuildError where
  | malformed (fault : Declaration.Malformed)
  | alreadySet (part : UniquePart)
  /-- The command has no name yet. -/
  | premature (operation : Operation)
  | invalidBounds (key : ScopeKey) (fault : BoundFault)
  | duplicate (key : ScopeKey)
  /-- A parameter with two sources of choices, or a flag with one. -/
  | conflictingChoices (key : ScopeKey)
  | invalidMenu (name : String)
  | finalized

def BuildError.message : BuildError → String
  | .malformed fault => fault.message
  | .alreadySet part => part.wording ++ " already set"
  | .premature operation => "cannot " ++ operation.wording ++ " before the command is named"
  | .invalidBounds key fault =>
      "invalid constraint on argument `" ++ key.display ++ "`: " ++ fault.message
  | .duplicate key => "argument `" ++ key.display ++ "` is already declared"
  | .conflictingChoices key =>
      "argument `" ++ key.display ++ "` cannot combine literal choices with autocomplete"
  | .invalidMenu name =>
      "invalid context menu type `" ++ name ++ "`, expected `user` or `message`"
  | .finalized => "the command was already built"

end SlashCommand
