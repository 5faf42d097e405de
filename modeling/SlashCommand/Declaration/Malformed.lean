import SlashCommand.Text.Blank

/-!
# Malformed declarations

What can be wrong with the text of a declaration.  A fault names the fragment in
which it was found and its cause; the wording of the causes is kept in one place.
-/

namespace SlashCommand.Declaration

inductive Cause where
  | strayClosing (closing : Char)
  | nestedOpening (opening : Char)
  | mismatchedClosing (closing opening : Char)
  | missingClosing (closing : Char)
  | emptyFragment
  | missingName
  | blankInName (name : String)
  | unknownDatatype (name : String)
  /-- A flag whose token does not start with a dash. -/
  | missingDash
  | severalFlagNames
  | missingFlagToken
  | variadicFlag
  /-- A subcommand after the second place of a parameter declaration. -/
  | misplacedSubcommand
  | missingCommandName
  | emptyCommand
  /-- A parameter declaration without a parameter or with several. -/
  | notOneParameter
  | nestedSubcommands
  | subcommandAfterParameter
  | notAWord
deriving DecidableEq

def Cause.message : Cause → String
  | .strayClosing closing => "unexpected `" ++ closing.toString ++ "` outside brackets"
  | .nestedOpening opening => "`" ++ opening.toString ++ "` opened inside another bracket"
  | .mismatchedClosing closing opening =>
      "`" ++ closing.toString ++ "` does not close `" ++ opening.toString ++ "`"
  | .missingClosing closing => "missing closing `" ++ closing.toString ++ "`"
  | .emptyFragment => "empty fragment"
  | .missingName => "missing name"
  | .blankInName name => "name `" ++ name ++ "` contains whitespace"
  | .unknownDatatype name => "unknown datatype `" ++ name ++ "`"
  | .missingDash => "flags must start with `(-`"
  | .severalFlagNames => "a flag binds exactly one name"
  | .missingFlagToken => "missing flag token"
  | .variadicFlag => "flags cannot be variadic"
  | .misplacedSubcommand =>
      "subgroups and subcommands can only be used as the first two fragments"
  | .missingCommandName => "a command syntax must start with the command name"
  | .emptyCommand => "empty command syntax"
  | .notOneParameter => "an argument declaration holds exactly one parameter"
  | .nestedSubcommands => "nested subcommand groups are not supported"
  | .subcommandAfterParameter => "the subcommand must precede the parameter"
  | .notAWord => "a name must be a single non-empty word"

structure Malformed where
  fragment : String
  cause : Cause
deriving DecidableEq

def Malformed.message (fault : Malformed) : String :=
  "malformed fragment `" ++ fault.fragment ++ "`: " ++ fault.cause.message

/-- A name must be a single word. -/
def checkWord (name : String) : Except Malformed Unit :=
  if Text.isWord name then .ok () else .error ⟨name, .notAWord⟩

end SlashCommand.Declaration
