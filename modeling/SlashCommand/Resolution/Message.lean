import SlashCommand.Command
import SlashCommand.Message.Flags
import SlashCommand.Resolution.Entry

/-!
# Resolving a message

The tokens of a raw text are handed to the parameters in declaration order, after
the flags of the command itself have been taken out.  The name of a subcommand is
expected right behind the leading parameters; the flags of the subcommand are
taken out of the tokens that follow it.
-/

namespace SlashCommand.Message

/-! ## Typed values -/

def affirmative : List String :=
  ["true", "yes", "on", "1"]

def negative : List String :=
  ["false", "no", "off", "0"]

/-- The value of a token for a parameter of a datatype, the text itself if it
denotes no such value. -/
def valueOf (datatype : DataType) (text : String) : Value :=
  match datatype with
  | .integer => ((Decimal.word? text.toList).map Value.integer).getD (.text text)
  | .number => ((Decimal.float? text.toList).map Value.number).getD (.text text)
  | .boolean =>
      let word := String.ofList (Text.lower text.toList)
      if affirmative.contains word then
        .bool true
      else if negative.contains word then
        .bool false
      else
        .text text
  | _ => .text text

/-! ## Handing out tokens -/

/-- The value a positional parameter takes from the tokens left, and the tokens
left afterwards. -/
def take (argument : Argument) (left : List Token) : Option Value × List Token :=
  if argument.variadic then
    (some (.list (left.map Token.text)), [])
  else
    match left with
    | [] => (none, [])
    | token :: rest => (some (valueOf argument.datatype token.text), rest)

def flagValue? (occurrences : List (String × String)) (argument : Argument) : Option Value :=
  (argument.token.bind (valueOf? occurrences)).map .text

/-- The entries of parameters in a scope, in order, and the tokens left. -/
def handOut {α : Type} (command : Command α) (occurrences : List (String × String))
    (scope : Option String) : List Argument → List Token → List Entry × List Token
  | [], left => ([], left)
  | argument :: rest, left =>
      let (value, after) :=
        if argument.isFlag then
          (flagValue? occurrences argument, left)
        else
          take argument left
      let (entries, remaining) := handOut command occurrences scope rest after
      (Entry.ofArgument command scope argument value :: entries, remaining)

def flagTokens (arguments : List Argument) : List String :=
  (arguments.filter Argument.isFlag).filterMap Argument.token

/-- The subcommand the next token names.  A quoted token names none. -/
def activated? {α : Type} (command : Command α) : List Token → Option Argument
  | [] => none
  | token :: _ => if token.quoted then none else command.subcommand? token.text

def resolveTokens {α : Type} (command : Command α) (tokens : List Token) : Resolution :=
  let known := flagTokens command.flags
  let own := extract (flagTokens command.arguments) known tokens
  let (leading, left) := handOut command own.occurrences none command.leading own.positional
  match activated? command left with
  | none =>
      let (trailing, _) := handOut command own.occurrences none command.trailing left
      Resolution.ofEntries (leading ++ trailing) none
  | some subcommand =>
      let scope := some subcommand.name
      let under := extract (flagTokens subcommand.subarguments) known (left.drop 1)
      let occurrences := own.occurrences ++ under.occurrences
      let (inner, remaining) :=
        handOut command occurrences scope subcommand.subarguments under.positional
      let (trailing, _) := handOut command occurrences none command.trailing remaining
      Resolution.ofEntries (leading ++ inner ++ trailing) scope

def resolve {α : Type} (command : Command α) (raw : String) : Resolution :=
  resolveTokens command (tokens raw)

end SlashCommand.Message
