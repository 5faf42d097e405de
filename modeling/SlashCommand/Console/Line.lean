import SlashCommand.Dispatch.Dispatcher

/-!
# Console lines

A line typed at the console is a text message, a structured invocation behind a
slash, such as `/todo add item=milk`, or a request for suggestions behind a
question mark, such as `?todo remove item mi`.
-/

namespace SlashCommand.Console

inductive Line where
  | empty
  | text (body : String)
  | structured (invocation : Invocation)
  | autocomplete (invocation : Invocation)

/-- The value of an option as typed: a whole number, a floating-point number, a
truth value, or else a text. -/
def parseValue (text : List Char) : Value :=
  match Decimal.word? text, Decimal.float? text with
  | some word, _ => .integer word
  | none, some number => .number number
  | none, none =>
      if text = "true".toList then
        .bool true
      else if text = "false".toList then
        .bool false
      else
        .text (String.ofList text)

/-- Enters an option written as name and value around an equals sign.  Any other
word is ignored. -/
def enterOption (options : Dict String Value) (word : String) : Dict String Value :=
  match Text.splitAtFirst? (· == '=') word.toList with
  | none => options
  | some (name, value) => options.insert (String.ofList name) (parseValue value)

/-- The invocation of a command with the words behind its name: the first of them
is the subcommand if the command declares one of that name. -/
def withSubcommand {α π : Type} (dispatcher : Dispatcher α π) (invocation : Invocation)
    (words : List String) : Invocation × List String :=
  match words with
  | [] => (invocation, [])
  | word :: rest =>
      match (dispatcher.commands.get? invocation.commandName).bind (·.subcommand? word) with
      | none => (invocation, word :: rest)
      | some _ => ({ invocation with subcommand := some word }, rest)

/-- The request for suggestions in the words behind a command: the focused option
and the text typed into it. -/
def focus (invocation : Invocation) : List String → Invocation
  | [] => invocation
  | focused :: typed =>
      { invocation with
        options := invocation.options.insert focused (.text (Text.join " " typed))
        focused := some focused }

/-- The command a line names with the words behind it, for the user of the
template. -/
def invocation? {α π : Type} (dispatcher : Dispatcher α π) (template : Invocation)
    (rest : List Char) : Option (Invocation × List String) :=
  match Message.words (String.ofList rest) with
  | [] => none
  | name :: words =>
      some (withSubcommand dispatcher { template with commandName := name } words)

def parseLine {α π : Type} (dispatcher : Dispatcher α π) (template : Invocation)
    (line : String) : Line :=
  match Text.trim line.toList with
  | [] => .empty
  | '/' :: rest =>
      match invocation? dispatcher template rest with
      | none => .empty
      | some (invocation, words) =>
          .structured { invocation with options := words.foldl enterOption invocation.options }
  | '?' :: rest =>
      match invocation? dispatcher template rest with
      | none => .empty
      | some (invocation, words) => .autocomplete (focus invocation words)
  | body => .text (String.ofList body)

end SlashCommand.Console
