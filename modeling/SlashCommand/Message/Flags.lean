import SlashCommand.Message.Token

/-!
# Flags in a message

Flags may stand anywhere among the tokens of a message.  Extracting a set of flag
tokens leaves the positional tokens in their order and yields every occurrence of
a flag with the value it took: the next token, unless that is itself an unquoted
flag token.  Quoted tokens are never flags.
-/

namespace SlashCommand.Message

/-- A token spells one of the given flag tokens.  Quoted tokens spell none. -/
def Token.isAmong (token : Token) (flags : List String) : Bool :=
  !token.quoted && flags.contains token.text

structure Extraction where
  /-- The tokens that are neither flags nor their values. -/
  positional : List Token
  /-- The flags that occur, with the values they took. -/
  occurrences : List (String × String)

namespace Extraction

def pass (token : Token) (extraction : Extraction) : Extraction :=
  { extraction with positional := token :: extraction.positional }

def meet (flag value : String) (extraction : Extraction) : Extraction :=
  { extraction with occurrences := (flag, value) :: extraction.occurrences }

end Extraction

/-- Extracts the given flags.  A flag takes the next token as its value unless that
token is a known flag; then its own token is its value. -/
def extract (flags known : List String) : List Token → Extraction
  | [] => ⟨[], []⟩
  | [token] =>
      if token.isAmong flags then
        ⟨[], [(token.text, token.text)]⟩
      else
        ⟨[token], []⟩
  | token :: next :: rest =>
      if !token.isAmong flags then
        (extract flags known (next :: rest)).pass token
      else if next.isAmong known then
        (extract flags known (next :: rest)).meet token.text token.text
      else
        (extract flags known rest).meet token.text next.text

/-- The value a flag took where it occurs last. -/
def valueOf? (occurrences : List (String × String)) (flag : String) : Option String :=
  occurrences.reverse.lookup flag

end SlashCommand.Message
