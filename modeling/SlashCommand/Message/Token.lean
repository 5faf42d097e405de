import SlashCommand.Text.Blank

/-!
# Message tokens

The raw text of a message is a row of tokens with blanks between them.  Curly
quotation marks make one token of a text with blanks, and a token remembers that
it was quoted; the marks themselves are dropped.  A quotation that is never closed
runs to the end of the message.
-/

namespace SlashCommand.Message

structure Token where
  text : String
  /-- The token held a quotation. -/
  quoted : Bool
deriving DecidableEq

def openQuote : Char :=
  '“'

def closeQuote : Char :=
  '”'

/-- Where the scanner stands: inside a quotation or not, whether the current token
has held one, and its characters in reverse order. -/
structure Scan where
  inside : Bool
  quoted : Bool
  gathered : List Char

def Scan.start : Scan :=
  ⟨false, false, []⟩

/-- The token that ends where the scanner stands.  An empty one counts if it held
a quotation. -/
def Scan.ended (state : Scan) : List Token :=
  if state.quoted || !state.gathered.isEmpty then
    [⟨String.ofList state.gathered.reverse, state.quoted⟩]
  else
    []

def scan (state : Scan) : List Char → List Token
  | [] => state.ended
  | c :: rest =>
      if c = openQuote ∧ state.inside = false then
        scan ⟨true, true, state.gathered⟩ rest
      else if c = closeQuote ∧ state.inside = true then
        scan ⟨false, state.quoted, state.gathered⟩ rest
      else if Text.isBlank c ∧ state.inside = false then
        state.ended ++ scan Scan.start rest
      else
        scan ⟨state.inside, state.quoted, c :: state.gathered⟩ rest

def tokens (text : String) : List Token :=
  scan Scan.start text.toList

def words (text : String) : List String :=
  (tokens text).map Token.text

end SlashCommand.Message
