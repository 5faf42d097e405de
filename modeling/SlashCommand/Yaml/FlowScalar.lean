import SlashCommand.Text.Digit
import SlashCommand.Yaml.Glyph

/-!
# Plain and quoted scalars

Plain and quoted scalars may run over several lines.  A single line break in them
is folded into a blank, further ones are kept; blanks around a line break are
dropped.
-/

namespace SlashCommand.Yaml

/-- The blanks and line breaks between two words of a scalar. -/
structure Gap where
  /-- The blanks before any line break, in reverse order. -/
  blanks : List Char := []
  broken : Bool := false
  /-- The first line break, none if that is escaped. -/
  first : Option Char := none
  /-- The line breaks behind the first one, in reverse order. -/
  further : List Char := []

namespace Gap

def isEmpty (gap : Gap) : Bool :=
  gap.blanks.isEmpty && !gap.broken

/-- The gap with a blank or a line break behind it. -/
def extend (gap : Gap) (c : Char) : Gap :=
  if isBreak c then
    if gap.broken then
      { gap with further := c :: gap.further }
    else
      { broken := true, first := some c }
  else if gap.broken then
    gap
  else
    { gap with blanks := c :: gap.blanks }

/-- The gap of an escaped line break. -/
def escapedBreak : Gap :=
  { broken := true }

/-- What a gap contributes to the scalar, in reverse order. -/
def folded (gap : Gap) : List Char :=
  if gap.broken then
    match gap.first with
    | none => gap.further
    | some '\n' => if gap.further.isEmpty then [' '] else gap.further
    | some separator => gap.further ++ [separator]
  else
    gap.blanks

end Gap

/-! ## Plain scalars -/

structure PlainScalar where
  text : List Char
  /-- A line break follows the last word. -/
  endsLine : Bool
  rest : List Glyph

/-- A plain scalar ends before a word that starts a comment, marks a document or
stands left of its block. -/
def endsPlain (inFlow : Bool) (floor : Nat) (word : List Glyph) : Bool :=
  startsWith word ['#'] || startsDocumentMark word ||
    (!inFlow && word.head?.any fun glyph => glyph.column < floor)

def flowIndicators : List Char :=
  [',', '[', ']', '\x7b', '\x7d']

/-- A plain scalar from the place on where the characters gathered so far, in
reverse order, and a gap end.  A colon ends it when it ends a word; within a flow
collection an indicator ends it, and a colon before one is an error.  Within a block
that starts at the column `floor`, tabs left of it are an error. -/
def plainFrom (inFlow : Bool) (floor : Nat) (gathered : List Char) (gap : Gap) :
    List Glyph → Option PlainScalar
  | [] => some ⟨gathered.reverse, gap.broken, []⟩
  | glyph :: rest =>
      let ended : PlainScalar := ⟨gathered.reverse, gap.broken, glyph :: rest⟩
      if glyph.isSpace then
        if gap.broken && glyph.char == '\t' && glyph.column < floor then
          none
        else
          plainFrom inFlow floor gathered (gap.extend glyph.char) rest
      else if !gap.isEmpty && endsPlain inFlow floor (glyph :: rest) then
        some ended
      else if inFlow && glyph.char == ':' && startsWith rest ('?' :: flowIndicators) then
        none
      else if (glyph.char == ':' && endsWord rest) ||
          (inFlow && flowIndicators.contains glyph.char) then
        some ended
      else
        plainFrom inFlow floor (glyph.char :: (gap.folded ++ gathered)) {} rest

def plain? (inFlow : Bool) (floor : Nat) (text : List Glyph) : Option PlainScalar :=
  plainFrom inFlow floor [] {} text

/-! ## Quoted scalars -/

/-- A piece of a quoted scalar. -/
inductive Piece where
  | literal (c : Char)
  | escaped (c : Char)
  /-- An escaped line break, which joins two lines. -/
  | joint
deriving DecidableEq

def escaped? : Char → Option Char
  | '0' => some '\x00'
  | 'a' => some '\x07'
  | 'b' => some '\x08'
  | 't' => some '\t'
  | '\t' => some '\t'
  | 'n' => some '\n'
  | 'v' => some '\x0b'
  | 'f' => some '\x0c'
  | 'r' => some '\r'
  | 'e' => some '\x1b'
  | ' ' => some ' '
  | '"' => some '"'
  | '/' => some '/'
  | '\\' => some '\\'
  | 'N' => some '\u0085'
  | '_' => some '\u00A0'
  | 'L' => some '\u2028'
  | 'P' => some '\u2029'
  | _ => none

def escapeDigits? : Char → Option Nat
  | 'x' => some 2
  | 'u' => some 4
  | 'U' => some 8
  | _ => none

/-- What the reader of a quoted scalar is in the middle of. -/
inductive Pending where
  | nothing
  /-- A single quotation mark, which a second one would make a character. -/
  | quote
  | backslash
  /-- An escape sequence that lacks some digits. -/
  | digits (missing value : Nat)

def prependPiece (piece : Piece) :
    Option (List Piece × List Glyph) → Option (List Piece × List Glyph)
  | none => none
  | some (pieces, rest) => some (piece :: pieces, rest)

/-- The pieces up to the closing quotation mark, and what follows it.  A mark of a
document may not stand within a quoted scalar. -/
def pieces? (double : Bool) : Pending → List Glyph → Option (List Piece × List Glyph)
  | .quote, [] => some ([], [])
  | _, [] => none
  | .nothing, glyph :: rest =>
      if startsDocumentMark (glyph :: rest) then
        none
      else if double && glyph.char == '"' then
        some ([], rest)
      else if double && glyph.char == '\\' then
        pieces? double .backslash rest
      else if !double && glyph.char == '\'' then
        pieces? double .quote rest
      else
        prependPiece (.literal glyph.char) (pieces? double .nothing rest)
  | .quote, glyph :: rest =>
      if glyph.char = '\'' then
        prependPiece (.escaped '\'') (pieces? double .nothing rest)
      else
        some ([], glyph :: rest)
  | .backslash, glyph :: rest =>
      if isBreak glyph.char then
        prependPiece .joint (pieces? double .nothing rest)
      else
        match escapeDigits? glyph.char, escaped? glyph.char with
        | some count, _ => pieces? double (.digits count 0) rest
        | none, some c => prependPiece (.escaped c) (pieces? double .nothing rest)
        | none, none => none
  | .digits missing value, glyph :: rest =>
      match Text.hexDigit? glyph.char with
      | none => none
      | some digit =>
          let read := 16 * value + digit
          if 1 < missing then
            pieces? double (.digits (missing - 1) read) rest
          else
            match Text.charOf? read with
            | none => none
            | some c => prependPiece (.escaped c) (pieces? double .nothing rest)

/-- The text of pieces behind the characters gathered so far, in reverse order, and
a gap. -/
def foldPieces (gathered : List Char) (gap : Gap) : List Piece → List Char
  | [] => (gap.folded ++ gathered).reverse
  | .literal c :: rest =>
      if isBlank c || isBreak c then
        foldPieces gathered (gap.extend c) rest
      else
        foldPieces (c :: (gap.folded ++ gathered)) {} rest
  | .escaped c :: rest => foldPieces (c :: (gap.folded ++ gathered)) {} rest
  | .joint :: rest => foldPieces (gap.folded ++ gathered) .escapedBreak rest

/-- The text of a quoted scalar, given what follows the opening quotation mark, and
what follows the closing one. -/
def quoted? (double : Bool) (text : List Glyph) : Option (List Char × List Glyph) :=
  (pieces? double .nothing text).map fun (pieces, rest) => (foldPieces [] {} pieces, rest)

end SlashCommand.Yaml
