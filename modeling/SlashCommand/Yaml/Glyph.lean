/-!
# The characters of a document

A YAML document is read as a list of glyphs, which are characters with the place
they stand at.  Layout is a matter of places: what a character means depends on its
column, and a key must end on the line it starts on.
-/

namespace SlashCommand.Yaml

/-- The characters a document may hold: those one can print, the tab, and the line
breaks. -/
def isAllowed (c : Char) : Bool :=
  let point := c.toNat
  point == 0x09 || point == 0x0A || point == 0x0D || (0x20 ≤ point && point ≤ 0x7E) ||
    point == 0x85 || (0xA0 ≤ point && point ≤ 0xFFFD) || 0x10000 ≤ point

def isBlank (c : Char) : Bool :=
  c == ' ' || c == '\t'

/-- The ends of lines: the line feed, which stands for the common breaks too, and
the line and paragraph separators. -/
def isBreak (c : Char) : Bool :=
  c == '\n' || c == '\u2028' || c == '\u2029'

def isWordChar (c : Char) : Bool :=
  c.isAlphanum || c == '_' || c == '-'

/-- Carriage returns, with a line feed or without, and next-line characters become
line feeds. -/
def unifyBreaks : List Char → List Char
  | [] => []
  | '\r' :: '\n' :: rest => '\n' :: unifyBreaks rest
  | c :: rest => (if c = '\r' ∨ c = '\u0085' then '\n' else c) :: unifyBreaks rest

/-! ## Glyphs -/

/-- A character and its place.  The index counts octets from the start. -/
structure Glyph where
  char : Char
  line : Nat
  column : Nat
  index : Nat
deriving DecidableEq

def Glyph.isSpace (glyph : Glyph) : Bool :=
  isBlank glyph.char || isBreak glyph.char

def glyphsFrom (line column index : Nat) : List Char → List Glyph
  | [] => []
  | c :: rest =>
      ⟨c, line, column, index⟩ ::
        if isBreak c then
          glyphsFrom (line + 1) 0 (index + c.utf8Size) rest
        else
          glyphsFrom line (column + 1) (index + c.utf8Size) rest

/-- The glyphs of a document, unless it holds a character it may not. -/
def glyphs? (content : String) : Option (List Glyph) :=
  let text := content.toList
  if text.all isAllowed then
    some (glyphsFrom 0 0 0 (unifyBreaks text))
  else
    none

def chars (glyphs : List Glyph) : List Char :=
  glyphs.map Glyph.char

/-! ## Looking ahead -/

/-- A word ends here: at a blank, a line break or the end of the document. -/
def endsWord (text : List Glyph) : Bool :=
  text.head?.all Glyph.isSpace

def startsWith (text : List Glyph) (indicators : List Char) : Bool :=
  text.head?.any fun glyph => indicators.contains glyph.char

/-- A line consists of three marks of a kind, at least up to a blank. -/
def startsMark (mark : Char) : List Glyph → Bool
  | first :: second :: third :: rest =>
      first.column == 0 && first.char == mark && second.char == mark && third.char == mark &&
        endsWord rest
  | _ => false

def startsDocumentMark (text : List Glyph) : Bool :=
  startsMark '-' text || startsMark '.' text

def skipBlanks (text : List Glyph) : List Glyph :=
  text.dropWhile fun glyph => isBlank glyph.char

/-- The text behind the rest of its line, which may hold a comment only. -/
def skipLine? (text : List Glyph) : Option (List Glyph) :=
  let behind := skipBlanks text
  let comment := startsWith behind ['#']
  match if comment then behind.dropWhile fun glyph => !isBreak glyph.char else behind with
  | [] => some []
  | glyph :: rest => if isBreak glyph.char then some rest else none

end SlashCommand.Yaml
