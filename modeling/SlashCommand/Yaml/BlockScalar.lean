import SlashCommand.Yaml.Glyph

/-!
# Block scalars

A block scalar is the text of the indented lines below its indicator.  A literal
one keeps its line breaks; in a folded one a line break between two lines of text
becomes a blank.
-/

namespace SlashCommand.Yaml

/-! ## The header -/

/-- What becomes of the line breaks at the end. -/
inductive Chomping where
  /-- All of them are dropped. -/
  | strip
  /-- The first one is kept. -/
  | clip
  /-- All of them are kept. -/
  | keep
deriving DecidableEq

def chomping? (c : Char) : Option Chomping :=
  if c = '+' then
    some .keep
  else if c = '-' then
    some .strip
  else
    none

def indentation? (c : Char) : Option Nat :=
  if c.isDigit then some (c.toNat - 48) else none

/-- The chomping and the indentation in a header, zero if it is not given, and what
follows them. -/
def header (text : List Glyph) : Chomping × Option Nat × List Glyph :=
  let sign (text : List Glyph) := text.head?.bind fun glyph => chomping? glyph.char
  let digit (text : List Glyph) := text.head?.bind fun glyph => indentation? glyph.char
  match sign text, digit text with
  | some chomping, _ =>
      let behind := text.drop 1
      match digit behind with
      | some indentation => (chomping, some indentation, behind.drop 1)
      | none => (chomping, none, behind)
  | none, some indentation =>
      let behind := text.drop 1
      match sign behind with
      | some chomping => (chomping, some indentation, behind.drop 1)
      | none => (.clip, some indentation, behind)
  | none, none => (.clip, none, text)

/-! ## The lines -/

def lines : List Glyph → List (List Glyph)
  | [] => []
  | glyph :: rest =>
      if isBreak glyph.char then
        [glyph] :: lines rest
      else
        match lines rest with
        | [] => [[glyph]]
        | line :: others => (glyph :: line) :: others

def leadingSpaces (line : List Glyph) : Nat :=
  (line.takeWhile fun glyph => glyph.char == ' ').length

/-- The indentation of a scalar that does not state it: that of its first line of
text, but no less than that of the blank lines before it.  A tab there is an
error. -/
def detectIndentation (least : Nat) : List (List Glyph) → Option Nat
  | [] => some least
  | line :: others =>
      let spaces := leadingSpaces line
      let widest := max least spaces
      match line.drop spaces with
      | [] => some widest
      | glyph :: _ =>
          if glyph.char = '\t' then
            none
          else if isBreak glyph.char then
            detectIndentation widest others
          else
            some widest

structure BlockText where
  /-- The text up to the last line break, in reverse order. -/
  gathered : List Char := []
  /-- The line break of the last line of text. -/
  last : Option Char := none
  /-- The line breaks of the blank lines behind it, in reverse order. -/
  further : List Char := []
  /-- The last line of text starts with a blank. -/
  indented : Bool := false

namespace BlockText

/-- The text with a line of text behind it.  A folded line break becomes a blank,
or nothing if blank lines follow it. -/
def addLine (literal : Bool) (text : BlockText) (line : List Glyph) : BlockText :=
  let startsBlank := line.head?.any fun glyph => isBlank glyph.char
  let joined :=
    if !literal && text.last == some '\n' && !text.indented && !startsBlank then
      if text.further.isEmpty then [' '] else []
    else
      text.last.toList
  let words := chars (line.filter fun glyph => !isBreak glyph.char)
  { gathered := words.reverse ++ text.further ++ joined ++ text.gathered
    last := (line.find? fun glyph => isBreak glyph.char).map Glyph.char
    further := []
    indented := startsBlank }

/-- The whole text, with the line breaks at its end chomped. -/
def chomp (chomping : Chomping) (text : BlockText) : List Char :=
  let kept :=
    match chomping with
    | .strip => []
    | .clip => text.last.toList
    | .keep => text.further ++ text.last.toList
  (kept ++ text.gathered).reverse

end BlockText

/-- The lines that belong to a scalar of an indentation, behind a text, and those
that do not. -/
def blockLines (literal : Bool) (indentation : Nat) (text : BlockText) :
    List (List Glyph) → Option (BlockText × List (List Glyph))
  | [] => some (text, [])
  | line :: others =>
      let spaces := min indentation (leadingSpaces line)
      match line.drop spaces with
      | [] => some (text, others)
      | glyph :: rest =>
          if isBreak glyph.char then
            blockLines literal indentation
              { text with further := glyph.char :: text.further } others
          else if spaces < indentation then
            if glyph.char = '\t' then none else some (text, line :: others)
          else
            blockLines literal indentation (text.addLine literal (glyph :: rest)) others

/-- The text of a block scalar in a block that starts at the column `floor`, given
what follows the indicator, and what follows the scalar. -/
def block? (literal : Bool) (floor : Nat) (text : List Glyph) :
    Option (List Char × List Glyph) := do
  let (chomping, stated, behind) := header text
  let below := lines (← skipLine? behind)
  let indentation ←
    match stated with
    | none => detectIndentation (max floor 1) below
    | some 0 => none
    | some indentation => some (if floor = 0 then indentation else floor - 1 + indentation)
  let (content, others) ← blockLines literal indentation {} below
  return (content.chomp chomping, others.flatten)

end SlashCommand.Yaml
