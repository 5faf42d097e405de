import SlashCommand.Text.Split

/-!
# Payloads

A piece carries a payload: a head, a description and a list of choices, the
latter two optional.  The parts stand apart by a semicolon and a blank, the
choices by bars, and a plus sign stands for a blank, so that a payload can be
written as one word.  Reading a written payload gives it back as long as its
texts hold none of these marks.
-/

namespace SlashCommand.Declaration

structure Payload where
  head : String
  /-- The description, none if it is absent or blank. -/
  description : Option String
  /-- The literal choices, none if the payload has no place for them. -/
  choices : Option (List String)
deriving DecidableEq

namespace Payload

/-! ## Reading -/

def plusToBlank (c : Char) : Char :=
  if c = '+' then ' ' else c

/-- The sections of a payload, which stand apart by a semicolon and a blank.
There is always a first one. -/
def sections : List Char → List (List Char)
  | ';' :: ' ' :: rest => [] :: sections rest
  | c :: rest =>
      match sections rest with
      | [] => [[c]]
      | piece :: pieces => (c :: piece) :: pieces
  | [] => [[]]

/-- A description without the blanks around it; a blank one counts as absent. -/
def describedBy (text : List Char) : Option String :=
  match Text.trim text with
  | [] => none
  | description => some (String.ofList description)

/-- The choices between bars, each without the blanks around it, blank ones left
out. -/
def choicesOf (text : List Char) : List String :=
  (((Text.splitAtEach (· == '|') text).map Text.trim).filter fun choice =>
    !choice.isEmpty).map String.ofList

/-- Reads a payload.  Sections after the third are ignored. -/
def read (text : List Char) : Payload :=
  let parts := sections (text.map plusToBlank)
  { head := String.ofList (Text.trim (parts.headD []))
    description := (parts[1]?).bind describedBy
    choices := (parts[2]?).map choicesOf }

/-! ## Writing -/

def blankDescription : String :=
  " "

def blankToPlus (c : Char) : Char :=
  if c = ' ' then '+' else c

/-- What follows the head of a payload. -/
def tail (description : Option String) (choices : Option (List String)) : String :=
  match Text.unlessVoid description, choices with
  | none, none => ""
  | some description, none => "; " ++ description
  | description, some choices =>
      "; " ++ description.getD blankDescription ++ "; " ++ Text.join "|" choices

/-- Writes a payload as one word, as far as its only blanks are spaces. -/
def write (payload : Payload) : String :=
  let text := payload.head ++ tail payload.description payload.choices
  String.ofList (text.toList.map blankToPlus)

end Payload

end SlashCommand.Declaration
