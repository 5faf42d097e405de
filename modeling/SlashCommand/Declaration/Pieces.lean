import SlashCommand.Declaration.Malformed

/-!
# The pieces of a declaration

A declaration is a row of pieces: barewords, and texts in one of three kinds of
brackets.  Blanks separate pieces outside brackets only, so a bracketed piece may
hold blanks; brackets neither nest nor cross.
-/

namespace SlashCommand.Declaration

/-! ## Brackets -/

def closingFor? : Char → Option Char
  | '<' => some '>'
  | '[' => some ']'
  | '(' => some ')'
  | _ => none

def openingFor? : Char → Option Char
  | '>' => some '<'
  | ']' => some '['
  | ')' => some '('
  | _ => none

def isBracket (c : Char) : Bool :=
  (closingFor? c).isSome || (openingFor? c).isSome

theorem openingFor?_eq_some_iff {closing opening : Char} :
    openingFor? closing = some opening ↔ closingFor? opening = some closing := by
  constructor
  · intro h
    unfold openingFor? at h
    split at h <;> cases h <;> rfl
  · intro h
    unfold closingFor? at h
    split at h <;> cases h <;> rfl

/-! ## Scanning -/

/-- Where the scanner stands.  The characters of the piece being gathered are in
reverse order. -/
inductive Scan where
  | outside
  | bareword (gathered : List Char)
  /-- Inside the bracket opened by `opening`, which `closing` closes. -/
  | bracket (opening closing : Char) (gathered : List Char)

def Scan.gathered : Scan → List Char
  | .outside => []
  | .bareword gathered => gathered
  | .bracket _ _ gathered => gathered

def pieceOf (gathered : List Char) : String :=
  String.ofList gathered.reverse

/-- The bareword that ends where the scanner stands. -/
def Scan.ended : Scan → List String
  | .bareword gathered => [pieceOf gathered]
  | _ => []

def scan : Scan → List Char → Except Malformed (List String)
  | .outside, [] => .ok []
  | .bareword gathered, [] => .ok [pieceOf gathered]
  | .bracket _ closing gathered, [] => .error ⟨pieceOf gathered, .missingClosing closing⟩
  | .bracket opening closing gathered, c :: rest =>
      let gathered := c :: gathered
      if c = closing then
        (scan .outside rest).map (pieceOf gathered :: ·)
      else if (closingFor? c).isSome then
        .error ⟨pieceOf gathered, .nestedOpening c⟩
      else if (openingFor? c).isSome then
        .error ⟨pieceOf gathered, .mismatchedClosing c opening⟩
      else
        scan (.bracket opening closing gathered) rest
  | state, c :: rest =>
      if Text.isBlank c then
        (scan .outside rest).map (state.ended ++ ·)
      else
        match closingFor? c with
        | some closing => (scan (.bracket c closing [c]) rest).map (state.ended ++ ·)
        | none =>
            if (openingFor? c).isSome then
              .error ⟨pieceOf (c :: state.gathered), .strayClosing c⟩
            else
              scan (.bareword (c :: state.gathered)) rest

def pieces (text : String) : Except Malformed (List String) :=
  scan .outside text.toList

end SlashCommand.Declaration
