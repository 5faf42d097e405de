import SlashCommand.Decimal.Literal
import SlashCommand.Json
import SlashCommand.Text.Digit

/-!
# Reading JSON text

Reading goes through lexemes: a scanner that looks at one character at a time
cuts the text into lexemes, and a builder that looks at one lexeme at a time
keeps the unfinished lists and objects on a stack.  Both are folds, so reading
ends on every text.
-/

namespace SlashCommand.Json

/-! ## Lexemes -/

/-- The parts a JSON text is made of.  A scalar is a complete document. -/
inductive Lexeme where
  | openList
  | closeList
  | openObject
  | closeObject
  | comma
  | colon
  | scalar (document : Json)

/-- The number a JSON literal denotes: digits without a superfluous leading zero,
a fraction and an exponent if any.  A literal with one of these two, or with the
value minus zero, is a floating-point number. -/
def number? (literal : List Char) : Option Json :=
  let unsigned := (literal.dropWhile (· == '-'))
  let whole := unsigned.takeWhile Char.isDigit
  let rest := unsigned.dropWhile Char.isDigit
  let barePoint := rest.head? == some '.' && !(rest.drop 1).head?.any Char.isDigit
  if literal.head? == some '+' || whole.isEmpty || barePoint ||
      (whole.head? == some '0' && 1 < whole.length) then
    none
  else if rest.isEmpty && literal ≠ ['-', '0'] then
    (Decimal.integer? literal).map .integer
  else
    (Decimal.float? literal).map .float

def literal? (literal : List Char) : Option Json :=
  if literal = "null".toList then
    some .null
  else if literal = "true".toList then
    some (.bool true)
  else if literal = "false".toList then
    some (.bool false)
  else
    number? literal

/-- The characters of a text given by code points, where a pair of surrogates
stands for one character and a single surrogate for none that exists. -/
def ofCodePoints? : List Nat → Option (List Char)
  | [] => some []
  | high :: low :: rest =>
      if 0xD800 ≤ high ∧ high < 0xDC00 then
        if 0xDC00 ≤ low ∧ low < 0xE000 then
          (ofCodePoints? rest).map
            (Char.ofNat (0x10000 + (high - 0xD800) * 0x400 + (low - 0xDC00)) :: ·)
        else
          none
      else if 0xDC00 ≤ high ∧ high < 0xE000 then
        none
      else
        (ofCodePoints? (low :: rest)).map (Char.ofNat high :: ·)
  | [point] => if 0xD800 ≤ point ∧ point < 0xE000 then none else some [Char.ofNat point]

def escaped? : Char → Option Nat
  | '"' => some 0x22
  | '\\' => some 0x5C
  | '/' => some 0x2F
  | 'b' => some 8
  | 'f' => some 12
  | 'n' => some 10
  | 'r' => some 13
  | 't' => some 9
  | _ => none

/-- Where the scanner stands.  What it has gathered is in reverse order. -/
inductive Scan where
  | between
  | literal (gathered : List Char)
  | quoted (points : List Nat)
  | escape (points : List Nat)
  | codePoint (points : List Nat) (value left : Nat)

def punctuation? : Char → Option Lexeme
  | '[' => some .openList
  | ']' => some .closeList
  | '\x7b' => some .openObject
  | '\x7d' => some .closeObject
  | ',' => some .comma
  | ':' => some .colon
  | _ => none

/-- The lexemes found so far, in reverse order, and the state of the scanner. -/
abbrev Scanned := List Lexeme × Scan

def endLiteral (scanned : Scanned) : Option Scanned :=
  match scanned with
  | (found, .literal gathered) =>
      (literal? gathered.reverse).map fun document => (.scalar document :: found, .between)
  | other => some other

/-- One character outside quotation marks that cannot continue a literal. -/
def startLexeme (found : List Lexeme) (c : Char) : Scanned :=
  match punctuation? c with
  | some mark => (mark :: found, .between)
  | none => if c = '"' then (found, .quoted []) else (found, .between)

def isDelimiter (c : Char) : Bool :=
  c == ' ' || c == '\n' || c == '\r' || c == '\t' || c == '"' || (punctuation? c).isSome

def scanChar (scanned : Scanned) (c : Char) : Option Scanned :=
  match scanned with
  | (found, .between) =>
      if isDelimiter c then some (startLexeme found c) else some (found, .literal [c])
  | (found, .literal gathered) =>
      if isDelimiter c then
        (endLiteral (found, .literal gathered)).map fun ended => startLexeme ended.1 c
      else
        some (found, .literal (c :: gathered))
  | (found, .quoted points) =>
      if c = '"' then
        (ofCodePoints? points.reverse).map fun content =>
          (.scalar (.text (String.ofList content)) :: found, .between)
      else if c = '\\' then
        some (found, .escape points)
      else if c.toNat < 0x20 then
        none
      else
        some (found, .quoted (c.toNat :: points))
  | (found, .escape points) =>
      if c = 'u' then
        some (found, .codePoint points 0 4)
      else
        (escaped? c).map fun point => (found, .quoted (point :: points))
  | (found, .codePoint points value left) =>
      (Text.hexDigit? c).map fun digit =>
        let value := 16 * value + digit
        if left ≤ 1 then
          (found, .quoted (value :: points))
        else
          (found, .codePoint points value (left - 1))

def lexemes? (text : List Char) : Option (List Lexeme) :=
  match (text.foldlM scanChar ([], .between)).bind endLiteral with
  | some (found, .between) => some found.reverse
  | _ => none

/-! ## Documents -/

/-- An unfinished list or object, its parts in reverse order.  An object may have
read the name of its next field. -/
inductive Frame where
  | list (items : List Json)
  | object (fields : List (String × Json)) (name : Option String)

/-- What the builder waits for. -/
inductive Await where
  /-- A value, or the end of the list just opened. -/
  | firstItem
  | value
  /-- A field name, or the end of the object just opened. -/
  | firstName
  | name
  | colon
  /-- A comma or the end of the innermost list or object. -/
  | more
  | done (document : Json)

/-- The unfinished lists and objects, innermost first, and what comes next. -/
abbrev Building := List Frame × Await

def place (document : Json) : List Frame → Option Building
  | [] => some ([], .done document)
  | .list items :: rest => some (.list (document :: items) :: rest, .more)
  | .object fields (some name) :: rest => some (.object ((name, document) :: fields) none :: rest, .more)
  | .object _ none :: _ => none

def beginValue (stack : List Frame) : Lexeme → Option Building
  | .openList => some (.list [] :: stack, .firstItem)
  | .openObject => some (.object [] none :: stack, .firstName)
  | .scalar document => place document stack
  | _ => none

def close : List Frame → Lexeme → Option Building
  | .list items :: rest, .closeList => place (.list items.reverse) rest
  | .object fields none :: rest, .closeObject => place (.object fields.reverse) rest
  | _, _ => none

def beginField : List Frame → Lexeme → Option Building
  | .object fields none :: rest, .scalar (.text name) => some (.object fields (some name) :: rest, .colon)
  | _, _ => none

def build (building : Building) (lexeme : Lexeme) : Option Building :=
  match building with
  | (stack, .value) => beginValue stack lexeme
  | (stack, .firstItem) =>
      match lexeme with
      | .closeList => close stack lexeme
      | other => beginValue stack other
  | (stack, .firstName) =>
      match lexeme with
      | .closeObject => close stack lexeme
      | other => beginField stack other
  | (stack, .name) => beginField stack lexeme
  | (stack, .colon) =>
      match lexeme with
      | .colon => some (stack, .value)
      | _ => none
  | (stack, .more) =>
      match lexeme, stack with
      | .comma, .list _ :: _ => some (stack, .value)
      | .comma, .object _ _ :: _ => some (stack, .name)
      | other, _ => close stack other
  | (_, .done _) => none

def parse? (text : String) : Option Json :=
  match lexemes? text.toList with
  | none => none
  | some found =>
      match found.foldlM build ([], .value) with
      | some ([], .done document) => some document
      | _ => none

end SlashCommand.Json
