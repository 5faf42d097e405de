import SlashCommand.Decimal.Literal
import SlashCommand.Text.Digit
import SlashCommand.Text.Split

/-!
# The values of scalars

A plain scalar stands for null, a truth value or a number if it looks like one.
Any other scalar is a text, unless its tag states another type.
-/

namespace SlashCommand.Yaml

inductive Scalar where
  | null
  | bool (value : Bool)
  /-- A number, of which the magnitude does not matter. -/
  | number
  | text (value : String)
deriving DecidableEq

namespace Scalar

def nullWords : List String :=
  ["~", "null", "Null", "NULL"]

def truthWords : List (String × Bool) :=
  [("true", true), ("True", true), ("TRUE", true),
    ("false", false), ("False", false), ("FALSE", false)]

/-- The words for the numbers that no digits write. -/
def numberWords : List String :=
  [".inf", ".Inf", ".INF", "+.inf", "+.Inf", "+.INF", "-.inf", "-.Inf", "-.INF",
    ".nan", ".NaN", ".NAN"]

/-! ## Numbers -/

/-- Digits behind a superfluous zero, which do not make a number. -/
def isZeroPadded (text : List Char) : Bool :=
  let digits := (Decimal.takeSign text).2
  digits.head? == some '0' && 1 < digits.length && digits.all Char.isDigit

/-- The number that digits write without a sign, to the base that they state. -/
def magnitude? : List Char → Option Nat
  | '0' :: 'x' :: digits => Text.number? 16 digits
  | '0' :: 'o' :: digits => Text.number? 8 digits
  | '0' :: 'b' :: digits => Text.number? 2 digits
  | digits => Text.number? 10 digits

/-- A whole number of 128 bits, unsigned unless it is negative. -/
def isInteger (text : List Char) : Bool :=
  let (negative, digits) := Decimal.takeSign text
  let limit := if negative then Nat.pow 2 127 + 1 else Nat.pow 2 128
  !isZeroPadded text && (magnitude? digits).any fun magnitude => magnitude < limit

/-- A finite decimal number, or a word for one that is not. -/
def isDecimal (text : List Char) : Bool :=
  numberWords.contains (String.ofList text) || (Decimal.float? text).any Float.isFinite

/-! ## Values -/

def ofPlain (text : String) : Scalar :=
  if text.isEmpty || nullWords.contains text then
    .null
  else
    match truthWords.lookup text with
    | some truth => .bool truth
    | none =>
        if isInteger text.toList || (!isZeroPadded text.toList && isDecimal text.toList) then
          .number
        else
          .text text

def coreType? (tag : String) : Option String :=
  (Text.afterStart? "tag:yaml.org,2002:".toList tag.toList).map String.ofList

/-- The value of a scalar with a tag of a schema.  It must have the type that the tag
states; a tag unknown leaves a text. -/
def ofTagged? (tag text : String) : Option Scalar :=
  match coreType? tag with
  | some "null" => if nullWords.contains text then some .null else none
  | some "bool" => (truthWords.lookup text).map .bool
  | some "int" => if isInteger text.toList then some .number else none
  | some "float" => if isDecimal text.toList then some .number else none
  | _ => some (.text text)

def value? (tag : Option String) (plain : Bool) (text : String) : Option Scalar :=
  match tag with
  | some tag => ofTagged? tag text
  | none => some (if plain then ofPlain text else .text text)

end Scalar

end SlashCommand.Yaml
