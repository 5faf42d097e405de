import SlashCommand.Text.Letter
import SlashCommand.Text.Split

/-!
# Number literals

Reading whole numbers of 64 bits and floating-point numbers from text.  Both
readers take the entire text, allow one sign in front, and know no digit
separators and no surrounding blanks.
-/

namespace SlashCommand.Decimal

/-! ## Digits and signs -/

/-- The number a non-empty run of ASCII digits denotes. -/
def natural? (text : List Char) : Option Nat :=
  if text.isEmpty || !text.all Char.isDigit then
    none
  else
    some (text.foldl (fun number digit => 10 * number + (digit.toNat - 48)) 0)

/-- The sign in front of a literal, true for minus, and what follows it. -/
def takeSign : List Char → Bool × List Char
  | '-' :: rest => (true, rest)
  | '+' :: rest => (false, rest)
  | rest => (false, rest)

def integer? (text : List Char) : Option Int :=
  let (negative, digits) := takeSign text
  (natural? digits).map fun number => if negative then -(number : Int) else number

def fitsWord (number : Int) : Bool :=
  -Int.pow 2 63 ≤ number && number < Int.pow 2 63

def word? (text : List Char) : Option Int64 :=
  match integer? text with
  | none => none
  | some number => if fitsWord number then some (Int64.ofInt number) else none

/-! ## Floating-point literals -/

/-- The floating-point number nearest to `digits * 10 ^ exponent`.  Exponents far
outside the range of the format give infinity or zero at once. -/
def nearest (digits : Nat) (exponent : Int) : Float :=
  let size : Int := (Nat.toDigits 10 digits).length
  if digits = 0 then
    0
  else if 400 < size + exponent then
    1 / 0
  else if size + exponent < -400 then
    0
  else
    Float.ofScientific digits (decide (exponent < 0)) exponent.natAbs

/-- The exponent written behind the digits of a literal: none, or the letter `e`
in either case and a whole number. -/
def exponent? : List Char → Option Int
  | [] => some 0
  | 'e' :: rest => integer? rest
  | 'E' :: rest => integer? rest
  | _ :: _ => none

/-- The floating-point number an unsigned literal denotes: digits with a point
anywhere among them, at least one digit, and an exponent if any. -/
def magnitude? (text : List Char) : Option Float :=
  let whole := text.takeWhile Char.isDigit
  let afterWhole := text.dropWhile Char.isDigit
  let (fraction, afterFraction) :=
    match afterWhole with
    | '.' :: rest => (rest.takeWhile Char.isDigit, rest.dropWhile Char.isDigit)
    | rest => ([], rest)
  match natural? (whole ++ fraction), exponent? afterFraction with
  | some digits, some exponent => some (nearest digits (exponent - fraction.length))
  | _, _ => none

def namedMagnitude? (text : List Char) : Option Float :=
  let name := text.map Char.toLower
  if name = "inf".toList ∨ name = "infinity".toList then
    some (1 / 0)
  else if name = "nan".toList then
    some (0 / 0)
  else
    none

def float? (text : List Char) : Option Float :=
  let (negative, unsigned) := takeSign text
  let magnitude := (namedMagnitude? unsigned).orElse fun _ => magnitude? unsigned
  magnitude.map fun value => if negative then -value else value

end SlashCommand.Decimal
