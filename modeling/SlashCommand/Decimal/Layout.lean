import SlashCommand.Decimal.Shortest

/-!
# Number texts

The text of a floating-point number is laid out from its shortest decimal.  A
layout states where positional notation ends, whether a whole number keeps a
fraction, how ties between equally short decimals go, and what stands for the
values that are no number.
-/

namespace SlashCommand.Decimal

/-- The decisions of a number format. -/
structure Layout where
  /-- The places of the leading digit that are written positionally, from the
  first one on and before the second one; every place if there is no such pair. -/
  positional : Option (Int × Int)
  /-- What follows the digits of a whole number. -/
  wholeMark : String
  tie : Tie
  notANumber : String
  infinity : String
  negativeInfinity : String

/-- The layout of numbers shown to people: positional, without a fraction for
whole numbers. -/
def Layout.plain : Layout :=
  { positional := none
    wholeMark := ""
    tie := .upward
    notANumber := "NaN"
    infinity := "inf"
    negativeInfinity := "-inf" }

/-- The layout of numbers in JSON: whole numbers keep `.0`, and below `1e-5` or
from `1e16` on an exponent with its sign is written. -/
def Layout.json : Layout :=
  { positional := some (-5, 16)
    wholeMark := ".0"
    tie := .toEven
    notANumber := "null"
    infinity := "null"
    negativeInfinity := "null" }

def digitsOf (number : Nat) : List Char :=
  Nat.toDigits 10 number

def positional (wholeMark : String) (decimal : Decimal) : List Char :=
  let digits := digitsOf decimal.digits
  if 0 ≤ decimal.exponent then
    digits ++ List.replicate decimal.exponent.toNat '0' ++ wholeMark.toList
  else
    let places := (-decimal.exponent).toNat
    let padded := List.replicate (places + 1 - digits.length) '0' ++ digits
    let whole := padded.length - places
    padded.take whole ++ '.' :: padded.drop whole

/-- A decimal as one digit before the point, the others behind it, and a signed
exponent. -/
def scientific (decimal : Decimal) : List Char :=
  let digits := digitsOf decimal.digits
  let place := decimal.exponent + digits.length - 1
  let fraction :=
    match digits.drop 1 with
    | [] => []
    | rest => '.' :: rest
  digits.take 1 ++ fraction ++ 'e' :: (if place < 0 then '-' else '+') ::
    digitsOf place.natAbs

def Layout.write (layout : Layout) (decimal : Decimal) : List Char :=
  match layout.positional with
  | none => decimal.positional layout.wholeMark
  | some (first, last) =>
      let place := decimal.exponent + (digitsOf decimal.digits).length - 1
      if first ≤ place ∧ place < last then
        decimal.positional layout.wholeMark
      else
        decimal.scientific

/-- The text of a floating-point number in a layout.  Zero keeps its sign. -/
def Layout.text (layout : Layout) (value : Float) : String :=
  let negative := Nat.pow 2 63 ≤ value.toBits.toNat
  if value.isNaN then
    layout.notANumber
  else if value.isInf then
    if negative then layout.negativeInfinity else layout.infinity
  else
    let magnitude :=
      if value == 0 then
        '0' :: layout.wholeMark.toList
      else
        layout.write ((Binary.ofFloat value).shortest layout.tie)
    String.ofList (if negative then '-' :: magnitude else magnitude)

end SlashCommand.Decimal
