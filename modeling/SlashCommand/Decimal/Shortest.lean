/-!
# Shortest decimals

A finite positive binary number is written with the fewest decimal digits that
still read back as the same number.  The number is `significand * 2 ^ exponent`;
the reals that round to it form an interval, and the search tries coarser
decimal grids before finer ones until one of its points falls into the interval.
All comparisons are made on exact integers.
-/

namespace SlashCommand

/-- The decimal number `digits * 10 ^ exponent`. -/
structure Decimal where
  digits : Nat
  exponent : Int
deriving DecidableEq

namespace Decimal

/-- A positive binary number as its significand, its exponent of two, and whether
the gap to the next smaller number is half the gap to the next larger one. -/
structure Binary where
  significand : Nat
  exponent : Int
  halfGapBelow : Bool
deriving DecidableEq

/-- The magnitude of a finite floating-point number that is not zero. -/
def Binary.ofFloat (value : Float) : Binary :=
  let bits : Nat := value.toBits.toNat
  let fraction : Nat := bits % Nat.pow 2 52
  let biased : Nat := bits / Nat.pow 2 52 % Nat.pow 2 11
  if biased = 0 then
    ⟨fraction, -1074, false⟩
  else
    ⟨Nat.pow 2 52 + fraction, (biased : Int) - 1075, fraction == 0 && 1 < biased⟩

/-! ## Decimals -/

/-- What to do when two shortest decimals are equally close. -/
inductive Tie where
  | toEven
  | upward
deriving DecidableEq

/-- A decimal without trailing zero digits, found by dropping at most `steps`
of them. -/
def stripZeros (digits : Nat) (exponent : Int) : Nat → Decimal
  | 0 => ⟨digits, exponent⟩
  | steps + 1 =>
      if digits % 10 = 0 then
        stripZeros (digits / 10) (exponent + 1) steps
      else
        ⟨digits, exponent⟩

/-- The rounding interval of a binary number on a scale on which its ends, its
middle and the unit of a decimal grid are whole numbers. -/
structure Interval where
  low : Nat
  middle : Nat
  high : Nat
  unit : Nat
  closed : Bool

/-- The interval of the reals that round to a binary number, beside the grid of
the multiples of `10 ^ place`.  The ends belong to it when the significand is
even. -/
def Binary.interval (value : Binary) (place : Int) : Interval :=
  let up := Nat.pow 2 (value.exponent - 2).toNat * Nat.pow 10 (-place).toNat
  let unit := Nat.pow 2 (2 - value.exponent).toNat * Nat.pow 10 place.toNat
  { low := (4 * value.significand - if value.halfGapBelow then 1 else 2) * up
    middle := 4 * value.significand * up
    high := (4 * value.significand + 2) * up
    unit := unit
    closed := value.significand % 2 == 0 }

def Interval.holds (range : Interval) (multiple : Nat) : Bool :=
  let point := multiple * range.unit
  if range.closed then
    range.low ≤ point && point ≤ range.high
  else
    range.low < point && point < range.high

/-- The multiple of the unit in the interval that is closest to its middle. -/
def Interval.closest? (range : Interval) (tie : Tie) : Option Nat :=
  let below := range.middle / range.unit
  match range.holds below, range.holds (below + 1) with
  | false, false => none
  | true, false => some below
  | false, true => some (below + 1)
  | true, true =>
      match compare (2 * range.middle) ((2 * below + 1) * range.unit) with
      | .lt => some below
      | .gt => some (below + 1)
      | .eq =>
          match tie with
          | .upward => some (below + 1)
          | .toEven => some (if below % 2 = 0 then below else below + 1)

def Binary.leadingPlace (value : Binary) : Int :=
  let numerator := value.significand * Nat.pow 2 value.exponent.toNat
  let denominator := Nat.pow 2 (-value.exponent).toNat
  if denominator ≤ numerator then
    ((Nat.toDigits 10 (numerator / denominator)).length : Int) - 1
  else
    -((Nat.toDigits 10 ((denominator - 1) / numerator)).length : Int)

/-- The closest of the decimals with the fewest digits that round to the number.
Seventeen digits always suffice. -/
def Binary.shortest (tie : Tie) (value : Binary) : Decimal :=
  let attempt (step : Nat) : Option Decimal :=
    let place := value.leadingPlace - step
    ((value.interval place).closest? tie).map fun digits =>
      stripZeros digits place 17
  ((List.range 18).findSome? attempt).getD ⟨0, 0⟩

end Decimal

end SlashCommand
