/-!
# Digits

Digits to the bases up to sixteen, the numbers they write, and the characters with
those numbers.
-/

namespace SlashCommand.Text

/-- The value of a hexadecimal digit, whose letters may be of either case. -/
def hexDigit? (c : Char) : Option Nat :=
  if c.isDigit then
    some (c.toNat - 48)
  else if 'a' ≤ c ∧ c ≤ 'f' then
    some (c.toNat - 87)
  else if 'A' ≤ c ∧ c ≤ 'F' then
    some (c.toNat - 55)
  else
    none

def digit? (base : Nat) (c : Char) : Option Nat :=
  (hexDigit? c).filter fun value => value < base

/-- The number that digits write to a base, the most significant one first. -/
def numberOf (base : Nat) (values : List Nat) : Nat :=
  values.foldl (fun number value => base * number + value) 0

def number? (base : Nat) (text : List Char) : Option Nat :=
  if text.isEmpty then none else (text.mapM (digit? base)).map (numberOf base)

/-- The character with a number, unless there is none. -/
def charOf? (point : Nat) : Option Char :=
  if point.isValidChar then some (Char.ofNat point) else none

end SlashCommand.Text
