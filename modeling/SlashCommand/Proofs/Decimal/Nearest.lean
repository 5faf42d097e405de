import Mathlib.Algebra.Order.Field.Power
import Mathlib.Tactic.Linarith
import Mathlib.Tactic.NormNum
import Mathlib.Tactic.Positivity
import Mathlib.Tactic.Ring

/-!
# The nearest floating-point number

The word of a positive floating-point number has eleven bits of exponent and 52 bits of fraction
behind a zero sign.  The words follow each other as their numbers do, and the word of infinity
stands where the next number would be.  A rational number is rounded to the word whose number is
nearest, and to the even one of two words that are equally near.
-/

namespace SlashCommand.Decimal

/-- The number the word of a positive floating-point number stands for.  Under the lowest
exponent the fraction counts alone, and with any other one a leading bit stands before it. -/
def worth (word : Nat) : ℚ :=
  if word < 2 ^ 52 then
    word * 2 ^ (-1074 : Int)
  else
    (2 ^ 52 + word % 2 ^ 52 : Nat) * 2 ^ ((word / 2 ^ 52 : Nat) - 1075 : Int)

/-- The word of infinity, which stands for `2 ^ 1024` when numbers are rounded. -/
def infinityWord : Nat :=
  2047 * 2 ^ 52

/-- Among all words up to that of infinity no other is nearer, and one that is as near leaves the
choice to the even word. -/
structure NearestWord (number : ℚ) (word : Nat) : Prop where
  bound : word ≤ infinityWord
  nearest : ∀ other ≤ infinityWord, |worth word - number| ≤ |worth other - number|
  even : ∀ other ≤ infinityWord, other ≠ word →
    |worth other - number| = |worth word - number| → word % 2 = 0

/-- The floating-point number of the nearest word, which is positive, zero or infinity. -/
def Rounds (number : ℚ) (value : Float) : Prop :=
  NearestWord number value.toBits.toNat

/-! ## The order of words -/

/-- A significand under an exponent.  It may reach `2 ^ 53`, where the next exponent begins. -/
theorem worth_eq {scale significand : Nat} (hlow : scale = 0 ∨ 2 ^ 52 ≤ significand)
    (hhigh : significand ≤ 2 ^ 53) :
    worth (scale * 2 ^ 52 + significand) = significand * 2 ^ (scale - 1074 : Int) := by
  unfold worth
  split
  next hsmall =>
      obtain rfl : scale = 0 := by omega
      norm_num
  next hlarge =>
      rcases hhigh.eq_or_lt with rfl | hlt
      · rw [show (scale * 2 ^ 52 + 2 ^ 53) / 2 ^ 52 = scale + 2 by omega,
          show (scale * 2 ^ 52 + 2 ^ 53) % 2 ^ 52 = 0 by omega]
        push_cast
        rw [show (scale + 2 - 1075 : Int) = scale - 1074 + 1 by ring, zpow_add_one₀ two_ne_zero]
        ring
      · rw [show (scale * 2 ^ 52 + significand) / 2 ^ 52 = scale + 1 by omega,
          show 2 ^ 52 + (scale * 2 ^ 52 + significand) % 2 ^ 52 = significand by omega]
        push_cast
        rw [show (scale + 1 - 1075 : Int) = scale - 1074 by ring]

theorem worth_succ {scale significand : Nat} (hlow : scale = 0 ∨ 2 ^ 52 ≤ significand)
    (hhigh : significand < 2 ^ 53) :
    worth (scale * 2 ^ 52 + significand + 1) = (significand + 1) * 2 ^ (scale - 1074 : Int) := by
  rw [Nat.add_assoc, worth_eq (hlow.imp_right Nat.le_succ_of_le) hhigh, Nat.cast_succ]

/-- Every word is a significand of at most 53 bits under an exponent. -/
theorem exists_significand (word : Nat) :
    ∃ scale significand, word = scale * 2 ^ 52 + significand ∧
      (scale = 0 ∨ 2 ^ 52 ≤ significand) ∧ significand < 2 ^ 53 := by
  rcases lt_or_ge word (2 ^ 52) with hsmall | hlarge
  · exact ⟨0, word, by omega, .inl rfl, by omega⟩
  · exact ⟨word / 2 ^ 52 - 1, 2 ^ 52 + word % 2 ^ 52, by omega, .inr (by omega), by omega⟩

theorem worth_strictMono : StrictMono worth := by
  apply strictMono_nat_of_lt_succ
  intro word
  obtain ⟨scale, significand, rfl, hlow, hhigh⟩ := exists_significand word
  rw [worth_eq hlow hhigh.le, worth_succ hlow hhigh]
  have hpositive : (0 : ℚ) < 2 ^ (scale - 1074 : Int) := by positivity
  linarith

theorem NearestWord.unique {number : ℚ} {first second : Nat} (hfirst : NearestWord number first)
    (hsecond : NearestWord number second) : first = second := by
  wlog hlt : first < second generalizing first second
  · by_contra hne
    exact hne (this hsecond hfirst (by omega)).symm
  have hdistance := le_antisymm (hfirst.nearest second hsecond.bound)
    (hsecond.nearest first hfirst.bound)
  have hfirsteven := hfirst.even second hsecond.bound hlt.ne' hdistance.symm
  have hsecondeven := hsecond.even first hfirst.bound hlt.ne hdistance
  -- Two even words have one between them, and it is nearer than both.
  have hbound := hsecond.bound
  have hbelow := worth_strictMono (show first < first + 1 by omega)
  have habove := worth_strictMono (show first + 1 < second by omega)
  have hnearest := hfirst.nearest (first + 1) (by omega)
  grind

theorem Rounds.unique {number : ℚ} {first second : Float} (hfirst : Rounds number first)
    (hsecond : Rounds number second) : first = second := by
  have hbits := UInt64.toNat_inj.mp (NearestWord.unique hfirst hsecond)
  rcases first with ⟨⟨_, _⟩⟩
  rcases second with ⟨⟨_, _⟩⟩
  cases hbits
  rfl

/-! ## The choice between neighbours -/

/-- The nearer one of a word and the next, and the even one where both are equally near. -/
inductive Chosen (number : ℚ) (lower : Nat) : Nat → Prop where
  | lower (h : number - worth lower < worth (lower + 1) - number) : Chosen number lower lower
  | upper (h : worth (lower + 1) - number < number - worth lower) :
      Chosen number lower (lower + 1)
  | even (h : number - worth lower = worth (lower + 1) - number) :
      Chosen number lower (lower + lower % 2)

/-- Every word is at least as far from a number as the neighbour on its side. -/
theorem neighbour_nearer {number : ℚ} {lower : Nat} (hlow : worth lower ≤ number)
    (hhigh : number ≤ worth (lower + 1)) (other : Nat) :
    (other ≤ lower ∧ |worth other - number| = number - worth other ∧ worth other ≤ worth lower) ∨
      (lower < other ∧ |worth other - number| = worth other - number ∧
        worth (lower + 1) ≤ worth other) := by
  rcases le_or_gt other lower with hle | hlt
  · have hworth := worth_strictMono.monotone hle
    exact .inl ⟨hle, by rw [abs_of_nonpos (by linarith)]; ring, hworth⟩
  · have hworth := worth_strictMono.monotone (Nat.succ_le_of_lt hlt)
    exact .inr ⟨hlt, abs_of_nonneg (by linarith), hworth⟩

theorem Chosen.nearestWord {number : ℚ} {lower word : Nat} (h : Chosen number lower word)
    (hlow : worth lower ≤ number) (hhigh : number ≤ worth (lower + 1))
    (hfinite : lower < infinityWord) : NearestWord number word := by
  have hside := neighbour_nearer hlow hhigh
  have hinjective := @worth_strictMono.injective
  cases h with
  | lower h => exact ⟨by omega, by grind, by grind⟩
  | upper h => exact ⟨by omega, by grind, by grind⟩
  | even h =>
      rcases Nat.mod_two_eq_zero_or_one lower with heven | hodd
      · rw [heven]
        exact ⟨by omega, by grind, fun _ _ _ _ => heven⟩
      · rw [hodd]
        exact ⟨by omega, by grind, fun _ _ _ _ => by omega⟩

/-- A number that reaches infinity is rounded to it. -/
theorem nearestWord_infinity {number : ℚ} (h : worth infinityWord ≤ number) :
    NearestWord number infinityWord := by
  have hdistance : ∀ word ≤ infinityWord, |worth word - number| = number - worth word := by
    intro word hword
    have hworth := worth_strictMono.monotone hword
    rw [abs_of_nonpos (by linarith)]
    ring
  refine ⟨le_rfl, fun other hother => ?_, fun _ _ _ _ => rfl⟩
  rw [hdistance _ le_rfl, hdistance _ hother]
  have hworth := worth_strictMono.monotone hother
  linarith

/-- A number that a word stands for is rounded to it. -/
theorem nearestWord_worth {word : Nat} (h : word ≤ infinityWord) :
    NearestWord (worth word) word := by
  refine ⟨h, fun other _ => ?_, fun other _ hne hdistance => ?_⟩
  · rw [sub_self, abs_zero]
    exact abs_nonneg _
  · rw [sub_self, abs_zero, abs_eq_zero, sub_eq_zero] at hdistance
    exact absurd (worth_strictMono.injective hdistance) hne

end SlashCommand.Decimal
