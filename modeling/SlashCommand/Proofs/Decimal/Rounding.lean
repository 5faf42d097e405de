import SlashCommand.Proofs.Decimal.Nearest

/-!
# Rounding to 53 bits

Multiplication and division of floating-point numbers hand over the leading bits of the exact
result and where it lies above them.  Cutting the bits down to those of a significand keeps that
account, so that the last step can choose between two neighbouring words.
-/

namespace SlashCommand.Decimal

open Float.Model Float.Model.UnpackedFloat

/-- A number lies above its leading bits as an accuracy says. -/
def Located (mantissa : Nat) : Accuracy → ℚ → Prop
  | .exact, number => number = mantissa
  | .inexact .lt, number => mantissa < number ∧ number < mantissa + 1 / 2
  | .inexact .eq, number => number = mantissa + 1 / 2
  | .inexact .gt, number => mantissa + 1 / 2 < number ∧ number < mantissa + 1

theorem Located.le {mantissa : Nat} {accuracy : Accuracy} {number : ℚ}
    (h : Located mantissa accuracy number) : mantissa ≤ number := by
  rcases accuracy with _ | ⟨_ | _ | _⟩ <;> simp only [Located] at h <;> linarith

theorem Located.lt {mantissa : Nat} {accuracy : Accuracy} {number : ℚ}
    (h : Located mantissa accuracy number) : number < mantissa + 1 := by
  rcases accuracy with _ | ⟨_ | _ | _⟩ <;> simp only [Located] at h <;> linarith

theorem Located.shiftRightOne {bits : ExtendedMantissa} {number : ℚ}
    (h : Located bits.mantissa bits.accuracy number) :
    Located bits.shiftRightOne.mantissa bits.shiftRightOne.accuracy (number / 2) := by
  rcases bits with ⟨mantissa, roundBit, stickyBit⟩
  obtain ⟨half, rfl | rfl⟩ := mantissa.even_or_odd'
  · have hhalf : 2 * half / 2 = half := by omega
    have hbit : (2 * half % 2 != 0) = false := by simp
    cases roundBit <;> cases stickyBit <;>
      simp only [ExtendedMantissa.shiftRightOne, ExtendedMantissa.accuracy, Located, hhalf, hbit,
        Bool.or_true, Bool.or_false] at h ⊢ <;>
      push_cast at h <;> first | constructor <;> linarith | linarith
  · have hhalf : (2 * half + 1) / 2 = half := by omega
    have hbit : ((2 * half + 1) % 2 != 0) = true := by simp
    cases roundBit <;> cases stickyBit <;>
      simp only [ExtendedMantissa.shiftRightOne, ExtendedMantissa.accuracy, Located, hhalf, hbit,
        Bool.or_true, Bool.or_false] at h ⊢ <;>
      push_cast at h <;> first | constructor <;> linarith | linarith

theorem Located.shiftRight {bits : ExtendedMantissa} {number : ℚ}
    (h : Located bits.mantissa bits.accuracy number) (count : Nat) :
    Located (bits >>> count).mantissa (bits >>> count).accuracy (number / 2 ^ count) := by
  induction count with
  | zero =>
      rw [pow_zero, div_one]
      exact h
  | succ count ih =>
      have hone := ih.shiftRightOne
      rw [div_div, ← pow_succ] at hone
      exact hone

theorem Located.ofMantissaAndAccuracy {mantissa : Nat} {accuracy : Accuracy} {number : ℚ}
    (h : Located mantissa accuracy number) :
    Located (ExtendedMantissa.ofMantissaAndAccuracy mantissa accuracy).mantissa
      (ExtendedMantissa.ofMantissaAndAccuracy mantissa accuracy).accuracy number := by
  rcases accuracy with _ | ⟨_ | _ | _⟩ <;> exact h

theorem roundToNearestEven_bounds (mantissa : Nat) (accuracy : Accuracy) :
    mantissa ≤ accuracy.roundToNearestEven mantissa ∧
      accuracy.roundToNearestEven mantissa ≤ mantissa + 1 := by
  rcases accuracy with _ | ⟨_ | _ | _⟩ <;> simp only [Accuracy.roundToNearestEven] <;> omega

/-- Rounding a significand chooses between its word and the next one. -/
theorem Located.chosen {scale significand : Nat} {accuracy : Accuracy} {number : ℚ}
    (h : Located significand accuracy number) (hlow : scale = 0 ∨ 2 ^ 52 ≤ significand)
    (hhigh : significand < 2 ^ 53) :
    Chosen (number * 2 ^ (scale - 1074 : Int)) (scale * 2 ^ 52 + significand)
      (scale * 2 ^ 52 + accuracy.roundToNearestEven significand) := by
  have hlower := worth_eq hlow hhigh.le
  have hupper := worth_succ hlow hhigh
  have hpositive : (0 : ℚ) < 2 ^ (scale - 1074 : Int) := by positivity
  rcases accuracy with _ | ⟨_ | _ | _⟩ <;> simp only [Located] at h <;>
    simp only [Accuracy.roundToNearestEven]
  · refine .lower ?_
    rw [hlower, hupper, h]
    linarith
  · refine .lower ?_
    rw [hlower, hupper]
    nlinarith [h.2]
  · have hparity : (scale * 2 ^ 52 + significand) % 2 = significand % 2 := by omega
    rw [← hparity, ← Nat.add_assoc]
    refine .even ?_
    rw [hlower, hupper, h]
    ring
  · rw [← Nat.add_assoc]
    refine .upper ?_
    rw [hlower, hupper]
    nlinarith [h.1]

/-! ## Words of floating-point numbers -/

theorem toNat_packComponents (exponent : BitVec 11) (mantissa : BitVec 52) :
    (packComponents Format.binary64 .positive exponent mantissa).toNat =
      exponent.toNat * 2 ^ 52 + mantissa.toNat := by
  unfold packComponents
  rw [BitVec.toNat_append, ← Nat.shiftLeft_add_eq_or_of_lt mantissa.isLt, Nat.shiftLeft_eq,
    BitVec.toNat_append, ← Nat.shiftLeft_add_eq_or_of_lt exponent.isLt]
  simp [Sign.toBitVec]

theorem log2_eq_iff_normal {significand : Nat} (hhigh : significand < 2 ^ 53)
    (hpositive : 0 < significand) :
    significand.log2 + 1 = Format.binary64.mantissaBits ↔ 2 ^ 52 ≤ significand := by
  have hbits : Format.binary64.mantissaBits = 53 := rfl
  have hlow := Nat.le_log2 (k := 52) hpositive.ne'
  have hlog := (Nat.log2_lt hpositive.ne').mpr hhigh
  omega

/-- The word of a significand under an exponent, which is that of infinity when the exponent is
too large. -/
theorem toNat_pack_finite {scale significand : Nat} (hlow : scale = 0 ∨ 2 ^ 52 ≤ significand)
    (hhigh : significand < 2 ^ 53) (hpositive : 0 < significand) :
    (UnpackedFloat.pack Format.binary64
        (.finite .positive significand (scale - 1074 : Int) hpositive)).toNat =
      min (scale * 2 ^ 52 + significand) infinityWord := by
  have hbiased : ((scale - 1074 : Int) + Format.binary64.exponentBias +
      Format.binary64.mantissaBitsWithoutImplicit).toNat = scale + 1 := by
    simp only [Format.exponentBias]
    norm_num
    omega
  unfold UnpackedFloat.pack infinityWord
  simp only [hbiased, log2_eq_iff_normal hhigh hpositive]
  split
  next hlarge =>
    have hword : (packedInfinity Format.binary64 .positive).toNat = 2047 * 2 ^ 52 := rfl
    rw [hword]
    omega
  next hsmall =>
    split
    next hnormal =>
      rw [toNat_packComponents, BitVec.toNat_ofNat, BitVec.toNat_ofNat]
      omega
    next hsubnormal =>
      rw [toNat_packComponents, BitVec.toNat_ofNat, BitVec.toNat_ofNat]
      omega

/-! ## Rounding -/

theorem targetExponent_eq (exponent : Int) :
    Format.binary64.targetExponent exponent = max (exponent - 53) (-1074) :=
  rfl

theorem shiftToTargetExponent_of_lt {scale rounded : Nat} (h : rounded < 2 ^ 53) :
    shiftToTargetExponent Format.binary64 rounded (scale - 1074 : Int) .exact =
      (⟨rounded, false, false⟩, (scale - 1074 : Int)) := by
  have hlog : rounded.log2 ≤ 52 := by
    rcases Nat.eq_zero_or_pos rounded with rfl | hpositive
    · simp
    · exact Nat.le_of_lt_succ ((Nat.log2_lt hpositive.ne').mpr h)
  have hcount : (max ((rounded.log2 + 1 : Nat) + (scale - 1074 : Int) - 53) (-1074) -
      (scale - 1074)).toNat = 0 := by omega
  simp only [shiftToTargetExponent, shiftToExponent, targetExponent_eq, totalExponent]
  push_cast at hcount
  rw [hcount]
  simp [ExtendedMantissa.ofMantissaAndAccuracy]
  rfl

/-- Rounding may fill the bits up to the next power of two. -/
theorem shiftToTargetExponent_carry (scale : Nat) :
    shiftToTargetExponent Format.binary64 (2 ^ 53) (scale - 1074 : Int) .exact =
      (⟨2 ^ 52, false, false⟩, ((scale + 1 : Nat) - 1074 : Int)) := by
  have hlog : (2 ^ 53 : Nat).log2 = 53 := Nat.log2_two_pow
  have hcount : (max ((53 : Nat) + 1 + (scale - 1074 : Int) - 53) (-1074) -
      (scale - 1074)).toNat = 1 := by omega
  simp only [shiftToTargetExponent, shiftToExponent, targetExponent_eq, totalExponent, hlog]
  rw [hcount]
  refine Prod.ext rfl ?_
  simp
  omega

/-- The word of a rounded significand. -/
theorem toNat_pack_rounded {scale rounded : Nat} (hlow : scale = 0 ∨ 2 ^ 52 ≤ rounded)
    (hhigh : rounded ≤ 2 ^ 53) {bits : ExtendedMantissa} {exponent : Int}
    (hshifted : shiftToTargetExponent Format.binary64 rounded (scale - 1074 : Int) .exact =
      (bits, exponent)) :
    (UnpackedFloat.pack Format.binary64 (if h : bits.mantissa = 0 then .zero .positive
        else .finite .positive bits.mantissa exponent (Nat.pos_of_ne_zero h))).toNat =
      min (scale * 2 ^ 52 + rounded) infinityWord := by
  rcases hhigh.eq_or_lt with rfl | hlt
  · rw [shiftToTargetExponent_carry] at hshifted
    obtain ⟨rfl, rfl⟩ := Prod.mk.inj hshifted
    dsimp only
    rw [dif_neg (by norm_num), toNat_pack_finite (.inr le_rfl) (by norm_num)]
    omega
  · rw [shiftToTargetExponent_of_lt hlt] at hshifted
    obtain ⟨rfl, rfl⟩ := Prod.mk.inj hshifted
    by_cases hzero : rounded = 0
    · obtain ⟨rfl, rfl⟩ : scale = 0 ∧ rounded = 0 := by omega
      rfl
    · rw [dif_neg hzero]
      exact toNat_pack_finite hlow hlt (Nat.pos_of_ne_zero hzero)

theorem Located.cut_lt {mantissa cut count : Nat} {accuracy : Accuracy} {number : ℚ}
    (h : Located mantissa accuracy number) (hcut : cut * 2 ^ count ≤ number)
    (hcount : mantissa.log2 < 53 + count) : cut < 2 ^ 53 := by
  have hroom : mantissa + 1 ≤ 2 ^ (53 + count) :=
    (Nat.lt_log2_self (n := mantissa)).trans_le (Nat.pow_le_pow_right two_pos hcount)
  have hwide : (mantissa + 1 : ℚ) ≤ 2 ^ 53 * 2 ^ count := by
    rw [← pow_add]
    exact_mod_cast hroom
  have hnumber := h.lt
  have hscaled : (cut : ℚ) * 2 ^ count < 2 ^ 53 * 2 ^ count := by linarith
  exact_mod_cast lt_of_mul_lt_mul_right hscaled (by positivity)

theorem Located.le_cut {mantissa cut count : Nat} {accuracy : Accuracy} {number : ℚ}
    (h : Located mantissa accuracy number) (hcut : number < (cut + 1) * 2 ^ count)
    (hmantissa : mantissa ≠ 0) (hcount : mantissa.log2 = 52 + count) : 2 ^ 52 ≤ cut := by
  have hleading : (2 : ℚ) ^ 52 * 2 ^ count ≤ mantissa := by
    rw [← pow_add]
    exact_mod_cast hcount ▸ Nat.log2_self_le hmantissa
  have hnumber := h.le
  have hscaled : (2 : ℚ) ^ 52 * 2 ^ count < (cut + 1) * 2 ^ count := by linarith
  have hless : (2 : ℚ) ^ 52 < cut + 1 := lt_of_mul_lt_mul_right hscaled (by positivity)
  exact Nat.le_of_lt_succ (by exact_mod_cast hless)

/-- Cutting the leading bits of a number leaves a significand of at most 53 bits. -/
theorem Located.significand {mantissa : Nat} {accuracy : Accuracy} {number : ℚ}
    (h : Located mantissa accuracy number) (exponent : Int)
    (henough : 2 ^ 52 ≤ mantissa ∨ exponent ≤ -1074) :
    ∃ bits, ∃ scale : Nat,
      shiftToTargetExponent Format.binary64 mantissa exponent accuracy =
          (bits, (scale - 1074 : Int)) ∧
        Located bits.mantissa bits.accuracy (number * 2 ^ exponent / 2 ^ (scale - 1074 : Int)) ∧
        (scale = 0 ∨ 2 ^ 52 ≤ bits.mantissa) ∧ bits.mantissa < 2 ^ 53 := by
  have hlog : 2 ^ 52 ≤ mantissa → 52 ≤ mantissa.log2 := fun hnormal =>
    (Nat.le_log2 (by omega)).mpr hnormal
  obtain ⟨scale, hscale⟩ : ∃ scale : Nat,
      (scale - 1074 : Int) = max (mantissa.log2 + 1 + exponent - 53) (-1074) :=
    ⟨(max (mantissa.log2 + 1 + exponent - 53) (-1074) + 1074).toNat, by omega⟩
  obtain ⟨count, hcount⟩ : ∃ count : Nat, (scale - 1074 : Int) = exponent + count :=
    ⟨(scale - 1074 - exponent).toNat, by omega⟩
  have hlocated := h.ofMantissaAndAccuracy.shiftRight count
  have hshift : number / 2 ^ count = number * 2 ^ exponent / 2 ^ (scale - 1074 : Int) := by
    rw [hcount, zpow_add₀ two_ne_zero, zpow_natCast, mul_comm number,
      mul_div_mul_left _ _ (by positivity)]
  have hpositive : (0 : ℚ) < 2 ^ count := by positivity
  refine ⟨_, scale, ?_, hshift ▸ hlocated, ?_, ?_⟩
  · simp only [shiftToTargetExponent, shiftToExponent, targetExponent_eq, totalExponent]
    rw [← hscale, hcount, add_sub_cancel_left, Int.toNat_natCast]
  · rcases Nat.eq_zero_or_pos scale with hzero | hnormal
    · exact .inl hzero
    · have hmantissa : mantissa ≠ 0 := by
        rintro rfl
        simp at hscale
        omega
      exact .inr (h.le_cut ((div_lt_iff₀ hpositive).mp hlocated.lt) hmantissa (by omega))
  · exact h.cut_lt ((le_div_iff₀ hpositive).mp hlocated.le) (by omega)

/-- The leading bits of a number are rounded to the nearest word, if there are enough of them. -/
theorem Located.nearestWord {mantissa : Nat} {accuracy : Accuracy} {number : ℚ}
    (h : Located mantissa accuracy number) (exponent : Int)
    (henough : 2 ^ 52 ≤ mantissa ∨ exponent ≤ -1074) :
    NearestWord (number * 2 ^ exponent)
      (UnpackedFloat.pack Format.binary64
        (roundWithAccuracy Format.binary64 .positive mantissa exponent accuracy)).toNat := by
  obtain ⟨bits, scale, hshifted, hlocated, hlow, hhigh⟩ := h.significand exponent henough
  obtain ⟨hbelow, habove⟩ := roundToNearestEven_bounds bits.mantissa bits.accuracy
  have hword : (UnpackedFloat.pack Format.binary64
      (roundWithAccuracy Format.binary64 .positive mantissa exponent accuracy)).toNat =
        min (scale * 2 ^ 52 + bits.accuracy.roundToNearestEven bits.mantissa) infinityWord := by
    unfold roundWithAccuracy
    rw [hshifted]
    exact toNat_pack_rounded (hlow.imp_right hbelow.trans') (habove.trans hhigh) rfl
  have hpositive : (0 : ℚ) < 2 ^ (scale - 1074 : Int) := by positivity
  have hlower : worth (scale * 2 ^ 52 + bits.mantissa) ≤ number * 2 ^ exponent := by
    rw [worth_eq hlow hhigh.le]
    exact (le_div_iff₀ hpositive).mp hlocated.le
  have hupper : number * 2 ^ exponent ≤ worth (scale * 2 ^ 52 + bits.mantissa + 1) := by
    rw [worth_succ hlow hhigh]
    exact ((div_lt_iff₀ hpositive).mp hlocated.lt).le
  rw [hword]
  rcases lt_or_ge (scale * 2 ^ 52 + bits.mantissa) infinityWord with hfinite | hinfinite
  · have hchosen := hlocated.chosen hlow hhigh
    rw [div_mul_cancel₀ _ hpositive.ne'] at hchosen
    rw [min_eq_left (by omega)]
    exact hchosen.nearestWord hlower hupper hfinite
  · rw [min_eq_right (by omega)]
    exact nearestWord_infinity ((worth_strictMono.monotone hinfinite).trans hlower)

end SlashCommand.Decimal
