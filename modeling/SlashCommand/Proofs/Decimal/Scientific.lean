import SlashCommand.Decimal.Literal
import SlashCommand.Proofs.Decimal.Rounding

/-!
# Rounding decimal numbers

A decimal number is rounded to the nearest floating-point number in one step.  Few digits are
multiplied or divided by a power of ten that has a word of its own, and many digits go through
exact arithmetic on their leading bits.
-/

namespace SlashCommand.Decimal

open Float.Model Float.Model.UnpackedFloat

/-- Leading bits are exposed under a smaller exponent. -/
theorem shiftLeft_mul_zpow (number count : Nat) (exponent : Int) :
    ((number <<< count : Nat) : ℚ) * 2 ^ (exponent - count) = number * 2 ^ exponent := by
  rw [Nat.shiftLeft_eq, zpow_sub₀ two_ne_zero, zpow_natCast]
  push_cast
  rw [mul_assoc, mul_div_cancel₀ _ (by positivity)]

theorem nearestWord_mul {first second : Nat} (hfirst : 0 < first) (hsecond : 0 < second)
    (exponent exponent' : Int) (henough : 2 ^ 52 ≤ first) :
    NearestWord (first * 2 ^ exponent * (second * 2 ^ exponent'))
      (UnpackedFloat.pack Format.binary64 (mul Format.binary64
        (.finite .positive first exponent hfirst)
        (.finite .positive second exponent' hsecond))).toNat := by
  have hlocated : Located (first * second) .exact (first * second) := by
    simp [Located]
  have hbits : 2 ^ 52 ≤ first * second := henough.trans (Nat.le_mul_of_pos_right _ hsecond)
  have hnearest := hlocated.nearestWord (exponent + exponent') (.inl hbits)
  rw [zpow_add₀ two_ne_zero, mul_mul_mul_comm] at hnearest
  exact hnearest

theorem located_quotient (number : Nat) {divisor : Nat} (hdivisor : 0 < divisor) :
    Located (number / divisor) (accuracyOfFraction (number % divisor) divisor)
      (number / divisor : ℚ) := by
  have hpositive : (0 : ℚ) < divisor := by exact_mod_cast hdivisor
  have hsplit : (number : ℚ) / divisor =
      (number / divisor : Nat) + (number % divisor : Nat) / (divisor : ℚ) := by
    rw [div_eq_iff hpositive.ne', add_mul, div_mul_cancel₀ _ hpositive.ne']
    exact_mod_cast (Nat.div_add_mod' number divisor).symm
  have hrest : ((number % divisor : Nat) : ℚ) < divisor := by
    exact_mod_cast Nat.mod_lt number hdivisor
  rw [hsplit]
  generalize number / divisor = quotient
  generalize number % divisor = rest at hrest
  unfold accuracyOfFraction
  split
  next hzero => simp [Located, hzero]
  next hsome =>
    have hsome : (0 : ℚ) < rest := by exact_mod_cast Nat.pos_of_ne_zero hsome
    have hfraction := div_pos hsome hpositive
    have hwhole := (div_lt_one hpositive).mpr hrest
    rcases hcompare : compare (2 * rest) divisor with _ | _ | _
    · have hhalf : (2 * rest : ℚ) < divisor := by exact_mod_cast compare_lt_iff_lt.mp hcompare
      have hbelow : (rest : ℚ) / divisor < 1 / 2 := by
        rw [div_lt_iff₀ hpositive]
        linarith
      exact ⟨by linarith, by linarith⟩
    · have hhalf : (2 * rest : ℚ) = divisor := by exact_mod_cast compare_eq_iff_eq.mp hcompare
      have hmiddle : (rest : ℚ) / divisor = 1 / 2 := by
        rw [div_eq_iff hpositive.ne']
        linarith
      simp only [Located, hmiddle]
    · have hhalf : (divisor : ℚ) < 2 * rest := by exact_mod_cast compare_gt_iff_gt.mp hcompare
      have habove : (1 : ℚ) / 2 < rest / divisor := by
        rw [lt_div_iff₀ hpositive]
        linarith
      exact ⟨by linarith, by linarith⟩

/-- A quotient that is scaled for its leading bits has enough of them. -/
theorem enough_bits {first second count : Nat} (hsecond : 0 < second)
    (hcount : second.log2 + 53 ≤ first.log2 + count) (hfirst : 0 < first) :
    2 ^ 52 ≤ first <<< count / second := by
  rw [Nat.le_div_iff_mul_le hsecond, Nat.shiftLeft_eq]
  calc 2 ^ 52 * second ≤ 2 ^ 52 * 2 ^ (second.log2 + 1) :=
        Nat.mul_le_mul_left _ (Nat.lt_log2_self (n := second)).le
    _ = 2 ^ (second.log2 + 53) := by ring
    _ ≤ 2 ^ (first.log2 + count) := Nat.pow_le_pow_right two_pos hcount
    _ = 2 ^ first.log2 * 2 ^ count := pow_add _ _ _
    _ ≤ first * 2 ^ count := Nat.mul_le_mul_right _ (Nat.log2_self_le hfirst.ne')

theorem nearestWord_div {first second : Nat} (hfirst : 0 < first) (hsecond : 0 < second)
    (exponent exponent' : Int) :
    NearestWord (first * 2 ^ exponent / (second * 2 ^ exponent'))
      (UnpackedFloat.pack Format.binary64 (div Format.binary64
        (.finite .positive first exponent hfirst)
        (.finite .positive second exponent' hsecond))).toNat := by
  let target := min (exponent - exponent') (Format.binary64.targetExponent
    (totalExponent first exponent - totalExponent second exponent'))
  obtain ⟨count, hcount⟩ : ∃ count : Nat, exponent - exponent' - target = count :=
    ⟨(exponent - exponent' - target).toNat, by omega⟩
  have hlocated := located_quotient (first <<< count) hsecond
  have henough : 2 ^ 52 ≤ first <<< count / second ∨ target ≤ -1074 := by
    by_cases hsubnormal : target ≤ -1074
    · exact .inr hsubnormal
    · refine .inl (enough_bits hsecond ?_ hfirst)
      simp only [target, targetExponent_eq, totalExponent] at hcount hsubnormal
      omega
  have hnearest := hlocated.nearestWord target henough
  have hvalue : ((first <<< count : Nat) / second : ℚ) * 2 ^ target =
      first * 2 ^ exponent / (second * 2 ^ exponent') := by
    have htarget : target = exponent - exponent' - count := by omega
    rw [htarget, div_mul_eq_mul_div, shiftLeft_mul_zpow, zpow_sub₀ two_ne_zero, ← mul_div_assoc,
      div_div, mul_comm (2 ^ exponent')]
  have hresult : div Format.binary64 (.finite .positive first exponent hfirst)
      (.finite .positive second exponent' hsecond) =
        roundWithAccuracy Format.binary64 .positive (first <<< count / second) target
          (accuracyOfFraction (first <<< count % second) second) := by
    have hshift : (exponent - exponent' - target).toNat = count := by omega
    rw [← hshift]
    rfl
  rw [hresult, ← hvalue]
  exact hnearest

/-! ## Whole numbers -/

theorem le_shifted {number : Nat} (h : 0 < number) :
    2 ^ 52 ≤ number * 2 ^ (52 - number.log2) :=
  calc 2 ^ 52 ≤ 2 ^ (number.log2 + (52 - number.log2)) :=
        Nat.pow_le_pow_right two_pos (by omega)
    _ = 2 ^ number.log2 * 2 ^ (52 - number.log2) := pow_add _ _ _
    _ ≤ number * 2 ^ (52 - number.log2) := Nat.mul_le_mul_right _ (Nat.log2_self_le h.ne')

theorem shifted_lt {number : Nat} (h : number.log2 ≤ 52) :
    number * 2 ^ (52 - number.log2) < 2 ^ 53 :=
  calc number * 2 ^ (52 - number.log2) < 2 ^ (number.log2 + 1) * 2 ^ (52 - number.log2) :=
        Nat.mul_lt_mul_of_pos_right (Nat.lt_log2_self (n := number)) (Nat.two_pow_pos _)
    _ = 2 ^ (number.log2 + 1 + (52 - number.log2)) := (pow_add _ _ _).symm
    _ = 2 ^ 53 := congrArg _ (by omega)

theorem nearestWord_ofNat {number : Nat} (h : 0 < number) :
    NearestWord number
      (UnpackedFloat.pack Format.binary64
        (UnpackedFloat.ofNat Format.binary64 number)).toNat := by
  have hcompare : compare (number : Int) 0 = .gt := compare_gt_iff_gt.mpr (by exact_mod_cast h)
  have hresult : UnpackedFloat.ofNat Format.binary64 number =
      roundWithAccuracy Format.binary64 .positive (number <<< (52 - number.log2))
        (0 - (52 - number.log2 : Nat)) .exact := by
    have hcount : (0 - Format.binary64.targetExponent (totalExponent number 0)).toNat =
        52 - number.log2 := by
      rw [targetExponent_eq, totalExponent]
      omega
    rw [← hcount]
    unfold UnpackedFloat.ofNat UnpackedFloat.ofInt UnpackedFloat.normalize
    rw [hcompare]
    rfl
  have hlocated : Located (number <<< (52 - number.log2)) .exact
      (number <<< (52 - number.log2) : Nat) := rfl
  have henough : 2 ^ 52 ≤ number <<< (52 - number.log2) := by
    rw [Nat.shiftLeft_eq]
    exact le_shifted h
  have hnearest := hlocated.nearestWord (0 - (52 - number.log2 : Nat)) (.inl henough)
  rw [shiftLeft_mul_zpow, zpow_zero, mul_one] at hnearest
  rw [hresult]
  exact hnearest

/-- Every positive whole number below `2 ^ 53` has a word of its own. -/
theorem exists_worth_eq {number : Nat} (hlow : 0 < number) (hhigh : number < 2 ^ 53) :
    ∃ word, 2 ^ 52 ≤ word ∧ word < infinityWord ∧ worth word = number := by
  have hlog : number.log2 ≤ 52 := Nat.le_of_lt_succ ((Nat.log2_lt hlow.ne').mpr hhigh)
  have hnormal := le_shifted hlow
  have hbits := shifted_lt hlog
  refine ⟨(1022 + number.log2) * 2 ^ 52 + number * 2 ^ (52 - number.log2), ?_, ?_, ?_⟩
  · omega
  · unfold infinityWord
    omega
  · rw [worth_eq (.inr hnormal) hbits.le]
    have hscale : ((1022 + number.log2 : Nat) - 1074 : Int) = -(52 - number.log2 : Nat) := by omega
    rw [hscale, zpow_neg, zpow_natCast]
    push_cast
    rw [mul_assoc, mul_inv_cancel₀ (by positivity), mul_one]

theorem worth_toFloat {number : Nat} (hlow : 0 < number) (hhigh : number < 2 ^ 53) :
    2 ^ 52 ≤ number.toUInt64.toFloat.toBits.toNat ∧
      number.toUInt64.toFloat.toBits.toNat < infinityWord ∧
      worth number.toUInt64.toFloat.toBits.toNat = number := by
  have hword : number.toUInt64.toNat = number := by
    rw [UInt64.toNat_ofNat']
    omega
  have hnearest : NearestWord number number.toUInt64.toFloat.toBits.toNat := by
    have hbits : number.toUInt64.toFloat.toBits.toNat = (UnpackedFloat.pack Format.binary64
        (UnpackedFloat.ofNat Format.binary64 number.toUInt64.toNat)).toNat := rfl
    rw [hbits, hword]
    exact nearestWord_ofNat hlow
  obtain ⟨word, hnormal, hfinite, hworth⟩ := exists_worth_eq hlow hhigh
  have hbits := (hworth ▸ nearestWord_worth hfinite.le : NearestWord number word).unique hnearest
  rw [← hbits]
  exact ⟨hnormal, hfinite, hworth⟩

theorem bits_powerOfTen : ∀ (exponent : Nat) (h : exponent < 23),
    let word := Float.exactlyRepresentablePowersOfTen[exponent].toBits.toNat
    word / 2 ^ 52 = (10 ^ exponent).log2 + 1023 ∧
      (2 ^ 52 + word % 2 ^ 52) * 2 ^ (10 ^ exponent).log2 = 10 ^ exponent * 2 ^ 52 ∧
      word < infinityWord := by
  decide +kernel

/-- The powers of ten that are kept have words of their own. -/
theorem worth_powerOfTen {exponent : Nat} (h : exponent < 23) :
    2 ^ 52 ≤ Float.exactlyRepresentablePowersOfTen[exponent].toBits.toNat ∧
      Float.exactlyRepresentablePowersOfTen[exponent].toBits.toNat < infinityWord ∧
      worth Float.exactlyRepresentablePowersOfTen[exponent].toBits.toNat = 10 ^ exponent := by
  obtain ⟨hscale, hsignificand, hfinite⟩ := bits_powerOfTen exponent h
  generalize Float.exactlyRepresentablePowersOfTen[exponent].toBits.toNat = word at *
  generalize (10 ^ exponent).log2 = log at *
  refine ⟨by omega, hfinite, ?_⟩
  unfold worth
  rw [if_neg (by omega), hscale]
  have hcast : ((2 ^ 52 + word % 2 ^ 52 : Nat) : ℚ) * 2 ^ log = 10 ^ exponent * 2 ^ 52 := by
    exact_mod_cast hsignificand
  have hzpow : (2 : ℚ) ^ (((log + 1023 : Nat) : Int) - 1075) = 2 ^ log / 2 ^ 52 := by
    rw [show ((log + 1023 : Nat) : Int) - 1075 = (log : Int) - 52 by omega,
      zpow_sub₀ two_ne_zero]
    norm_cast
  rw [hzpow, ← mul_div_assoc, hcast, mul_div_cancel_right₀ _ (by positivity)]

theorem toNat_unpackMantissa (bits : BitVec 64) :
    (@unpackMantissa Format.binary64 bits).toNat = bits.toNat % 2 ^ 52 := by
  simp [unpackMantissa]

theorem toNat_unpackExponent (bits : BitVec 64) :
    (@unpackExponent Format.binary64 bits).toNat = bits.toNat / 2 ^ 52 % 2 ^ 11 := by
  simp [unpackExponent, Nat.shiftRight_eq_div_pow]

theorem unpackSign_eq_zero {bits : BitVec 64} (h : bits.toNat < 2 ^ 63) :
    @unpackSign Format.binary64 bits = 0#1 := by
  have htop : (@unpackSign Format.binary64 bits).toNat = bits.toNat >>> 63 % 2 ^ 1 :=
    BitVec.extractLsb_toNat 63 63 bits
  apply BitVec.eq_of_toNat_eq
  rw [htop, Nat.shiftRight_eq_div_pow, Nat.div_eq_of_lt h]
  rfl

theorem unpack_normal {bits : BitVec 64} (hlow : 2 ^ 52 ≤ bits.toNat)
    (hhigh : bits.toNat < infinityWord) :
    UnpackedFloat.unpack Format.binary64 bits = .finite .positive (2 ^ 52 + bits.toNat % 2 ^ 52)
      ((bits.toNat / 2 ^ 52 : Nat) - 1075) (by omega) := by
  unfold infinityWord at hhigh
  have hmantissa := toNat_unpackMantissa bits
  have hexponent : (@unpackExponent Format.binary64 bits).toNat = bits.toNat / 2 ^ 52 := by
    rw [toNat_unpackExponent]
    omega
  have hones : @unpackExponent Format.binary64 bits ≠ -1#11 := by
    intro h
    have htoNat : (-1#11 : BitVec 11).toNat = 2047 := rfl
    rw [h, htoNat] at hexponent
    omega
  have hzero : @unpackExponent Format.binary64 bits ≠ 0#11 := by
    intro h
    rw [h, BitVec.toNat_zero] at hexponent
    omega
  have hleading : (1#1 ++ @unpackMantissa Format.binary64 bits).toNat =
      2 ^ 52 + bits.toNat % 2 ^ 52 := by
    rw [BitVec.toNat_append, ← Nat.shiftLeft_add_eq_or_of_lt (BitVec.isLt _), hmantissa]
    rfl
  have hsign := unpackSign_eq_zero (show bits.toNat < 2 ^ 63 by omega)
  unfold UnpackedFloat.unpack
  dsimp only
  rw [if_neg hones, if_neg hzero, UnpackedFloat.finite.injEq, hsign, hexponent]
  exact ⟨rfl, hleading, rfl⟩

/-- A number of the normal range is taken apart into its significand and exponent. -/
theorem exists_unpack {value : Float} (hlow : 2 ^ 52 ≤ value.toBits.toNat)
    (hhigh : value.toBits.toNat < infinityWord) :
    ∃ significand exponent hpositive,
      value.toModel.unpack = .finite .positive significand exponent hpositive ∧
        2 ^ 52 ≤ significand ∧ worth value.toBits.toNat = significand * 2 ^ exponent := by
  refine ⟨_, _, _, unpack_normal hlow hhigh, Nat.le_add_right _ _, ?_⟩
  unfold worth
  rw [if_neg (by omega)]
  rfl

theorem worth_infinityWord : worth infinityWord = 2 ^ 1024 := by
  have hbits := @worth_eq 2046 (2 ^ 52) (.inr le_rfl) (Nat.pow_le_pow_right two_pos (by omega))
  have hexponent : ((2046 : Nat) - 1074 : Int) = (972 : Nat) := rfl
  rw [hexponent, zpow_natCast, Nat.cast_pow, Nat.cast_two, ← pow_add] at hbits
  exact hbits

theorem nearestWord_of_large {number : ℚ} (h : 2 ^ 1024 ≤ number) :
    NearestWord number infinityWord :=
  nearestWord_infinity (worth_infinityWord.trans_le h)

theorem nearestWord_of_small {number : ℚ} (hlow : 0 ≤ number)
    (hhigh : number < 2 ^ (-1075 : Int)) : NearestWord number 0 := by
  have hzero : worth 0 = 0 := by simp [worth]
  have hone : worth (0 + 1) = 2 ^ (-1075 : Int) * 2 := by
    rw [← zpow_add_one₀ two_ne_zero]
    simp [worth]
  have hpositive : (0 : ℚ) < 2 ^ (-1075 : Int) := by positivity
  have hchosen : Chosen number 0 0 := .lower (by rw [hzero, hone]; linarith)
  exact hchosen.nearestWord (hzero ▸ hlow) (by rw [hone]; linarith) (by decide)

/-- A number of more than 400 decimal places is past the largest floating-point number. -/
theorem large_of_le {digits size : Nat} {exponent : Int} (h : 10 ^ size ≤ digits)
    (hlarge : 400 ≤ size + exponent) : (2 : ℚ) ^ 1024 ≤ digits * 10 ^ exponent := by
  have hpower : 2 ^ 1024 ≤ 10 ^ 400 := by decide +kernel
  calc (2 : ℚ) ^ 1024 ≤ 10 ^ 400 := by exact_mod_cast hpower
    _ = 10 ^ (400 : Int) := (zpow_natCast 10 400).symm
    _ ≤ 10 ^ (size + exponent : Int) := zpow_le_zpow_right₀ (by norm_num) hlarge
    _ = 10 ^ size * 10 ^ exponent := by rw [zpow_add₀ (by norm_num), zpow_natCast]
    _ ≤ digits * 10 ^ exponent := by
        refine mul_le_mul_of_nonneg_right ?_ (by positivity)
        exact_mod_cast h

/-- A number that starts 400 decimal places behind the point is nearest to zero. -/
theorem small_of_lt {digits size : Nat} {exponent : Int} (h : digits < 10 ^ size)
    (hsmall : size + exponent ≤ -400) : (digits : ℚ) * 10 ^ exponent < 2 ^ (-1075 : Int) := by
  have hpower : 2 ^ 1075 ≤ 10 ^ 400 := by decide +kernel
  calc (digits : ℚ) * 10 ^ exponent < 10 ^ size * 10 ^ exponent := by
        refine mul_lt_mul_of_pos_right ?_ (by positivity)
        exact_mod_cast h
    _ = 10 ^ (size + exponent : Int) := by rw [zpow_add₀ (by norm_num), zpow_natCast]
    _ ≤ 10 ^ (-400 : Int) := zpow_le_zpow_right₀ (by norm_num) hsmall
    _ = (10 ^ 400)⁻¹ := by rw [zpow_neg]; rfl
    _ ≤ (2 ^ 1075)⁻¹ := inv_anti₀ (by positivity) (by exact_mod_cast hpower)
    _ = 2 ^ (-1075 : Int) := by rw [zpow_neg]; rfl

/-! ## Decimal numbers -/

theorem nearestWord_mul_pow {digits power : Nat} {hfirst hsecond} :
    NearestWord (digits * 10 ^ power)
      (UnpackedFloat.pack Format.binary64 (mul Format.binary64
        (.finite .positive (digits <<< 53) (-53) hfirst)
        (.finite .positive (10 ^ power) 0 hsecond))).toNat := by
  have hbits : 2 ^ 52 ≤ digits <<< 53 := by
    rw [Nat.shiftLeft_eq]
    omega
  have hproduct := nearestWord_mul hfirst hsecond (0 - (53 : Nat)) 0 hbits
  rw [shiftLeft_mul_zpow, zpow_zero, mul_one, mul_one, Nat.cast_pow, Nat.cast_ofNat] at hproduct
  exact hproduct

theorem nearestWord_div_pow {digits power : Nat} {hfirst hsecond} :
    NearestWord (digits / 10 ^ power)
      (UnpackedFloat.pack Format.binary64 (div Format.binary64 (.finite .positive digits 0 hfirst)
        (.finite .positive (10 ^ power) 0 hsecond))).toNat := by
  have hquotient := nearestWord_div hfirst hsecond 0 0
  rw [zpow_zero, mul_one, mul_one, Nat.cast_pow, Nat.cast_ofNat] at hquotient
  exact hquotient

theorem nearestWord_ofScientific {digits : Nat} (h : digits ≠ 0) (exponent : Int) :
    NearestWord (digits * 10 ^ exponent)
      (UnpackedFloat.pack Format.binary64
        (UnpackedFloat.ofScientific Format.binary64 digits exponent)).toNat := by
  unfold UnpackedFloat.ofScientific
  rw [dif_neg h]
  by_cases hlarge : exponent > (2 : Int) ^ Format.binary64.exponentBits
  · rw [if_pos hlarge]
    have hlarge : (2 : Int) ^ 11 < exponent := hlarge
    exact nearestWord_of_large (@large_of_le digits 0 _ (Nat.pos_of_ne_zero h) (by omega))
  rw [if_neg hlarge]
  by_cases hsmall : exponent < -((2 : Int) ^ Format.binary64.exponentBits + digits.log2)
  · rw [if_pos hsmall]
    have hsmall : exponent < -((2 : Int) ^ 11 + digits.log2) := hsmall
    have hsize : digits < 10 ^ (digits.log2 + 1) :=
      (Nat.lt_log2_self (n := digits)).trans_le (Nat.pow_le_pow_left (by omega) _)
    exact nearestWord_of_small (by positivity) (small_of_lt hsize (by omega))
  rw [if_neg hsmall]
  by_cases hwhole : 0 ≤ exponent
  · have hpower : (10 : ℚ) ^ exponent = 10 ^ exponent.toNat := by
      rw [← zpow_natCast, Int.toNat_of_nonneg hwhole]
    rw [if_pos hwhole, hpower]
    exact nearestWord_mul_pow
  · have hpower : (10 : ℚ) ^ exponent = (10 ^ (-exponent).toNat)⁻¹ := by
      rw [← zpow_natCast, Int.toNat_of_nonneg (by omega), zpow_neg, inv_inv]
    rw [if_neg hwhole, hpower, ← div_eq_mul_inv]
    exact nearestWord_div_pow

/-- Few digits are scaled by a power of ten that has a word of its own. -/
theorem rounds_few {digits exponent : Nat} (h : digits ≠ 0) (hdigits : digits < 2 ^ 53)
    (hexponent : exponent < 23) :
    Rounds (digits * 10 ^ exponent)
        (digits.toUInt64.toFloat * Float.exactlyRepresentablePowersOfTen[exponent]) ∧
      Rounds (digits / 10 ^ exponent)
        (digits.toUInt64.toFloat / Float.exactlyRepresentablePowersOfTen[exponent]) := by
  obtain ⟨hnormal, hfinite, hworth⟩ := worth_toFloat (Nat.pos_of_ne_zero h) hdigits
  obtain ⟨hnormal', hfinite', hworth'⟩ := worth_powerOfTen hexponent
  obtain ⟨first, scale, hfirst, hunpack, henough, hvalue⟩ := exists_unpack hnormal hfinite
  obtain ⟨second, scale', hsecond, hunpack', -, hvalue'⟩ := exists_unpack hnormal' hfinite'
  have hproduct := nearestWord_mul hfirst hsecond scale scale' henough
  have hquotient := nearestWord_div hfirst hsecond scale scale'
  rw [← hvalue, ← hvalue', hworth, hworth', ← hunpack, ← hunpack'] at hproduct hquotient
  exact ⟨hproduct, hquotient⟩

theorem rounds_ofScientific {digits : Nat} (h : digits ≠ 0) (negative : Bool) (exponent : Nat) :
    Rounds (digits * 10 ^ (if negative then -exponent else exponent : Int))
      (Float.ofScientific digits negative exponent) := by
  unfold Float.ofScientific
  by_cases hfew : digits < 2 ^ 53 ∧ exponent ≤ 22
  · obtain ⟨hproduct, hquotient⟩ := rounds_few h hfew.1 (Nat.lt_succ_of_le hfew.2)
    rw [dif_pos hfew]
    cases negative with
    | true =>
        rw [if_pos rfl, zpow_neg, zpow_natCast, ← div_eq_mul_inv]
        exact hquotient
    | false =>
        rw [if_neg Bool.false_ne_true, zpow_natCast]
        exact hproduct
  · rw [dif_neg hfew]
    cases negative with
    | true =>
        have hnearest := nearestWord_ofScientific h (Int.negOfNat exponent)
        rw [Int.negOfNat_eq] at hnearest
        exact hnearest
    | false => exact nearestWord_ofScientific h exponent

theorem le_of_length_toDigits {digits : Nat} (h : digits ≠ 0) :
    10 ^ ((Nat.toDigits 10 digits).length - 1) ≤ digits := by
  rcases Nat.eq_zero_or_pos ((Nat.toDigits 10 digits).length - 1) with hone | hmore
  · rw [hone]
    omega
  · have hlength := Nat.length_toDigits_le_iff (b := 10) (n := digits) (by decide) hmore
    omega

/-- A decimal number is rounded to the nearest floating-point number. -/
theorem rounds_nearest (digits : Nat) (exponent : Int) :
    Rounds (digits * 10 ^ exponent) (nearest digits exponent) := by
  unfold nearest
  dsimp only
  split
  next hzero =>
    rw [hzero, Nat.cast_zero, zero_mul]
    exact nearestWord_of_small le_rfl (by positivity)
  next hdigits =>
    split
    next hlarge =>
      exact nearestWord_of_large (large_of_le (le_of_length_toDigits hdigits) (by omega))
    next hlow =>
      split
      next hsmall =>
        have hsize := (Nat.length_toDigits_le_iff (b := 10) (by decide) Nat.length_toDigits_pos).mp
          (le_refl (Nat.toDigits 10 digits).length)
        exact nearestWord_of_small (by positivity) (small_of_lt hsize hsmall.le)
      next hhigh =>
        have hscientific := rounds_ofScientific hdigits (decide (exponent < 0)) exponent.natAbs
        have hexponent : (if decide (exponent < 0) = true then -exponent.natAbs
            else exponent.natAbs : Int) = exponent := by
          by_cases hnegative : exponent < 0
          · rw [if_pos (decide_eq_true hnegative)]
            omega
          · rw [if_neg (by simpa using hnegative)]
            omega
        rw [hexponent] at hscientific
        exact hscientific

end SlashCommand.Decimal
