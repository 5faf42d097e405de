import Mathlib.Data.List.TakeWhile
import Mathlib.Data.Nat.Digits.Defs
import SlashCommand.Proofs.Decimal.Scientific

/-!
# What number literals denote

A literal is described by how it is made up: digits denote the number they write to the base
ten, a sign stands in front, and a floating-point literal has a point and an exponent or is one
of three names.  The readers of literals accept exactly these texts and give what they denote.
-/

namespace SlashCommand.Decimal

/-! ## Digits -/

/-- The value of a decimal digit. -/
def digitValue (c : Char) : Nat :=
  c.toNat - '0'.toNat

/-- A text of digits, at least one, with the number they write. -/
structure Digits (text : List Char) (number : Nat) : Prop where
  nonempty : text ≠ []
  digits : ∀ c ∈ text, c.isDigit = true
  number : number = Nat.ofDigits 10 (text.reverse.map digitValue)

/-- Read from the front, digits give the number that they write. -/
theorem foldl_digits (text : List Char) :
    text.foldl (fun number digit => 10 * number + (digit.toNat - 48)) 0 =
      Nat.ofDigits 10 (text.reverse.map digitValue) := by
  rw [Nat.ofDigits_eq_foldr, List.foldr_map, List.foldr_reverse]
  congr 1
  funext number digit
  exact Nat.add_comm _ _

theorem natural?_eq_some_iff {text : List Char} {number : Nat} :
    natural? text = some number ↔ Digits text number := by
  unfold natural?
  rw [foldl_digits]
  split
  next hno =>
      constructor
      · rintro ⟨⟩
      · intro h
        rw [Bool.or_eq_true, List.isEmpty_iff] at hno
        rcases hno with hempty | hother
        · exact absurd hempty h.nonempty
        · rw [List.all_eq_true.mpr h.digits] at hother
          cases hother
  next hyes =>
      obtain ⟨hnonempty, hdigits⟩ : text ≠ [] ∧ ∀ c ∈ text, c.isDigit = true := by
        simpa using hyes
      constructor
      · rintro ⟨⟩
        exact ⟨hnonempty, hdigits, rfl⟩
      · exact fun h => congrArg some h.number.symm

/-! ## Signs -/

/-- A text is an unsigned one with no sign or one sign in front of it. -/
inductive Signed (unsigned : List Char) : Bool → List Char → Prop where
  | bare : Signed unsigned false unsigned
  | plus : Signed unsigned false ('+' :: unsigned)
  | minus : Signed unsigned true ('-' :: unsigned)

/-- No sign stands in front of a text. -/
def Unsigned (text : List Char) : Prop :=
  ∀ c ∈ text.head?, c ≠ '+' ∧ c ≠ '-'

theorem signed_takeSign (text : List Char) :
    Signed (takeSign text).2 (takeSign text).1 text := by
  unfold takeSign
  split
  · exact .minus
  · exact .plus
  · exact .bare

theorem Signed.takeSign_eq {unsigned text : List Char} {negative : Bool}
    (h : Signed unsigned negative text) (hunsigned : Unsigned unsigned) :
    takeSign text = (negative, unsigned) := by
  cases h with
  | plus => rfl
  | minus => rfl
  | bare =>
      unfold takeSign
      split
      next => exact absurd rfl (hunsigned '-' rfl).2
      next => exact absurd rfl (hunsigned '+' rfl).1
      next => rfl

theorem unsigned_of_digit {c : Char} (h : c.isDigit = true) : c ≠ '+' ∧ c ≠ '-' := by
  constructor
  all_goals
    rintro rfl
    revert h
    decide

theorem Digits.unsigned {text : List Char} {number : Nat} (h : Digits text number) :
    Unsigned text :=
  fun c hc => unsigned_of_digit (h.digits c (List.mem_of_mem_head? hc))

/-! ## Whole numbers -/

/-- A sign, if any, and digits. -/
inductive IntegerLiteral : List Char → Int → Prop where
  | intro {unsigned text : List Char} {negative : Bool} {magnitude : Nat}
      (sign : Signed unsigned negative text) (digits : Digits unsigned magnitude) :
      IntegerLiteral text (if negative then -(magnitude : Int) else magnitude)

theorem integer?_eq_map (text : List Char) :
    integer? text = (natural? (takeSign text).2).map fun (magnitude : Nat) =>
      if (takeSign text).1 then -(magnitude : Int) else magnitude := by
  unfold integer?
  rcases takeSign text with ⟨negative, digits⟩
  dsimp only
  cases natural? digits <;> rfl

theorem integer?_eq_some_iff {text : List Char} {number : Int} :
    integer? text = some number ↔ IntegerLiteral text number := by
  rw [integer?_eq_map]
  constructor
  · intro h
    obtain ⟨magnitude, hmagnitude, rfl⟩ := Option.map_eq_some_iff.mp h
    exact .intro (signed_takeSign text) (natural?_eq_some_iff.mp hmagnitude)
  · rintro ⟨hsign, hdigits⟩
    rw [hsign.takeSign_eq hdigits.unsigned, natural?_eq_some_iff.mpr hdigits]
    rfl

theorem fitsWord_iff {number : Int} :
    fitsWord number = true ↔ -2 ^ 63 ≤ number ∧ number < 2 ^ 63 := by
  simp [fitsWord]

/-- A literal of 64 bits is a whole number of 64 bits. -/
theorem word?_eq_some_iff {text : List Char} {word : Int64} :
    word? text = some word ↔ IntegerLiteral text word.toInt := by
  rw [← integer?_eq_some_iff]
  have hfits := fitsWord_iff.mpr ⟨word.le_toInt, word.toInt_lt⟩
  unfold word?
  cases integer? text with
  | none => simp
  | some number =>
      dsimp only
      rw [Option.some.injEq]
      constructor
      · intro h
        split at h
        next hnumber =>
            obtain ⟨hlow, hhigh⟩ := fitsWord_iff.mp hnumber
            rw [← Option.some.inj h, Int64.toInt_ofInt_of_le hlow hhigh]
        next => cases h
      · rintro rfl
        rw [if_pos hfits, Int64.ofInt_toInt]

/-! ## Floating-point numbers -/

/-- What follows the digits of a literal: nothing, or the letter `e` in either case and a whole
number. -/
inductive ExponentPart : List Char → Int → Prop where
  | none : ExponentPart [] 0
  | written {letter : Char} {text : List Char} {exponent : Int}
      (hletter : letter = 'e' ∨ letter = 'E') (literal : IntegerLiteral text exponent) :
      ExponentPart (letter :: text) exponent

/-- What follows the first digits of a literal: nothing, or a point and further digits. -/
inductive FractionPart : List Char → List Char → Prop where
  | none : FractionPart [] []
  | written {digits : List Char} (hdigits : ∀ c ∈ digits, c.isDigit = true) :
      FractionPart ('.' :: digits) digits

/-- Digits with a point anywhere among them and an exponent, which write
`digits * 10 ^ exponent`. -/
inductive DecimalLiteral : List Char → Nat → Int → Prop where
  | intro {whole point fraction behind : List Char} {digits : Nat} {exponent : Int}
      (number : Digits (whole ++ fraction) digits) (part : FractionPart point fraction)
      (scale : ExponentPart behind exponent) :
      DecimalLiteral (whole ++ (point ++ behind)) digits (exponent - fraction.length)

/-- The name of a magnitude, in any case. -/
def IsNamed (text : List Char) (name : String) : Prop :=
  text.map Char.toLower = name.toList

/-- The magnitude a literal without a sign denotes. -/
inductive Magnitude : List Char → Float → Prop where
  | infinity {text : List Char} (name : IsNamed text "inf" ∨ IsNamed text "infinity") :
      Magnitude text (1 / 0)
  | notANumber {text : List Char} (name : IsNamed text "nan") : Magnitude text (0 / 0)
  | decimal {text : List Char} {digits : Nat} {exponent : Int} {value : Float}
      (literal : DecimalLiteral text digits exponent)
      (rounds : Rounds (digits * 10 ^ exponent) value) : Magnitude text value

/-- A sign, if any, and a magnitude. -/
inductive NumberLiteral : List Char → Float → Prop where
  | intro {unsigned text : List Char} {negative : Bool} {magnitude : Float}
      (sign : Signed unsigned negative text) (unsignedLiteral : Magnitude unsigned magnitude) :
      NumberLiteral text (if negative then -magnitude else magnitude)

/-! ### Reading the parts -/

theorem exponent?_eq_some_iff {text : List Char} {exponent : Int} :
    exponent? text = some exponent ↔ ExponentPart text exponent := by
  constructor
  · intro h
    unfold exponent? at h
    split at h
    next =>
        cases h
        exact .none
    next => exact .written (.inl rfl) (integer?_eq_some_iff.mp h)
    next => exact .written (.inr rfl) (integer?_eq_some_iff.mp h)
    next => cases h
  · rintro (_ | ⟨rfl | rfl, hliteral⟩)
    · rfl
    · exact integer?_eq_some_iff.mpr hliteral
    · exact integer?_eq_some_iff.mpr hliteral

/-- A text does not start with a digit. -/
def DigitFree (text : List Char) : Prop :=
  ∀ c ∈ text.head?, c.isDigit = false

theorem ExponentPart.digitFree {text : List Char} {exponent : Int}
    (h : ExponentPart text exponent) : DigitFree text := by
  rintro c hc
  cases h with
  | none => cases hc
  | written hletter =>
      cases hc
      rcases hletter with rfl | rfl <;> decide

/-- The digits at the start of a text are taken as a whole. -/
theorem span_digits {digits behind : List Char} (h : ∀ c ∈ digits, c.isDigit = true)
    (hbehind : DigitFree behind) :
    (digits ++ behind).takeWhile Char.isDigit = digits ∧
      (digits ++ behind).dropWhile Char.isDigit = behind := by
  rw [List.takeWhile_append_of_pos h, List.dropWhile_append_of_pos h]
  cases behind with
  | nil => simp
  | cons c rest => simp [hbehind c rfl]

/-- The digits behind a point, if there is one, and what follows them. -/
def afterPoint : List Char → List Char × List Char
  | '.' :: rest => (rest.takeWhile Char.isDigit, rest.dropWhile Char.isDigit)
  | rest => ([], rest)

theorem magnitude?_eq_match (text : List Char) :
    magnitude? text =
      let behind := afterPoint (text.dropWhile Char.isDigit)
      match natural? (text.takeWhile Char.isDigit ++ behind.1), exponent? behind.2 with
      | some digits, some exponent => some (nearest digits (exponent - behind.1.length))
      | _, _ => none :=
  rfl

theorem exists_fractionPart (text : List Char) :
    ∃ point, text = point ++ (afterPoint text).2 ∧ FractionPart point (afterPoint text).1 := by
  unfold afterPoint
  split
  next rest =>
      refine ⟨'.' :: rest.takeWhile Char.isDigit, ?_, .written fun c => List.mem_takeWhile_imp⟩
      rw [List.cons_append, List.takeWhile_append_dropWhile]
  next => exact ⟨[], rfl, .none⟩

theorem afterPoint_append {point fraction behind : List Char} {exponent : Int}
    (hpart : FractionPart point fraction) (hscale : ExponentPart behind exponent) :
    afterPoint (point ++ behind) = (fraction, behind) := by
  cases hpart with
  | none =>
      cases hscale with
      | none => rfl
      | written hletter => rcases hletter with rfl | rfl <;> rfl
  | written hdigits =>
      obtain ⟨htaken, hdropped⟩ := span_digits hdigits hscale.digitFree
      rw [List.cons_append, afterPoint, htaken, hdropped]

theorem FractionPart.digitFree {point fraction behind : List Char} {exponent : Int}
    (h : FractionPart point fraction) (hscale : ExponentPart behind exponent) :
    DigitFree (point ++ behind) := by
  cases h with
  | none => exact hscale.digitFree
  | written =>
      rintro c ⟨⟩
      decide

theorem magnitude?_eq_some_iff {text : List Char} {value : Float} :
    magnitude? text = some value ↔
      ∃ digits exponent, DecimalLiteral text digits exponent ∧
        Rounds (digits * 10 ^ exponent) value := by
  rw [magnitude?_eq_match]
  dsimp only
  constructor
  · intro h
    split at h
    next digits exponent hdigits hexponent =>
        obtain ⟨point, hsplit, hpart⟩ := exists_fractionPart (text.dropWhile Char.isDigit)
        have hliteral := DecimalLiteral.intro (natural?_eq_some_iff.mp hdigits) hpart
          (exponent?_eq_some_iff.mp hexponent)
        rw [← hsplit, List.takeWhile_append_dropWhile] at hliteral
        exact ⟨_, _, hliteral, Option.some.inj h ▸ rounds_nearest digits _⟩
    next => cases h
  · rintro ⟨digits, exponent, ⟨hnumber, hpart, hscale⟩, hrounds⟩
    have hwhole := fun c hc => hnumber.digits c (List.mem_append_left _ hc)
    obtain ⟨htaken, hdropped⟩ := span_digits hwhole (hpart.digitFree hscale)
    rw [htaken, hdropped, afterPoint_append hpart hscale, natural?_eq_some_iff.mpr hnumber,
      exponent?_eq_some_iff.mpr hscale]
    exact congrArg some ((rounds_nearest _ _).unique hrounds)

/-! ### Names and signs -/

theorem toLower_of_isDigit {c : Char} (h : c.isDigit = true) : c.toLower = c := by
  unfold Char.toLower
  rw [dif_neg]
  rintro ⟨hlow, _⟩
  simp only [Char.isDigit, Bool.and_eq_true, decide_eq_true_eq] at h
  have hgap : ¬ 'A'.val ≤ '9'.val := by decide
  exact hgap (UInt32.le_trans hlow h.2)

/-- A decimal literal starts with a digit or with the point. -/
theorem DecimalLiteral.start {text : List Char} {digits : Nat} {exponent : Int}
    (h : DecimalLiteral text digits exponent) :
    ∃ c rest, text = c :: rest ∧ (c.isDigit = true ∨ c = '.') := by
  obtain @⟨whole, point, fraction, behind, _, _, hnumber, hpart, _⟩ := h
  cases whole with
  | cons c rest => exact ⟨c, _, rfl, .inl (hnumber.digits c List.mem_cons_self)⟩
  | nil =>
      cases hpart with
      | none => exact absurd rfl hnumber.nonempty
      | written => exact ⟨'.', _, rfl, .inr rfl⟩

/-- A name starts with the letter its lower case starts with. -/
theorem IsNamed.start {text : List Char} {name : String} {letter : Char} {others : List Char}
    (h : IsNamed text name) (hname : name.toList = letter :: others) :
    ∃ c rest, text = c :: rest ∧ c.toLower = letter := by
  unfold IsNamed at h
  rw [hname, List.map_eq_cons_iff] at h
  obtain ⟨c, rest, rfl, hc, _⟩ := h
  exact ⟨c, rest, rfl, hc⟩

/-- No name is a decimal literal. -/
theorem DecimalLiteral.not_named {text : List Char} {digits : Nat} {exponent : Int}
    (h : DecimalLiteral text digits exponent) {name : String} {letter : Char}
    {others : List Char} (hname : name.toList = letter :: others)
    (hdigit : letter.isDigit = false) (hpoint : letter ≠ '.') : ¬ IsNamed text name := by
  intro hnamed
  obtain ⟨c, rest, htext, hc⟩ := h.start
  obtain ⟨d, others, hother, rfl⟩ := hnamed.start hname
  rw [htext] at hother
  cases hother
  rcases hc with hdigits | rfl
  · rw [toLower_of_isDigit hdigits, hdigits] at hdigit
    cases hdigit
  · exact hpoint rfl

theorem namedMagnitude?_of_decimal {text : List Char} {digits : Nat} {exponent : Int}
    (h : DecimalLiteral text digits exponent) : namedMagnitude? text = none := by
  unfold namedMagnitude?
  rw [if_neg, if_neg]
  · exact h.not_named rfl (by decide) (by decide)
  · rintro (hinf | hinfinity)
    · exact h.not_named rfl (by decide) (by decide) hinf
    · exact h.not_named rfl (by decide) (by decide) hinfinity

theorem Magnitude.unsigned {text : List Char} {value : Float} (h : Magnitude text value) :
    Unsigned text := by
  have hnamed : ∀ {name : String} {letter : Char} {others : List Char},
      IsNamed text name → name.toList = letter :: others → letter ≠ '+' → letter ≠ '-' →
        Unsigned text := by
    intro name letter others hname hstart hplus hminus c hc
    obtain ⟨d, rest, rfl, rfl⟩ := hname.start hstart
    cases hc
    constructor
    · rintro rfl
      exact hplus rfl
    · rintro rfl
      exact hminus rfl
  cases h with
  | infinity name =>
      rcases name with hinf | hinfinity
      · exact hnamed hinf rfl (by decide) (by decide)
      · exact hnamed hinfinity rfl (by decide) (by decide)
  | notANumber name => exact hnamed name rfl (by decide) (by decide)
  | decimal literal rounds =>
      obtain ⟨c, rest, rfl, hc⟩ := literal.start
      rintro d ⟨⟩
      rcases hc with hdigit | rfl
      · exact unsigned_of_digit hdigit
      · decide

/-- Every name that is read denotes its magnitude. -/
theorem magnitude_of_named {text : List Char} {value : Float}
    (h : namedMagnitude? text = some value) : Magnitude text value := by
  unfold namedMagnitude? at h
  dsimp only at h
  split at h
  next hinfinity =>
      cases h
      exact .infinity hinfinity
  next =>
      split at h
      next hnan =>
          cases h
          exact .notANumber hnan
      next => cases h

/-- What an unsigned text is read as: a name comes before digits. -/
theorem magnitude_iff {text : List Char} {value : Float} :
    ((namedMagnitude? text).orElse fun _ => magnitude? text) = some value ↔
      Magnitude text value := by
  constructor
  · intro h
    cases hname : namedMagnitude? text with
    | none =>
        rw [hname, Option.orElse_none] at h
        obtain ⟨digits, exponent, hliteral, hrounds⟩ := magnitude?_eq_some_iff.mp h
        exact .decimal hliteral hrounds
    | some named =>
        rw [hname, Option.orElse_some] at h
        cases h
        exact magnitude_of_named hname
  · intro h
    cases h with
    | infinity name =>
        have hread : namedMagnitude? text = some (1 / 0) := if_pos name
        rw [hread, Option.orElse_some]
    | notANumber name =>
        have hread : namedMagnitude? text = some (0 / 0) := by
          unfold IsNamed at name
          unfold namedMagnitude?
          rw [name]
          rfl
        rw [hread, Option.orElse_some]
    | decimal literal rounds =>
        rw [namedMagnitude?_of_decimal literal, Option.orElse_none]
        exact magnitude?_eq_some_iff.mpr ⟨_, _, literal, rounds⟩

theorem float?_eq_some_iff {text : List Char} {value : Float} :
    float? text = some value ↔ NumberLiteral text value := by
  unfold float?
  constructor
  · intro h
    obtain ⟨magnitude, hmagnitude, rfl⟩ := Option.map_eq_some_iff.mp h
    exact .intro (signed_takeSign text) (magnitude_iff.mp hmagnitude)
  · rintro ⟨hsign, hunsigned⟩
    simp only [hsign.takeSign_eq hunsigned.unsigned, magnitude_iff.mpr hunsigned,
      Option.map_some]

end SlashCommand.Decimal
