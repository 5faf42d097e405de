import SlashCommand.Proofs.Decimal.Literal
import SlashCommand.Resolution.Message

/-!
# Coercing tokens

A token that denotes a value of the datatype of its parameter becomes this value: a literal of 64
bits, a floating-point literal, or one of the words for true and false.  Every other token stays
the text that it is.
-/

namespace SlashCommand.Message

open Decimal

/-- The values texts denote as a datatype.  The datatypes of platform objects and texts have
none. -/
inductive TypedLiteral : DataType → String → Value → Prop where
  | integer {text : String} {word : Int64} (literal : IntegerLiteral text.toList word.toInt) :
      TypedLiteral .integer text (.integer word)
  | number {text : String} {number : Float} (literal : NumberLiteral text.toList number) :
      TypedLiteral .number text (.number number)
  | affirmed {text word : String} (hword : word ∈ ["true", "yes", "on", "1"])
      (named : IsNamed text.toList word) : TypedLiteral .boolean text (.bool true)
  | denied {text word : String} (hword : word ∈ ["false", "no", "off", "0"])
      (named : IsNamed text.toList word) : TypedLiteral .boolean text (.bool false)

/-- What a text becomes as a datatype. -/
inductive Coerces (datatype : DataType) (text : String) : Value → Prop where
  | literal {value : Value} (denoted : TypedLiteral datatype text value) :
      Coerces datatype text value
  | plain (undenoted : ∀ value, ¬ TypedLiteral datatype text value) :
      Coerces datatype text (.text text)

/-! ## Words in any case -/

/-- Only the letter `k` has a capital form beyond ASCII. -/
theorem lowerLetter_eq_iff {c letter : Char} (hk : letter ≠ 'k') (hkelvin : letter ≠ '\u212A') :
    Text.lowerLetter c = letter ↔ c.toLower = letter := by
  unfold Text.lowerLetter
  split
  next hsign =>
      have hlower : '\u212A'.toLower = '\u212A' := by decide
      rw [hsign, hlower]
      exact ⟨fun h => absurd h.symm hk, fun h => absurd h.symm hkelvin⟩
  next => rfl

theorem lower_eq_iff {text word : List Char} (hword : ∀ c ∈ word, c ≠ 'k' ∧ c ≠ '\u212A') :
    Text.lower text = word ↔ text.map Char.toLower = word := by
  unfold Text.lower
  induction text generalizing word with
  | nil => rfl
  | cons c rest ih =>
      cases word with
      | nil => simp
      | cons letter others =>
          obtain ⟨hk, hkelvin⟩ := hword letter List.mem_cons_self
          rw [List.map_cons, List.map_cons, List.cons.injEq, List.cons.injEq,
            lowerLetter_eq_iff hk hkelvin, ih fun d hd => hword d (List.mem_cons_of_mem letter hd)]

theorem contains_lower_iff {words : List String} {text : String}
    (hwords : ∀ word ∈ words, ∀ c ∈ word.toList, c ≠ 'k' ∧ c ≠ '\u212A') :
    words.contains (String.ofList (Text.lower text.toList)) = true ↔
      ∃ word ∈ words, IsNamed text.toList word := by
  rw [List.contains_iff_mem]
  constructor
  · intro h
    refine ⟨_, h, (lower_eq_iff (hwords _ h)).mp ?_⟩
    rw [String.toList_ofList]
  · rintro ⟨word, hmem, hnamed⟩
    rw [(lower_eq_iff (hwords word hmem)).mpr hnamed, String.ofList_toList]
    exact hmem

/-! ## Values of tokens -/

/-- The value a text denotes as a datatype. -/
def literal? (datatype : DataType) (text : String) : Option Value :=
  match datatype with
  | .integer => (word? text.toList).map .integer
  | .number => (float? text.toList).map .number
  | .boolean =>
      let word := String.ofList (Text.lower text.toList)
      if affirmative.contains word then
        some (.bool true)
      else if negative.contains word then
        some (.bool false)
      else
        none
  | _ => none

theorem valueOf_eq (datatype : DataType) (text : String) :
    valueOf datatype text = (literal? datatype text).getD (.text text) := by
  cases datatype with
  | boolean =>
      unfold valueOf literal?
      dsimp only
      split
      next => rfl
      next =>
          split
          next => rfl
          next => rfl
  | _ => rfl

theorem affirmative_iff {text : String} :
    affirmative.contains (String.ofList (Text.lower text.toList)) = true ↔
      ∃ word ∈ ["true", "yes", "on", "1"], IsNamed text.toList word :=
  contains_lower_iff (by simp [affirmative])

theorem negative_iff {text : String} :
    negative.contains (String.ofList (Text.lower text.toList)) = true ↔
      ∃ word ∈ ["false", "no", "off", "0"], IsNamed text.toList word :=
  contains_lower_iff (by simp [negative])

theorem literal?_boolean_iff {text : String} {value : Value} :
    literal? .boolean text = some value ↔ TypedLiteral .boolean text value := by
  unfold literal?
  dsimp only
  split
  next haffirmed =>
      obtain ⟨word, hword, hnamed⟩ := affirmative_iff.mp haffirmed
      constructor
      · rintro ⟨⟩
        exact .affirmed hword hnamed
      · intro h
        cases h with
        | affirmed => rfl
        | denied hother hsame =>
            -- No word is in both rows.
            have hdisjoint : ∀ first ∈ ["true", "yes", "on", "1"],
                ∀ second ∈ ["false", "no", "off", "0"], first.toList ≠ second.toList := by decide
            exact absurd (hnamed.symm.trans hsame) (hdisjoint _ hword _ hother)
  next hplain =>
      split
      next hdenied =>
          obtain ⟨word, hword, hnamed⟩ := negative_iff.mp hdenied
          constructor
          · rintro ⟨⟩
            exact .denied hword hnamed
          · intro h
            cases h with
            | affirmed hother hsame => exact absurd (affirmative_iff.mpr ⟨_, hother, hsame⟩) hplain
            | denied => rfl
      next hneither =>
          constructor
          · intro h
            cases h
          · intro h
            cases h with
            | affirmed hword hnamed => exact absurd (affirmative_iff.mpr ⟨_, hword, hnamed⟩) hplain
            | denied hword hnamed => exact absurd (negative_iff.mpr ⟨_, hword, hnamed⟩) hneither

theorem literal?_eq_some_iff {datatype : DataType} {text : String} {value : Value} :
    literal? datatype text = some value ↔ TypedLiteral datatype text value := by
  cases datatype with
  | integer =>
      constructor
      · intro h
        obtain ⟨word, hword, rfl⟩ := Option.map_eq_some_iff.mp h
        exact .integer (word?_eq_some_iff.mp hword)
      · intro h
        cases h with
        | integer hliteral =>
            exact Option.map_eq_some_iff.mpr ⟨_, word?_eq_some_iff.mpr hliteral, rfl⟩
  | number =>
      constructor
      · intro h
        obtain ⟨number, hnumber, rfl⟩ := Option.map_eq_some_iff.mp h
        exact .number (float?_eq_some_iff.mp hnumber)
      · intro h
        cases h with
        | number hliteral =>
            exact Option.map_eq_some_iff.mpr ⟨_, float?_eq_some_iff.mpr hliteral, rfl⟩
  | boolean => exact literal?_boolean_iff
  | string | user | channel | role | mention =>
      constructor
      · intro h
        cases h
      · intro h
        cases h

/-- The value of a token is what its text becomes as the datatype of its parameter. -/
theorem valueOf_eq_iff {datatype : DataType} {text : String} {value : Value} :
    valueOf datatype text = value ↔ Coerces datatype text value := by
  rw [valueOf_eq]
  cases hliteral : literal? datatype text with
  | some denoted =>
      have hdenoted := literal?_eq_some_iff.mp hliteral
      constructor
      · rintro rfl
        exact .literal hdenoted
      · intro h
        cases h with
        | literal hother =>
            rw [literal?_eq_some_iff.mpr hother] at hliteral
            exact (Option.some.inj hliteral).symm
        | plain hundenoted => exact absurd hdenoted (hundenoted denoted)
  | none =>
      constructor
      · rintro rfl
        refine .plain fun value hvalue => ?_
        rw [literal?_eq_some_iff.mpr hvalue] at hliteral
        cases hliteral
      · intro h
        cases h with
        | literal hdenoted =>
            rw [literal?_eq_some_iff.mpr hdenoted] at hliteral
            cases hliteral
        | plain => rfl

end SlashCommand.Message
