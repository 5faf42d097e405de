import Mathlib.Data.List.DropRight
import SlashCommand.Text.Blank

/-!
# Trimming

A text is tight when neither of its ends is blank.  Trimming makes a text tight, and
the tight texts are those that trimming leaves alone.
-/

namespace SlashCommand.Text

/-! ## Tight texts -/

/-- A text neither starts nor ends with a blank character. -/
structure Tight (text : List Char) : Prop where
  start : ∀ c ∈ text.head?, isBlank c = false
  ending : ∀ c ∈ text.getLast?, isBlank c = false

theorem trimEnd_eq_rdropWhile (text : List Char) : trimEnd text = text.rdropWhile isBlank :=
  rfl

theorem trimEnd_of_ending {text : List Char} (h : ∀ c ∈ text.getLast?, isBlank c = false) :
    trimEnd text = text := by
  rw [trimEnd_eq_rdropWhile, List.rdropWhile_eq_self_iff]
  intro hne
  simp [h (text.getLast hne) (List.getLast?_eq_some_getLast hne)]

theorem trimStart_of_start {text : List Char} (h : ∀ c ∈ text.head?, isBlank c = false) :
    trimStart text = text := by
  cases text with
  | nil => rfl
  | cons c rest => simp [trimStart, h c rfl]

theorem Tight.trim_eq {text : List Char} (h : Tight text) : trim text = text := by
  rw [trim, trimStart_of_start h.start, trimEnd_of_ending h.ending]

theorem trimStart_start (text : List Char) : ∀ c ∈ (trimStart text).head?, isBlank c = false := by
  intro c hc
  have hdropped := List.head?_dropWhile_not isBlank text
  rw [trimStart] at hc
  rw [hc] at hdropped
  simpa using hdropped

theorem trimEnd_ending (text : List Char) :
    ∀ c ∈ (trimEnd text).getLast?, isBlank c = false := by
  intro c hc
  rw [trimEnd, List.getLast?_reverse] at hc
  have hdropped := List.head?_dropWhile_not isBlank text.reverse
  rw [hc] at hdropped
  simpa using hdropped

theorem trimEnd_isPrefix (text : List Char) : trimEnd text <+: text :=
  List.rdropWhile_prefix isBlank text

theorem head?_of_isPrefix {small large : List Char} {c : Char} (h : small <+: large)
    (hc : small.head? = some c) : large.head? = some c := by
  obtain ⟨rest, rfl⟩ := h
  cases small with
  | nil => cases hc
  | cons d small => exact hc

/-- A trimmed text is tight. -/
theorem tight_trim (text : List Char) : Tight (trim text) where
  start := fun c hc =>
    trimStart_start text c (head?_of_isPrefix (trimEnd_isPrefix (trimStart text)) hc)
  ending := trimEnd_ending (trimStart text)

/-- Trimming leaves alone exactly the tight texts. -/
theorem trim_eq_self_iff {text : List Char} : trim text = text ↔ Tight text :=
  ⟨fun h => h ▸ tight_trim text, Tight.trim_eq⟩

theorem trim_isInfix (text : List Char) : trim text <:+: text :=
  (trimEnd_isPrefix (trimStart text)).isInfix.trans (List.dropWhile_suffix isBlank).isInfix

/-- Trimming keeps characters and adds none. -/
theorem mem_of_mem_trim {text : List Char} {c : Char} (h : c ∈ trim text) : c ∈ text :=
  List.dropWhile_subset isBlank ((trimEnd_isPrefix (trimStart text)).subset h)

theorem trimEnd_eq_nil_iff {text : List Char} :
    trimEnd text = [] ↔ ∀ c ∈ text, isBlank c = true := by
  rw [trimEnd_eq_rdropWhile, List.rdropWhile_eq_nil_iff]

theorem trim_eq_nil_iff {text : List Char} : trim text = [] ↔ ∀ c ∈ text, isBlank c = true := by
  rw [trim, trimEnd_eq_nil_iff]
  constructor
  · intro h c hc
    rw [← List.takeWhile_append_dropWhile (p := isBlank) (l := text), List.mem_append] at hc
    rcases hc with htaken | hdropped
    · exact List.mem_takeWhile_imp htaken
    · exact h c hdropped
  · intro h c hc
    exact h c (List.dropWhile_subset isBlank hc)

/-- A text that does not start with a blank keeps its first character. -/
theorem trim_cons {c : Char} (h : isBlank c = false) (rest : List Char) :
    ∃ kept, trim (c :: rest) = c :: kept := by
  have hstart : trimStart (c :: rest) = c :: rest := trimStart_of_start fun d hd => by
    cases hd
    exact h
  rw [trim, hstart]
  have hkept : trimEnd (c :: rest) ≠ [] := by
    rw [Ne, trimEnd_eq_nil_iff]
    intro hblank
    rw [hblank c List.mem_cons_self] at h
    cases h
  obtain ⟨d, kept, hlist⟩ := List.exists_cons_of_ne_nil hkept
  have hhead := head?_of_isPrefix (trimEnd_isPrefix (c :: rest)) (c := d) (by rw [hlist]; rfl)
  cases hhead
  exact ⟨kept, hlist⟩

/-! ## Trimming an appended text -/

/-- Blanks behind a text are trimmed away. -/
theorem trimEnd_append_blank {blanks : List Char} (h : ∀ c ∈ blanks, isBlank c = true)
    (text : List Char) : trimEnd (text ++ blanks) = trimEnd text := by
  have hreversed : ∀ c ∈ blanks.reverse, isBlank c = true :=
    fun c hc => h c (List.mem_reverse.mp hc)
  rw [trimEnd, List.reverse_append, List.dropWhile_append_of_pos hreversed, trimEnd]

/-- Behind a text that is not all blank, only its own end is trimmed. -/
theorem trimEnd_append {ending : List Char} (h : trimEnd ending ≠ []) (front : List Char) :
    trimEnd (front ++ ending) = front ++ trimEnd ending := by
  rw [trimEnd, Ne, List.reverse_eq_nil_iff] at h
  rw [trimEnd, List.reverse_append, List.dropWhile_append, if_neg (by simpa using h),
    List.reverse_append, List.reverse_reverse, trimEnd]

theorem trimStart_blank {blanks : List Char} (h : ∀ c ∈ blanks, isBlank c = true) :
    trimStart blanks = [] :=
  List.dropWhile_eq_nil_iff.mpr h

/-- A blank in front of a text is trimmed away. -/
theorem trim_cons_blank {c : Char} (h : isBlank c = true) (rest : List Char) :
    trim (c :: rest) = trim rest := by
  rw [trim, trimStart, List.dropWhile_cons_of_pos h, trim, trimStart]

/-- Trimming the end first makes no difference. -/
theorem trim_trimEnd (text : List Char) : trim (trimEnd text) = trim text := by
  have hblank : ∀ c ∈ text.rtakeWhile isBlank, isBlank c = true :=
    fun c hc => List.mem_rtakeWhile_imp hc
  have hsplit : trimEnd text ++ text.rtakeWhile isBlank = text :=
    List.rdropWhile_append_rtakeWhile
  have hstart : trimStart (trimEnd text ++ text.rtakeWhile isBlank) =
      if (trimStart (trimEnd text)).isEmpty then trimStart (text.rtakeWhile isBlank)
      else trimStart (trimEnd text) ++ text.rtakeWhile isBlank :=
    List.dropWhile_append
  rw [hsplit] at hstart
  rw [trim, trim, hstart]
  split
  next hempty => rw [trimStart_blank hblank, List.isEmpty_iff.mp hempty]
  next => rw [trimEnd_append_blank hblank]

/-! ## Words -/

/-- None of the characters of a text is in a class, as a search of the text tells. -/
theorem forall_of_any_eq_false {inClass : Char → Bool} {text : List Char}
    (h : text.any inClass = false) : ∀ c ∈ text, inClass c = false := by
  simpa using h

theorem tight_of_not_blank {text : List Char} (h : ∀ c ∈ text, isBlank c = false) : Tight text where
  start := fun c hc => h c (List.mem_of_mem_head? hc)
  ending := fun c hc => h c (List.mem_of_mem_getLast? hc)

theorem isVoid_eq_false_iff {text : String} :
    isVoid text = false ↔ trim text.toList ≠ [] := by
  rw [Ne, trim_eq_nil_iff, isVoid]
  simp

theorem isWord_iff {text : String} :
    isWord text = true ↔ text.toList ≠ [] ∧ ∀ c ∈ text.toList, isBlank c = false := by
  simp [isWord, String.toList_eq_nil_iff]

theorem not_void_of_isWord {text : String} (h : isWord text = true) :
    isVoid text = false := by
  obtain ⟨hnonempty, hplain⟩ := isWord_iff.mp h
  obtain ⟨c, hc⟩ := List.exists_mem_of_ne_nil _ hnonempty
  apply List.all_eq_false.mpr
  exact ⟨c, hc, by simp [hplain c hc]⟩

theorem unlessVoid_of_not_void {text : String} (h : isVoid text = false) :
    unlessVoid (some text) = some text := by
  simp [unlessVoid, h]

theorem not_void_of_unlessVoid {given : Option String} {text : String}
    (h : unlessVoid given = some text) : isVoid text = false := by
  rw [unlessVoid, Option.filter_eq_some_iff] at h
  simpa using h.2

end SlashCommand.Text
