import SlashCommand.Proofs.Text.Trim
import SlashCommand.Text.Split

/-!
# Cutting a joined text

A text that is made of parts with separators between them is cut into these parts
again, as long as no part holds the separator.
-/

namespace SlashCommand.Text

variable {isCut : Char → Bool}

/-! ## At each character of a class -/

theorem splitAtEach_ne_nil (text : List Char) : splitAtEach isCut text ≠ [] := by
  cases text with
  | nil => simp [splitAtEach]
  | cons c rest =>
      rw [splitAtEach]
      split
      · simp
      · split <;> simp

/-- A text without separators is its only part. -/
theorem splitAtEach_of_forall {text : List Char} (h : ∀ c ∈ text, isCut c = false) :
    splitAtEach isCut text = [text] := by
  induction text with
  | nil => rfl
  | cons c rest ih =>
      have hrest := ih fun d hd => h d (List.mem_cons_of_mem _ hd)
      simp [splitAtEach, h c List.mem_cons_self, hrest]

/-- The text before a separator is the first part. -/
theorem splitAtEach_append {before : List Char} (h : ∀ c ∈ before, isCut c = false) {cut : Char}
    (hcut : isCut cut = true) (after : List Char) :
    splitAtEach isCut (before ++ cut :: after) = before :: splitAtEach isCut after := by
  induction before with
  | nil => simp [splitAtEach, hcut]
  | cons c rest ih =>
      have hrest := ih fun d hd => h d (List.mem_cons_of_mem _ hd)
      simp [splitAtEach, h c List.mem_cons_self, hrest]

/-- The first piece is a front part of the text. -/
theorem isPrefix_of_splitAtEach {text first : List Char} {others : List (List Char)}
    (h : splitAtEach isCut text = first :: others) : first <+: text := by
  induction text generalizing first others with
  | nil =>
      rw [splitAtEach] at h
      cases h
      exact List.nil_prefix
  | cons c rest ih =>
      rw [splitAtEach] at h
      split at h
      · cases h
        exact List.nil_prefix
      · split at h
        next hnil => exact absurd hnil (splitAtEach_ne_nil rest)
        next hrest =>
            cases h
            exact List.cons_prefix_cons.mpr ⟨rfl, ih hrest⟩

/-- Every piece is a part of the text. -/
theorem infix_of_mem_splitAtEach {text part : List Char} (h : part ∈ splitAtEach isCut text) :
    part <:+: text := by
  induction text generalizing part with
  | nil =>
      rw [splitAtEach, List.mem_singleton] at h
      exact h ▸ List.infix_refl []
  | cons c rest ih =>
      rw [splitAtEach] at h
      split at h
      · rcases List.mem_cons.mp h with rfl | hmem
        · exact List.nil_infix
        · exact List.infix_cons (ih hmem)
      · split at h
        next hnil => exact absurd hnil (splitAtEach_ne_nil rest)
        next hrest =>
            rcases List.mem_cons.mp h with rfl | hmem
            · exact (List.cons_prefix_cons.mpr ⟨rfl, isPrefix_of_splitAtEach hrest⟩).isInfix
            · exact List.infix_cons (ih (hrest ▸ List.mem_cons_of_mem _ hmem))

theorem mem_of_mem_splitAtEach {text part : List Char} (h : part ∈ splitAtEach isCut text) :
    ∀ c ∈ part, c ∈ text ∧ isCut c = false := by
  induction text generalizing part with
  | nil =>
      rw [splitAtEach, List.mem_singleton] at h
      simp [h]
  | cons d rest ih =>
      rw [splitAtEach] at h
      split at h
      next =>
          rcases List.mem_cons.mp h with rfl | hmem
          · simp
          · intro c hc
            exact ⟨List.mem_cons_of_mem _ (ih hmem c hc).1, (ih hmem c hc).2⟩
      next hd =>
          split at h
          next hnil => exact absurd hnil (splitAtEach_ne_nil rest)
          next first parts hparts =>
              rw [hparts] at ih
              intro c hc
              rcases List.mem_cons.mp h with rfl | hmem
              · rcases List.mem_cons.mp hc with rfl | hfirst
                · exact ⟨List.mem_cons_self, by simpa using hd⟩
                · have hin := ih List.mem_cons_self c hfirst
                  exact ⟨List.mem_cons_of_mem _ hin.1, hin.2⟩
              · have hin := ih (List.mem_cons_of_mem _ hmem) c hc
                exact ⟨List.mem_cons_of_mem _ hin.1, hin.2⟩

/-! ## Into words -/

/-- Two words with a blank between them are these two words. -/
theorem words_of_pair {first second : List Char} (hfirst : first ≠ [])
    (hfirstWord : ∀ c ∈ first, isBlank c = false) (hsecond : second ≠ [])
    (hsecondWord : ∀ c ∈ second, isBlank c = false) :
    words (first ++ ' ' :: second) = [first, second] := by
  have hblank : isBlank ' ' = true := by decide
  simp [words, splitAtEach_append hfirstWord hblank, splitAtEach_of_forall hsecondWord, hfirst,
    hsecond]

/-- A word is a non-empty text without blanks that is taken from the text. -/
theorem mem_words {text word : List Char} (h : word ∈ words text) :
    word ≠ [] ∧ ∀ c ∈ word, c ∈ text ∧ isBlank c = false := by
  rw [words, List.mem_filter] at h
  exact ⟨by simpa using h.2, mem_of_mem_splitAtEach h.1⟩

theorem infix_of_mem_words {text word : List Char} (h : word ∈ words text) : word <:+: text := by
  rw [words, List.mem_filter] at h
  exact infix_of_mem_splitAtEach h.1

/-- The first word of a text that does not start with a blank starts as the text. -/
theorem words_cons {c : Char} (h : isBlank c = false) (rest : List Char) :
    ∃ word others, words (c :: rest) = (c :: word) :: others := by
  have hne : splitAtEach isBlank rest ≠ [] := splitAtEach_ne_nil rest
  obtain ⟨part, parts, hparts⟩ := List.exists_cons_of_ne_nil hne
  refine ⟨part, parts.filter fun piece => !piece.isEmpty, ?_⟩
  simp [words, splitAtEach, h, hparts]

/-! ## At the first character of a class -/

theorem splitAtFirst?_of_forall {text : List Char} (h : ∀ c ∈ text, isCut c = false) :
    splitAtFirst? isCut text = none := by
  have hnone : (text.dropWhile fun c => !isCut c) = [] := by
    rw [List.dropWhile_eq_nil_iff]
    intro c hc
    simp [h c hc]
  simp [splitAtFirst?, hnone]

theorem splitAtFirst?_append {before : List Char} (h : ∀ c ∈ before, isCut c = false)
    {cut : Char} (hcut : isCut cut = true) (after : List Char) :
    splitAtFirst? isCut (before ++ cut :: after) = some (before, after) := by
  have hpass : ∀ c ∈ before, (!isCut c) = true := fun c hc => by simp [h c hc]
  have hdropped : ((before ++ cut :: after).dropWhile fun c => !isCut c) = cut :: after := by
    rw [List.dropWhile_append_of_pos hpass]
    simp [hcut]
  have htaken : ((before ++ cut :: after).takeWhile fun c => !isCut c) = before := by
    rw [List.takeWhile_append_of_pos hpass]
    simp [hcut]
  simp [splitAtFirst?, hdropped, htaken]

theorem forall_of_splitAtFirst?_eq_none {text : List Char} (h : splitAtFirst? isCut text = none) :
    ∀ c ∈ text, isCut c = false := by
  rw [splitAtFirst?] at h
  split at h
  next hnil =>
      rw [List.dropWhile_eq_nil_iff] at hnil
      intro c hc
      simpa using hnil c hc
  next => cases h

/-- The text before the first separator holds none. -/
theorem mem_of_splitAtFirst? {text before after : List Char}
    (h : splitAtFirst? isCut text = some (before, after)) :
    ∀ c ∈ before, c ∈ text ∧ isCut c = false := by
  rw [splitAtFirst?] at h
  split at h
  next => cases h
  next =>
      cases h
      intro c hc
      exact ⟨(List.takeWhile_prefix _).subset hc, by simpa using List.mem_takeWhile_imp hc⟩

/-! ## At the end -/

theorem beforeEnd?_append (before ending : List Char) :
    beforeEnd? ending (before ++ ending) = some before :=
  beforeEnd?_eq_some_iff.mpr rfl

theorem beforeEnd?_eq_none_iff {ending text : List Char} :
    beforeEnd? ending text = none ↔ ¬ ending <:+ text := by
  rw [← Option.not_isSome_iff_eq_none, Option.isSome_iff_exists]
  refine not_congr ⟨?_, ?_⟩
  · rintro ⟨before, h⟩
    exact ⟨before, (beforeEnd?_eq_some_iff.mp h).symm⟩
  · rintro ⟨before, h⟩
    exact ⟨before, beforeEnd?_eq_some_iff.mpr h.symm⟩

/-! ## Joined texts -/

theorem join_cons_cons (separator text next : String) (rest : List String) :
    join separator (text :: next :: rest) = text ++ separator ++ join separator (next :: rest) :=
  rfl

theorem mem_join {separator : String} {texts : List String} {c : Char}
    (h : c ∈ (join separator texts).toList) :
    c ∈ separator.toList ∨ ∃ text ∈ texts, c ∈ text.toList := by
  induction texts with
  | nil => simp [join] at h
  | cons text rest ih =>
      cases rest with
      | nil => exact Or.inr ⟨text, List.mem_cons_self, h⟩
      | cons next rest =>
          rw [join_cons_cons, String.toList_append, String.toList_append, List.mem_append,
            List.mem_append] at h
          rcases h with (htext | hseparator) | hrest
          · exact Or.inr ⟨text, List.mem_cons_self, htext⟩
          · exact Or.inl hseparator
          · rcases ih hrest with hseparator | ⟨other, hmem, hc⟩
            · exact Or.inl hseparator
            · exact Or.inr ⟨other, List.mem_cons_of_mem _ hmem, hc⟩

/-- A joined text of texts that all end with something other than a blank does so too. -/
theorem join_ending (separator : String) {texts : List String} (hne : texts ≠ [])
    (h : ∀ text ∈ texts, text.toList ≠ [] ∧ ∀ c ∈ text.toList.getLast?, isBlank c = false) :
    (join separator texts).toList ≠ [] ∧
      ∀ c ∈ (join separator texts).toList.getLast?, isBlank c = false := by
  induction texts with
  | nil => exact absurd rfl hne
  | cons text rest ih =>
      cases rest with
      | nil => exact h text List.mem_cons_self
      | cons next rest =>
          obtain ⟨hnonempty, hending⟩ := ih (List.cons_ne_nil next rest)
            fun other hother => h other (List.mem_cons_of_mem text hother)
          rw [join_cons_cons, String.toList_append, List.getLast?_append_of_ne_nil _ hnonempty]
          exact ⟨fun hnil => hnonempty (List.append_eq_nil_iff.mp hnil).2, hending⟩

/-- A joined text ends as the last of the texts does. -/
theorem join_append_last (separator : String) (texts : List String) (last ending : List Char) :
    (join separator (texts ++ [String.ofList (last ++ ending)])).toList =
      (join separator (texts ++ [String.ofList last])).toList ++ ending := by
  induction texts with
  | nil => simp [join]
  | cons text rest ih =>
      cases rest with
      | nil => simp [join]
      | cons next rest =>
          simp only [List.cons_append] at ih ⊢
          rw [join_cons_cons, join_cons_cons]
          simp only [String.toList_append, ih, List.append_assoc]

/-- A joined text is cut at its separators into the texts it was joined from. -/
theorem splitAtEach_join (separator : Char) (hcut : isCut separator = true)
    {texts : List String} (hne : texts ≠ [])
    (h : ∀ text ∈ texts, ∀ c ∈ text.toList, isCut c = false) :
    splitAtEach isCut (join (String.singleton separator) texts).toList =
      texts.map String.toList := by
  induction texts with
  | nil => exact absurd rfl hne
  | cons text rest ih =>
      have htext := h text List.mem_cons_self
      have hrest := fun other hother => h other (List.mem_cons_of_mem text hother)
      cases rest with
      | nil => exact splitAtEach_of_forall htext
      | cons next rest =>
          rw [join_cons_cons]
          simp only [String.toList_append, String.toList_singleton, List.append_assoc,
            List.singleton_append]
          rw [splitAtEach_append htext hcut, ih (List.cons_ne_nil _ _) hrest]
          rfl

end SlashCommand.Text
