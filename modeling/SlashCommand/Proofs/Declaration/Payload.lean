import Mathlib.Data.List.Chain
import SlashCommand.Declaration.Payload
import SlashCommand.Proofs.Text.Cut

/-!
# Reading a written payload

A text is carried by a payload when it is tight and holds neither the mark between
sections nor a plus sign.  A payload is read back from its written form exactly when its
texts are carried, its choices are there and hold no bar, and its description is not void;
every payload that is read from a text is of this kind.
-/

namespace SlashCommand.Declaration.Payload

/-! ## Texts without a mark -/

/-- The mark between two sections. -/
def sectionMark : List Char :=
  [';', ' ']

/-- No semicolon of a text has a blank right behind it. -/
def Unparted (text : List Char) : Prop :=
  text.IsChain fun c d => ¬ (c = ';' ∧ d = ' ')

instance (text : List Char) : Decidable (Unparted text) :=
  inferInstanceAs (Decidable (text.IsChain fun c d => ¬ (c = ';' ∧ d = ' ')))

/-- The unparted texts are those without a mark. -/
theorem unparted_iff {text : List Char} : Unparted text ↔ ¬ sectionMark <:+: text := by
  rw [Unparted, List.isChain_iff_forall_rel_of_append_cons_cons]
  constructor
  · rintro h ⟨before, after, hsplit⟩
    exact h (by simpa [sectionMark] using hsplit.symm) ⟨rfl, rfl⟩
  · rintro h c d before after hsplit ⟨rfl, rfl⟩
    exact h ⟨before, after, by simpa [sectionMark] using hsplit.symm⟩

theorem unparted_of_not_mem {text : List Char} (h : ' ' ∉ text) : Unparted text := by
  rw [unparted_iff]
  exact fun hin => h (hin.subset (by simp [sectionMark]))

/-- Two texts without a mark form none unless a semicolon meets a blank. -/
theorem Unparted.append {first second : List Char} (hfirst : Unparted first)
    (hsecond : Unparted second)
    (hmeet : first.getLast? ≠ some ';' ∨ second.head? ≠ some ' ') : Unparted (first ++ second) := by
  refine List.IsChain.append hfirst hsecond ?_
  rintro c hc d hd ⟨rfl, rfl⟩
  rcases hmeet with hlast | hhead
  · exact hlast hc
  · exact hhead hd

/-- Joining texts without a mark by bars forms none. -/
theorem unparted_join {texts : List String} (h : ∀ text ∈ texts, Unparted text.toList) :
    Unparted (Text.join "|" texts).toList := by
  induction texts with
  | nil => exact unparted_of_not_mem (by simp [Text.join])
  | cons text rest ih =>
      have htext := h text List.mem_cons_self
      have hrest := ih fun other hother => h other (List.mem_cons_of_mem text hother)
      cases rest with
      | nil => exact htext
      | cons next rest =>
          have hlist : (Text.join "|" (text :: next :: rest)).toList =
              (text.toList ++ ['|']) ++ (Text.join "|" (next :: rest)).toList := by
            rw [Text.join_cons_cons]
            simp
          rw [hlist]
          have hbar : Unparted ['|'] := unparted_of_not_mem (by decide)
          exact (htext.append hbar (Or.inr (by decide))).append hrest (Or.inl (by simp))

/-! ## Sections -/

theorem sections_ne_nil (text : List Char) : sections text ≠ [] := by
  unfold sections
  split
  · simp
  · split <;> simp
  · simp

/-- A character that starts no mark goes to the first section. -/
theorem sections_cons {c : Char} {rest : List Char} (h : ¬ (c = ';' ∧ rest.head? = some ' ')) :
    ∃ first others, sections rest = first :: others ∧
      sections (c :: rest) = (c :: first) :: others := by
  obtain ⟨first, others, hrest⟩ := List.exists_cons_of_ne_nil (sections_ne_nil rest)
  refine ⟨first, others, hrest, ?_⟩
  rw [sections]
  · rw [hrest]
  · rintro tail rfl rfl
    exact h ⟨rfl, rfl⟩

/-- A text without a mark is its only section. -/
theorem sections_of_unparted {text : List Char} (h : Unparted text) : sections text = [text] := by
  induction text with
  | nil => rfl
  | cons c rest ih =>
      obtain ⟨hmeet, hrest⟩ := List.isChain_cons.mp h
      have hmark : ¬ (c = ';' ∧ rest.head? = some ' ') :=
        fun hboth => hmeet ' ' hboth.2 ⟨hboth.1, rfl⟩
      obtain ⟨first, others, hsections, hall⟩ := sections_cons hmark
      rw [ih hrest] at hsections
      cases hsections
      exact hall

/-- The text before a mark is the first section. -/
theorem sections_append {first : List Char} (h : Unparted first) (rest : List Char) :
    sections (first ++ sectionMark ++ rest) = first :: sections rest := by
  induction first with
  | nil => simp [sectionMark, sections]
  | cons c first ih =>
      obtain ⟨hmeet, hfirst⟩ := List.isChain_cons.mp h
      have hmark : ¬ (c = ';' ∧ (first ++ sectionMark ++ rest).head? = some ' ') := by
        rintro ⟨hc, hhead⟩
        cases first with
        | nil => simp [sectionMark] at hhead
        | cons d first => exact hmeet ' ' hhead ⟨hc, rfl⟩
      obtain ⟨head, others, hsections, hall⟩ := sections_cons hmark
      rw [ih hfirst] at hsections
      cases hsections
      exact hall

/-- Sections are made of the characters of the text. -/
theorem mem_of_mem_sections {text part : List Char} (h : part ∈ sections text) :
    ∀ c ∈ part, c ∈ text := by
  induction text using sections.induct generalizing part with
  | case1 rest ih =>
      rw [sections, List.mem_cons] at h
      rcases h with rfl | hmem
      · simp
      · intro c hc
        exact List.mem_cons_of_mem _ (List.mem_cons_of_mem _ (ih hmem c hc))
  | case2 c rest hfree hnil ih => exact absurd hnil (sections_ne_nil rest)
  | case3 c rest hfree first others hrest ih =>
      rw [sections, hrest, List.mem_cons] at h
      · intro d hd
        rcases h with rfl | hmem
        · rcases List.mem_cons.mp hd with rfl | hfirst
          · exact List.mem_cons_self
          · exact List.mem_cons_of_mem _ (ih (hrest ▸ List.mem_cons_self) d hfirst)
        · exact List.mem_cons_of_mem _ (ih (hrest ▸ List.mem_cons_of_mem _ hmem) d hd)
      · exact hfree
  | case4 =>
      rw [sections, List.mem_singleton] at h
      simp [h]

/-! ## Plus signs -/

theorem plusToBlank_blankToPlus {c : Char} (h : c ≠ '+') : plusToBlank (blankToPlus c) = c := by
  unfold blankToPlus
  split
  next hblank => simp [plusToBlank, hblank]
  next => simp [plusToBlank, h]

/-- A text without plus signs is read as it is. -/
theorem map_plusToBlank_of_noPlus {text : List Char} (h : '+' ∉ text) :
    text.map plusToBlank = text := by
  refine (List.map_congr_left fun c hc => ?_).trans (List.map_id text)
  have hne : c ≠ '+' := fun heq => h (heq ▸ hc)
  simp [plusToBlank, hne]

/-- A text without plus signs is read back. -/
theorem map_plusToBlank_blankToPlus {text : List Char} (h : '+' ∉ text) :
    (text.map blankToPlus).map plusToBlank = text := by
  rw [List.map_map]
  refine (List.map_congr_left fun c hc => ?_).trans (List.map_id text)
  exact plusToBlank_blankToPlus fun heq => h (heq ▸ hc)

/-- Spaces are the only blanks that are written away. -/
theorem isBlank_blankToPlus {c : Char} (h : Text.isBlank c = true → c = ' ') :
    Text.isBlank (blankToPlus c) = false := by
  unfold blankToPlus
  split
  next => decide
  next hne => exact Bool.eq_false_iff.mpr fun hblank => hne (h hblank)

/-- What was read holds no plus sign. -/
theorem plusToBlank_ne_plus (c : Char) : plusToBlank c ≠ '+' := by
  unfold plusToBlank
  split
  · decide
  · assumption

/-! ## Reading what was written -/

/-- A text comes back from a payload as it is. -/
structure Carried (text : List Char) : Prop where
  tight : Text.Tight text
  unparted : Unparted text
  noPlus : '+' ∉ text

/-- A choice comes back from a payload as it is. -/
structure CarriedChoice (text : List Char) : Prop extends Carried text where
  nonempty : text ≠ []
  noBar : '|' ∉ text

theorem describedBy_of_carried {description : String} (h : Carried description.toList)
    (hvoid : Text.isVoid description = false) :
    describedBy description.toList = some description := by
  have htrim := Text.isVoid_eq_false_iff.mp hvoid
  rw [h.tight.trim_eq] at htrim
  obtain ⟨c, rest, hlist⟩ := List.exists_cons_of_ne_nil htrim
  rw [describedBy, h.tight.trim_eq, hlist]
  simp [← hlist]

/-- The choices that texts between bars stand for. -/
def chosen (texts : List (List Char)) : List String :=
  ((texts.map Text.trim).filter fun choice => !choice.isEmpty).map String.ofList

theorem chosen_append (first second : List (List Char)) :
    chosen (first ++ second) = chosen first ++ chosen second := by
  simp [chosen]

theorem mem_chosen {texts : List (List Char)} {choice : String} (h : choice ∈ chosen texts) :
    ∃ text ∈ texts, choice.toList = Text.trim text ∧ choice.toList ≠ [] := by
  obtain ⟨kept, hkept, rfl⟩ := List.mem_map.mp h
  obtain ⟨htrimmed, hnonempty⟩ := List.mem_filter.mp hkept
  obtain ⟨text, htext, rfl⟩ := List.mem_map.mp htrimmed
  rw [String.toList_ofList]
  exact ⟨text, htext, rfl, by simpa using hnonempty⟩

theorem chosen_of_carried {choices : List String}
    (h : ∀ choice ∈ choices, CarriedChoice choice.toList) :
    chosen (choices.map String.toList) = choices := by
  unfold chosen
  induction choices with
  | nil => rfl
  | cons choice rest ih =>
      have hchoice := h choice List.mem_cons_self
      have hrest := ih fun other hother => h other (List.mem_cons_of_mem choice hother)
      simp only [List.map_cons, hchoice.tight.trim_eq]
      rw [List.filter_cons_of_pos (by simpa using hchoice.nonempty), List.map_cons, hrest]
      simp

/-- Texts joined by bars are read as the choices they stand for. -/
theorem choicesOf_join_of_noBar {texts : List String} (hne : texts ≠ [])
    (h : ∀ text ∈ texts, '|' ∉ text.toList) :
    choicesOf (Text.join "|" texts).toList = chosen (texts.map String.toList) := by
  have hsplit : Text.splitAtEach (· == '|') (Text.join "|" texts).toList =
      texts.map String.toList := by
    refine Text.splitAtEach_join '|' rfl hne fun text htext c hc => ?_
    have hbar : c ≠ '|' := fun heq => h text htext (heq ▸ hc)
    simpa using hbar
  rw [choicesOf, hsplit, chosen]

/-- Choices joined by bars are read back. -/
theorem choicesOf_join {choices : List String}
    (h : ∀ choice ∈ choices, CarriedChoice choice.toList) :
    choicesOf (Text.join "|" choices).toList = choices := by
  by_cases hempty : choices = []
  · subst hempty
    decide
  · rw [choicesOf_join_of_noBar hempty fun choice hchoice => (h choice hchoice).noBar,
      chosen_of_carried h]

/-- The characters of a payload before blanks are written as plus signs. -/
theorem write_toList (payload : Payload) :
    payload.write.toList =
      (payload.head.toList ++ (tail payload.description payload.choices).toList).map
        blankToPlus := by
  simp [write]

theorem tail_described {description : String} (h : Text.isVoid description = false) :
    (tail (some description) none).toList = sectionMark ++ description.toList := by
  simp [tail, Text.unlessVoid_of_not_void h, sectionMark]

theorem tail_choices {description : String} (h : Text.isVoid description = false)
    (choices : List String) :
    (tail (some description) (some choices)).toList =
      sectionMark ++ (description.toList ++ sectionMark ++ (Text.join "|" choices).toList) := by
  simp [tail, Text.unlessVoid_of_not_void h, sectionMark]

/-- What a payload is written as, without its choices. -/
theorem write_described {head description : String} (h : Text.isVoid description = false) :
    (write ⟨head, some description, none⟩).toList =
      (head.toList ++ sectionMark ++ description.toList).map blankToPlus := by
  rw [write_toList, tail_described h, List.append_assoc]

/-- What a payload with choices is written as. -/
theorem write_choices {head description : String} (h : Text.isVoid description = false)
    (choices : List String) :
    (write ⟨head, some description, some choices⟩).toList =
      (head.toList ++ sectionMark ++
        (description.toList ++ sectionMark ++ (Text.join "|" choices).toList)).map
          blankToPlus := by
  rw [write_toList, tail_choices h, ← List.append_assoc]

theorem noPlus_join {texts : List String} (h : ∀ text ∈ texts, '+' ∉ text.toList) :
    '+' ∉ (Text.join "|" texts).toList := by
  intro hplus
  rcases Text.mem_join hplus with hbar | ⟨text, hmem, hc⟩
  · exact absurd hbar (by decide)
  · exact h text hmem hc

theorem read_of_sections {text : List Char} {parts : List (List Char)}
    (h : sections (text.map plusToBlank) = parts) :
    read text =
      { head := String.ofList (Text.trim (parts.headD []))
        description := (parts[1]?).bind describedBy
        choices := (parts[2]?).map choicesOf } := by
  rw [read, h]

theorem sectionMark_noPlus : '+' ∉ sectionMark := by decide

/-- What is written behind a head and one mark is read as a description. -/
theorem read_two_sections {head : String} {rest : List Char} (hhead : Carried head.toList)
    (hrest : Unparted rest) (hplus : '+' ∉ rest) :
    read ((head.toList ++ sectionMark ++ rest).map blankToPlus) =
      ⟨head, describedBy rest, none⟩ := by
  have hall : '+' ∉ head.toList ++ sectionMark ++ rest := by
    simp [hhead.noPlus, sectionMark_noPlus, hplus]
  have hparts : sections (head.toList ++ sectionMark ++ rest) = [head.toList, rest] := by
    rw [sections_append hhead.unparted, sections_of_unparted hrest]
  rw [read_of_sections ((congrArg sections (map_plusToBlank_blankToPlus hall)).trans hparts)]
  simp [hhead.tight.trim_eq]

/-- What is written between two marks is read as a description, and what stands behind the
second one as a list of choices. -/
theorem read_between_marks {head : String} {middle rest : List Char} (hhead : Carried head.toList)
    (hmiddle : Unparted middle) (hmiddlePlus : '+' ∉ middle) (hrest : Unparted rest)
    (hplus : '+' ∉ rest) :
    read ((head.toList ++ sectionMark ++ (middle ++ sectionMark ++ rest)).map blankToPlus) =
      ⟨head, describedBy middle, some (choicesOf rest)⟩ := by
  have hall : '+' ∉ head.toList ++ sectionMark ++ (middle ++ sectionMark ++ rest) := by
    simp [hhead.noPlus, sectionMark_noPlus, hmiddlePlus, hplus]
  have hparts : sections (head.toList ++ sectionMark ++ (middle ++ sectionMark ++ rest)) =
      [head.toList, middle, rest] := by
    rw [sections_append hhead.unparted, sections_append hmiddle, sections_of_unparted hrest]
  rw [read_of_sections ((congrArg sections (map_plusToBlank_blankToPlus hall)).trans hparts)]
  simp [hhead.tight.trim_eq]

/-- What is written behind a second mark is read as a list of choices. -/
theorem read_three_sections {head description : String} {rest : List Char}
    (hhead : Carried head.toList) (hdescription : Carried description.toList)
    (hvoid : Text.isVoid description = false) (hrest : Unparted rest) (hplus : '+' ∉ rest) :
    read ((head.toList ++ sectionMark ++ (description.toList ++ sectionMark ++ rest)).map
      blankToPlus) = ⟨head, some description, some (choicesOf rest)⟩ := by
  rw [read_between_marks hhead hdescription.unparted hdescription.noPlus hrest hplus,
    describedBy_of_carried hdescription hvoid]

/-- What stands in front of the first mark is read as the head. -/
theorem read_head {text first rest : List Char}
    (h : text.map plusToBlank = first ++ sectionMark ++ rest) (hfirst : Unparted first) :
    (read text).head = String.ofList (Text.trim first) := by
  rw [read_of_sections ((congrArg sections h).trans (sections_append hfirst rest))]
  rfl

/-- A payload whose texts are carried is read back from its written form. -/
theorem read_write {head description : String} {choices : Option (List String)}
    (hhead : Carried head.toList) (hdescription : Carried description.toList)
    (hvoid : Text.isVoid description = false)
    (hchoices : ∀ listed ∈ choices, ∀ choice ∈ listed, CarriedChoice choice.toList) :
    read (write ⟨head, some description, choices⟩).toList =
      ⟨head, some description, choices⟩ := by
  cases choices with
  | none =>
      rw [write_described hvoid,
        read_two_sections hhead hdescription.unparted hdescription.noPlus,
        describedBy_of_carried hdescription hvoid]
  | some listed =>
      have hlisted := hchoices listed rfl
      have hbars : Unparted (Text.join "|" listed).toList :=
        unparted_join fun choice hmem => (hlisted choice hmem).unparted
      rw [write_choices hvoid,
        read_three_sections hhead hdescription hvoid hbars
          (noPlus_join fun choice hmem => (hlisted choice hmem).noPlus),
        choicesOf_join hlisted]

theorem space_not_mem_of_word {word : List Char} (h : ∀ c ∈ word, Text.isBlank c = false) :
    ' ' ∉ word := by
  intro hmem
  have hblank := h ' ' hmem
  revert hblank
  decide

/-- A word without plus signs is carried by a payload. -/
theorem carried_of_word {word : List Char} (h : ∀ c ∈ word, Text.isBlank c = false)
    (hplus : '+' ∉ word) : Carried word where
  tight := Text.tight_of_not_blank h
  unparted := unparted_of_not_mem (space_not_mem_of_word h)
  noPlus := hplus

/-- A text that is carried is the head of a payload without further parts. -/
theorem read_of_carried {text : List Char} (h : Carried text) :
    read text = ⟨String.ofList text, none, none⟩ := by
  rw [read, map_plusToBlank_of_noPlus h.noPlus, sections_of_unparted h.unparted]
  simp [h.tight.trim_eq]

/-! ## What a read payload holds -/

/-- The head is a tight text of the characters read. -/
theorem mem_head {text : List Char} {c : Char} (h : c ∈ (read text).head.toList) :
    c ∈ text.map plusToBlank := by
  simp only [read, String.toList_ofList] at h
  have htrimmed := Text.mem_of_mem_trim h
  obtain ⟨first, others, hsections⟩ :=
    List.exists_cons_of_ne_nil (sections_ne_nil (text.map plusToBlank))
  have hfirst : first ∈ sections (text.map plusToBlank) := by
    rw [hsections]
    exact List.mem_cons_self
  rw [hsections] at htrimmed
  exact mem_of_mem_sections hfirst c htrimmed

/-- The head holds no plus sign. -/
theorem ne_plus_of_mem_head {text : List Char} {c : Char} (h : c ∈ (read text).head.toList) :
    c ≠ '+' := by
  obtain ⟨d, _, rfl⟩ := List.mem_map.mp (mem_head h)
  exact plusToBlank_ne_plus d

/-- A character of the head that is not blank stands in the text. -/
theorem mem_of_mem_head {text : List Char} {c : Char} (h : c ∈ (read text).head.toList)
    (hblank : Text.isBlank c = false) : c ∈ text := by
  obtain ⟨d, hd, rfl⟩ := List.mem_map.mp (mem_head h)
  unfold plusToBlank at hblank ⊢
  split
  next hplus =>
      rw [if_pos hplus] at hblank
      exact absurd hblank (by decide)
  next => exact hd

/-- A text that starts with neither blank, plus sign nor semicolon has a head that
starts as the text. -/
theorem head_cons {c : Char} (hblank : Text.isBlank c = false) (hplus : c ≠ '+') (hmark : c ≠ ';')
    (rest : List Char) : (read (c :: rest)).head.toList.head? = some c := by
  have hkept : plusToBlank c = c := by simp [plusToBlank, hplus]
  have hnone : ¬ (c = ';' ∧ (rest.map plusToBlank).head? = some ' ') := fun h => hmark h.1
  obtain ⟨first, others, _, hall⟩ := sections_cons hnone
  rw [← hkept, ← List.map_cons, hkept] at hall
  obtain ⟨kept, htrim⟩ := Text.trim_cons hblank first
  rw [read_of_sections hall]
  simp [htrim]

/-- The first section starts as the text. -/
theorem head?_of_sections {text first : List Char} {others : List (List Char)}
    (h : sections text = first :: others) {c : Char} (hc : first.head? = some c) :
    text.head? = some c := by
  unfold sections at h
  split at h
  next =>
      cases h
      cases hc
  next => split at h <;> cases h <;> exact hc
  next =>
      cases h
      cases hc

/-- Sections hold no mark. -/
theorem unparted_of_mem_sections {text part : List Char} (h : part ∈ sections text) :
    Unparted part := by
  induction text using sections.induct generalizing part with
  | case1 rest ih =>
      rw [sections, List.mem_cons] at h
      rcases h with rfl | hmem
      · exact unparted_of_not_mem (by simp)
      · exact ih hmem
  | case2 c rest hfree hnil ih => exact absurd hnil (sections_ne_nil rest)
  | case3 c rest hfree first others hrest ih =>
      rw [sections, hrest, List.mem_cons] at h
      · rcases h with rfl | hmem
        · refine List.isChain_cons.mpr ⟨fun d hd => ?_, ih (hrest ▸ List.mem_cons_self)⟩
          rintro ⟨rfl, rfl⟩
          obtain ⟨tail, rfl⟩ := List.head?_eq_some_iff.mp (head?_of_sections hrest hd)
          exact hfree tail rfl rfl
        · exact ih (hrest ▸ List.mem_cons_of_mem _ hmem)
      · exact hfree
  | case4 =>
      rw [sections, List.mem_singleton] at h
      exact h ▸ unparted_of_not_mem (by simp)

/-- A trimmed part of a section is carried. -/
theorem carried_trim {content part piece : List Char}
    (hpart : part ∈ sections (content.map plusToBlank)) (hpiece : piece <:+: part) :
    Carried (Text.trim piece) where
  tight := Text.tight_trim piece
  unparted := by
    have hsection := unparted_iff.mp (unparted_of_mem_sections hpart)
    exact unparted_iff.mpr fun hin =>
      hsection ((hin.trans (Text.trim_isInfix piece)).trans hpiece)
  noPlus := by
    intro hmem
    have hin := mem_of_mem_sections hpart _ (hpiece.subset (Text.mem_of_mem_trim hmem))
    obtain ⟨c, _, hc⟩ := List.mem_map.mp hin
    exact plusToBlank_ne_plus c hc

/-- A description that was read is carried, and its characters were read. -/
theorem description_carried {content : List Char} {description : String}
    (h : (read content).description = some description) :
    Carried description.toList ∧ Text.isVoid description = false ∧
      ∀ c ∈ description.toList, c ∈ content.map plusToBlank := by
  obtain ⟨part, hpart, hdescribed⟩ := Option.bind_eq_some_iff.mp h
  have hmem := List.mem_of_getElem? hpart
  unfold describedBy at hdescribed
  split at hdescribed
  next => cases hdescribed
  next hne =>
      cases hdescribed
      have hcarried := carried_trim hmem (List.infix_refl part)
      rw [String.toList_ofList]
      refine ⟨hcarried, ?_, fun c hc => mem_of_mem_sections hmem c (Text.mem_of_mem_trim hc)⟩
      rw [Text.isVoid_eq_false_iff, String.toList_ofList, hcarried.tight.trim_eq]
      exact hne

/-- Choices that were read are carried, and their characters were read. -/
theorem choices_carried {content : List Char} {listed : List String}
    (h : (read content).choices = some listed) {choice : String} (hchoice : choice ∈ listed) :
    CarriedChoice choice.toList ∧ ∀ c ∈ choice.toList, c ∈ content.map plusToBlank := by
  obtain ⟨part, hpart, rfl⟩ := Option.map_eq_some_iff.mp h
  have hmem := List.mem_of_getElem? hpart
  obtain ⟨piece, hpiece, htrimmed, hnonempty⟩ := mem_chosen hchoice
  have hchars := Text.mem_of_mem_splitAtEach hpiece
  rw [htrimmed] at hnonempty ⊢
  refine ⟨⟨carried_trim hmem (Text.infix_of_mem_splitAtEach hpiece), hnonempty, fun hbar => ?_⟩,
    fun c hc => ?_⟩
  · have hcut := (hchars '|' (Text.mem_of_mem_trim hbar)).2
    cases hcut
  · exact mem_of_mem_sections hmem c (hchars c (Text.mem_of_mem_trim hc)).1

/-! ## Payloads that are written and read back -/

/-- A payload as reading finds them: its texts are carried, its choices are not empty and hold
no bar, and its description is not void. -/
structure Encodable (payload : Payload) : Prop where
  head : Carried payload.head.toList
  description : ∀ text ∈ payload.description, Carried text.toList ∧ Text.isVoid text = false
  choices : ∀ listed ∈ payload.choices, ∀ choice ∈ listed, CarriedChoice choice.toList

/-- Whatever is read is encodable. -/
theorem encodable_read (text : List Char) : (read text).Encodable where
  head := by
    obtain ⟨first, others, hsections⟩ :=
      List.exists_cons_of_ne_nil (sections_ne_nil (text.map plusToBlank))
    have hfirst : first ∈ sections (text.map plusToBlank) := by
      rw [hsections]
      exact List.mem_cons_self
    rw [read_of_sections hsections, String.toList_ofList]
    exact carried_trim hfirst (List.infix_refl first)
  description := fun _ h =>
    ⟨(description_carried h).1, (description_carried h).2.1⟩
  choices := fun _ h _ hchoice => (choices_carried h hchoice).1

/-- A payload without a description is read back.  The blank that is written in its place in
front of choices is no description. -/
theorem read_write_undescribed {head : String} {choices : Option (List String)}
    (hhead : Carried head.toList)
    (hchoices : ∀ listed ∈ choices, ∀ choice ∈ listed, CarriedChoice choice.toList) :
    read (write ⟨head, none, choices⟩).toList = ⟨head, none, choices⟩ := by
  cases choices with
  | none =>
      have hwritten : (write ⟨head, none, none⟩).toList = head.toList.map blankToPlus := by
        rw [write_toList]
        simp [tail, Text.unlessVoid]
      have hparts := (congrArg sections (map_plusToBlank_blankToPlus hhead.noPlus)).trans
        (sections_of_unparted hhead.unparted)
      rw [hwritten, read_of_sections hparts]
      simp [hhead.tight.trim_eq]
  | some listed =>
      have hlisted := hchoices listed rfl
      have hwritten : (write ⟨head, none, some listed⟩).toList =
          (head.toList ++ sectionMark ++
            ([' '] ++ sectionMark ++ (Text.join "|" listed).toList)).map blankToPlus := by
        rw [write_toList]
        simp [tail, Text.unlessVoid, blankDescription, sectionMark]
      have hbars : Unparted (Text.join "|" listed).toList :=
        unparted_join fun choice hmem => (hlisted choice hmem).unparted
      have hblank : Unparted [' '] := List.isChain_singleton ' '
      rw [hwritten, read_between_marks hhead hblank (by decide) hbars
        (noPlus_join fun choice hmem => (hlisted choice hmem).noPlus), choicesOf_join hlisted]
      rfl

/-- Encodable payloads are read back from their written form. -/
theorem Encodable.read_write {payload : Payload} (h : payload.Encodable) :
    read payload.write.toList = payload := by
  obtain ⟨head, description, choices⟩ := payload
  cases description with
  | none => exact read_write_undescribed h.head h.choices
  | some text =>
      obtain ⟨hcarried, hvoid⟩ := h.description text rfl
      exact Payload.read_write h.head hcarried hvoid h.choices

/-- The texts of a payload. -/
def texts (payload : Payload) : List String :=
  payload.head :: (payload.description.toList ++ payload.choices.getD [])

/-- The only blanks in the texts of a payload are spaces. -/
def Spaced (payload : Payload) : Prop :=
  ∀ text ∈ payload.texts, ∀ c ∈ text.toList, Text.isBlank c = true → c = ' '

/-- What follows the head of a payload is made of its texts, marks and bars. -/
theorem mem_tail {description : Option String} {choices : Option (List String)} {c : Char}
    (h : c ∈ (tail description choices).toList) :
    c ∈ [';', ' ', '|'] ∨ ∃ text ∈ description.toList ++ choices.getD [], c ∈ text.toList := by
  have hseparator : "; ".toList = [';', ' '] := rfl
  have hdescribed : ∀ text ∈ Text.unlessVoid description, text ∈ description.toList :=
    fun text htext => Option.mem_toList.mpr (Option.filter_eq_some_iff.mp htext).1
  unfold tail at h
  split at h
  next => cases h
  next _ _ text hgiven =>
      rw [String.toList_append, List.mem_append, hseparator] at h
      rcases h with hmark | htext
      · exact Or.inl (List.mem_append_left ['|'] hmark)
      · exact Or.inr ⟨text, List.mem_append_left _ (hdescribed text hgiven), htext⟩
  next listed =>
      simp only [String.toList_append, List.mem_append, hseparator] at h
      rcases h with ((hmark | htext) | hmark) | hlisted
      · exact Or.inl (List.mem_append_left ['|'] hmark)
      · cases hgiven : Text.unlessVoid description with
        | none =>
            rw [hgiven] at htext
            exact Or.inl (List.mem_append_left ['|'] (List.mem_cons_of_mem _ htext))
        | some text =>
            rw [hgiven] at htext
            exact Or.inr ⟨text, List.mem_append_left _ (hdescribed text hgiven), htext⟩
      · exact Or.inl (List.mem_append_left ['|'] hmark)
      · rcases Text.mem_join hlisted with hbar | ⟨text, htext, hin⟩
        · exact Or.inl (List.mem_append_right [';', ' '] hbar)
        · exact Or.inr ⟨text, List.mem_append_right _ htext, hin⟩

/-- A payload whose only blanks are spaces is written as one word. -/
theorem Spaced.write_unbroken {payload : Payload} (h : payload.Spaced) :
    ∀ c ∈ payload.write.toList, Text.isBlank c = false := by
  intro c hc
  rw [write_toList] at hc
  obtain ⟨d, hd, rfl⟩ := List.mem_map.mp hc
  refine isBlank_blankToPlus fun hblank => ?_
  rcases List.mem_append.mp hd with hhead | htail
  · exact h payload.head List.mem_cons_self d hhead hblank
  · rcases mem_tail htail with hmark | ⟨text, htext, hin⟩
    · have hmarks : [';', ' ', '|'].all (fun mark => !Text.isBlank mark || mark == ' ') = true := by
        decide
      have hgap := List.all_eq_true.mp hmarks d hmark
      simpa [hblank] using hgap
    · exact h text (List.mem_cons_of_mem _ htext) d hin hblank

/-- Reading undoes writing for exactly the encodable payloads, and whatever is read is one of
them, so that writing what was read and reading it again changes nothing.  A payload whose only
blanks are spaces is written without blanks. -/
theorem read_write_iff_encodable :
    (∀ payload : Payload, read payload.write.toList = payload ↔ payload.Encodable) ∧
      (∀ text, (read text).Encodable ∧ read (read text).write.toList = read text) ∧
      ∀ payload : Payload, payload.Spaced → ∀ c ∈ payload.write.toList, Text.isBlank c = false := by
  refine ⟨fun payload => ⟨fun h => ?_, Encodable.read_write⟩, fun text => ?_,
    fun _ => Spaced.write_unbroken⟩
  · rw [← h]
    exact encodable_read payload.write.toList
  · exact ⟨encodable_read text, (encodable_read text).read_write⟩

/-- Choices without a description, behind a head that ends as a mark begins. -/
def loaves : Payload :=
  ⟨"item;", none, some ["two loaves;", "rolls"]⟩

theorem loaves_read_back :
    loaves.Encodable ∧ loaves.Spaced ∧ loaves.write = "item;;++;+two+loaves;|rolls" ∧
      read loaves.write.toList = loaves ∧
        ∀ c ∈ loaves.write.toList, Text.isBlank c = false := by
  have hhead : Carried "item;".toList :=
    ⟨Text.trim_eq_self_iff.mp (by decide), by decide, by decide⟩
  have hlisted : ∀ choice ∈ ["two loaves;", "rolls"], CarriedChoice choice.toList := by
    have hchoices : ∀ choice ∈ ["two loaves;", "rolls"],
        Text.trim choice.toList = choice.toList ∧ Unparted choice.toList ∧
          '+' ∉ choice.toList ∧ choice.toList ≠ [] ∧ '|' ∉ choice.toList := by decide
    intro choice hmem
    obtain ⟨htrim, hunparted, hplus, hnonempty, hbar⟩ := hchoices choice hmem
    exact ⟨⟨Text.trim_eq_self_iff.mp htrim, hunparted, hplus⟩, hnonempty, hbar⟩
  have hencodable : loaves.Encodable :=
    { head := hhead
      description := fun _ hnone => by cases hnone
      choices := fun _ hsome => by
        cases hsome
        exact hlisted }
  have hspaced : loaves.Spaced := by
    have hblanks : ∀ text ∈ ["item;", "two loaves;", "rolls"],
        text.toList.all (fun c => !Text.isBlank c || c == ' ') = true := by decide
    intro text htext c hc hblank
    have hgap := List.all_eq_true.mp (hblanks text htext) c hc
    simpa [hblank] using hgap
  obtain ⟨hread, _, hunbroken⟩ := read_write_iff_encodable
  exact ⟨hencodable, hspaced, rfl, (hread loaves).mpr hencodable, hunbroken loaves hspaced⟩

end SlashCommand.Declaration.Payload
