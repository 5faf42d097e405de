import Mathlib.Data.List.Forall2
import Mathlib.Data.List.GetD
import Mathlib.Data.List.Induction
import SlashCommand.Proofs.Message.Extraction

/-!
# What the tokens of a message show

A token shows its text, and nothing if it is quoted.  Taking flags out of a message goes by
what the tokens show and by nothing else: rules that never see a quoted text tell the
positions of the tokens that are left, of the flags, and of the values these take.
-/

namespace SlashCommand.Message

/-! ## Shown texts -/

/-- What a token shows: its text, nothing if it is quoted. -/
def Token.shown (token : Token) : Option String :=
  if token.quoted then none else some token.text

theorem Token.shown_eq_some_iff {token : Token} {text : String} :
    token.shown = some text ↔ token = ⟨text, false⟩ := by
  obtain ⟨content, quoted⟩ := token
  cases quoted <;> simp [shown]

/-- A token spells a flag when it shows one. -/
theorem Token.isAmong_iff_shown {token : Token} {flags : List String} :
    token.isAmong flags = true ↔ ∃ text ∈ token.shown, text ∈ flags := by
  obtain ⟨content, quoted⟩ := token
  cases quoted <;> simp [shown, isAmong]

theorem Token.isAmong_eq_false_iff_shown {token : Token} {flags : List String} :
    token.isAmong flags = false ↔ ∀ text ∈ token.shown, text ∉ flags := by
  rw [← Bool.not_eq_true, isAmong_iff_shown]
  simp

/-- The texts of two rows of tokens differ inside quotations only. -/
def AlikeOutside (first second : List Token) : Prop :=
  List.Forall₂ (fun token other => token.quoted = other.quoted ∧
    (token.quoted = false → token.text = other.text)) first second

theorem AlikeOutside.refl (tokens : List Token) : AlikeOutside tokens tokens :=
  List.forall₂_same.mpr fun _ _ => ⟨rfl, fun _ => rfl⟩

theorem Token.shown_eq_shown {token other : Token} (hquoted : token.quoted = other.quoted)
    (htext : token.quoted = false → token.text = other.text) : token.shown = other.shown := by
  unfold shown
  rw [← hquoted]
  split
  next => rfl
  next hplain => rw [htext (Bool.eq_false_iff.mpr hplain)]

/-! ## Rows by position -/

/-- The token at a position, an empty quotation behind the end. -/
def tokenAt (tokens : List Token) (position : Nat) : Token :=
  tokens.getD position ⟨"", true⟩

/-- The tokens at all positions show some given texts. -/
def Shows (shown : Nat → Option String) (row : Nat → Token) : Prop :=
  ∀ position, (row position).shown = shown position

theorem map_tokenAt (tokens : List Token) :
    (List.range tokens.length).map (tokenAt tokens) = tokens := by
  refine List.ext_getElem (by simp) fun position hrange htokens => ?_
  rw [List.getElem_map, List.getElem_range, tokenAt, List.getD_eq_getElem _ _ htokens]

/-- A text is shown in a row only by an unquoted token of it. -/
theorem getElem?_of_shown {tokens : List Token} {position : Nat} {text : String}
    (h : (tokenAt tokens position).shown = some text) :
    tokens[position]? = some ⟨text, false⟩ := by
  have htoken := Token.shown_eq_some_iff.mp h
  rw [tokenAt, List.getD_eq_getElem?_getD] at htoken
  cases hfound : tokens[position]? with
  | none =>
      rw [hfound] at htoken
      cases htoken
  | some token =>
      rw [hfound] at htoken
      exact congrArg some htoken

/-- Rows whose texts differ inside quotations only show the same at every position. -/
theorem AlikeOutside.shows {first second : List Token} (h : AlikeOutside first second) :
    Shows (fun position => (tokenAt first position).shown) (tokenAt second) := by
  induction h with
  | nil => exact fun _ => rfl
  | cons halike _ ih =>
      rintro (_ | position)
      · exact (Token.shown_eq_shown halike.1 halike.2).symm
      · exact ih position

namespace Shows

variable {shown : Nat → Option String} {row : Nat → Token} {position : Nat} {flags : List String}

theorem isAmong (h : Shows shown row) (hflag : ∃ text ∈ shown position, text ∈ flags) :
    (row position).isAmong flags = true :=
  Token.isAmong_iff_shown.mpr ((h position).symm ▸ hflag)

theorem not_isAmong (h : Shows shown row) (hnot : ∀ text ∈ shown position, text ∉ flags) :
    (row position).isAmong flags = false :=
  Token.isAmong_eq_false_iff_shown.mpr ((h position).symm ▸ hnot)

theorem text_eq (h : Shows shown row) {text : String} (htext : shown position = some text) :
    (row position).text = text := by
  rw [Token.shown_eq_some_iff.mp ((h position).trans htext)]

end Shows

/-! ## Extraction by position -/

/-- A flag of a message: the position at which it stands, and that of the token whose text is
its value. -/
structure Mark where
  flag : String
  stands : Nat
  source : Nat

/-- The occurrence of a marked flag in a row. -/
def Mark.occurrence (row : Nat → Token) (mark : Mark) : String × String :=
  (mark.flag, (row mark.source).text)

/-- A marked flag stands at one of some positions, shown there, and takes its value from one
of them. -/
structure Mark.Sound (mark : Mark) (shown : Nat → Option String) (positions : List Nat) :
    Prop where
  shown : shown mark.stands = some mark.flag
  stands : mark.stands ∈ positions
  source : mark.source ∈ positions

theorem Mark.Sound.mono {mark : Mark} {shown : Nat → Option String} {part positions : List Nat}
    (h : mark.Sound shown part) (hpart : part ⊆ positions) : mark.Sound shown positions :=
  ⟨h.shown, hpart h.stands, hpart h.source⟩

variable {flags known : List String} {shown : Nat → Option String}

/-- From the tokens at some positions flags are extracted: the positions that are left, and the
marks of the flags. -/
inductive Extracts (flags known : List String) (shown : Nat → Option String) :
    List Nat → List Nat → List Mark → Prop where
  | nil : Extracts flags known shown [] [] []
  /-- A token that shows no flag is left. -/
  | pass {position : Nat} {rest left : List Nat} {marks : List Mark}
      (hshown : ∀ text ∈ shown position, text ∉ flags)
      (hrest : Extracts flags known shown rest left marks) :
      Extracts flags known shown (position :: rest) (position :: left) marks
  /-- A flag at the end has its own token for a value. -/
  | last {position : Nat} {flag : String} (hshown : shown position = some flag)
      (hflag : flag ∈ flags) : Extracts flags known shown [position] [] [⟨flag, position, position⟩]
  /-- A flag in front of a known flag has its own token for a value. -/
  | bare {position next : Nat} {rest left : List Nat} {marks : List Mark} {flag : String}
      (hshown : shown position = some flag) (hflag : flag ∈ flags)
      (hnext : ∃ text ∈ shown next, text ∈ known)
      (hrest : Extracts flags known shown (next :: rest) left marks) :
      Extracts flags known shown (position :: next :: rest) left
        (⟨flag, position, position⟩ :: marks)
  /-- A flag takes any other token behind it. -/
  | valued {position next : Nat} {rest left : List Nat} {marks : List Mark} {flag : String}
      (hshown : shown position = some flag) (hflag : flag ∈ flags)
      (hnext : ∀ text ∈ shown next, text ∉ known)
      (hrest : Extracts flags known shown rest left marks) :
      Extracts flags known shown (position :: next :: rest) left
        (⟨flag, position, next⟩ :: marks)

/-- Whatever is shown, there is a way to extract flags. -/
theorem exists_extracts (flags known : List String) (shown : Nat → Option String)
    (positions : List Nat) : ∃ left marks, Extracts flags known shown positions left marks := by
  -- A flag may take the token behind it, so the induction goes by two positions.
  induction positions using List.twoStepInduction with
  | nil => exact ⟨[], [], .nil⟩
  | singleton position =>
      by_cases hflag : ∃ text ∈ shown position, text ∈ flags
      · obtain ⟨flag, hshown, hmem⟩ := hflag
        exact ⟨[], _, .last hshown hmem⟩
      · exact ⟨[position], [], .pass (fun text hshown hmem => hflag ⟨text, hshown, hmem⟩) .nil⟩
  | cons_cons position next rest hbehind hrest =>
      obtain ⟨left, marks, hnext⟩ := hrest next
      by_cases hflag : ∃ text ∈ shown position, text ∈ flags
      · obtain ⟨flag, hshown, hmem⟩ := hflag
        by_cases hknown : ∃ text ∈ shown next, text ∈ known
        · exact ⟨left, _, .bare hshown hmem hknown hnext⟩
        · obtain ⟨others, more, hothers⟩ := hbehind
          exact ⟨others, _, .valued hshown hmem
            (fun text hshown hmem => hknown ⟨text, hshown, hmem⟩) hothers⟩
      · exact ⟨position :: left, marks,
          .pass (fun text hshown hmem => hflag ⟨text, hshown, hmem⟩) hnext⟩

namespace Extracts

variable {positions left : List Nat} {marks : List Mark}

/-- Every row that shows the same is extracted so. -/
theorem extract_map (h : Extracts flags known shown positions left marks) {row : Nat → Token}
    (hrow : Shows shown row) :
    extract flags known (positions.map row) =
      ⟨left.map row, marks.map (Mark.occurrence row)⟩ := by
  induction h with
  | nil => rfl
  | pass hshown _ ih =>
      rw [List.map_cons, extract_cons_of_not_isAmong (hrow.not_isAmong hshown), ih]
      rfl
  | last hshown hflag =>
      have hstands := hrow.isAmong ⟨_, hshown, hflag⟩
      rw [List.map_singleton, extract_cons_of_isAmong hstands]
      simp [untaken, adjacent, Extraction.meet, Mark.occurrence, hrow.text_eq hshown]
  | bare hshown hflag hnext _ ih =>
      have hstands := hrow.isAmong ⟨_, hshown, hflag⟩
      have hknown := hrow.isAmong hnext
      rw [List.map_cons, extract_cons_of_isAmong hstands, List.map_cons,
        untaken_cons_of_isAmong hknown, adjacent_cons_of_isAmong hknown, ← List.map_cons, ih]
      simp [Extraction.meet, Mark.occurrence, hrow.text_eq hshown]
  | valued hshown hflag hnext _ ih =>
      have hstands := hrow.isAmong ⟨_, hshown, hflag⟩
      have hvalue := hrow.not_isAmong hnext
      rw [List.map_cons, extract_cons_of_isAmong hstands, List.map_cons,
        untaken_cons_of_not_isAmong hvalue, adjacent_cons_of_not_isAmong hvalue, ih]
      simp [Extraction.meet, Mark.occurrence, hrow.text_eq hshown]

theorem left_subset (h : Extracts flags known shown positions left marks) : left ⊆ positions := by
  induction h with
  | nil => exact List.Subset.refl []
  | pass _ _ ih => exact List.cons_subset_cons _ ih
  | last _ _ => exact List.nil_subset _
  | bare _ _ _ _ ih => exact List.subset_cons_of_subset _ ih
  | valued _ _ _ _ ih =>
      exact List.subset_cons_of_subset _ (List.subset_cons_of_subset _ ih)

theorem sound (h : Extracts flags known shown positions left marks) :
    ∀ mark ∈ marks, mark.Sound shown positions := by
  induction h with
  | nil => exact fun mark hmem => by cases hmem
  | pass _ _ ih => exact fun mark hmem => (ih mark hmem).mono (List.subset_cons_self _ _)
  | last hshown _ =>
      intro mark hmem
      rw [List.mem_singleton.mp hmem]
      exact ⟨hshown, List.mem_cons_self, List.mem_cons_self⟩
  | bare hshown _ _ _ ih =>
      intro mark hmem
      rcases List.mem_cons.mp hmem with rfl | hlater
      · exact ⟨hshown, List.mem_cons_self, List.mem_cons_self⟩
      · exact (ih mark hlater).mono (List.subset_cons_self _ _)
  | valued hshown _ _ _ ih =>
      intro mark hmem
      rcases List.mem_cons.mp hmem with rfl | hlater
      · exact ⟨hshown, List.mem_cons_self, List.mem_cons_of_mem _ List.mem_cons_self⟩
      · exact (ih mark hlater).mono
          (List.subset_cons_of_subset _ (List.subset_cons_self _ _))

end Extracts

/-! ## Looking a marked flag up -/

/-- The last mark of a flag. -/
def markOf? (marks : List Mark) (flag : String) : Option Mark :=
  marks.reverse.find? fun mark => mark.flag == flag

theorem valueOf?_occurrences (row : Nat → Token) (marks : List Mark) (flag : String) :
    valueOf? (marks.map (Mark.occurrence row)) flag =
      (markOf? marks flag).map fun mark => (row mark.source).text := by
  rw [valueOf?, markOf?, ← List.map_reverse]
  induction marks.reverse with
  | nil => rfl
  | cons mark rest ih =>
      rw [List.map_cons, Mark.occurrence, List.find?_cons]
      by_cases hflag : mark.flag = flag
      · simp [hflag]
      · rw [List.lookup_cons, beq_false_of_ne hflag, beq_false_of_ne (Ne.symm hflag)]
        exact ih

theorem mem_of_markOf? {marks : List Mark} {flag : String} {mark : Mark}
    (h : markOf? marks flag = some mark) : mark ∈ marks ∧ mark.flag = flag := by
  refine ⟨List.mem_reverse.mp (List.mem_of_find?_eq_some h), ?_⟩
  simpa using List.find?_some h

end SlashCommand.Message
