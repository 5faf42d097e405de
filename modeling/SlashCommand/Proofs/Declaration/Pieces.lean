import SlashCommand.Declaration.Pieces
import SlashCommand.Proofs.Outcome
import SlashCommand.Proofs.Text.Cut

/-!
# Which texts are pieces

A piece is a bareword, or a text in brackets of one kind that hold no further
brackets.  The scanner takes a piece off a text as a whole, provided that a bareword
ends there, and pieces joined by single blanks are scanned into just these pieces.
-/

namespace SlashCommand.Declaration

/-! ## Pieces -/

/-- A bareword, or a text without brackets between matching ones. -/
inductive IsPiece : List Char → Prop where
  | bareword {text : List Char} (nonempty : text ≠ [])
      (plain : ∀ c ∈ text, Text.isBlank c = false ∧ isBracket c = false) : IsPiece text
  | bracketed {opening closing : Char} {body : List Char}
      (bracket : closingFor? opening = some closing)
      (plain : ∀ c ∈ body, isBracket c = false) : IsPiece (opening :: (body ++ [closing]))

/-- A text that is a bareword where it stands alone. -/
def IsBareword (text : List Char) : Prop :=
  text ≠ [] ∧ ∀ c ∈ text, Text.isBlank c = false ∧ isBracket c = false

theorem isBracket_eq_false_iff {c : Char} :
    isBracket c = false ↔ closingFor? c = none ∧ openingFor? c = none := by
  simp [isBracket]

theorem isBracket_of_closingFor? {opening closing : Char}
    (h : closingFor? opening = some closing) : isBracket closing = true := by
  simp [isBracket, openingFor?_eq_some_iff.mpr h]

theorem not_isBareword_of_closingFor? {opening closing : Char}
    (h : closingFor? opening = some closing) (text : List Char) :
    ¬ IsBareword (opening :: text) := by
  intro hbareword
  have hopening := isBracket_eq_false_iff.mp (hbareword.2 opening List.mem_cons_self).2
  rw [h] at hopening
  cases hopening.1

/-- A bracket is not blank. -/
theorem isBlank_of_closingFor? {opening closing : Char}
    (h : closingFor? opening = some closing) : Text.isBlank opening = false := by
  unfold closingFor? at h
  split at h <;> cases h <;> decide

/-! ## One character further -/

/-- The scanner stands outside brackets. -/
def Scan.Free (state : Scan) : Prop :=
  ∀ opening closing gathered, state ≠ .bracket opening closing gathered

theorem Scan.free_outside : Scan.outside.Free := by
  rintro _ _ _ ⟨⟩

theorem Scan.free_bareword (gathered : List Char) : (Scan.bareword gathered).Free := by
  rintro _ _ _ ⟨⟩

theorem scan_free {state : Scan} (h : state.Free) (c : Char) (rest : List Char) :
    scan state (c :: rest) =
      if Text.isBlank c then
        (scan .outside rest).map (state.ended ++ ·)
      else
        match closingFor? c with
        | some closing => (scan (.bracket c closing [c]) rest).map (state.ended ++ ·)
        | none =>
            if (openingFor? c).isSome then
              .error ⟨pieceOf (c :: state.gathered), .strayClosing c⟩
            else
              scan (.bareword (c :: state.gathered)) rest := by
  cases state with
  | outside => rfl
  | bareword gathered => rfl
  | bracket opening closing gathered => exact absurd rfl (h opening closing gathered)

theorem scan_bracket (opening closing c : Char) (gathered rest : List Char) :
    scan (.bracket opening closing gathered) (c :: rest) =
      if c = closing then
        (scan .outside rest).map (pieceOf (c :: gathered) :: ·)
      else if (closingFor? c).isSome then
        .error ⟨pieceOf (c :: gathered), .nestedOpening c⟩
      else if (openingFor? c).isSome then
        .error ⟨pieceOf (c :: gathered), .mismatchedClosing c opening⟩
      else
        scan (.bracket opening closing (c :: gathered)) rest :=
  rfl

/-! ## Scanning what was joined -/

theorem scan_bareword_append (text gathered rest : List Char)
    (h : ∀ c ∈ text, Text.isBlank c = false ∧ isBracket c = false) :
    scan (.bareword gathered) (text ++ rest) =
      scan (.bareword (text.reverse ++ gathered)) rest := by
  induction text generalizing gathered with
  | nil => rfl
  | cons c text ih =>
      obtain ⟨hblank, hbracket⟩ := h c List.mem_cons_self
      obtain ⟨hopening, hclosing⟩ := isBracket_eq_false_iff.mp hbracket
      rw [List.cons_append, scan_free (Scan.free_bareword gathered)]
      simp only [hblank, hopening, hclosing, Bool.false_eq_true, if_false, Option.isSome_none,
        Scan.gathered]
      rw [ih _ fun d hd => h d (List.mem_cons_of_mem _ hd)]
      simp

theorem scan_bracket_append (opening closing : Char) (body gathered rest : List Char)
    (hclosing : isBracket closing = true) (h : ∀ c ∈ body, isBracket c = false) :
    scan (.bracket opening closing gathered) (body ++ closing :: rest) =
      (scan .outside rest).map (pieceOf (closing :: (body.reverse ++ gathered)) :: ·) := by
  induction body generalizing gathered with
  | nil => simp [scan_bracket]
  | cons c body ih =>
      have hc := h c List.mem_cons_self
      obtain ⟨hopens, hcloses⟩ := isBracket_eq_false_iff.mp hc
      have hne : c ≠ closing := by
        rintro rfl
        rw [hc] at hclosing
        cases hclosing
      rw [List.cons_append, scan_bracket]
      simp only [hne, hopens, hcloses, if_false, Option.isSome_none, Bool.false_eq_true]
      rw [ih _ fun d hd => h d (List.mem_cons_of_mem _ hd)]
      simp

theorem scan_outside_bareword (c : Char) (text rest : List Char)
    (hc : Text.isBlank c = false ∧ isBracket c = false)
    (h : ∀ d ∈ text, Text.isBlank d = false ∧ isBracket d = false) :
    scan .outside (c :: (text ++ rest)) = scan (.bareword (text.reverse ++ [c])) rest := by
  obtain ⟨hopens, hcloses⟩ := isBracket_eq_false_iff.mp hc.2
  rw [scan_free Scan.free_outside]
  simp only [hc.1, hopens, hcloses, Bool.false_eq_true, if_false, Option.isSome_none,
    Scan.gathered]
  exact scan_bareword_append text [c] rest h

theorem map_nil_append (result : Except Malformed (List String)) :
    result.map (([] : List String) ++ ·) = result := by
  cases result <;> rfl

theorem scan_outside_bracketed {opening closing : Char} (body rest : List Char)
    (hbracket : closingFor? opening = some closing) (h : ∀ c ∈ body, isBracket c = false) :
    scan .outside (opening :: (body ++ closing :: rest)) =
      (scan .outside rest).map (String.ofList (opening :: (body ++ [closing])) :: ·) := by
  rw [scan_free Scan.free_outside]
  simp only [isBlank_of_closingFor? hbracket, hbracket, Bool.false_eq_true, if_false, Scan.ended]
  rw [map_nil_append,
    scan_bracket_append opening closing body [opening] rest (isBracket_of_closingFor? hbracket) h]
  simp [pieceOf]

/-- Blanks outside brackets are skipped. -/
theorem scan_gap {gap : List Char} (h : ∀ c ∈ gap, Text.isBlank c = true) (rest : List Char) :
    scan .outside (gap ++ rest) = scan .outside rest := by
  induction gap with
  | nil => rfl
  | cons c gap ih =>
      rw [List.cons_append, scan_free Scan.free_outside, if_pos (h c List.mem_cons_self),
        ih fun d hd => h d (List.mem_cons_of_mem c hd)]
      exact map_nil_append _

/-- A bareword ends in front of this text: it is empty or starts with a blank or an opening
bracket. -/
def Delimited (rest : List Char) : Prop :=
  ∀ c ∈ rest.head?, Text.isBlank c = true ∨ (closingFor? c).isSome = true

theorem scan_bareword_delimited {rest : List Char} (h : Delimited rest) (gathered : List Char) :
    scan (.bareword gathered) rest = (scan .outside rest).map (pieceOf gathered :: ·) := by
  cases rest with
  | nil => rfl
  | cons c rest =>
      rw [scan_free (Scan.free_bareword gathered), scan_free Scan.free_outside]
      by_cases hblank : Text.isBlank c = true
      · rw [if_pos hblank, if_pos hblank]
        simp only [Scan.ended, map_nil_append]
        rfl
      · obtain ⟨closing, hclosing⟩ :=
          Option.isSome_iff_exists.mp ((h c rfl).resolve_left hblank)
        rw [if_neg hblank, if_neg hblank, hclosing]
        simp only [Scan.ended, map_nil_append]
        rfl

/-- A piece is scanned off as a whole, a bareword where one ends. -/
theorem scan_piece {piece rest : List Char} (h : IsPiece piece)
    (hrest : IsBareword piece → Delimited rest) :
    scan .outside (piece ++ rest) =
      (scan .outside rest).map (String.ofList piece :: ·) := by
  cases h with
  | bareword hne hplain =>
      have hdelimited := hrest ⟨hne, hplain⟩
      cases piece with
      | nil => exact absurd rfl hne
      | cons c text =>
          rw [List.cons_append, scan_outside_bareword c text _ (hplain c List.mem_cons_self)
            fun d hd => hplain d (List.mem_cons_of_mem _ hd),
            scan_bareword_delimited hdelimited]
          simp [pieceOf]
  | bracketed hbracket hplain =>
      rename_i opening closing body
      have hassoc : opening :: (body ++ [closing]) ++ rest =
          opening :: (body ++ closing :: rest) := by simp
      rw [hassoc, scan_outside_bracketed body _ hbracket hplain]

/-- Pieces joined by single blanks are the pieces of the joined text. -/
theorem pieces_join {texts : List String} (h : ∀ text ∈ texts, IsPiece text.toList) :
    pieces (Text.join " " texts) = .ok texts := by
  have hblank : Text.isBlank ' ' = true := by decide
  unfold pieces
  induction texts with
  | nil => rfl
  | cons text rest ih =>
      have htext := h text List.mem_cons_self
      have hrest := fun other hother => h other (List.mem_cons_of_mem text hother)
      cases rest with
      | nil =>
          have hend : IsBareword text.toList → Delimited [] := fun _ => by simp [Delimited]
          have hscan := scan_piece htext hend
          rw [List.append_nil, String.ofList_toList] at hscan
          rw [Text.join, hscan]
          rfl
      | cons next rest =>
          have hlist : (Text.join " " (text :: next :: rest)).toList =
              text.toList ++ ([' '] ++ (Text.join " " (next :: rest)).toList) := by
            rw [Text.join_cons_cons]
            simp
          rw [hlist, scan_piece htext fun _ => by simp [Delimited, hblank],
            scan_gap (by simp [hblank]), ih hrest]
          simp [Except.map]

/-! ## One character taken -/

/-- The scanner stands where a piece may still come about. -/
def Scan.Sound : Scan → Prop
  | .outside => True
  | .bareword gathered =>
      gathered ≠ [] ∧ ∀ c ∈ gathered, Text.isBlank c = false ∧ isBracket c = false
  | .bracket opening closing gathered =>
      closingFor? opening = some closing ∧
        ∃ body, gathered = body ++ [opening] ∧ ∀ c ∈ body, isBracket c = false

theorem Scan.sound_outside : Scan.outside.Sound :=
  trivial

/-- What is gathered outside brackets is a piece where it ends. -/
theorem Scan.Sound.bareword {gathered : List Char} (h : (Scan.bareword gathered).Sound) :
    IsPiece gathered.reverse :=
  .bareword (by simpa using h.1) fun c hc => h.2 c (List.mem_reverse.mp hc)

/-- What is gathered from an opening bracket to its closing one is a piece, and no
bareword. -/
theorem Scan.Sound.closed {opening closing : Char} {gathered : List Char}
    (h : (Scan.bracket opening closing gathered).Sound) :
    IsPiece (closing :: gathered).reverse ∧ ¬ IsBareword (closing :: gathered).reverse := by
  obtain ⟨hbracket, body, rfl, hbody⟩ := h
  have hlist : (closing :: (body ++ [opening])).reverse =
      opening :: (body.reverse ++ [closing]) := by simp
  rw [hlist]
  constructor
  · exact .bracketed hbracket fun c hc => hbody c (List.mem_reverse.mp hc)
  · exact not_isBareword_of_closingFor? hbracket _

theorem Scan.sound_opened {opening closing : Char} (h : closingFor? opening = some closing) :
    (Scan.bracket opening closing [opening]).Sound :=
  ⟨h, [], rfl, by simp⟩

theorem Scan.Sound.gather_bracket {opening closing c : Char} {gathered : List Char}
    (h : (Scan.bracket opening closing gathered).Sound) (hc : isBracket c = false) :
    (Scan.bracket opening closing (c :: gathered)).Sound := by
  obtain ⟨hbracket, body, rfl, hbody⟩ := h
  refine ⟨hbracket, c :: body, rfl, fun d hd => ?_⟩
  rcases List.mem_cons.mp hd with rfl | hmem
  · exact hc
  · exact hbody d hmem

theorem Scan.Sound.gather_bareword {state : Scan} {c : Char} (h : state.Sound)
    (hstate : state.Free)
    (hc : Text.isBlank c = false ∧ isBracket c = false) :
    (Scan.bareword (c :: state.gathered)).Sound := by
  refine ⟨List.cons_ne_nil _ _, fun d hd => ?_⟩
  rcases List.mem_cons.mp hd with rfl | hmem
  · exact hc
  · cases state with
    | outside => cases hmem
    | bareword gathered => exact h.2 d hmem
    | bracket opening closing gathered => exact absurd rfl (hstate opening closing gathered)

/-- One character in a bracket ends the piece, is gathered, or is refused. -/
theorem scan_bracket_cons {opening closing c : Char} {gathered rest : List Char}
    {texts : List String}
    (h : scan (.bracket opening closing gathered) (c :: rest) = .ok texts) :
    (c = closing ∧ ∃ found, scan .outside rest = .ok found ∧
      texts = pieceOf (closing :: gathered) :: found) ∨
    (isBracket c = false ∧ scan (.bracket opening closing (c :: gathered)) rest = .ok texts) := by
  rw [scan_bracket] at h
  by_cases hclosing : c = closing
  · rw [if_pos hclosing] at h
    obtain ⟨found, hfound, htexts⟩ := ok_of_map_eq_ok h
    subst hclosing
    exact Or.inl ⟨rfl, found, hfound, htexts.symm⟩
  · rw [if_neg hclosing] at h
    cases hopens : closingFor? c with
    | some other => simp [hopens] at h
    | none =>
        cases hcloses : openingFor? c with
        | some other => simp [hopens, hcloses] at h
        | none =>
            simp only [hopens, hcloses, Option.isSome_none, Bool.false_eq_true, if_false] at h
            exact Or.inr ⟨isBracket_eq_false_iff.mpr ⟨hopens, hcloses⟩, h⟩

/-- One character outside brackets ends the bareword, opens a bracket, is gathered, or
is refused. -/
theorem scan_cons {state : Scan} {c : Char} {rest : List Char} {texts : List String}
    (hstate : state.Free) (h : scan state (c :: rest) = .ok texts) :
    (Text.isBlank c = true ∧
      ∃ found, scan .outside rest = .ok found ∧ texts = state.ended ++ found) ∨
    (∃ closing found, closingFor? c = some closing ∧
      scan (.bracket c closing [c]) rest = .ok found ∧ texts = state.ended ++ found) ∨
    (Text.isBlank c = false ∧ isBracket c = false ∧
      scan (.bareword (c :: state.gathered)) rest = .ok texts) := by
  rw [scan_free hstate] at h
  cases hblank : Text.isBlank c with
  | true =>
      rw [if_pos hblank] at h
      obtain ⟨found, hfound, htexts⟩ := ok_of_map_eq_ok h
      exact Or.inl ⟨rfl, found, hfound, htexts.symm⟩
  | false =>
      simp only [hblank, Bool.false_eq_true, if_false] at h
      cases hopens : closingFor? c with
      | some closing =>
          simp only [hopens] at h
          obtain ⟨found, hfound, htexts⟩ := ok_of_map_eq_ok h
          exact Or.inr (Or.inl ⟨closing, found, rfl, hfound, htexts.symm⟩)
      | none =>
          cases hcloses : openingFor? c with
          | some other => simp [hopens, hcloses] at h
          | none =>
              simp only [hopens, hcloses, Option.isSome_none, Bool.false_eq_true, if_false] at h
              exact Or.inr (Or.inr ⟨rfl, isBracket_eq_false_iff.mpr ⟨hopens, hcloses⟩, h⟩)

end SlashCommand.Declaration
