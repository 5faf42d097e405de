import SlashCommand.Proofs.Declaration.Pieces

/-!
# How a declaration is laid out

A declaration is a row of pieces with blanks before, between and behind them.  Two
barewords need a blank between them; any other two pieces may touch.  The pieces of a
text are those of its layout (`pieces_eq_ok_iff`), and a text has at most one layout
(`Layout.eq`).
-/

namespace SlashCommand.Declaration

/-! ## Layouts -/

/-- Blanks, or nothing. -/
def IsGap (text : List Char) : Prop :=
  ∀ c ∈ text, Text.isBlank c = true

/-- A piece and the blanks behind it. -/
structure Entry where
  piece : List Char
  gap : List Char

/-- The piece of an entry as the scanner yields it. -/
def Entry.text (entry : Entry) : String :=
  String.ofList entry.piece

/-- The text of the blanks at the start and of all entries behind them. -/
def laidOut (lead : List Char) (row : List Entry) : List Char :=
  lead ++ row.flatMap fun entry => entry.piece ++ entry.gap

/-- Blanks at the start and entries that make up a declaration. -/
structure Spaced (lead : List Char) (row : List Entry) : Prop where
  lead : IsGap lead
  piece : ∀ entry ∈ row, IsPiece entry.piece
  gap : ∀ entry ∈ row, IsGap entry.gap
  /-- Two barewords do not touch. -/
  apart : row.IsChain fun entry next =>
    IsBareword entry.piece → IsBareword next.piece → entry.gap ≠ []

/-- A text with the blanks and the pieces it is made of. -/
structure Layout (text : String) where
  lead : List Char
  row : List Entry
  spaced : Spaced lead row
  written : laidOut lead row = text.toList

/-- The pieces of a layout. -/
def Layout.pieces {text : String} (layout : Layout text) : List String :=
  layout.row.map Entry.text

@[simp]
theorem laidOut_nil (lead : List Char) : laidOut lead [] = lead := by
  simp [laidOut]

/-- The blanks behind an entry are those at the start of the row behind it. -/
theorem laidOut_cons (lead : List Char) (entry : Entry) (row : List Entry) :
    laidOut lead (entry :: row) = lead ++ (entry.piece ++ laidOut entry.gap row) := by
  simp [laidOut]

theorem spaced_nil {lead : List Char} (h : IsGap lead) : Spaced lead [] where
  lead := h
  piece := by simp
  gap := by simp
  apart := .nil

/-! ## Where an entry ends -/

/-- A piece starts with a bracket, or is a bareword. -/
theorem IsPiece.opened_or_isBareword {text : List Char} (h : IsPiece text) :
    (∃ opening closing rest, closingFor? opening = some closing ∧ text = opening :: rest) ∨
      IsBareword text := by
  cases h with
  | bareword hne hplain => exact .inr ⟨hne, hplain⟩
  | bracketed hbracket _ => exact .inl ⟨_, _, _, hbracket, rfl⟩

/-- A piece starts with a character that is not blank. -/
theorem IsPiece.head_not_blank {text : List Char} (h : IsPiece text) :
    ∃ c rest, text = c :: rest ∧ Text.isBlank c = false := by
  rcases h.opened_or_isBareword with ⟨opening, closing, rest, hbracket, rfl⟩ | ⟨hne, hplain⟩
  · exact ⟨opening, rest, rfl, isBlank_of_closingFor? hbracket⟩
  · obtain ⟨c, rest, rfl⟩ := List.exists_cons_of_ne_nil hne
    exact ⟨c, rest, rfl, (hplain c List.mem_cons_self).1⟩

/-- A bareword does not end where another one starts. -/
theorem IsBareword.not_delimited {text : List Char} (h : IsBareword text) (rest : List Char) :
    ¬ Delimited (text ++ rest) := by
  obtain ⟨hne, hplain⟩ := h
  obtain ⟨c, text, rfl⟩ := List.exists_cons_of_ne_nil hne
  obtain ⟨hblank, hbracket⟩ := hplain c List.mem_cons_self
  intro hdelimited
  rcases hdelimited c rfl with hc | hc
  · rw [hblank] at hc
    cases hc
  · rw [(isBracket_eq_false_iff.mp hbracket).1] at hc
    cases hc

/-- In a declaration a bareword ends where the scanner looks for its end. -/
theorem Spaced.delimited {lead : List Char} {entry : Entry} {row : List Entry}
    (h : Spaced lead (entry :: row)) (hbareword : IsBareword entry.piece) :
    Delimited (laidOut entry.gap row) := by
  cases hgap : entry.gap with
  | cons c gap =>
      have hblank : Text.isBlank c = true :=
        h.gap entry List.mem_cons_self c (hgap ▸ List.mem_cons_self)
      simp [laidOut, Delimited, hblank]
  | nil =>
      cases row with
      | nil => simp [Delimited]
      | cons next row =>
          have hpiece := h.piece next (List.mem_cons_of_mem _ List.mem_cons_self)
          have hapart := (List.isChain_cons_cons.mp h.apart).1
          rcases hpiece.opened_or_isBareword with
            ⟨opening, closing, rest, hbracket, hnext⟩ | hnext
          · simp [laidOut_cons, hnext, Delimited, hbracket]
          · exact absurd hgap (hapart hbareword hnext)

/-- A row is a declaration exactly if its first piece ends well and what is behind that is
a declaration. -/
theorem spaced_cons {lead : List Char} {entry : Entry} {row : List Entry} :
    Spaced lead (entry :: row) ↔
      IsGap lead ∧ IsPiece entry.piece ∧
        (IsBareword entry.piece → Delimited (laidOut entry.gap row)) ∧
        Spaced entry.gap row := by
  constructor
  · intro h
    refine ⟨h.lead, h.piece entry List.mem_cons_self, h.delimited, ?_⟩
    exact
      { lead := h.gap entry List.mem_cons_self
        piece := fun other hother => h.piece other (List.mem_cons_of_mem entry hother)
        gap := fun other hother => h.gap other (List.mem_cons_of_mem entry hother)
        apart := h.apart.of_cons }
  · rintro ⟨hlead, hpiece, hdelimited, hrow⟩
    refine
      { lead := hlead
        piece := List.forall_mem_cons.mpr ⟨hpiece, hrow.piece⟩
        gap := List.forall_mem_cons.mpr ⟨hrow.lead, hrow.gap⟩
        apart := ?_ }
    cases row with
    | nil => exact .singleton entry
    | cons next row =>
        refine List.isChain_cons_cons.mpr ⟨fun hbareword hnext hgap => ?_, hrow.apart⟩
        have hend := hdelimited hbareword
        rw [hgap, laidOut_cons] at hend
        exact hnext.not_delimited _ hend

/-! ## A layout is scanned into its pieces -/

/-- The scanner yields the pieces of a layout. -/
theorem scan_laidOut {lead : List Char} {row : List Entry} (h : Spaced lead row) :
    scan .outside (laidOut lead row) = .ok (row.map Entry.text) := by
  induction row generalizing lead with
  | nil =>
      have hscan := scan_gap h.lead []
      rw [List.append_nil] at hscan
      rw [laidOut_nil, hscan]
      rfl
  | cons entry row ih =>
      obtain ⟨hlead, hpiece, hdelimited, hrow⟩ := spaced_cons.mp h
      rw [laidOut_cons, scan_gap hlead, scan_piece hpiece hdelimited, ih hrow]
      rfl

/-! ## What is scanned is laid out -/

/-- What was gathered when the scanner comes to a place where a bareword ends is an entry
of its own. -/
theorem Spaced.after {state : Scan} {lead : List Char} {row : List Entry}
    (h : Spaced lead row) (hstate : state.Sound) (hfree : state.Free)
    (hdelimited : Delimited (laidOut lead row)) :
    ∃ lead' row', Spaced lead' row' ∧
      laidOut lead' row' = state.gathered.reverse ++ laidOut lead row ∧
      row'.map Entry.text = state.ended ++ row.map Entry.text := by
  cases state with
  | outside => exact ⟨lead, row, h, rfl, rfl⟩
  | bareword gathered =>
      refine ⟨[], ⟨gathered.reverse, lead⟩ :: row, ?_, ?_, rfl⟩
      · exact spaced_cons.mpr ⟨by simp [IsGap], hstate.bareword, fun _ => hdelimited, h⟩
      · simp [laidOut_cons, Scan.gathered]
  | bracket opening closing gathered => exact absurd rfl (hfree opening closing gathered)

/-- The text from a scanner state on is laid out, what was gathered included.  Induction on
the text; the state stays one in which a piece can come about. -/
theorem exists_spaced_of_scan {text : List Char} {state : Scan} {texts : List String}
    (hstate : state.Sound) (h : scan state text = .ok texts) :
    ∃ lead row, Spaced lead row ∧ laidOut lead row = state.gathered.reverse ++ text ∧
      row.map Entry.text = texts := by
  induction text generalizing state texts with
  | nil =>
      cases state with
      | outside =>
          cases h
          exact ⟨[], [], spaced_nil (by simp [IsGap]), rfl, rfl⟩
      | bareword gathered =>
          cases h
          have hspaced : Spaced [] [] := spaced_nil (by simp [IsGap])
          exact hspaced.after hstate (Scan.free_bareword gathered) (by simp [Delimited])
      | bracket opening closing gathered => cases h
  | cons c rest ih =>
      by_cases hbracket : ∃ opening closing gathered, state = .bracket opening closing gathered
      · obtain ⟨opening, closing, gathered, rfl⟩ := hbracket
        rcases scan_bracket_cons h with ⟨rfl, found, hfound, rfl⟩ | ⟨hc, hrest⟩
        · -- the piece ends with its bracket; as it is no bareword, anything may touch it
          obtain ⟨lead, row, hspaced, htext, rfl⟩ := ih Scan.sound_outside hfound
          refine ⟨[], ⟨(c :: gathered).reverse, lead⟩ :: row, ?_, ?_, rfl⟩
          · obtain ⟨hpiece, hbareword⟩ := hstate.closed
            exact spaced_cons.mpr
              ⟨by simp [IsGap], hpiece, fun hplain => absurd hplain hbareword, hspaced⟩
          · rw [laidOut_cons, htext]
            simp [Scan.gathered]
        · obtain ⟨lead, row, hspaced, htext, hfound⟩ := ih (hstate.gather_bracket hc) hrest
          exact ⟨lead, row, hspaced, by simpa [Scan.gathered] using htext, hfound⟩
      · have hfree : state.Free :=
          fun opening closing gathered heq => hbracket ⟨opening, closing, gathered, heq⟩
        rcases scan_cons hfree h with
          ⟨hblank, found, hfound, rfl⟩ | ⟨closing, found, hopens, hfound, rfl⟩ |
            ⟨hblank, hc, hrest⟩
        · -- the blank is the first of the gap in front of what follows
          obtain ⟨lead, row, hspaced, htext, rfl⟩ := ih Scan.sound_outside hfound
          have hrow : laidOut (c :: lead) row = c :: rest := by
            rw [laidOut, List.cons_append, ← laidOut, htext]
            rfl
          have hlead : Spaced (c :: lead) row :=
            { hspaced with lead := List.forall_mem_cons.mpr ⟨hblank, hspaced.lead⟩ }
          rw [← hrow]
          exact hlead.after hstate hfree (by simp [hrow, Delimited, hblank])
        · -- the row that follows starts with the bracket itself
          obtain ⟨lead, row, hspaced, htext, rfl⟩ := ih (Scan.sound_opened hopens) hfound
          have hrow : laidOut lead row = c :: rest := by simpa [Scan.gathered] using htext
          rw [← hrow]
          exact hspaced.after hstate hfree (by simp [hrow, Delimited, hopens])
        · obtain ⟨lead, row, hspaced, htext, hfound⟩ :=
            ih (hstate.gather_bareword hfree ⟨hblank, hc⟩) hrest
          exact ⟨lead, row, hspaced, by simpa [Scan.gathered] using htext, hfound⟩

/-- The pieces of a text are the pieces of its layout. -/
theorem pieces_eq_ok_iff {text : String} {texts : List String} :
    pieces text = .ok texts ↔ ∃ layout : Layout text, layout.pieces = texts := by
  constructor
  · intro h
    obtain ⟨lead, row, hspaced, htext, hrow⟩ := exists_spaced_of_scan Scan.sound_outside h
    exact ⟨⟨lead, row, hspaced, htext⟩, hrow⟩
  · rintro ⟨layout, rfl⟩
    rw [pieces, ← layout.written, scan_laidOut layout.spaced]
    rfl

/-- A text is refused exactly if it has no layout. -/
theorem pieces_eq_error_iff {text : String} :
    (∃ fault, pieces text = .error fault) ↔ IsEmpty (Layout text) := by
  constructor
  · rintro ⟨fault, hfault⟩
    refine ⟨fun layout => ?_⟩
    rw [pieces_eq_ok_iff.mpr ⟨layout, rfl⟩] at hfault
    cases hfault
  · intro hempty
    cases hpieces : pieces text with
    | error fault => exact ⟨fault, rfl⟩
    | ok texts =>
        obtain ⟨layout, _⟩ := pieces_eq_ok_iff.mp hpieces
        exact hempty.elim layout

/-- Every piece of a declaration is one. -/
theorem isPiece_of_mem_pieces {text : String} {texts : List String}
    (h : pieces text = .ok texts) : ∀ piece ∈ texts, IsPiece piece.toList := by
  obtain ⟨layout, rfl⟩ := pieces_eq_ok_iff.mp h
  intro piece hpiece
  obtain ⟨entry, hentry, rfl⟩ := List.mem_map.mp hpiece
  rw [Entry.text, String.toList_ofList]
  exact layout.spaced.piece entry hentry

/-! ## A text has one layout -/

/-- The blanks at the start are all that stand there. -/
theorem Spaced.takeWhile_laidOut {lead : List Char} {row : List Entry} (h : Spaced lead row) :
    (laidOut lead row).takeWhile Text.isBlank = lead := by
  cases row with
  | nil =>
      rw [laidOut_nil]
      exact List.takeWhile_eq_self_iff.mpr h.lead
  | cons entry row =>
      obtain ⟨c, rest, hpiece, hc⟩ := (h.piece entry List.mem_cons_self).head_not_blank
      rw [laidOut_cons, hpiece, List.takeWhile_append_of_pos h.lead]
      simp [hc]

/-- Layouts of one text with the same pieces have the same blanks. -/
theorem Spaced.eq_of_map_text_eq {lead lead' : List Char} {row row' : List Entry}
    (h : Spaced lead row) (h' : Spaced lead' row') (htext : laidOut lead row = laidOut lead' row')
    (hpieces : row.map Entry.text = row'.map Entry.text) : lead = lead' ∧ row = row' := by
  induction row generalizing lead lead' row' with
  | nil =>
      obtain rfl : row' = [] := by simpa using hpieces.symm
      exact ⟨by simpa using htext, rfl⟩
  | cons entry row ih =>
      obtain ⟨entry', row', rfl⟩ : ∃ entry' rest, row' = entry' :: rest := by
        cases row' with
        | nil => simp at hpieces
        | cons entry' rest => exact ⟨entry', rest, rfl⟩
      -- both leads are the blanks at the start of the one text
      have hlead : lead = lead' := by
        rw [← h.takeWhile_laidOut, htext, h'.takeWhile_laidOut]
      subst hlead
      rw [List.map_cons, List.map_cons, List.cons.injEq] at hpieces
      have hpiece : entry.piece = entry'.piece := String.ofList_injective hpieces.1
      rw [laidOut_cons, laidOut_cons, hpiece, List.append_cancel_left_eq,
        List.append_cancel_left_eq] at htext
      obtain ⟨hgap, rfl⟩ :=
        ih (spaced_cons.mp h).2.2.2 (spaced_cons.mp h').2.2.2 htext hpieces.2
      refine ⟨rfl, ?_⟩
      cases entry
      cases entry'
      cases hpiece
      cases hgap
      rfl

/-- A text has one layout only: both are scanned into their pieces. -/
theorem Layout.eq {text : String} (layout layout' : Layout text) : layout = layout' := by
  have htext : laidOut layout.lead layout.row = laidOut layout'.lead layout'.row :=
    layout.written.trans layout'.written.symm
  have hscan := scan_laidOut layout.spaced
  rw [htext, scan_laidOut layout'.spaced] at hscan
  obtain ⟨hlead, hrow⟩ :=
    layout.spaced.eq_of_map_text_eq layout'.spaced htext (Except.ok.inj hscan).symm
  cases layout
  cases layout'
  cases hlead
  cases hrow
  rfl

end SlashCommand.Declaration
