import Mathlib.Data.List.Forall2
import SlashCommand.Message.Token
import SlashCommand.Proofs.Text.Cut

/-!
# Writing a message

A row of tokens is written with one blank between neighbours and the quoted ones in
quotation marks.  The tokens of what is written are the tokens of the row, as long as
no text closes its own quotation and every bare token is a word that opens none.
-/

namespace SlashCommand.Message

/-! ## The written form -/

/-- The written form of a token. -/
def Token.written (token : Token) : String :=
  if token.quoted then
    openQuote.toString ++ token.text ++ closeQuote.toString
  else
    token.text

/-- A token that a message can hold as it is. -/
inductive Token.Writable : Token → Prop where
  | quoted {text : String} (hclose : closeQuote ∉ text.toList) : Writable ⟨text, true⟩
  | bare {text : String} (hword : Text.isWord text = true) (hopen : openQuote ∉ text.toList) :
      Writable ⟨text, false⟩

/-! ## Reading a token back -/

/-- Outside of quotations, characters that neither part tokens nor open a quotation are
gathered. -/
theorem scan_bare {characters : List Char}
    (h : ∀ c ∈ characters, Text.isBlank c = false ∧ c ≠ openQuote) (quoted : Bool)
    (gathered rest : List Char) :
    scan ⟨false, quoted, gathered⟩ (characters ++ rest) =
      scan ⟨false, quoted, characters.reverse ++ gathered⟩ rest := by
  induction characters generalizing gathered with
  | nil => rfl
  | cons c others ih =>
      obtain ⟨hblank, hopen⟩ := h c List.mem_cons_self
      rw [List.cons_append, scan]
      simp only [hopen, false_and, if_false, Bool.false_eq_true, and_false, hblank]
      rw [ih fun d hd => h d (List.mem_cons_of_mem c hd), List.reverse_cons, List.append_assoc]
      rfl

/-- Inside a quotation, characters that do not close it are gathered. -/
theorem scan_inside {characters : List Char} (h : closeQuote ∉ characters) (quoted : Bool)
    (gathered rest : List Char) :
    scan ⟨true, quoted, gathered⟩ (characters ++ rest) =
      scan ⟨true, quoted, characters.reverse ++ gathered⟩ rest := by
  induction characters generalizing gathered with
  | nil => rfl
  | cons c others ih =>
      have hclose : c ≠ closeQuote := fun heq => h (heq ▸ List.mem_cons_self)
      rw [List.cons_append, scan]
      simp only [hclose, false_and, if_false, Bool.true_eq_false, and_false]
      rw [ih fun hmem => h (List.mem_cons_of_mem c hmem), List.reverse_cons, List.append_assoc]
      rfl

/-- A token that holds an opening mark is quoted. -/
theorem scan_open (quoted : Bool) (gathered rest : List Char) :
    scan ⟨false, quoted, gathered⟩ (openQuote :: rest) = scan ⟨true, true, gathered⟩ rest := by
  rw [scan]
  exact if_pos ⟨rfl, rfl⟩

theorem scan_close (quoted : Bool) (gathered rest : List Char) :
    scan ⟨true, quoted, gathered⟩ (closeQuote :: rest) = scan ⟨false, quoted, gathered⟩ rest := by
  have hopen : closeQuote ≠ openQuote := by decide
  rw [scan]
  simp [hopen]

/-- Outside of quotations, a blank ends the token. -/
theorem scan_blank {c : Char} (hblank : Text.isBlank c = true) (state : Scan)
    (h : state.inside = false) (rest : List Char) :
    scan state (c :: rest) = state.ended ++ scan Scan.start rest := by
  have hopen : c ≠ openQuote := by
    rintro rfl
    revert hblank
    decide
  rw [scan]
  simp [hopen, h, hblank]

/-- A text is read as a token: the scanner has gathered the token when it has read the text,
and an empty token counts because it is quoted. -/
structure Reads (text : String) (token : Token) : Prop where
  gathered : ∀ rest, scan Scan.start (text.toList ++ rest) =
    scan ⟨false, token.quoted, token.text.toList.reverse⟩ rest
  counts : token.quoted = true ∨ token.text.toList ≠ []

theorem Reads.ended {text : String} {token : Token} (h : Reads text token) :
    Scan.ended ⟨false, token.quoted, token.text.toList.reverse⟩ = [token] := by
  have hcounts : (token.quoted || !token.text.toList.reverse.isEmpty) = true := by
    simpa using h.counts
  rw [Scan.ended, if_pos hcounts]
  simp

/-- A bare word that opens no quotation is read as itself. -/
theorem reads_bare {text : String} (hword : Text.isWord text = true)
    (hopen : openQuote ∉ text.toList) : Reads text ⟨text, false⟩ where
  gathered := fun rest => by
    have hplain : ∀ c ∈ text.toList, Text.isBlank c = false ∧ c ≠ openQuote := by
      intro c hc
      refine ⟨(Text.isWord_iff.mp hword).2 c hc, ?_⟩
      rintro rfl
      exact hopen hc
    have hbare := scan_bare hplain false [] rest
    rwa [List.append_nil] at hbare
  counts := .inr (Text.isWord_iff.mp hword).1

/-- A quotation with characters in front of it is read as one token without the marks. -/
theorem reads_quoted {front text : String}
    (hfront : ∀ c ∈ front.toList, Text.isBlank c = false ∧ c ≠ openQuote)
    (hclose : closeQuote ∉ text.toList) :
    Reads (front ++ (openQuote.toString ++ text ++ closeQuote.toString))
      ⟨front ++ text, true⟩ where
  gathered := fun rest => by
    have hwritten : (front ++ (openQuote.toString ++ text ++ closeQuote.toString)).toList ++ rest =
        front.toList ++ (openQuote :: (text.toList ++ (closeQuote :: rest))) := by
      simp
    rw [hwritten, Scan.start, scan_bare hfront, scan_open, scan_inside hclose, scan_close]
    simp
  counts := .inl rfl

/-- The written form of a token is read as the token. -/
theorem Token.Writable.reads {token : Token} (h : token.Writable) : Reads token.written token := by
  cases h with
  | quoted hclose =>
      have hnone : ∀ c ∈ "".toList, Text.isBlank c = false ∧ c ≠ openQuote := by simp
      simpa [written] using reads_quoted hnone hclose
  | bare hword hopen => exact reads_bare hword hopen

/-! ## Reading a row back -/

/-- Texts with single blanks between them are read as the tokens of the texts. -/
theorem tokens_join_of_reads {texts : List String} {row : List Token}
    (h : List.Forall₂ Reads texts row) : tokens (Text.join " " texts) = row := by
  induction h with
  | nil => rfl
  | @cons text token texts row hfirst hothers ih =>
      cases hothers with
      | nil =>
          have hread := hfirst.gathered []
          rw [List.append_nil] at hread
          rw [tokens, Text.join, hread]
          exact hfirst.ended
      | cons =>
          rw [Text.join_cons_cons, tokens, String.toList_append, String.toList_append,
            List.append_assoc, hfirst.gathered]
          have hblank : " ".toList = [' '] := rfl
          rw [hblank, List.singleton_append, scan_blank rfl _ rfl, hfirst.ended]
          exact congrArg (token :: ·) ih

/-- The tokens of a written row are those of the row. -/
theorem tokens_join {row : List Token} (h : ∀ token ∈ row, token.Writable) :
    tokens (Text.join " " (row.map Token.written)) = row := by
  refine tokens_join_of_reads (List.forall₂_map_left_iff.mpr (List.forall₂_same.mpr ?_))
  exact fun token hmem => (h token hmem).reads

end SlashCommand.Message
