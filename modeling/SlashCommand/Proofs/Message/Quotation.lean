import Mathlib.Data.List.Basic
import SlashCommand.Proofs.Message.Written

/-!
# What splitting a message keeps

A message is in one way only a row of stretches: characters outside of quotations, and
quotations.  Its tokens are the runs of stretches between the blanks outside of
quotations.  A token consists of what its stretches keep, which is everything but those
blanks and the marks around quotations, so nothing is lost and nothing is invented, and
a quotation protects every text that does not close it.
-/

namespace SlashCommand.Message

/-! ## Stretches -/

/-- A stretch of a message. -/
inductive Stretch where
  /-- A character outside of quotations. -/
  | bare (c : Char)
  /-- A quotation and the characters in it.  One that is not closed lacks its second mark. -/
  | quotation (content : List Char) (closed : Bool)

namespace Stretch

/-- The characters of a message that a stretch covers. -/
def written : Stretch → List Char
  | bare c => [c]
  | quotation content true => openQuote :: (content ++ [closeQuote])
  | quotation content false => openQuote :: content

/-- Blanks part tokens where they stand outside of quotations. -/
def parts : Stretch → Bool
  | bare c => Text.isBlank c
  | quotation _ _ => false

/-- What a stretch leaves to its token: not the blank that ends it, and not the marks. -/
def kept : Stretch → List Char
  | bare c => if Text.isBlank c then [] else [c]
  | quotation content _ => content

def isQuotation : Stretch → Bool
  | bare _ => false
  | quotation _ _ => true

theorem kept_of_parts {stretch : Stretch} (h : stretch.parts = true) : stretch.kept = [] := by
  cases stretch with
  | bare c => exact if_pos h
  | quotation content closed => exact absurd h Bool.false_ne_true

/-- A stretch that stays in its token and leaves nothing to it is an empty quotation. -/
theorem isQuotation_of_kept {stretch : Stretch} (hparts : stretch.parts = false)
    (hkept : stretch.kept = []) : stretch.isQuotation = true := by
  cases stretch with
  | bare c =>
      have hblank : Text.isBlank c = false := hparts
      simp [kept, hblank] at hkept
  | quotation content closed => rfl

end Stretch

/-- A row of stretches is proper if no character outside of quotations opens one, the
first closing mark in a quotation ends it, and only the last quotation may stay open.  A
closing mark outside of quotations and an opening mark inside of one are characters like
all others. -/
inductive Proper : List Stretch → Prop where
  | nil : Proper []
  | bare {c : Char} {rest : List Stretch} (hopen : c ≠ openQuote) (hrest : Proper rest) :
      Proper (.bare c :: rest)
  | closed {content : List Char} {rest : List Stretch} (hclose : closeQuote ∉ content)
      (hrest : Proper rest) : Proper (.quotation content true :: rest)
  | unclosed {content : List Char} (hclose : closeQuote ∉ content) :
      Proper [.quotation content false]

/-! ## A message is one row of stretches -/

/-- Every text is a row of stretches. -/
theorem exists_proper (text : List Char) :
    ∃ row, Proper row ∧ row.flatMap Stretch.written = text := by
  -- A closed quotation is left behind as a whole, so the induction is on the length.
  induction hlength : text.length using Nat.strong_induction_on generalizing text with
  | _ length ih =>
  subst hlength
  cases text with
  | nil => exact ⟨[], .nil, rfl⟩
  | cons c rest =>
      by_cases hopen : c = openQuote
      · subst hopen
        by_cases hmem : closeQuote ∈ rest
        · obtain ⟨content, after, rfl, hclose⟩ := List.eq_append_cons_of_mem hmem
          have hshorter : after.length < (openQuote :: (content ++ closeQuote :: after)).length := by
            simp only [List.length_cons, List.length_append]
            omega
          obtain ⟨row, hrow, rfl⟩ := ih after.length hshorter after rfl
          refine ⟨.quotation content true :: row, .closed hclose hrow, ?_⟩
          simp [Stretch.written]
        · refine ⟨[.quotation rest false], .unclosed hmem, ?_⟩
          simp [Stretch.written]
      · obtain ⟨row, hrow, rfl⟩ := ih rest.length (Nat.lt_succ_self _) rest rfl
        exact ⟨.bare c :: row, .bare hopen hrow, rfl⟩

/-- The first closing mark is in one place only. -/
theorem eq_of_closed {content other after others : List Char} (hclose : closeQuote ∉ content)
    (hother : closeQuote ∉ other)
    (h : content ++ closeQuote :: after = other ++ closeQuote :: others) :
    content = other ∧ after = others := by
  have hfirst : ∀ {text : List Char}, closeQuote ∉ text → ∀ c ∈ text, (c == closeQuote) = false :=
    fun hmem c hc => beq_false_of_ne fun heq => hmem (heq ▸ hc)
  have hcut : (closeQuote == closeQuote) = true := beq_self_eq_true closeQuote
  have hsame := congrArg (Text.splitAtFirst? (· == closeQuote)) h
  rw [Text.splitAtFirst?_append (hfirst hclose) hcut,
    Text.splitAtFirst?_append (hfirst hother) hcut] at hsame
  cases hsame
  exact ⟨rfl, rfl⟩

/-- Two proper rows that cover the same text are the same. -/
theorem Proper.unique {row other : List Stretch} (hrow : Proper row) (hother : Proper other)
    (h : row.flatMap Stretch.written = other.flatMap Stretch.written) : row = other := by
  induction hrow generalizing other with
  | nil => cases hother <;> simp [Stretch.written] at h ⊢
  | @bare c rest hopen hrest ih =>
      cases hother with
      | bare hopen' hrest' =>
          simp only [List.flatMap_cons, Stretch.written, List.singleton_append,
            List.cons.injEq] at h
          obtain ⟨rfl, h⟩ := h
          rw [ih hrest' h]
      | nil => simp [Stretch.written] at h
      | closed => simp [Stretch.written, hopen] at h
      | unclosed => simp [Stretch.written, hopen] at h
  | @closed content rest hclose hrest ih =>
      cases hother with
      | closed hclose' hrest' =>
          simp only [List.flatMap_cons, Stretch.written, List.cons_append, List.append_assoc,
            List.nil_append, List.cons.injEq, true_and] at h
          obtain ⟨rfl, hafter⟩ := eq_of_closed hclose hclose' h
          rw [ih hrest' hafter]
      | unclosed hclose' =>
          simp only [List.flatMap_cons, List.flatMap_nil, Stretch.written, List.append_nil,
            List.cons_append, List.append_assoc, List.cons.injEq, true_and] at h
          simp [← h] at hclose'
      | nil => simp [Stretch.written] at h
      | bare hopen' => simp [Stretch.written, hopen'.symm] at h
  | @unclosed content hclose =>
      cases hother with
      | unclosed => simpa [Stretch.written] using h
      | closed =>
          simp only [List.flatMap_cons, List.flatMap_nil, Stretch.written, List.append_nil,
            List.cons_append, List.append_assoc, List.cons.injEq, true_and] at h
          simp [h] at hclose
      | nil => simp [Stretch.written] at h
      | bare hopen' => simp [Stretch.written, hopen'.symm] at h

/-! ## Runs between blanks -/

/-- The runs of a row: what stands between the blanks that part tokens. -/
def runs (row : List Stretch) : List (List Stretch) :=
  (row.splitOnP Stretch.parts).filter fun run => !run.isEmpty

/-- The token of a run. -/
def Token.ofRun (run : List Stretch) : Token :=
  ⟨String.ofList (run.flatMap Stretch.kept), run.any Stretch.isQuotation⟩

theorem runs_of_forall {run : List Stretch} (hnonempty : run ≠ [])
    (h : ∀ stretch ∈ run, stretch.parts = false) : runs run = [run] := by
  rw [runs, List.splitOnP_eq_singleton h]
  simp [hnonempty]

/-- A blank ends the run before it. -/
theorem runs_append_cons (before after : List Stretch) {stretch : Stretch}
    (h : stretch.parts = true) :
    runs (before ++ stretch :: after) = runs before ++ runs after := by
  rw [runs, List.splitOnP_append_cons before after h, List.filter_append]
  rfl

/-- Blanks in front of a row add no run. -/
theorem runs_append_of_parts {gap : List Stretch} (h : ∀ stretch ∈ gap, stretch.parts = true)
    (row : List Stretch) : runs (gap ++ row) = runs row := by
  induction gap with
  | nil => rfl
  | cons stretch others ih =>
      have hfirst := runs_append_cons [] (others ++ row) (h stretch List.mem_cons_self)
      rw [List.nil_append] at hfirst
      rw [List.cons_append, hfirst, ih fun other hother => h other (List.mem_cons_of_mem _ hother)]
      rfl

theorem forall_mem_append_singleton {run : List Stretch}
    (hrun : ∀ stretch ∈ run, stretch.parts = false) (next : Stretch) (hnext : next.parts = false) :
    ∀ stretch ∈ run ++ [next], stretch.parts = false := by
  intro stretch hstretch
  rcases List.mem_append.mp hstretch with hmem | hmem
  · exact hrun stretch hmem
  · rwa [List.mem_singleton.mp hmem]

/-- A row is one run, or a run, a blank that ends it, and another row. -/
theorem runs_induction {motive : List Stretch → Prop}
    (run : ∀ run : List Stretch, (∀ stretch ∈ run, stretch.parts = false) → motive run)
    (cut : ∀ (run : List Stretch) (stretch : Stretch) (after : List Stretch),
      (∀ stretch ∈ run, stretch.parts = false) → stretch.parts = true → motive after →
      motive (run ++ stretch :: after))
    (row : List Stretch) : motive row := by
  -- What has been read of the run that is not ended yet stands in front of the row.
  suffices hread : ∀ current : List Stretch, (∀ stretch ∈ current, stretch.parts = false) →
      motive (current ++ row) from hread [] (List.forall_mem_nil _)
  induction row with
  | nil =>
      intro current hcurrent
      rw [List.append_nil]
      exact run current hcurrent
  | cons stretch after ih =>
      intro current hcurrent
      by_cases hparts : stretch.parts = true
      · exact cut current stretch after hcurrent hparts (ih [] (List.forall_mem_nil _))
      · rw [← List.singleton_append, ← List.append_assoc]
        exact ih _ (forall_mem_append_singleton hcurrent stretch (Bool.eq_false_iff.mpr hparts))

theorem ne_nil_of_mem_runs {row run : List Stretch} (h : run ∈ runs row) : run ≠ [] := by
  have hmem := (List.mem_filter.mp h).2
  simpa using hmem

/-- No blank that parts tokens is in a run. -/
theorem parts_of_mem_runs {row : List Stretch} :
    ∀ run ∈ runs row, ∀ stretch ∈ run, stretch.parts = false := by
  have hrun : ∀ run : List Stretch, (∀ stretch ∈ run, stretch.parts = false) →
      ∀ other ∈ runs run, ∀ stretch ∈ other, stretch.parts = false := by
    intro run h other hother
    have hnonempty : run ≠ [] := by
      rintro rfl
      cases hother
    rw [runs_of_forall hnonempty h, List.mem_singleton] at hother
    rwa [hother]
  induction row using runs_induction with
  | run run h => exact hrun run h
  | cut run stretch after h hparts ih =>
      rw [runs_append_cons run after hparts]
      intro other hother
      rcases List.mem_append.mp hother with hmem | hmem
      · exact hrun run h other hmem
      · exact ih other hmem

/-- Together the runs keep what the row keeps. -/
theorem flatMap_runs (row : List Stretch) :
    (runs row).flatMap (fun run => run.flatMap Stretch.kept) = row.flatMap Stretch.kept := by
  have hrun : ∀ run : List Stretch, (∀ stretch ∈ run, stretch.parts = false) →
      (runs run).flatMap (fun run => run.flatMap Stretch.kept) = run.flatMap Stretch.kept := by
    intro run h
    cases run with
    | nil => rfl
    | cons stretch others =>
        rw [runs_of_forall (List.cons_ne_nil _ _) h, List.flatMap_singleton]
  induction row using runs_induction with
  | run run h => exact hrun run h
  | cut run stretch after h hparts ih =>
      rw [runs_append_cons run after hparts, List.flatMap_append, List.flatMap_append,
        List.flatMap_cons, Stretch.kept_of_parts hparts, List.nil_append, hrun run h, ih]

/-- A run that keeps nothing holds a quotation. -/
theorem any_isQuotation_of_mem_runs {row run : List Stretch} (h : run ∈ runs row)
    (hkept : run.flatMap Stretch.kept = []) : run.any Stretch.isQuotation = true := by
  obtain ⟨stretch, hstretch⟩ := List.exists_mem_of_ne_nil run (ne_nil_of_mem_runs h)
  have hparts := parts_of_mem_runs run h stretch hstretch
  have hnothing := List.flatMap_eq_nil_iff.mp hkept stretch hstretch
  exact List.any_eq_true.mpr ⟨stretch, hstretch, Stretch.isQuotation_of_kept hparts hnothing⟩

/-! ## The scanner reads the runs -/

/-- The state of the scanner that has read a run. -/
def Scan.ofRun (inside : Bool) (run : List Stretch) : Scan :=
  ⟨inside, run.any Stretch.isQuotation, (run.flatMap Stretch.kept).reverse⟩

/-- What ends where the scanner has read a run is the token of that run. -/
theorem ended_ofRun (inside : Bool) {run : List Stretch}
    (h : ∀ stretch ∈ run, stretch.parts = false) :
    (Scan.ofRun inside run).ended = (runs run).map Token.ofRun := by
  by_cases hnonempty : run = []
  · subst hnonempty
    rfl
  · have hrun := runs_of_forall hnonempty h
    have hcounts : (run.any Stretch.isQuotation ||
        !(run.flatMap Stretch.kept).reverse.isEmpty) = true := by
      by_cases hkept : run.flatMap Stretch.kept = []
      · have hmem : run ∈ runs run := hrun ▸ List.mem_singleton_self run
        rw [any_isQuotation_of_mem_runs hmem hkept, Bool.true_or]
      · simp [hkept]
    rw [Scan.ended, Scan.ofRun, if_pos hcounts, hrun, List.map_singleton, Token.ofRun,
      List.reverse_reverse]

/-- The scanner reads one stretch after the other: it goes on with the run, or the run
ends. -/
theorem scan_stretches {row : List Stretch} (h : Proper row) {run : List Stretch}
    (hrun : ∀ stretch ∈ run, stretch.parts = false) :
    scan (Scan.ofRun false run) (row.flatMap Stretch.written) =
      (runs (run ++ row)).map Token.ofRun := by
  induction h generalizing run with
  | nil =>
      rw [List.append_nil]
      exact ended_ofRun false hrun
  | @bare c rest hopen hrest ih =>
      cases hblank : Text.isBlank c with
      | true =>
          have hparts : (Stretch.bare c).parts = true := hblank
          have hnext := ih (List.forall_mem_nil _)
          rw [List.flatMap_cons, Stretch.written, List.singleton_append, scan_blank hblank _ rfl,
            ended_ofRun false hrun, runs_append_cons run rest hparts, List.map_append]
          exact congrArg _ hnext
      | false =>
          have hparts : (Stretch.bare c).parts = false := hblank
          have hnext := ih (forall_mem_append_singleton hrun _ hparts)
          have hgathered : Scan.ofRun false (run ++ [.bare c]) =
              ⟨false, run.any Stretch.isQuotation,
                [c].reverse ++ (run.flatMap Stretch.kept).reverse⟩ := by
            simp [Scan.ofRun, Stretch.isQuotation, Stretch.kept, hblank]
          rw [List.append_assoc, List.singleton_append] at hnext
          rw [← hnext, hgathered, List.flatMap_cons, Stretch.written, Scan.ofRun]
          exact scan_bare (by simp [hblank, hopen]) _ _ _
  | @closed content rest hclose hrest ih =>
      have hnext := ih (forall_mem_append_singleton hrun (.quotation content true) rfl)
      have hgathered : Scan.ofRun false (run ++ [.quotation content true]) =
          ⟨false, true, content.reverse ++ (run.flatMap Stretch.kept).reverse⟩ := by
        simp [Scan.ofRun, Stretch.isQuotation, Stretch.kept]
      rw [List.append_assoc, List.singleton_append] at hnext
      rw [← hnext, hgathered, List.flatMap_cons, Stretch.written, List.cons_append,
        List.append_assoc, List.singleton_append, Scan.ofRun, scan_open, scan_inside hclose,
        scan_close]
  | @unclosed content hclose =>
      have hlast := forall_mem_append_singleton hrun (.quotation content false) rfl
      have hgathered : Scan.ofRun true (run ++ [.quotation content false]) =
          ⟨true, true, content.reverse ++ (run.flatMap Stretch.kept).reverse⟩ := by
        simp [Scan.ofRun, Stretch.isQuotation, Stretch.kept]
      have hread := scan_inside hclose true (run.flatMap Stretch.kept).reverse []
      rw [List.append_nil] at hread
      rw [← ended_ofRun true hlast, hgathered, List.flatMap_singleton, Stretch.written,
        Scan.ofRun, scan_open, hread, scan]

/-- The tokens of a message are the tokens of its runs. -/
theorem tokens_of_proper {row : List Stretch} (h : Proper row) {text : String}
    (hwritten : row.flatMap Stretch.written = text.toList) :
    tokens text = (runs row).map Token.ofRun := by
  have hstart : ∀ stretch ∈ ([] : List Stretch), stretch.parts = false := List.forall_mem_nil _
  have hscan := scan_stretches h hstart
  rwa [hwritten, List.nil_append] at hscan

/-- Put together, the tokens of a message are what its stretches keep. -/
theorem flatMap_words {row : List Stretch} (h : Proper row) {text : String}
    (hwritten : row.flatMap Stretch.written = text.toList) :
    (words text).flatMap String.toList = row.flatMap Stretch.kept := by
  rw [words, tokens_of_proper h hwritten, List.map_map, ← flatMap_runs, List.flatMap_map]
  simp only [Function.comp_apply, Token.ofRun, String.toList_ofList]

/-! ## Quoted texts -/

/-- The message holds the texts, each quoted, with blanks between neighbours. -/
inductive Quotes : List String → List Char → Prop where
  | nil : Quotes [] []
  | single {text : String} (hclose : closeQuote ∉ text.toList) :
      Quotes [text] (openQuote :: (text.toList ++ [closeQuote]))
  | cons {text next : String} {texts : List String} {gap rest : List Char}
      (hclose : closeQuote ∉ text.toList) (hgap : gap ≠ [])
      (hblank : ∀ c ∈ gap, Text.isBlank c = true) (hrest : Quotes (next :: texts) rest) :
      Quotes (text :: next :: texts)
        (openQuote :: (text.toList ++ [closeQuote]) ++ gap ++ rest)

/-- The run of a quoted text. -/
def quotedRun (text : String) : List Stretch :=
  [.quotation text.toList true]

theorem Proper.append_gap {gap : List Char} (hblank : ∀ c ∈ gap, Text.isBlank c = true)
    {row : List Stretch} (h : Proper row) : Proper (gap.map Stretch.bare ++ row) := by
  induction gap with
  | nil => exact h
  | cons c others ih =>
      have hopen : c ≠ openQuote := by
        rintro rfl
        exact absurd (hblank openQuote List.mem_cons_self) (by decide)
      exact .bare hopen (ih fun d hd => hblank d (List.mem_cons_of_mem c hd))

/-- Every quoted text is a run of its own. -/
theorem Quotes.exists_row {texts : List String} {message : List Char} (h : Quotes texts message) :
    ∃ row, Proper row ∧ row.flatMap Stretch.written = message ∧ runs row = texts.map quotedRun := by
  induction h with
  | nil => exact ⟨[], .nil, rfl, rfl⟩
  | @single text hclose =>
      exact ⟨quotedRun text, .closed hclose .nil, List.flatMap_singleton _ _, rfl⟩
  | @cons text next texts gap rest hclose hgap hblank hrest ih =>
      obtain ⟨row, hrow, hwritten, hruns⟩ := ih
      refine ⟨quotedRun text ++ (gap.map Stretch.bare ++ row),
        .closed hclose (hrow.append_gap hblank), ?_, ?_⟩
      · have hcovers : (gap.map Stretch.bare).flatMap Stretch.written = gap := by
          rw [List.flatMap_map]
          exact List.flatMap_singleton' gap
        rw [List.flatMap_append, List.flatMap_append, hcovers, hwritten, quotedRun,
          List.flatMap_singleton, Stretch.written, List.append_assoc]
      · obtain ⟨c, others, rfl⟩ := List.exists_cons_of_ne_nil hgap
        have hparts : ∀ stretch ∈ others.map Stretch.bare, stretch.parts = true := by
          intro stretch hstretch
          obtain ⟨d, hd, rfl⟩ := List.mem_map.mp hstretch
          exact hblank d (List.mem_cons_of_mem c hd)
        have hfirst : (Stretch.bare c).parts = true := hblank c List.mem_cons_self
        rw [List.map_cons, List.cons_append, runs_append_cons _ _ hfirst,
          runs_append_of_parts hparts, hruns]
        rfl

theorem ofRun_quotedRun (text : String) : Token.ofRun (quotedRun text) = ⟨text, true⟩ := by
  simp [Token.ofRun, quotedRun, Stretch.kept, Stretch.isQuotation]

/-- The tokens of quoted texts are the texts. -/
theorem Quotes.words_eq {texts : List String} {message : String}
    (h : Quotes texts message.toList) : words message = texts := by
  obtain ⟨row, hrow, hwritten, hruns⟩ := h.exists_row
  rw [words, tokens_of_proper hrow hwritten, hruns, List.map_map, List.map_map]
  refine Eq.trans (List.map_congr_left fun text _ => ?_) (List.map_id texts)
  exact congrArg Token.text (ofRun_quotedRun text)

/-! ## Splitting loses and invents nothing -/

/-- Every message is in exactly one way a proper row of stretches.  Put together, its
tokens are what these keep; the tokens are the runs between the blanks outside of
quotations, and only a run that holds a quotation can be an empty token.  A message that
quotes texts, with blanks between them, has exactly these texts for its tokens. -/
theorem split_lossless (message : String) :
    (∃! row, Proper row ∧ row.flatMap Stretch.written = message.toList) ∧
      (∀ row, Proper row → row.flatMap Stretch.written = message.toList →
        (words message).flatMap String.toList = row.flatMap Stretch.kept ∧
          tokens message = (runs row).map Token.ofRun ∧
          ∀ run ∈ runs row, (Token.ofRun run).text = "" →
            run.any Stretch.isQuotation = true) ∧
      ∀ texts, Quotes texts message.toList → words message = texts := by
  refine ⟨?_, fun row hrow hwritten => ⟨?_, ?_, ?_⟩, fun texts h => h.words_eq⟩
  · obtain ⟨row, hrow, hwritten⟩ := exists_proper message.toList
    refine ⟨row, ⟨hrow, hwritten⟩, ?_⟩
    rintro other ⟨hother, hsame⟩
    exact hother.unique hrow (hsame.trans hwritten.symm)
  · exact flatMap_words hrow hwritten
  · exact tokens_of_proper hrow hwritten
  · intro run hrun hempty
    have hkept : run.flatMap Stretch.kept = [] := String.ofList_eq_empty_iff.mp hempty
    exact any_isQuotation_of_mem_runs hrun hkept

/-- A row with a quotation inside a token, a stray closing mark, an empty quotation, a
wide blank, and a quotation that stays open and holds an opening mark. -/
def tangled : List Stretch :=
  [.bare 'a', .quotation ['b', ' '] true, .bare 'c', .bare ' ', .bare '”', .bare ' ',
    .quotation [] true, .bare '\u3000', .quotation ['“', ' ', 'd'] false]

theorem tangled_split :
    tokens "a“b ”c ” “”\u3000““ d" =
        [⟨"ab c", true⟩, ⟨"”", false⟩, ⟨"", true⟩, ⟨"“ d", true⟩] ∧
      words "“b “”\u3000 “”" = ["b “", ""] := by
  have hproper : Proper tangled := by
    refine .bare (by decide) (.closed (by decide) (.bare (by decide) (.bare (by decide)
      (.bare (by decide) (.bare (by decide) (.closed (by decide) (.bare (by decide)
        (.unclosed (by decide)))))))))
  have hgap : ∀ c ∈ ['\u3000', ' '], Text.isBlank c = true :=
    List.forall_mem_cons.mpr ⟨by decide, List.forall_mem_singleton.mpr (by decide)⟩
  have hquotes : Quotes ["b “", ""] "“b “”\u3000 “”".toList :=
    .cons (by decide) (List.cons_ne_nil _ _) hgap (.single (by decide))
  constructor
  · exact ((split_lossless _).2.1 tangled hproper (by decide)).2.1.trans (by decide)
  · exact (split_lossless _).2.2 _ hquotes

end SlashCommand.Message
