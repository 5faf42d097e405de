import Mathlib.Data.List.Basic
import SlashCommand.Message.Flags

/-!
# Taking flags out of a message

A flag takes the token right behind it or none at all, so a row of tokens may be cut
wherever no flag reaches over the cut, and its parts are extracted on their own.  A
token that spells a known flag is never the value of another.
-/

namespace SlashCommand.Message

/-! ## Spelling a flag -/

theorem Token.isAmong_iff {token : Token} {flags : List String} :
    token.isAmong flags = true ↔ token.quoted = false ∧ token.text ∈ flags := by
  simp [Token.isAmong]

@[simp]
theorem Token.isAmong_quoted (text : String) (flags : List String) :
    Token.isAmong ⟨text, true⟩ flags = false := by
  simp [Token.isAmong]

@[simp]
theorem Token.isAmong_plain {text : String} {flags : List String} :
    Token.isAmong ⟨text, false⟩ flags = true ↔ text ∈ flags := by
  simp [Token.isAmong]

theorem Token.isAmong_plain_eq_false {text : String} {flags : List String} :
    Token.isAmong ⟨text, false⟩ flags = false ↔ text ∉ flags := by
  simp [Token.isAmong]

/-- A token among some flags is the unquoted one of its text. -/
theorem Token.eq_plain_of_isAmong {token : Token} {flags : List String}
    (h : token.isAmong flags = true) : token = ⟨token.text, false⟩ := by
  cases token
  simp_all [Token.isAmong]

theorem Token.isAmong_mono {token : Token} {flags known : List String} (hknown : flags ⊆ known)
    (h : token.isAmong flags = true) : token.isAmong known = true := by
  obtain ⟨hquoted, hmem⟩ := Token.isAmong_iff.mp h
  exact Token.isAmong_iff.mpr ⟨hquoted, hknown hmem⟩

/-! ## The value of a flag -/

/-- The value a flag takes from the tokens behind it: the next one, unless there is
none or it spells a known flag; then the token of the flag itself. -/
def adjacent (known : List String) (flag : String) : List Token → String
  | [] => flag
  | next :: _ => if next.isAmong known then flag else next.text

/-- The tokens left behind a flag when it has taken its value. -/
def untaken (known : List String) : List Token → List Token
  | [] => []
  | next :: rest => if next.isAmong known then next :: rest else rest

variable {flags known : List String}

theorem untaken_suffix (known : List String) (rest : List Token) : untaken known rest <:+ rest := by
  cases rest with
  | nil => exact List.suffix_refl []
  | cons next rest =>
      simp only [untaken]
      split
      · exact List.suffix_refl _
      · exact List.suffix_cons next rest

theorem untaken_cons_of_isAmong {next : Token} (h : next.isAmong known = true)
    (rest : List Token) : untaken known (next :: rest) = next :: rest :=
  if_pos h

theorem untaken_cons_of_not_isAmong {next : Token} (h : next.isAmong known = false)
    (rest : List Token) : untaken known (next :: rest) = rest := by
  simp [untaken, h]

theorem adjacent_cons_of_isAmong {next : Token} (h : next.isAmong known = true) (flag : String)
    (rest : List Token) : adjacent known flag (next :: rest) = flag :=
  if_pos h

theorem adjacent_cons_of_not_isAmong {next : Token} (h : next.isAmong known = false)
    (flag : String) (rest : List Token) : adjacent known flag (next :: rest) = next.text := by
  simp [adjacent, h]

/-! ## Steps -/

@[simp]
theorem extract_nil : extract flags known [] = ⟨[], []⟩ :=
  rfl

theorem extract_cons_of_not_isAmong {token : Token} (h : token.isAmong flags = false)
    (rest : List Token) :
    extract flags known (token :: rest) = (extract flags known rest).pass token := by
  cases rest with
  | nil => simp [extract, h, Extraction.pass]
  | cons next rest => simp [extract, h]

theorem extract_cons_of_isAmong {token : Token} (h : token.isAmong flags = true)
    (rest : List Token) :
    extract flags known (token :: rest) =
      (extract flags known (untaken known rest)).meet token.text
        (adjacent known token.text rest) := by
  cases rest with
  | nil => simp [extract, h, untaken, adjacent, Extraction.meet]
  | cons next rest =>
      cases hnext : next.isAmong known with
      | true =>
          rw [untaken_cons_of_isAmong hnext, adjacent_cons_of_isAmong hnext]
          simp [extract, h, hnext]
      | false =>
          rw [untaken_cons_of_not_isAmong hnext, adjacent_cons_of_not_isAmong hnext]
          simp [extract, h, hnext]

/-- Induction along an extraction: a token is passed, or it is a flag and the tokens
behind its value remain. -/
@[elab_as_elim]
theorem extraction_induction (flags known : List String) {motive : List Token → Prop}
    (nil : motive [])
    (pass : ∀ token rest, token.isAmong flags = false → motive rest → motive (token :: rest))
    (meet : ∀ token rest, token.isAmong flags = true → motive (untaken known rest) →
      motive (token :: rest))
    (tokens : List Token) : motive tokens := by
  induction hlength : tokens.length using Nat.strongRecOn generalizing tokens with
  | ind length ih =>
      cases tokens with
      | nil => exact nil
      | cons token rest =>
          rw [List.length_cons] at hlength
          cases htoken : token.isAmong flags with
          | false =>
              apply pass token rest htoken
              exact ih rest.length (by omega) rest rfl
          | true =>
              have hle := (untaken_suffix known rest).length_le
              apply meet token rest htoken
              exact ih (untaken known rest).length (by omega) _ rfl

/-! ## Cutting a row of tokens -/

namespace Extraction

/-- Two extractions one after the other. -/
def append (first second : Extraction) : Extraction :=
  ⟨first.positional ++ second.positional, first.occurrences ++ second.occurrences⟩

@[simp]
theorem pass_append (token : Token) (first second : Extraction) :
    (first.pass token).append second = (first.append second).pass token :=
  rfl

@[simp]
theorem meet_append (flag value : String) (first second : Extraction) :
    (first.meet flag value).append second = (first.append second).meet flag value :=
  rfl

end Extraction

/-- No flag at the end of the first tokens takes its value from the others. -/
def Parted (flags known : List String) (before after : List Token) : Prop :=
  ∀ last ∈ before.getLast?, last.isAmong flags = true →
    ∀ next ∈ after.head?, next.isAmong known = true

theorem parted_of_isAmong {before after : List Token} {token : Token}
    (h : token.isAmong known = true) : Parted flags known before (token :: after) := by
  intro last _ _ next hnext
  cases hnext
  exact h

theorem parted_of_not_isAmong {before after : List Token}
    (h : ∀ token ∈ before, token.isAmong flags = false) : Parted flags known before after := by
  intro last hlast hamong
  rw [h last (List.mem_of_mem_getLast? hlast)] at hamong
  cases hamong

theorem Parted.of_suffix {before shorter after : List Token}
    (h : Parted flags known before after) (hsuffix : shorter <:+ before) :
    Parted flags known shorter after := by
  intro last hlast
  obtain ⟨front, rfl⟩ := hsuffix
  apply h
  rw [List.getLast?_append, Option.mem_def.mp hlast]
  rfl

theorem Parted.cons {before after : List Token} {token : Token}
    (h : Parted flags known before after)
    (hfirst : before = [] → token.isAmong flags = true →
      ∀ next ∈ after.head?, next.isAmong known = true) :
    Parted flags known (token :: before) after := by
  cases before with
  | nil =>
      intro last hlast
      cases hlast
      exact hfirst rfl
  | cons next before =>
      intro last hlast
      rw [List.getLast?_cons_cons] at hlast
      exact h last hlast

/-- Tokens parted by a cut are extracted on their own. -/
theorem extract_append {before after : List Token} (h : Parted flags known before after) :
    extract flags known (before ++ after) =
      (extract flags known before).append (extract flags known after) := by
  induction before using extraction_induction flags known with
  | nil => rfl
  | pass token rest htoken ih =>
      rw [List.cons_append, extract_cons_of_not_isAmong htoken,
        extract_cons_of_not_isAmong htoken, ih (h.of_suffix (List.suffix_cons token rest)),
        Extraction.pass_append]
  | meet token rest htoken ih =>
      have hleft : untaken known (rest ++ after) = untaken known rest ++ after ∧
          adjacent known token.text (rest ++ after) = adjacent known token.text rest := by
        cases rest with
        | nil =>
            have hnext := h token rfl htoken
            cases after with
            | nil => exact ⟨rfl, rfl⟩
            | cons next after =>
                have hknown := hnext next rfl
                exact ⟨untaken_cons_of_isAmong hknown after,
                  adjacent_cons_of_isAmong hknown token.text after⟩
        | cons next rest =>
            constructor
            · simp only [List.cons_append, untaken]
              split <;> rfl
            · rfl
      have hsuffix := (untaken_suffix known rest).trans (List.suffix_cons token rest)
      rw [List.cons_append, extract_cons_of_isAmong htoken, extract_cons_of_isAmong htoken,
        hleft.1, hleft.2, ih (h.of_suffix hsuffix), Extraction.meet_append]

/-- Tokens that spell no flag are passed. -/
theorem extract_of_not_isAmong {tokens : List Token}
    (h : ∀ token ∈ tokens, token.isAmong flags = false) :
    extract flags known tokens = ⟨tokens, []⟩ := by
  induction tokens with
  | nil => rfl
  | cons token rest ih =>
      rw [extract_cons_of_not_isAmong (h token List.mem_cons_self),
        ih fun other hother => h other (List.mem_cons_of_mem token hother)]
      rfl

/-- Tokens that spell no flag are passed in front of others. -/
theorem extract_append_of_not_isAmong {before : List Token}
    (h : ∀ token ∈ before, token.isAmong flags = false) (after : List Token) :
    extract flags known (before ++ after) =
      ⟨before ++ (extract flags known after).positional,
        (extract flags known after).occurrences⟩ := by
  rw [extract_append (parted_of_not_isAmong h), extract_of_not_isAmong h]
  rfl

/-! ## What is left -/

theorem positional_sublist (tokens : List Token) :
    (extract flags known tokens).positional.Sublist tokens := by
  induction tokens using extraction_induction flags known with
  | nil => exact List.Sublist.refl []
  | pass token rest htoken ih =>
      rw [extract_cons_of_not_isAmong htoken]
      exact ih.cons_cons token
  | meet token rest htoken ih =>
      rw [extract_cons_of_isAmong htoken]
      exact (ih.trans (untaken_suffix known rest).sublist).cons token

theorem not_isAmong_of_mem_positional {tokens : List Token} {token : Token}
    (hmem : token ∈ (extract flags known tokens).positional) : token.isAmong flags = false := by
  induction tokens using extraction_induction flags known with
  | nil => cases hmem
  | pass first rest hfirst ih =>
      rw [extract_cons_of_not_isAmong hfirst] at hmem
      rcases List.mem_cons.mp hmem with rfl | hrest
      · exact hfirst
      · exact ih hrest
  | meet first rest hfirst ih =>
      rw [extract_cons_of_isAmong hfirst] at hmem
      exact ih hmem

/-- A flag that occurs is one of the flags and stands among the tokens. -/
theorem mem_of_mem_occurrences {tokens : List Token} {flag value : String}
    (hmem : (flag, value) ∈ (extract flags known tokens).occurrences) :
    flag ∈ flags ∧ ⟨flag, false⟩ ∈ tokens := by
  induction tokens using extraction_induction flags known with
  | nil => cases hmem
  | pass token rest htoken ih =>
      rw [extract_cons_of_not_isAmong htoken] at hmem
      obtain ⟨hflag, hrest⟩ := ih hmem
      exact ⟨hflag, List.mem_cons_of_mem token hrest⟩
  | meet token rest htoken ih =>
      rw [extract_cons_of_isAmong htoken] at hmem
      rcases List.mem_cons.mp hmem with heq | hlater
      · obtain ⟨rfl, rfl⟩ := Prod.mk.inj heq
        constructor
        · exact (Token.isAmong_iff.mp htoken).2
        · rw [← Token.eq_plain_of_isAmong htoken]
          exact List.mem_cons_self
      · obtain ⟨hflag, hrest⟩ := ih hlater
        exact ⟨hflag, List.mem_cons_of_mem token ((untaken_suffix known rest).subset hrest)⟩

/-- A token that is left stands at a place in the row where it may be cut on both sides:
the tokens in front of it and those behind it are extracted on their own. -/
def Cut (flags known : List String) (tokens front' : List Token) (word : Token)
    (back' : List Token) : Prop :=
  ∃ front back, tokens = front ++ word :: back ∧ word.isAmong flags = false ∧
    Parted flags known front (word :: back) ∧
      (extract flags known front).positional = front' ∧
        (extract flags known back).positional = back'

theorem cut_here {word : Token} (h : word.isAmong flags = false) (rest : List Token) :
    Cut flags known (word :: rest) [] word (extract flags known rest).positional := by
  refine ⟨[], rest, rfl, h, parted_of_not_isAmong ?_, rfl, rfl⟩
  intro token hmem
  cases hmem

theorem Cut.pass {rest front' back' : List Token} {token word : Token}
    (h : Cut flags known rest front' word back') (htoken : token.isAmong flags = false) :
    Cut flags known (token :: rest) (token :: front') word back' := by
  obtain ⟨front, back, rfl, hword, hparted, hfront, hback⟩ := h
  refine ⟨token :: front, back, rfl, hword, hparted.cons ?_, ?_, hback⟩
  · intro _ hamong
    rw [htoken] at hamong
    cases hamong
  · rw [extract_cons_of_not_isAmong htoken]
    exact congrArg (token :: ·) hfront

/-- A flag in front takes its value from in front of the cut. -/
theorem Cut.meet {next : Token} {rest front' back' : List Token} {token word : Token}
    (h : Cut flags known (untaken known (next :: rest)) front' word back')
    (hknown : flags ⊆ known) (htoken : token.isAmong flags = true) :
    Cut flags known (token :: next :: rest) front' word back' := by
  obtain ⟨front, back, hrest, hword, hparted, hfront, hback⟩ := h
  cases hnext : next.isAmong known with
  | true =>
      rw [untaken_cons_of_isAmong hnext] at hrest
      refine ⟨token :: front, back, by rw [hrest]; rfl, hword, hparted.cons ?_, ?_, hback⟩
      · rintro rfl _ other hother
        cases hrest
        cases hother
        exact hnext
      · rw [extract_cons_of_isAmong htoken]
        cases front with
        | nil => exact hfront
        | cons first front =>
            cases hrest
            rw [untaken_cons_of_isAmong hnext]
            exact hfront
  | false =>
      rw [untaken_cons_of_not_isAmong hnext] at hrest
      have hvalue : next.isAmong flags ≠ true := by
        intro hamong
        rw [Token.isAmong_mono hknown hamong] at hnext
        cases hnext
      refine ⟨token :: next :: front, back, by rw [hrest]; rfl, hword, ?_, ?_, hback⟩
      · apply Parted.cons
        · exact hparted.cons fun _ hamong => absurd hamong hvalue
        · intro hempty
          cases hempty
      · rw [extract_cons_of_isAmong htoken, untaken_cons_of_not_isAmong hnext]
        exact hfront

/-- Wherever the tokens that are left are cut, the row is cut at the same token. -/
theorem cut_of_positional (hknown : flags ⊆ known) {tokens front' back' : List Token}
    {word : Token} (h : (extract flags known tokens).positional = front' ++ word :: back') :
    Cut flags known tokens front' word back' := by
  induction tokens using extraction_induction flags known generalizing front' with
  | nil => simp at h
  | pass token rest htoken ih =>
      rw [extract_cons_of_not_isAmong htoken] at h
      cases front' with
      | nil =>
          obtain ⟨rfl, rfl⟩ := List.cons.inj h
          exact cut_here htoken rest
      | cons first front' =>
          obtain ⟨rfl, hrest⟩ := List.cons.inj h
          exact (ih hrest).pass htoken
  | meet token rest htoken ih =>
      rw [extract_cons_of_isAmong htoken] at h
      cases rest with
      | nil => simp [untaken, Extraction.meet] at h
      | cons next rest => exact (ih h).meet hknown htoken

/-! ## Looking a flag up -/

theorem valueOf?_append (earlier later : List (String × String)) (flag : String) :
    valueOf? (earlier ++ later) flag = (valueOf? later flag).or (valueOf? earlier flag) := by
  rw [valueOf?, List.reverse_append, List.lookup_append]
  rfl

theorem valueOf?_eq_none {occurrences : List (String × String)} {flag : String}
    (h : ∀ value, (flag, value) ∉ occurrences) : valueOf? occurrences flag = none := by
  rw [valueOf?, List.lookup_eq_none_iff]
  rintro ⟨other, value⟩ hmem
  rw [List.mem_reverse] at hmem
  simp only [bne_iff_ne, ne_eq]
  rintro rfl
  exact h value hmem

theorem mem_of_valueOf? {occurrences : List (String × String)} {flag value : String}
    (h : valueOf? occurrences flag = some value) : (flag, value) ∈ occurrences := by
  obtain ⟨front, back, hsplit, _⟩ := List.lookup_eq_some_iff.mp h
  apply List.mem_reverse.mp
  rw [hsplit]
  simp

/-- The one value that a flag has in all its occurrences. -/
theorem valueOf?_eq_some {occurrences : List (String × String)} {flag value : String}
    (hmem : (flag, value) ∈ occurrences)
    (hsole : ∀ other, (flag, other) ∈ occurrences → other = value) :
    valueOf? occurrences flag = some value := by
  cases hfound : valueOf? occurrences flag with
  | none =>
      have hnone := List.lookup_eq_none_iff.mp hfound _ (List.mem_reverse.mpr hmem)
      simp at hnone
  | some other => rw [hsole other (mem_of_valueOf? hfound)]

/-- The last occurrence of a flag counts. -/
theorem valueOf?_append_cons {later : List (String × String)} {flag : String}
    (h : ∀ value, (flag, value) ∉ later) (earlier : List (String × String)) (value : String) :
    valueOf? (earlier ++ (flag, value) :: later) flag = some value := by
  rw [List.append_cons, valueOf?_append, valueOf?_append, valueOf?_eq_none h]
  simp [valueOf?]

/-- The value of a flag where it stands last in a message. -/
theorem valueOf?_extract {flag : String} (hflag : flag ∈ flags) (hknown : flags ⊆ known)
    {before after : List Token} (hlast : ⟨flag, false⟩ ∉ after) :
    valueOf? (extract flags known (before ++ ⟨flag, false⟩ :: after)).occurrences flag =
      some (adjacent known flag after) := by
  rw [extract_append (parted_of_isAmong (Token.isAmong_plain.mpr (hknown hflag))),
    extract_cons_of_isAmong (Token.isAmong_plain.mpr hflag)]
  apply valueOf?_append_cons
  intro value hmem
  obtain ⟨_, hstands⟩ := mem_of_mem_occurrences hmem
  exact hlast ((untaken_suffix known after).subset hstands)

end SlashCommand.Message
