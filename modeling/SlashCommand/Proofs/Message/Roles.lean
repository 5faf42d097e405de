import SlashCommand.Proofs.Message.Extraction

/-!
# The roles of tokens

Taking flags out of a message gives each token one role: it is left, it is an occurrence of a
flag, or it is the value of the flag in front of it.  The role of a token can be told from the
token itself and the role of the one in front, and the roles tell what is extracted.
-/

namespace SlashCommand.Message

variable {flags known : List String}

/-! ## Labelled tokens -/

/-- What becomes of a token. -/
inductive Role where
  /-- It is left. -/
  | positional
  /-- It is an occurrence of a flag. -/
  | flag
  /-- It is the value of the flag in front of it. -/
  | value
deriving DecidableEq

/-- The tokens with their roles, taken in the way in which the flags are extracted. -/
def labelled (flags known : List String) : List Token → List (Token × Role)
  | [] => []
  | [token] => [(token, if token.isAmong flags then .flag else .positional)]
  | token :: next :: rest =>
      if !token.isAmong flags then
        (token, .positional) :: labelled flags known (next :: rest)
      else if next.isAmong known then
        (token, .flag) :: labelled flags known (next :: rest)
      else
        (token, .flag) :: (next, .value) :: labelled flags known rest

theorem labelled_cons_of_not_isAmong {token : Token} (h : token.isAmong flags = false)
    (rest : List Token) :
    labelled flags known (token :: rest) = (token, .positional) :: labelled flags known rest := by
  cases rest <;> simp [labelled, h]

/-- A flag takes no value at the end and in front of a known flag. -/
theorem labelled_cons_alone {token : Token} (h : token.isAmong flags = true) {rest : List Token}
    (hrest : ∀ next ∈ rest.head?, next.isAmong known = true) :
    labelled flags known (token :: rest) = (token, .flag) :: labelled flags known rest := by
  cases rest with
  | nil => simp [labelled, h]
  | cons next rest => simp [labelled, h, hrest next rfl]

theorem labelled_cons_valued {token next : Token} (h : token.isAmong flags = true)
    (hnext : next.isAmong known = false) (rest : List Token) :
    labelled flags known (token :: next :: rest) =
      (token, .flag) :: (next, .value) :: labelled flags known rest := by
  simp [labelled, h, hnext]

theorem extract_cons_alone {token : Token} (h : token.isAmong flags = true) {rest : List Token}
    (hrest : ∀ next ∈ rest.head?, next.isAmong known = true) :
    extract flags known (token :: rest) =
      (extract flags known rest).meet token.text token.text := by
  rw [extract_cons_of_isAmong h]
  cases rest with
  | nil => rfl
  | cons next rest =>
      rw [untaken_cons_of_isAmong (hrest next rfl), adjacent_cons_of_isAmong (hrest next rfl)]

theorem extract_cons_valued {token next : Token} (h : token.isAmong flags = true)
    (hnext : next.isAmong known = false) (rest : List Token) :
    extract flags known (token :: next :: rest) =
      (extract flags known rest).meet token.text next.text := by
  rw [extract_cons_of_isAmong h, untaken_cons_of_not_isAmong hnext,
    adjacent_cons_of_not_isAmong hnext]

/-- Induction along the roles: a token is left, or it is a flag that takes no value, or it is
one that takes the token behind it. -/
@[elab_as_elim]
theorem roles_induction (flags known : List String) {motive : List Token → Prop}
    (nil : motive [])
    (pass : ∀ token rest, token.isAmong flags = false → motive rest → motive (token :: rest))
    (alone : ∀ token rest, token.isAmong flags = true →
      (∀ next ∈ rest.head?, next.isAmong known = true) → motive rest → motive (token :: rest))
    (valued : ∀ token next rest, token.isAmong flags = true → next.isAmong known = false →
      motive rest → motive (token :: next :: rest))
    (tokens : List Token) : motive tokens := by
  induction tokens using extraction_induction flags known with
  | nil => exact nil
  | pass token rest htoken ih => exact pass token rest htoken ih
  | meet token rest htoken ih =>
      cases rest with
      | nil => exact alone token [] htoken (fun next hnext => by cases hnext) ih
      | cons next rest =>
          cases hnext : next.isAmong known with
          | true =>
              rw [untaken_cons_of_isAmong hnext] at ih
              refine alone token (next :: rest) htoken (fun other hother => ?_) ih
              cases hother
              exact hnext
          | false =>
              rw [untaken_cons_of_not_isAmong hnext] at ih
              exact valued token next rest htoken hnext ih

/-- Every token is labelled once, in order. -/
theorem map_fst_labelled (tokens : List Token) :
    (labelled flags known tokens).map Prod.fst = tokens := by
  induction tokens using roles_induction flags known with
  | nil => rfl
  | pass token rest htoken ih => rw [labelled_cons_of_not_isAmong htoken, List.map_cons, ih]
  | alone token rest htoken hrest ih => rw [labelled_cons_alone htoken hrest, List.map_cons, ih]
  | valued token next rest htoken hnext ih =>
      rw [labelled_cons_valued htoken hnext, List.map_cons, List.map_cons, ih]

/-! ## Telling the role of a token -/

theorem role_of_head (tokens : List Token) :
    ∀ entry ∈ (labelled flags known tokens).head?, entry.2 ≠ .value := by
  induction tokens using roles_induction flags known with
  | nil => simp [labelled]
  | pass token rest htoken _ => simp [labelled_cons_of_not_isAmong htoken]
  | alone token rest htoken hrest _ => simp [labelled_cons_alone htoken hrest]
  | valued token next rest htoken hnext _ => simp [labelled_cons_valued htoken hnext]

/-- The first token is that of the row. -/
theorem head_of_labelled {tokens : List Token} {entry : Token × Role}
    (h : entry ∈ (labelled flags known tokens).head?) : entry.1 ∈ tokens.head? := by
  have hhead : ((labelled flags known tokens).map Prod.fst).head? = tokens.head? := by
    rw [map_fst_labelled]
  rw [List.head?_map, Option.mem_def.mp h] at hhead
  exact hhead.symm

/-- The flags are the tokens that spell one. -/
theorem role_eq_flag_iff (hknown : flags ⊆ known) {tokens : List Token} {entry : Token × Role}
    (hmem : entry ∈ labelled flags known tokens) :
    entry.2 = .flag ↔ entry.1.isAmong flags = true := by
  induction tokens using roles_induction flags known with
  | nil => cases hmem
  | pass token rest htoken ih =>
      rw [labelled_cons_of_not_isAmong htoken] at hmem
      rcases List.mem_cons.mp hmem with rfl | hrest
      · simp [htoken]
      · exact ih hrest
  | alone token rest htoken hrest ih =>
      rw [labelled_cons_alone htoken hrest] at hmem
      rcases List.mem_cons.mp hmem with rfl | hrest
      · simp [htoken]
      · exact ih hrest
  | valued token next rest htoken hnext ih =>
      rw [labelled_cons_valued htoken hnext] at hmem
      have hvalue : next.isAmong flags ≠ true := by
        intro hamong
        rw [Token.isAmong_mono hknown hamong] at hnext
        cases hnext
      rcases List.mem_cons.mp hmem with rfl | hbehind
      · simp [htoken]
      · rcases List.mem_cons.mp hbehind with rfl | hrest
        · simp [hvalue]
        · exact ih hrest

/-- The last of some entries is a flag. -/
def EndsInFlag (front : List (Token × Role)) : Prop :=
  ∃ before, front.getLast? = some (before, .flag)

theorem endsInFlag_cons {first : Token × Role} {front : List (Token × Role)}
    (h : first.2 ≠ .flag) : EndsInFlag (first :: front) ↔ EndsInFlag front := by
  cases front with
  | nil =>
      obtain ⟨token, role⟩ := first
      have hrole : role ≠ .flag := h
      simp [EndsInFlag, hrole]
  | cons second front => simp only [EndsInFlag, List.getLast?_cons_cons]

theorem not_endsInFlag_nil : ¬ EndsInFlag [] := by
  rintro ⟨before, hlast⟩
  cases hlast

/-- The values are the tokens behind a flag that spell no known one. -/
theorem role_eq_value_iff {tokens : List Token} {front back : List (Token × Role)}
    {token : Token} {role : Role}
    (hsplit : labelled flags known tokens = front ++ (token, role) :: back) :
    role = .value ↔ EndsInFlag front ∧ token.isAmong known = false := by
  induction tokens using roles_induction flags known generalizing front with
  | nil => simp [labelled] at hsplit
  | pass first rest hfirst ih =>
      rw [labelled_cons_of_not_isAmong hfirst] at hsplit
      cases front with
      | nil =>
          cases hsplit
          simp [not_endsInFlag_nil]
      | cons head front =>
          obtain ⟨rfl, hrest⟩ := List.cons.inj hsplit
          rw [ih hrest, endsInFlag_cons (by simp)]
  | alone first rest hfirst hbehind ih =>
      rw [labelled_cons_alone hfirst hbehind] at hsplit
      cases front with
      | nil =>
          cases hsplit
          simp [not_endsInFlag_nil]
      | cons head front =>
          obtain ⟨rfl, hrest⟩ := List.cons.inj hsplit
          cases front with
          | nil =>
              -- Right behind the flag stands a known flag, which is the value of none.
              have hhead : (token, role) ∈ (labelled flags known rest).head? := by
                rw [hrest]
                rfl
              have hamong := hbehind token (head_of_labelled hhead)
              simp [role_of_head rest _ hhead, hamong]
          | cons second front =>
              rw [ih hrest]
              simp only [EndsInFlag, List.getLast?_cons_cons]
  | valued first next rest hfirst hnext ih =>
      rw [labelled_cons_valued hfirst hnext] at hsplit
      cases front with
      | nil =>
          cases hsplit
          simp [not_endsInFlag_nil]
      | cons head front =>
          obtain ⟨hhead, hbehind⟩ := List.cons.inj hsplit
          cases front with
          | nil =>
              cases hbehind
              simp [EndsInFlag, ← hhead, hnext]
          | cons second front =>
              obtain ⟨rfl, hrest⟩ := List.cons.inj hbehind
              have hsame : EndsInFlag (head :: (next, .value) :: front) ↔
                  EndsInFlag ((next, .value) :: front) := by
                simp only [EndsInFlag, List.getLast?_cons_cons]
              rw [ih hrest, hsame, endsInFlag_cons (by simp)]

/-! ## Reading the extraction off -/

/-- The tokens that are left. -/
def leftIn (entries : List (Token × Role)) : List Token :=
  (entries.filter fun entry => entry.2 == .positional).map Prod.fst

/-- The value of a flag, given the entries behind it: the text of the value that it takes, or
its own. -/
def valueBehind (flag : Token) : List (Token × Role) → String
  | (next, .value) :: _ => next.text
  | _ => flag.text

/-- The flags that occur, each with its value. -/
def occurrencesOf : List (Token × Role) → List (String × String)
  | [] => []
  | (token, .flag) :: rest => (token.text, valueBehind token rest) :: occurrencesOf rest
  | (_, .positional) :: rest => occurrencesOf rest
  | (_, .value) :: rest => occurrencesOf rest

theorem valueBehind_of_head {entries : List (Token × Role)}
    (h : ∀ entry ∈ entries.head?, entry.2 ≠ .value) (flag : Token) :
    valueBehind flag entries = flag.text := by
  cases entries with
  | nil => rfl
  | cons entry rest =>
      obtain ⟨token, role⟩ := entry
      have hrole : role ≠ .value := h _ rfl
      cases role with
      | value => exact absurd rfl hrole
      | positional => rfl
      | flag => rfl

/-- The roles tell which tokens are left and which values the flags take. -/
theorem extract_eq (tokens : List Token) :
    extract flags known tokens =
      ⟨leftIn (labelled flags known tokens), occurrencesOf (labelled flags known tokens)⟩ := by
  induction tokens using roles_induction flags known with
  | nil => rfl
  | pass token rest htoken ih =>
      rw [extract_cons_of_not_isAmong htoken, labelled_cons_of_not_isAmong htoken, ih]
      rfl
  | alone token rest htoken hrest ih =>
      rw [extract_cons_alone htoken hrest, labelled_cons_alone htoken hrest, ih, occurrencesOf,
        valueBehind_of_head (role_of_head rest)]
      rfl
  | valued token next rest htoken hnext ih =>
      rw [extract_cons_valued htoken hnext, labelled_cons_valued htoken hnext, ih]
      rfl

theorem occurrencesOf_append (front : List (Token × Role)) {later : List (Token × Role)}
    (h : ∀ entry ∈ later.head?, entry.2 ≠ .value) :
    occurrencesOf (front ++ later) = occurrencesOf front ++ occurrencesOf later := by
  induction front with
  | nil => rfl
  | cons entry front ih =>
      obtain ⟨token, role⟩ := entry
      cases role with
      | positional => exact ih
      | value => exact ih
      | flag =>
          have hvalue : valueBehind token (front ++ later) = valueBehind token front := by
            cases front with
            | nil => exact valueBehind_of_head h token
            | cons second front =>
                obtain ⟨next, role⟩ := second
                cases role <;> rfl
          rw [List.cons_append, occurrencesOf, occurrencesOf, ih, hvalue, List.cons_append]

/-- The flags that occur are the texts of the tokens labelled as flags. -/
theorem mem_occurrencesOf_iff {entries : List (Token × Role)} {flag : String} :
    (∃ value, (flag, value) ∈ occurrencesOf entries) ↔
      ∃ token, (token, .flag) ∈ entries ∧ token.text = flag := by
  induction entries with
  | nil => simp [occurrencesOf]
  | cons entry rest ih =>
      obtain ⟨token, role⟩ := entry
      cases role with
      | positional => simp [occurrencesOf, ih]
      | value => simp [occurrencesOf, ih]
      | flag =>
          simp only [occurrencesOf, List.mem_cons, Prod.mk.injEq, and_true, exists_or, ih,
            or_and_right, exists_eq_left]
          refine or_congr_left ?_
          constructor
          · rintro ⟨_, rfl, _⟩
            rfl
          · rintro rfl
            exact ⟨_, rfl, rfl⟩

/-! ## The partition -/

/-- Roles of tokens divide them, and tell what is extracted. -/
structure Partitions (flags known : List String) (tokens : List Token)
    (entries : List (Token × Role)) (extraction : Extraction) : Prop where
  /-- Each token has one role. -/
  once : entries.map Prod.fst = tokens
  left : extraction.positional = leftIn entries
  flag : ∀ token role, (token, role) ∈ entries →
    (role = .flag ↔ token.quoted = false ∧ token.text ∈ flags)
  value : ∀ front token role back, entries = front ++ (token, role) :: back →
    (role = .value ↔ EndsInFlag front ∧ (token.quoted = true ∨ token.text ∉ known))
  keys : ∀ text, (∃ value, valueOf? extraction.occurrences text = some value) ↔
    ∃ token, (token, .flag) ∈ entries ∧ token.text = text
  /-- The last occurrence of a flag counts. -/
  last : ∀ front token back, entries = front ++ (token, .flag) :: back →
    (∀ later, (later, .flag) ∈ back → later.text ≠ token.text) →
      valueOf? extraction.occurrences token.text = some (valueBehind token back)

theorem not_isAmong_iff {token : Token} :
    token.isAmong known = false ↔ token.quoted = true ∨ token.text ∉ known := by
  rw [← Bool.not_eq_true, Token.isAmong_iff, not_and_or, Bool.not_eq_false]

theorem exists_valueOf?_iff {occurrences : List (String × String)} {flag : String} :
    (∃ value, valueOf? occurrences flag = some value) ↔ ∃ value, (flag, value) ∈ occurrences := by
  constructor
  · rintro ⟨value, hvalue⟩
    exact ⟨value, mem_of_valueOf? hvalue⟩
  · rintro ⟨value, hmem⟩
    refine Option.ne_none_iff_exists'.mp fun hnone => ?_
    have hother := List.lookup_eq_none_iff.mp hnone _ (List.mem_reverse.mpr hmem)
    simp at hother

/-- Taking flags out of a row of tokens divides it into the tokens that are left, the flags and
their values.  The flags are the unquoted tokens of their texts, a value stands right behind a
flag and is quoted or spells no known one, and under the text of a flag stands what its last
occurrence takes, or else that text. -/
theorem extract_partitions (hknown : flags ⊆ known) (tokens : List Token) :
    Partitions flags known tokens (labelled flags known tokens) (extract flags known tokens) where
  once := map_fst_labelled tokens
  left := by rw [extract_eq]
  flag := fun token role hmem => by
    rw [← Token.isAmong_iff]
    exact role_eq_flag_iff hknown hmem
  value := fun front token role back hsplit => by
    rw [role_eq_value_iff hsplit, not_isAmong_iff]
  keys := fun text => by rw [exists_valueOf?_iff, extract_eq, mem_occurrencesOf_iff]
  last := fun front token back hsplit hlast => by
    have hlater : ∀ value, (token.text, value) ∉ occurrencesOf back := fun value hmem => by
      obtain ⟨later, hflag, htext⟩ := mem_occurrencesOf_iff.mp ⟨value, hmem⟩
      exact hlast later hflag htext
    rw [extract_eq, hsplit, occurrencesOf_append front (by simp), occurrencesOf]
    exact valueOf?_append_cons hlater _ _

/-- A flag in front of itself takes nothing, a quoted text is taken, and a known flag of
another scope is left. -/
theorem verbose_partitioned :
    let row : List Token :=
      [⟨"-v", false⟩, ⟨"-v", false⟩, ⟨"-v", true⟩, ⟨"milk", false⟩, ⟨"-v", false⟩, ⟨"-a", false⟩]
    let entries := labelled ["-v"] ["-v", "-a"] row
    ["-v"] ⊆ ["-v", "-a"] ∧
      entries.map Prod.snd = [.flag, .flag, .value, .positional, .flag, .positional] ∧
      Partitions ["-v"] ["-v", "-a"] row entries (extract ["-v"] ["-v", "-a"] row) :=
  ⟨by decide, by decide, extract_partitions (by decide) _⟩

end SlashCommand.Message
