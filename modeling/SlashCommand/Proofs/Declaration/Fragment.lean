import SlashCommand.Declaration.Fragment
import SlashCommand.Proofs.Declaration.Payload
import SlashCommand.Proofs.Declaration.Spacing

/-!
# What a fragment declares

Every piece that is read declares a positional parameter, a flag or a bareword, each
of a form of its own: what its name and token may hold, and which marks it has.
-/

namespace SlashCommand

open Declaration

/-! ## Forms of parameters -/

/-- A text that can be a name in brackets: one word without plus signs and brackets. -/
structure IsName (text : List Char) : Prop where
  nonempty : text ≠ []
  plain : ∀ c ∈ text, Text.isBlank c = false ∧ c ≠ '+' ∧ isBracket c = false

/-- A text that can be the token of a flag: a name that starts with a dash and is
more than dashes. -/
structure IsFlagToken (text : List Char) : Prop extends IsName text where
  dash : text.head? = some '-'
  marked : withoutDashes text ≠ []

theorem IsName.isWord {text : String} (h : IsName text.toList) : Text.isWord text = true := by
  apply Text.isWord_iff.mpr
  constructor
  · exact h.nonempty
  · intro c hc
    exact (h.plain c hc).1

theorem IsName.isPiece {text : List Char} (h : IsName text) : IsPiece text :=
  .bareword h.nonempty fun c hc => ⟨(h.plain c hc).1, (h.plain c hc).2.2⟩

namespace Argument

/-- A positional parameter as declarations make it.  Only numbers have bounds, and
these are in order. -/
structure PositionalForm (argument : Argument) : Prop where
  kind : argument.kind = .positional
  name : IsName argument.name.toList
  untyped : ':' ∉ argument.name.toList
  token : argument.token = none
  bounds : argument.datatype.isNumeric = false → argument.min = none ∧ argument.max = none
  ordered : ∀ low ∈ argument.min, ∀ high ∈ argument.max, ¬ high < low
  leaf : argument.subarguments = []

/-- A flag as declarations make it. -/
structure FlagForm (argument : Argument) : Prop where
  kind : argument.kind = .flag
  name : IsName argument.name.toList
  undotted : ¬ dots <:+ argument.name.toList
  optional : argument.optional = true
  variadic : argument.variadic = false
  datatype : argument.datatype = .string
  token : ∃ token, argument.token = some token ∧ IsFlagToken token.toList
  bounds : argument.min = none ∧ argument.max = none
  leaf : argument.subarguments = []

/-- A parameter that is no subcommand. -/
inductive ParameterForm (argument : Argument) : Prop where
  | positional (form : argument.PositionalForm)
  | flag (form : argument.FlagForm)

/-- A bareword as declarations make it. -/
structure BarewordForm (argument : Argument) : Prop where
  kind : ∃ role, argument.kind = .command role
  name : Text.isWord argument.name = true
  leaf : argument.subarguments = []

theorem PositionalForm.isCommand {argument : Argument} (h : argument.PositionalForm) :
    argument.isCommand = false := by
  simp [Argument.isCommand, h.kind]

theorem PositionalForm.isFlag {argument : Argument} (h : argument.PositionalForm) :
    argument.isFlag = false := by
  simp [Argument.isFlag, h.kind]

theorem FlagForm.isCommand {argument : Argument} (h : argument.FlagForm) :
    argument.isCommand = false := by
  simp [Argument.isCommand, h.kind]

theorem FlagForm.isFlag {argument : Argument} (h : argument.FlagForm) :
    argument.isFlag = true := by
  simp [Argument.isFlag, h.kind]

theorem BarewordForm.isCommand {argument : Argument} (h : argument.BarewordForm) :
    argument.isCommand = true := by
  obtain ⟨role, hkind⟩ := h.kind
  simp [Argument.isCommand, hkind]

theorem ParameterForm.isCommand {argument : Argument} (h : argument.ParameterForm) :
    argument.isCommand = false := by
  cases h with
  | positional form => exact form.isCommand
  | flag form => exact form.isCommand

theorem ParameterForm.name {argument : Argument} (h : argument.ParameterForm) :
    IsName argument.name.toList := by
  cases h with
  | positional form => exact form.name
  | flag form => exact form.name

theorem ParameterForm.isWord {argument : Argument} (h : argument.ParameterForm) :
    Text.isWord argument.name = true :=
  h.name.isWord

theorem ParameterForm.leaf {argument : Argument} (h : argument.ParameterForm) :
    argument.subarguments = [] := by
  cases h with
  | positional form => exact form.leaf
  | flag form => exact form.leaf

/-- The token of a flag is a single word. -/
theorem ParameterForm.token_isWord {argument : Argument} (h : argument.ParameterForm)
    (hflag : argument.isFlag = true) :
    ∃ token, argument.token = some token ∧ Text.isWord token = true := by
  cases h with
  | positional form =>
      rw [form.isFlag] at hflag
      cases hflag
  | flag form =>
      obtain ⟨token, htoken, hname⟩ := form.token
      exact ⟨token, htoken, hname.toIsName.isWord⟩

theorem ParameterForm.positional_of_not_flag {argument : Argument} (h : argument.ParameterForm)
    (hflag : argument.isFlag = false) : argument.kind = .positional := by
  cases h with
  | positional form => exact form.kind
  | flag form =>
      rw [form.isFlag] at hflag
      cases hflag

/-- A positional parameter has no token, so exactly the flags have one. -/
theorem ParameterForm.isFlag_iff {argument : Argument} (h : argument.ParameterForm) :
    argument.isFlag = true ↔ ∃ token, argument.token = some token := by
  cases h with
  | positional form => simp [form.isFlag, form.token]
  | flag form =>
      obtain ⟨token, htoken, _⟩ := form.token
      simp [form.isFlag, htoken]

end Argument

namespace Declaration

/-! ## Parts of a piece -/

theorem ok_of_checkName {piece : String} {name : List Char} (h : checkName piece name = .ok ()) :
    name ≠ [] ∧ ∀ c ∈ name, Text.isBlank c = false := by
  unfold checkName at h
  split at h
  next => cases h
  next hempty =>
      split at h
      next => cases h
      next hblank => exact ⟨by simpa using hempty, by simpa using hblank⟩

theorem checkName_of_word (piece : String) {name : List Char} (hne : name ≠ [])
    (h : ∀ c ∈ name, Text.isBlank c = false) : checkName piece name = .ok () := by
  simpa [checkName, hne] using h

/-- Without dots, or with them taken off, a text is a front part of itself. -/
theorem stripDots_subset (text : List Char) : ∀ c ∈ (stripDots text).1, c ∈ text := by
  unfold stripDots
  split
  next rest hrest =>
      intro c hc
      have htext : Text.trimEnd text = rest ++ dots := Text.beforeEnd?_eq_some_iff.mp hrest
      exact (Text.trimEnd_isPrefix text).subset (htext ▸ List.mem_append_left dots hc)
  next => exact fun c hc => hc

theorem stripDots_append_dots (text : List Char) : stripDots (text ++ dots) = (text, true) := by
  have hending : ∀ c ∈ (text ++ dots).getLast?, Text.isBlank c = false := by
    intro c hc
    have hdot : '.' = c := by simpa [dots] using hc
    rw [← hdot]
    decide
  rw [stripDots, Text.trimEnd_of_ending hending, Text.beforeEnd?_append]

/-- Without the dots at its end a text is shorter. -/
theorem trim_ne_append_dots (text : List Char) : Text.trim text ≠ text ++ dots := by
  intro heq
  have hlength := (Text.trim_isInfix text).length_le
  rw [heq, List.length_append] at hlength
  have hthree : dots.length = 3 := rfl
  omega

theorem ok_of_inner {piece : String} {closing : Char} {rest content : List Char}
    (h : inner piece closing rest = .ok content) : rest = content ++ [closing] := by
  unfold inner at h
  split at h
  next hlast =>
      cases h
      exact (List.dropLast_append_getLast? closing hlast).symm
  next => cases h

/-- What stands between the brackets of a piece holds none. -/
theorem IsPiece.inner {text : List Char} {opening closing : Char} {content : List Char}
    (h : IsPiece text) (hopening : isBracket opening = true)
    (htext : text = opening :: (content ++ [closing])) : ∀ c ∈ content, isBracket c = false := by
  cases h with
  | bareword hne hplain =>
      have hfirst := (hplain opening (htext ▸ List.mem_cons_self)).2
      rw [hfirst] at hopening
      cases hopening
  | bracketed hbracket hplain =>
      rename_i body
      rw [List.cons.injEq] at htext
      have hbody : body = content := (List.append_inj' htext.2 rfl).1
      exact hbody ▸ hplain

/-- The name of a positional head is taken from it and holds no colon. -/
theorem ok_of_typedName {piece : String} {head name : List Char} {datatype : DataType}
    (h : typedName piece head = .ok (name, datatype)) :
    ∀ c ∈ name, c ∈ head ∧ c ≠ ':' := by
  unfold typedName at h
  split at h
  next hnone =>
      cases h
      intro c hc
      have hmem := Text.mem_of_mem_trim hc
      exact ⟨hmem, by simpa using Text.forall_of_splitAtFirst?_eq_none hnone c hmem⟩
  next before after hsome =>
      split at h
      next =>
          cases h
          intro c hc
          have hmem := Text.mem_of_splitAtFirst? hsome c (Text.mem_of_mem_trim hc)
          exact ⟨hmem.1, by simpa using hmem.2⟩
      next => cases h

/-- A word without a colon is the name of a text. -/
theorem typedName_of_untyped (piece : String) {name : List Char}
    (hblank : ∀ c ∈ name, Text.isBlank c = false) (hcolon : ':' ∉ name) :
    typedName piece name = .ok (name, .string) := by
  have huncut : ∀ c ∈ name, (c == ':') = false := by
    intro c hc
    have hne : c ≠ ':' := fun heq => hcolon (heq ▸ hc)
    simpa using hne
  unfold typedName
  rw [Text.splitAtFirst?_of_forall huncut, (Text.tight_of_not_blank hblank).trim_eq]

/-- A character that is not blank comes into a head from the text between brackets. -/
theorem isName_of_head {content name : List Char}
    (hcontent : ∀ c ∈ content, isBracket c = false)
    (hname : ∀ c ∈ name, c ∈ (Payload.read content).head.toList)
    (hword : name ≠ [] ∧ ∀ c ∈ name, Text.isBlank c = false) : IsName name where
  nonempty := hword.1
  plain := fun c hc =>
    ⟨hword.2 c hc, Payload.ne_plus_of_mem_head (hname c hc),
      hcontent c (Payload.mem_of_mem_head (hname c hc) (hword.2 c hc))⟩

/-! ## Kinds of pieces -/

/-- How a piece in angle or square brackets is read.  The dots at its end are taken off
before its payload is read, those of the head behind that. -/
theorem positional_ok {piece : String} {closing : Char} {optional : Bool} {rest : List Char}
    {argument : Argument} {choices : Option (List String)}
    (h : positional piece closing optional rest = .ok (argument, choices)) :
    ∃ content name datatype, rest = content ++ [closing] ∧
      typedName piece (stripDots (Payload.read (stripDots content).1).head.toList).1 =
        .ok (name, datatype) ∧
      checkName piece name = .ok () ∧
      argument =
        { argumentOf (Payload.read (stripDots content).1) .positional (String.ofList name) with
          optional := optional
          variadic := (stripDots content).2 ||
            (stripDots (Payload.read (stripDots content).1).head.toList).2
          datatype := datatype } ∧
      choices = (Payload.read (stripDots content).1).choices := by
  unfold positional at h
  obtain ⟨content, hinner, h⟩ := ok_of_bind_eq_ok h
  rcases hbody : stripDots content with ⟨body, variadicPiece⟩
  rw [hbody] at h
  dsimp only at h
  rcases hhead : stripDots (Payload.read body).head.toList with ⟨head, variadicHead⟩
  rw [hhead] at h
  dsimp only at h
  obtain ⟨⟨name, datatype⟩, hname, h⟩ := ok_of_bind_eq_ok h
  obtain ⟨_, hcheck, h⟩ := ok_of_bind_eq_ok h
  cases h
  refine ⟨content, name, datatype, ok_of_inner hinner, ?_, hcheck, ?_, ?_⟩
  all_goals simp only [hbody, hhead, hname]

/-- A piece in angle or square brackets declares a positional parameter. -/
theorem positional_form {piece : String} {opening closing : Char} {optional : Bool}
    {rest : List Char} {argument : Argument} {choices : Option (List String)}
    (hpiece : IsPiece piece.toList) (hopening : isBracket opening = true)
    (hlist : piece.toList = opening :: rest)
    (h : positional piece closing optional rest = .ok (argument, choices)) :
    argument.PositionalForm := by
  obtain ⟨content, name, datatype, hrest, hname, hcheck, rfl, _⟩ := positional_ok h
  have hcontent := IsPiece.inner hpiece hopening (hrest ▸ hlist)
  have hbracket : ∀ c ∈ (stripDots content).1, isBracket c = false :=
    fun c hc => hcontent c (stripDots_subset _ c hc)
  have hfrom : ∀ c ∈ name, c ∈ (Payload.read (stripDots content).1).head.toList :=
    fun c hc => stripDots_subset _ c (ok_of_typedName hname c hc).1
  have hisName := isName_of_head hbracket hfrom (ok_of_checkName hcheck)
  exact
    { kind := rfl
      name := by simpa [argumentOf] using hisName
      untyped := by
        simp only [argumentOf, String.toList_ofList]
        exact fun hcolon => (ok_of_typedName hname ':' hcolon).2 rfl
      token := rfl
      bounds := fun _ => ⟨rfl, rfl⟩
      ordered := fun low hlow => by cases hlow
      leaf := rfl }

theorem ok_of_flagWords {piece : String} {head token name : List Char}
    (h : flagWords piece head = .ok (token, name)) :
    (∀ c ∈ token, c ∈ head ∧ Text.isBlank c = false) ∧ ∀ c ∈ name, c ∈ head := by
  unfold flagWords at h
  split at h
  next =>
      cases h
      simp
  next word hwords =>
      cases h
      have hword := (Text.mem_words (hwords ▸ List.mem_singleton_self token)).2
      exact ⟨hword, fun c hc => (hword c ((List.dropWhile_suffix _).subset hc)).1⟩
  next first second hwords =>
      cases h
      have hfirst := (Text.mem_words (hwords ▸ List.mem_cons_self)).2
      have hsecond : name ∈ Text.words head := by simp [hwords]
      exact ⟨hfirst, fun c hc => ((Text.mem_words hsecond).2 c hc).1⟩
  next => cases h

/-- The token of a flag is a part of the head. -/
theorem infix_of_flagWords {piece : String} {head token name : List Char}
    (h : flagWords piece head = .ok (token, name)) : token <:+: head := by
  unfold flagWords at h
  split at h
  next =>
      cases h
      exact List.nil_infix
  next word hwords =>
      cases h
      exact Text.infix_of_mem_words (hwords ▸ List.mem_singleton_self token)
  next first second hwords =>
      cases h
      exact Text.infix_of_mem_words (hwords ▸ List.mem_cons_self)
  next => cases h

/-- The token of a flag starts as the head does. -/
theorem dash_of_flagWords {piece : String} {head token name : List Char}
    (hdash : head.head? = some '-') (h : flagWords piece head = .ok (token, name)) :
    token.head? = some '-' := by
  obtain ⟨rest, rfl⟩ := List.head?_eq_some_iff.mp hdash
  obtain ⟨word, others, hall⟩ := Text.words_cons (c := '-') (by decide) rest
  unfold flagWords at h
  rw [hall] at h
  split at h
  next hwords => cases hwords
  next hwords =>
      cases hwords
      cases h
      rfl
  next hwords =>
      cases hwords
      cases h
      rfl
  next => cases h

/-- The head of a text that starts with a dash starts with it too. -/
theorem head_dash {content : List Char} {closing : Char} {rest : List Char}
    (hrest : rest = content ++ [closing]) (hclosing : closing ≠ '-')
    (hdash : rest.head? = some '-') : (Payload.read content).head.toList.head? = some '-' := by
  cases content with
  | nil =>
      rw [hrest] at hdash
      exact absurd (Option.some.inj hdash) hclosing
  | cons c body =>
      have hc : c = '-' := by simpa [hrest] using hdash
      subst hc
      exact Payload.head_cons (by decide) (by decide) (by decide) body

/-- The token of a flag whose head starts with a dash is a flag token. -/
theorem isFlagToken_of_flagWords {piece : String} {content token name : List Char}
    (hcontent : ∀ c ∈ content, isBracket c = false)
    (hdash : (Payload.read content).head.toList.head? = some '-')
    (h : flagWords piece (Payload.read content).head.toList = .ok (token, name))
    (hmarked : withoutDashes token ≠ []) : IsFlagToken token := by
  have htoken := (ok_of_flagWords h).1
  have hstart := dash_of_flagWords hdash h
  have hnonempty : token ≠ [] := by
    rintro rfl
    cases hstart
  exact
    { toIsName := isName_of_head hcontent (fun c hc => (htoken c hc).1)
        ⟨hnonempty, fun c hc => (htoken c hc).2⟩
      dash := hstart
      marked := hmarked }

/-- How a piece in round brackets is read. -/
theorem flag_ok {piece : String} {rest : List Char} {argument : Argument}
    {choices : Option (List String)} (h : flag piece rest = .ok (argument, choices)) :
    ∃ content token name, rest = content ++ [')'] ∧ rest.head? = some '-' ∧
      flagWords piece (Payload.read content).head.toList = .ok (token, name) ∧
      checkName piece name = .ok () ∧ withoutDashes token ≠ [] ∧ ¬ dots <:+ name ∧
      argument =
        { argumentOf (Payload.read content) .flag (String.ofList name) with
          optional := true
          token := some (String.ofList token) } ∧
      choices = (Payload.read content).choices := by
  unfold flag at h
  split at h
  next => cases h
  next hdash =>
      obtain ⟨content, hinner, h⟩ := ok_of_bind_eq_ok h
      obtain ⟨⟨token, name⟩, hwords, h⟩ := ok_of_bind_eq_ok h
      obtain ⟨_, hcheck, h⟩ := ok_of_bind_eq_ok h
      by_cases hmarked : (withoutDashes token).isEmpty = true
      · rw [if_pos hmarked] at h
        cases h
      rw [if_neg hmarked] at h
      by_cases hdots : (Text.beforeEnd? dots name).isSome = true
      · simp only [hdots, if_true] at h
        cases h
      simp only [hdots] at h
      cases h
      exact ⟨content, token, name, ok_of_inner hinner, by simpa using hdash, hwords, hcheck,
        by simpa using hmarked, by simpa [← Text.beforeEnd?_eq_none_iff] using hdots, rfl, rfl⟩

/-- The token of a flag is taken from what stands in front of the first mark. -/
theorem token_infix_of_flag {piece : String} {content front : List Char} {argument : Argument}
    {choices : Option (List String)}
    (hhead : (Payload.read content).head = String.ofList (Text.trim front))
    (h : flag piece (content ++ [')']) = .ok (argument, choices)) :
    ∀ token ∈ argument.token, token.toList <:+: front := by
  obtain ⟨found, token, name, hcontent, _, hwords, _, _, _, rfl, _⟩ := flag_ok h
  obtain ⟨rfl, _⟩ := List.append_inj' hcontent rfl
  rw [hhead, String.toList_ofList] at hwords
  intro given hgiven
  rw [← Option.some.inj hgiven, String.toList_ofList]
  exact (infix_of_flagWords hwords).trans (Text.trim_isInfix front)

/-- A piece in round brackets declares a flag. -/
theorem flag_form {piece : String} {rest : List Char} {argument : Argument}
    {choices : Option (List String)} (hpiece : IsPiece piece.toList)
    (hlist : piece.toList = '(' :: rest) (h : flag piece rest = .ok (argument, choices)) :
    argument.FlagForm := by
  obtain ⟨content, token, name, hrest, hdash, hwords, hcheck, hmarked, hdots, rfl, _⟩ := flag_ok h
  have hcontent := IsPiece.inner hpiece (by decide) (hrest ▸ hlist)
  have hstart := head_dash hrest (by decide) hdash
  have hname := (ok_of_flagWords hwords).2
  exact
    { kind := rfl
      name := by
        simpa [argumentOf] using isName_of_head hcontent hname (ok_of_checkName hcheck)
      undotted := by simpa [argumentOf] using hdots
      optional := rfl
      variadic := rfl
      datatype := rfl
      token := by
        refine ⟨_, rfl, ?_⟩
        rw [String.toList_ofList]
        exact isFlagToken_of_flagWords hcontent hstart hwords hmarked
      bounds := ⟨rfl, rfl⟩
      leaf := rfl }

/-- How a piece without brackets is read. -/
theorem bareword_ok {grammar : Grammar} {position : Nat} {piece : String} {argument : Argument}
    (h : bareword grammar position piece = .ok argument) :
    checkName piece (Payload.read piece.toList).head.toList = .ok () ∧
      ∃ role, roleAt? grammar position = some role ∧ argument =
        argumentOf (Payload.read piece.toList) (.command role)
          (Payload.read piece.toList).head := by
  unfold bareword at h
  split at h
  next => cases h
  next =>
      split at h
      next => cases h
      next role hrole =>
          obtain ⟨_, hcheck, h⟩ := ok_of_bind_eq_ok h
          cases h
          exact ⟨hcheck, role, hrole, rfl⟩

/-- A piece without brackets declares a bareword. -/
theorem bareword_form {grammar : Grammar} {position : Nat} {piece : String} {argument : Argument}
    (h : bareword grammar position piece = .ok argument) : argument.BarewordForm := by
  obtain ⟨hcheck, role, _, rfl⟩ := bareword_ok h
  exact
    { kind := ⟨role, rfl⟩
      name := Text.isWord_iff.mpr (ok_of_checkName hcheck)
      leaf := rfl }

theorem declared_of_noBracket {grammar : Grammar} {position : Nat} {piece : String}
    (hne : piece.toList ≠ []) (h : ∀ c ∈ piece.toList, isBracket c = false) :
    declared grammar position piece =
      (bareword grammar position piece).map fun argument => (argument, none) := by
  unfold declared
  split
  next hnil => exact absurd hnil hne
  next hlist => exact absurd (h '<' (hlist ▸ List.mem_cons_self)) (by decide)
  next hlist => exact absurd (h '[' (hlist ▸ List.mem_cons_self)) (by decide)
  next hlist => exact absurd (h '(' (hlist ▸ List.mem_cons_self)) (by decide)
  next => rfl

/-- A piece without brackets declares the head of its payload, if that is one word. -/
theorem Fragment.parse_of_noBracket {grammar : Grammar} {position : Nat} {piece : String}
    {role : CommandRole} {payload : Payload} (hne : piece.toList ≠ [])
    (hbracket : ∀ c ∈ piece.toList, isBracket c = false)
    (hrole : roleAt? grammar position = some role) (hread : Payload.read piece.toList = payload)
    (hword : Text.isWord payload.head = true) :
    Fragment.parse grammar position piece =
      .ok ⟨position, piece, argumentOf payload (.command role) payload.head, none⟩ := by
  obtain ⟨hnonempty, hblank⟩ := Text.isWord_iff.mp hword
  have hstray : piece.toList.find? (fun c => (openingFor? c).isSome) = none := by
    rw [List.find?_eq_none]
    intro c hc
    simp [(isBracket_eq_false_iff.mp (hbracket c hc)).2]
  have hbareword : bareword grammar position piece =
      .ok (argumentOf payload (.command role) payload.head) := by
    simp only [bareword, hstray, hrole, hread, checkName_of_word piece hnonempty hblank]
    rfl
  rw [Fragment.parse, declared_of_noBracket hne hbracket, hbareword]
  rfl

/-- A name by itself declares a bareword of that name wherever a bareword may stand. -/
theorem Fragment.parse_name {grammar : Grammar} {position : Nat} {role : CommandRole}
    {name : String} (h : IsName name.toList) (hrole : roleAt? grammar position = some role) :
    Fragment.parse grammar position name =
      .ok ⟨position, name, argumentOf ⟨name, none, none⟩ (.command role) name, none⟩ := by
  have hblank : ∀ c ∈ name.toList, Text.isBlank c = false := fun c hc => (h.plain c hc).1
  have hcarried := Payload.carried_of_word hblank fun hplus => (h.plain _ hplus).2.1 rfl
  have hread : Payload.read name.toList = ⟨name, none, none⟩ := by
    rw [Payload.read_of_carried hcarried, String.ofList_toList]
  exact Fragment.parse_of_noBracket h.nonempty (fun c hc => (h.plain c hc).2.2) hrole hread
    h.isWord

/-- The name of a bareword holds neither plus signs nor brackets. -/
theorem bareword_isName {grammar : Grammar} {position : Nat} {piece : String}
    {argument : Argument} (hpiece : ∀ c ∈ piece.toList, isBracket c = false)
    (h : bareword grammar position piece = .ok argument) : IsName argument.name.toList := by
  obtain ⟨hcheck, role, _, rfl⟩ := bareword_ok h
  exact isName_of_head hpiece (fun _ hc => hc) (ok_of_checkName hcheck)

/-- A piece that starts with no opening bracket holds no bracket. -/
theorem IsPiece.noBracket {text : List Char} (h : IsPiece text)
    (hangle : ∀ rest, text ≠ '<' :: rest) (hsquare : ∀ rest, text ≠ '[' :: rest)
    (hround : ∀ rest, text ≠ '(' :: rest) : ∀ c ∈ text, isBracket c = false := by
  cases h with
  | bareword _ hplain => exact fun c hc => (hplain c hc).2
  | bracketed hbracket _ =>
      unfold closingFor? at hbracket
      split at hbracket
      · exact absurd rfl (hangle _)
      · exact absurd rfl (hsquare _)
      · exact absurd rfl (hround _)
      · cases hbracket

/-- What a piece declares has the form of a parameter or of a bareword. -/
theorem declared_form {grammar : Grammar} {position : Nat} {piece : String} {argument : Argument}
    {choices : Option (List String)} (hpiece : IsPiece piece.toList)
    (h : declared grammar position piece = .ok (argument, choices)) :
    argument.ParameterForm ∨ argument.BarewordForm := by
  unfold declared at h
  split at h
  next => cases h
  next rest hlist => exact Or.inl (.positional (positional_form hpiece (by decide) hlist h))
  next rest hlist => exact Or.inl (.positional (positional_form hpiece (by decide) hlist h))
  next rest hlist => exact Or.inl (.flag (flag_form hpiece hlist h))
  next =>
      obtain ⟨found, hbareword, hfound⟩ := ok_of_map_eq_ok h
      cases hfound
      exact Or.inr (bareword_form hbareword)

/-- A piece without brackets is a word. -/
theorem IsPiece.word {text : List Char} (h : IsPiece text)
    (hbracket : ∀ c ∈ text, isBracket c = false) : ∀ c ∈ text, Text.isBlank c = false := by
  cases h with
  | bareword _ hplain => exact fun c hc => (hplain c hc).1
  | bracketed hopening _ =>
      have hnone := hbracket _ List.mem_cons_self
      simp [isBracket, hopening] at hnone

/-- A piece that declares a bareword is one without brackets. -/
theorem bareword_of_declared {grammar : Grammar} {position : Nat} {piece : String}
    {argument : Argument} {choices : Option (List String)} (hpiece : IsPiece piece.toList)
    (h : declared grammar position piece = .ok (argument, choices))
    (hcommand : argument.isCommand = true) :
    (∀ c ∈ piece.toList, isBracket c = false) ∧ choices = none ∧
      bareword grammar position piece = .ok argument := by
  unfold declared at h
  split at h
  next => cases h
  next rest hlist =>
      rw [(positional_form hpiece (by decide) hlist h).isCommand] at hcommand
      cases hcommand
  next rest hlist =>
      rw [(positional_form hpiece (by decide) hlist h).isCommand] at hcommand
      cases hcommand
  next rest hlist =>
      rw [(flag_form hpiece hlist h).isCommand] at hcommand
      cases hcommand
  next hangle hsquare hround =>
      obtain ⟨found, hbareword, hfound⟩ := ok_of_map_eq_ok h
      cases hfound
      exact ⟨hpiece.noBracket hangle hsquare hround, rfl, hbareword⟩

/-- Outside barewords neither the grammar nor the position matters. -/
theorem declared_parameter {grammar : Grammar} {position : Nat} {piece : String}
    {argument : Argument} {choices : Option (List String)}
    (h : declared grammar position piece = .ok (argument, choices))
    (hparameter : argument.isCommand = false) (grammar' : Grammar) (position' : Nat) :
    declared grammar' position' piece = .ok (argument, choices) := by
  unfold declared at h ⊢
  split at h
  next => cases h
  next => exact h
  next => exact h
  next => exact h
  next =>
      obtain ⟨found, hbareword, hfound⟩ := ok_of_map_eq_ok h
      cases hfound
      rw [(bareword_form hbareword).isCommand] at hparameter
      cases hparameter

/-! ## The payload of a piece -/

/-- The description, the choices and the bounds of what a text declares. -/
structure ReadFrom (content : List Char) (argument : Argument) (choices : Option (List String)) :
    Prop where
  noBracket : ∀ c ∈ content, isBracket c = false
  description : argument.description =
    (Payload.read content).description.getD Payload.blankDescription
  choices : choices = none ∨ choices = (Payload.read content).choices
  bounds : argument.min = none ∧ argument.max = none

theorem positional_readFrom {piece : String} {opening closing : Char} {optional : Bool}
    {rest : List Char} {argument : Argument} {choices : Option (List String)}
    (hpiece : IsPiece piece.toList) (hopening : isBracket opening = true)
    (hlist : piece.toList = opening :: rest)
    (h : positional piece closing optional rest = .ok (argument, choices)) :
    ∃ content, ReadFrom content argument choices := by
  obtain ⟨content, name, datatype, hrest, _, _, rfl, hchoices⟩ := positional_ok h
  have hcontent := IsPiece.inner hpiece hopening (hrest ▸ hlist)
  exact ⟨(stripDots content).1, fun c hc => hcontent c (stripDots_subset _ c hc), rfl,
    Or.inr hchoices, rfl, rfl⟩

/-- What a parameter brings along is read from a text in its piece. -/
theorem readFrom_of_declared {grammar : Grammar} {position : Nat} {piece : String}
    {argument : Argument} {choices : Option (List String)} (hpiece : IsPiece piece.toList)
    (h : declared grammar position piece = .ok (argument, choices)) :
    ∃ content, ReadFrom content argument choices := by
  cases hcommand : argument.isCommand with
  | true =>
      obtain ⟨hbracket, hnone, hread⟩ := bareword_of_declared hpiece h hcommand
      obtain ⟨_, role, _, rfl⟩ := bareword_ok hread
      exact ⟨piece.toList, hbracket, rfl, Or.inl hnone, rfl, rfl⟩
  | false =>
      unfold declared at h
      split at h
      next => cases h
      next rest hlist => exact positional_readFrom hpiece (by decide) hlist h
      next rest hlist => exact positional_readFrom hpiece (by decide) hlist h
      next rest hlist =>
          obtain ⟨content, token, name, hrest, _, _, _, _, _, rfl, hchoices⟩ := flag_ok h
          exact ⟨content, IsPiece.inner hpiece (by decide) (hrest ▸ hlist), rfl,
            Or.inr hchoices, rfl, rfl⟩
      next =>
          obtain ⟨found, hbareword, hfound⟩ := ok_of_map_eq_ok h
          cases hfound
          rw [(bareword_form hbareword).isCommand] at hcommand
          cases hcommand

/-! ## Fragments of a declaration -/

/-- A fragment declares a parameter or a bareword. -/
def Fragment.Formed (fragment : Fragment) : Prop :=
  fragment.argument.ParameterForm ∨ fragment.argument.BarewordForm

theorem Fragment.parse_formed {grammar : Grammar} {position : Nat} {piece : String}
    {fragment : Fragment} (hpiece : IsPiece piece.toList)
    (h : Fragment.parse grammar position piece = .ok fragment) : fragment.Formed := by
  obtain ⟨⟨argument, choices⟩, hdeclared, rfl⟩ := ok_of_map_eq_ok h
  exact declared_form hpiece hdeclared

/-- A fragment is what is read from its own piece. -/
structure Fragment.IsRead (grammar : Grammar) (fragment : Fragment) : Prop where
  piece : IsPiece fragment.source.toList
  parse : Fragment.parse grammar fragment.position fragment.source = .ok fragment

theorem Fragment.IsRead.declared {grammar : Grammar} {fragment : Fragment}
    (h : fragment.IsRead grammar) :
    declared grammar fragment.position fragment.source =
      .ok (fragment.argument, fragment.choices) := by
  obtain ⟨⟨argument, choices⟩, hdeclared, heq⟩ := ok_of_map_eq_ok h.parse
  rw [hdeclared, ← heq]

theorem Fragment.IsRead.formed {grammar : Grammar} {fragment : Fragment}
    (h : fragment.IsRead grammar) : fragment.Formed :=
  Fragment.parse_formed h.piece h.parse

/-- What a fragment declares has a name without plus signs and brackets. -/
theorem Fragment.IsRead.isName {grammar : Grammar} {fragment : Fragment}
    (h : fragment.IsRead grammar) : IsName fragment.argument.name.toList := by
  rcases h.formed with hparameter | hbareword
  · exact hparameter.name
  · obtain ⟨hbracket, _, hread⟩ := bareword_of_declared h.piece h.declared hbareword.isCommand
    exact bareword_isName hbracket hread

theorem Fragment.isRead_of_mem_parseFrom {grammar : Grammar} {position : Nat}
    {texts : List String} {found : List Fragment} (hpieces : ∀ text ∈ texts, IsPiece text.toList)
    (h : Fragment.parseFrom grammar position texts = .ok found) :
    ∀ fragment ∈ found, fragment.IsRead grammar := by
  induction texts generalizing position found with
  | nil =>
      cases h
      simp
  | cons text rest ih =>
      rw [Fragment.parseFrom] at h
      obtain ⟨first, hfirst, h⟩ := ok_of_bind_eq_ok h
      obtain ⟨others, hothers, h⟩ := ok_of_bind_eq_ok h
      cases h
      intro fragment hmem
      rcases List.mem_cons.mp hmem with rfl | hmem
      · obtain ⟨⟨argument, choices⟩, _, heq⟩ := ok_of_map_eq_ok hfirst
        subst heq
        exact ⟨hpieces text List.mem_cons_self, hfirst⟩
      · exact ih (fun other hother => hpieces other (List.mem_cons_of_mem text hother)) hothers
          fragment hmem

/-- Every fragment of a declaration is read from one of its pieces. -/
theorem isRead_of_mem_fragments {grammar : Grammar} {text : String} {found : List Fragment}
    (h : fragments grammar text = .ok found) : ∀ fragment ∈ found, fragment.IsRead grammar := by
  obtain ⟨texts, hpieces, hparse⟩ := ok_of_bind_eq_ok h
  exact Fragment.isRead_of_mem_parseFrom (isPiece_of_mem_pieces hpieces) hparse

theorem Fragment.sources_of_parseFrom {grammar : Grammar} {position : Nat}
    {texts : List String} {found : List Fragment}
    (h : Fragment.parseFrom grammar position texts = .ok found) :
    found.map Fragment.source = texts := by
  induction texts generalizing position found with
  | nil =>
      cases h
      rfl
  | cons text rest ih =>
      rw [Fragment.parseFrom] at h
      obtain ⟨first, hfirst, h⟩ := ok_of_bind_eq_ok h
      obtain ⟨others, hothers, h⟩ := ok_of_bind_eq_ok h
      cases h
      obtain ⟨⟨argument, choices⟩, _, heq⟩ := ok_of_map_eq_ok hfirst
      rw [List.map_cons, ih hothers, ← heq]

/-- The fragments of a declaration are those of its pieces, in order. -/
theorem sources_of_fragments {grammar : Grammar} {text : String} {texts : List String}
    {found : List Fragment} (hpieces : pieces text = .ok texts)
    (h : fragments grammar text = .ok found) : found.map Fragment.source = texts := by
  rw [fragments, hpieces, ok_bind] at h
  exact Fragment.sources_of_parseFrom h

/-- Every fragment of a declaration declares a parameter or a bareword. -/
theorem formed_of_mem_fragments {grammar : Grammar} {text : String} {found : List Fragment}
    (h : fragments grammar text = .ok found) : ∀ fragment ∈ found, fragment.Formed :=
  fun fragment hmem => (isRead_of_mem_fragments h fragment hmem).formed

/-- A fragment that declares no bareword declares a parameter. -/
theorem Fragment.Formed.parameter {fragment : Fragment} (h : fragment.Formed)
    (hcommand : fragment.argument.isCommand = false) : fragment.argument.ParameterForm := by
  rcases h with hparameter | hbareword
  · exact hparameter
  · rw [hbareword.isCommand] at hcommand
    cases hcommand

theorem Fragment.Formed.bareword {fragment : Fragment} (h : fragment.Formed)
    (hcommand : fragment.argument.isCommand = true) : fragment.argument.BarewordForm := by
  rcases h with hparameter | hbareword
  · rw [hparameter.isCommand] at hcommand
    cases hcommand
  · exact hbareword

/-- The declaration of one parameter holds the fragment of a parameter, and that of a bareword
if it mentions a subcommand. -/
theorem Parameter.parse_isRead {text : String} {parameter : Parameter}
    (h : Parameter.parse text = .ok parameter) :
    (parameter.fragment.IsRead .parameter ∧ parameter.fragment.argument.isCommand = false) ∧
      ∀ mention ∈ parameter.subcommand,
        mention.IsRead .parameter ∧ mention.argument.isCommand = true := by
  obtain ⟨found, hfound, h⟩ := ok_of_bind_eq_ok h
  have hread := isRead_of_mem_fragments hfound
  split at h
  next fragment hparameters =>
      have hmem : fragment ∈ found ∧ fragment.argument.isCommand = false := by
        have hsingle : fragment ∈ [fragment] := List.mem_singleton_self fragment
        rw [← hparameters, List.mem_filter] at hsingle
        simpa using hsingle
      have hparameter := And.intro (hread fragment hmem.1) hmem.2
      split at h
      next =>
          cases h
          exact ⟨hparameter, by simp⟩
      next mention hbarewords =>
          split at h
          next => cases h
          next =>
              cases h
              refine ⟨hparameter, fun other hother => ?_⟩
              cases hother
              have hsingle : mention ∈ [mention] := List.mem_singleton_self mention
              rw [← hbarewords, List.mem_filter] at hsingle
              exact ⟨hread mention hsingle.1, hsingle.2⟩
      next => cases h
  next => cases h

theorem Parameter.parse_formed {text : String} {parameter : Parameter}
    (h : Parameter.parse text = .ok parameter) :
    parameter.fragment.argument.ParameterForm ∧
      ∀ mention ∈ parameter.subcommand, mention.argument.BarewordForm := by
  obtain ⟨⟨hread, hparameter⟩, hmention⟩ := Parameter.parse_isRead h
  refine ⟨hread.formed.parameter hparameter, fun mention hmem => ?_⟩
  obtain ⟨hread, hcommand⟩ := hmention mention hmem
  exact hread.formed.bareword hcommand

end Declaration

end SlashCommand
