import SlashCommand.Proofs.Command.Piece

/-!
# Reading back the usage of a parameter

The usage of a parameter shows its kind, name, marks and token, and is a piece of its own.
At the place the parameter was declared at it is read as a parameter that agrees in all of
these, unless the name of a positional parameter ends in dots, which are taken for those of
a variadic one, or a token ends in a semicolon, which is taken for the end of a section.
-/

namespace SlashCommand

open Declaration

namespace Argument

/-- Two parameters agree in all that a usage shows. -/
structure Resembles (first second : Argument) : Prop where
  kind : first.kind = second.kind
  name : first.name = second.name
  optional : first.optional = second.optional
  variadic : first.variadic = second.variadic
  token : first.token = second.token

/-- Nothing in the usage of a parameter is taken for a mark. -/
structure UnmarkedUsage (argument : Argument) : Prop where
  undotted : argument.kind = .positional → ¬ dots <:+ argument.name.toList
  token : argument.kind = .flag → UnmarkedFlag argument

/-- The usage of a parameter is read, at a place, as one that resembles it. -/
def UsageReadBack (argument : Argument) (grammar : Grammar) (position : Nat) : Prop :=
  ∃ again, Fragment.parse grammar position argument.usage = .ok again ∧
    again.argument.Resembles argument

theorem usage_bareword {argument : Argument} {role : CommandRole}
    (hkind : argument.kind = .command role) : argument.usage = argument.name := by
  simp [usage, hkind]

end Argument

/-! ## Flags -/

section Flag

variable {argument : Argument} (hform : argument.FlagForm) {token : String}
  (htoken : argument.token = some token) (hisToken : IsFlagToken token.toList)

include hform htoken

theorem usage_flag_toList :
    argument.usage.toList = '(' :: ((flagHead token argument).toList ++ [')']) := by
  simp [Argument.usage, hform.kind, htoken, flagHead]

include hisToken

theorem isPiece_usage_flag : IsPiece argument.usage.toList := by
  rw [usage_flag_toList hform htoken]
  refine .bracketed rfl fun c hc => ?_
  rw [flagHead_toList, List.mem_append, List.mem_cons] at hc
  rcases hc with hc | rfl | hc
  · exact (hisToken.plain c hc).2.2
  · decide
  · exact (hform.name.plain c hc).2.2

/-- The usage of a flag is read back if its token does not end a section. -/
theorem usageReadBack_flag (hunmarked : UnmarkedFlag argument) (grammar : Grammar)
    (position : Nat) : argument.UsageReadBack grammar position := by
  have hhead := flagHead_toList token argument
  have hcarried : Payload.Carried (flagHead token argument).toList := by
    rw [hhead]
    exact space_carried hisToken.toIsName hform.name (hunmarked token htoken)
  have hread : Payload.read (flagHead token argument).toList =
      ⟨flagHead token argument, none, none⟩ := by
    rw [Payload.read_of_carried hcarried, String.ofList_toList]
  have hdash : ((flagHead token argument).toList ++ [')']).head? = some '-' := by
    obtain ⟨rest, hrest⟩ := List.head?_eq_some_iff.mp hisToken.dash
    simp [hhead, hrest]
  have hdeclared := declared_of_round (usage_flag_toList hform htoken) grammar position
  rw [flag_of_read hform hisToken _ hdash hread] at hdeclared
  refine ⟨_, by rw [Fragment.parse, hdeclared]; rfl, ?_⟩
  exact
    { kind := hform.kind.symm
      name := rfl
      optional := hform.optional.symm
      variadic := hform.variadic.symm
      token := htoken.symm }

/-- What is read from the usage of a flag has its token only if that ends no section. -/
theorem unmarked_of_usage_flag {grammar : Grammar} {position : Nat}
    (h : argument.UsageReadBack grammar position) : UnmarkedFlag argument := by
  obtain ⟨again, hparse, hsame⟩ := h
  obtain ⟨⟨read, choices⟩, hdeclared, rfl⟩ := ok_of_map_eq_ok hparse
  rw [declared_of_round (usage_flag_toList hform htoken)] at hdeclared
  have hcontent : (flagHead token argument).toList.map Payload.plusToBlank =
      (flagHead token argument).toList ++ [] := by
    rw [Payload.map_plusToBlank_of_noPlus (flagHead_noPlus hform hisToken), List.append_nil]
  exact unmarked_of_flag htoken hisToken hcontent hdeclared hsame.token

end Flag

/-! ## Positional parameters -/

section Positional

variable {argument : Argument} (hform : argument.PositionalForm)

/-- What stands between the brackets of the usage of a positional parameter. -/
def usageContent (argument : Argument) : List Char :=
  argument.name.toList ++ if argument.variadic then dots else []

include hform

theorem usage_positional_toList :
    argument.usage.toList =
      (brackets argument).1 :: (usageContent argument ++ [(brackets argument).2]) := by
  have hdots : "...".toList = dots := rfl
  simp only [Argument.usage, hform.kind]
  unfold brackets usageContent
  split <;> cases argument.variadic <;> simp [hdots]

theorem isPiece_usage_positional : IsPiece argument.usage.toList := by
  rw [usage_positional_toList hform]
  refine .bracketed (closingFor?_brackets argument) fun c hc => ?_
  rcases List.mem_append.mp hc with hname | hdots
  · exact (hform.name.plain c hname).2.2
  · split at hdots
    next =>
        have hnone : dots.any isBracket = false := by decide
        exact Text.forall_of_any_eq_false hnone c hdots
    next => cases hdots

theorem read_name :
    Payload.read argument.name.toList = ⟨argument.name, none, none⟩ := by
  have hcarried := Payload.carried_of_word (fun c hc => (hform.name.plain c hc).1)
    fun hplus => (hform.name.plain _ hplus).2.1 rfl
  rw [Payload.read_of_carried hcarried, String.ofList_toList]

omit hform in
/-- A name without dots at its end is left as it is. -/
theorem stripDots_name {name : List Char} (h : IsName name) (hundotted : ¬ dots <:+ name) :
    stripDots name = (name, false) := by
  have hending : ∀ c ∈ name.getLast?, Text.isBlank c = false :=
    fun c hc => (h.plain c (List.mem_of_getLast? hc)).1
  rw [stripDots, Text.trimEnd_of_ending hending, Text.beforeEnd?_eq_none_iff.mpr hundotted]

/-- The dots of a variadic parameter are taken off its usage again. -/
theorem stripDots_usageContent (hundotted : ¬ dots <:+ argument.name.toList) :
    stripDots (usageContent argument) = (argument.name.toList, argument.variadic) := by
  unfold usageContent
  cases argument.variadic with
  | true => exact stripDots_append_dots argument.name.toList
  | false => simpa using stripDots_name hform.name hundotted

/-- The usage of a positional parameter is read back if its name does not end in dots. -/
theorem usageReadBack_positional (hundotted : ¬ dots <:+ argument.name.toList)
    (grammar : Grammar) (position : Nat) : argument.UsageReadBack grammar position := by
  have htyped : typedName argument.usage argument.name.toList =
      .ok (argument.name.toList, .string) :=
    typedName_of_untyped _ (fun c hc => (hform.name.plain c hc).1) hform.untyped
  have hdeclared := declared_of_brackets (usage_positional_toList hform) grammar position
  rw [positional_of_read (stripDots_usageContent hform hundotted) (read_name hform)
    (stripDots_name hform.name hundotted) htyped hform.name] at hdeclared
  refine ⟨_, by rw [Fragment.parse, hdeclared]; rfl, ?_⟩
  exact
    { kind := hform.kind.symm
      name := String.ofList_toList
      optional := rfl
      variadic := Bool.or_false argument.variadic
      token := hform.token.symm }

/-- Dots at the end of a name are taken for those of a variadic parameter, or are cut off
in front of them. -/
theorem undotted_of_usage {grammar : Grammar} {position : Nat}
    (h : argument.UsageReadBack grammar position) : ¬ dots <:+ argument.name.toList := by
  obtain ⟨again, hparse, hsame⟩ := h
  obtain ⟨⟨read, choices⟩, hdeclared, rfl⟩ := ok_of_map_eq_ok hparse
  rw [declared_of_brackets (usage_positional_toList hform)] at hdeclared
  obtain ⟨content, name, datatype, hcontent, htyped, _, rfl, _⟩ := positional_ok hdeclared
  obtain ⟨rfl, _⟩ := List.append_inj' hcontent rfl
  have hvariadic := hsame.variadic
  have hname := hsame.name
  rintro ⟨front, hfront⟩
  unfold usageContent at htyped hvariadic
  cases hdotted : argument.variadic with
  | false =>
      simp only [hdotted, ← hfront, Bool.false_eq_true, if_false, List.append_nil,
        stripDots_append_dots, Bool.true_or] at hvariadic
      cases hvariadic
  | true =>
      have hplain : ∀ c ∈ front, c ∈ argument.name.toList :=
        fun c hc => hfront ▸ List.mem_append_left dots hc
      rw [hdotted, if_pos rfl, stripDots_append_dots, read_name hform] at htyped
      dsimp only at htyped
      rw [← hfront, stripDots_append_dots,
        typedName_of_untyped _ (fun c hc => (hform.name.plain c (hplain c hc)).1)
          fun hcolon => hform.untyped (hplain ':' hcolon)] at htyped
      cases htyped
      have hlength := congrArg String.length hname
      rw [← String.length_toList, ← String.length_toList, ← hfront] at hlength
      simp [argumentOf, dots] at hlength

end Positional

/-! ## Every fragment of a declaration -/

namespace Declaration.Fragment.IsRead

variable {grammar : Grammar} {fragment : Fragment}

theorem isPiece_usage (h : fragment.IsRead grammar) : IsPiece fragment.argument.usage.toList := by
  rcases h.formed with (form | form) | form
  · exact isPiece_usage_positional form
  · obtain ⟨token, htoken, hisToken⟩ := form.token
    exact isPiece_usage_flag form htoken hisToken
  · obtain ⟨role, hkind⟩ := form.kind
    rw [Argument.usage_bareword hkind]
    exact h.isName.isPiece

/-- A bareword is read back at its own place, where it plays the same part. -/
theorem usageReadBack_bareword (h : fragment.IsRead grammar)
    (hcommand : fragment.argument.isCommand = true) :
    fragment.argument.UsageReadBack grammar fragment.position := by
  have hname := h.isName
  obtain ⟨_, _, hread⟩ := bareword_of_declared h.piece h.declared hcommand
  obtain ⟨_, role, hrole, hargument⟩ := bareword_ok hread
  rw [hargument] at hname ⊢
  exact ⟨_, Fragment.parse_name hname hrole, rfl, rfl, rfl, rfl, rfl⟩

theorem usageReadBack_iff (h : fragment.IsRead grammar) :
    fragment.argument.UsageReadBack grammar fragment.position ↔
      fragment.argument.UnmarkedUsage := by
  rcases h.formed with (form | form) | form
  · have hnoFlag : fragment.argument.kind ≠ .flag := by simp [form.kind]
    constructor
    · exact fun hback => ⟨fun _ => undotted_of_usage form hback, fun hkind => absurd hkind hnoFlag⟩
    · exact fun hunmarked => usageReadBack_positional form (hunmarked.undotted form.kind) _ _
  · obtain ⟨token, htoken, hisToken⟩ := form.token
    have hnamed : fragment.argument.kind ≠ .positional := by simp [form.kind]
    constructor
    · exact fun hback =>
        ⟨fun hkind => absurd hkind hnamed,
          fun _ => unmarked_of_usage_flag form htoken hisToken hback⟩
    · exact fun hunmarked =>
        usageReadBack_flag form htoken hisToken (hunmarked.token form.kind) _ _
  · obtain ⟨role, hkind⟩ := form.kind
    have hunmarked : fragment.argument.UnmarkedUsage := ⟨by simp [hkind], by simp [hkind]⟩
    exact iff_of_true (h.usageReadBack_bareword form.isCommand) hunmarked

end Declaration.Fragment.IsRead

/-- The usage of whatever a declaration declares is one piece.  At the place of its fragment it
is read as a parameter that agrees in all that a usage shows, exactly if nothing in it is taken
for a mark. -/
theorem usage_read_back {grammar : Grammar} {text : String} {found : List Fragment}
    (h : fragments grammar text = .ok found) {fragment : Fragment} (hmem : fragment ∈ found) :
    pieces fragment.argument.usage = .ok [fragment.argument.usage] ∧
      (fragment.argument.UsageReadBack grammar fragment.position ↔
        fragment.argument.UnmarkedUsage) := by
  have hread := isRead_of_mem_fragments h fragment hmem
  have hpieces : pieces (Text.join " " [fragment.argument.usage]) = .ok [fragment.argument.usage] :=
    pieces_join (by simpa using hread.isPiece_usage)
  exact ⟨hpieces, hread.usageReadBack_iff⟩

/-- The dots of the dish are those of a variadic parameter; the semicolon of the flag belongs to
its token. -/
def courseText : String :=
  "course <dish:text...; what+to+serve> (-w;)"

theorem course_usage :
    ∃ course dish warm, fragments .command courseText = .ok [course, dish, warm] ∧
      course.argument.UsageReadBack .command course.position ∧
      (dish.argument.usage = "<dish...>" ∧ pieces "<dish...>" = .ok ["<dish...>"] ∧
        dish.argument.UsageReadBack .command dish.position) ∧
      warm.argument.usage = "(-w; w;)" ∧ pieces "(-w; w;)" = .ok ["(-w; w;)"] ∧
        ¬ warm.argument.UsageReadBack .command warm.position := by
  obtain ⟨course, dish, warm, hread, hroot, ⟨hdish, hpositional, hname⟩, hwarm, hflag, htoken⟩ :
      ∃ course dish warm, fragments .command courseText = .ok [course, dish, warm] ∧
        course.argument.kind = .command .root ∧
        (dish.argument.usage = "<dish...>" ∧ dish.argument.kind = .positional ∧
          dish.argument.name = "dish") ∧
        warm.argument.usage = "(-w; w;)" ∧ warm.argument.kind = .flag ∧
          warm.argument.token = some "-w;" :=
    ⟨_, _, _, rfl, rfl, ⟨rfl, rfl, rfl⟩, rfl, rfl, rfl⟩
  have hcourseUnmarked : course.argument.UnmarkedUsage := ⟨by simp [hroot], by simp [hroot]⟩
  have hundotted : ¬ dots <:+ "dish".toList := by decide
  have hdishUnmarked : dish.argument.UnmarkedUsage :=
    ⟨fun _ => hname ▸ hundotted, by simp [hpositional]⟩
  have hmem : course ∈ [course, dish, warm] ∧ dish ∈ [course, dish, warm] ∧
      warm ∈ [course, dish, warm] := by simp
  obtain ⟨_, hcourseBack⟩ := usage_read_back hread hmem.1
  obtain ⟨hdishPiece, hdishBack⟩ := usage_read_back hread hmem.2.1
  obtain ⟨hwarmPiece, hwarmBack⟩ := usage_read_back hread hmem.2.2
  refine ⟨course, dish, warm, hread, hcourseBack.mpr hcourseUnmarked,
    ⟨hdish, hdish ▸ hdishPiece, hdishBack.mpr hdishUnmarked⟩, hwarm, hwarm ▸ hwarmPiece, ?_⟩
  exact fun hback => (hwarmBack.mp hback).token hflag "-w;" htoken rfl

end SlashCommand
