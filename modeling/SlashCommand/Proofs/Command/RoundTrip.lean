import SlashCommand.Proofs.Builder.Reachable
import SlashCommand.Proofs.Command.Piece
import SlashCommand.Proofs.Dict

/-!
# Reading back a written command

A declared command whose texts a declaration can hold is read back from its written
form: with the same name, description and choices, and with the same parameters, its
own before the subcommands and all of them without bounds.
-/

namespace SlashCommand

open Declaration

variable {α : Type}

namespace Command

/-- A declaration text holds a command as it is. -/
structure Plain (command : Command α) : Prop where
  typed : command.type = .chatInput
  bareword : PlainBareword command.name command.description
  subcommands : ∀ subcommand ∈ command.subcommands,
    PlainBareword subcommand.name subcommand.description
  positionals : ∀ scope, ∀ argument ∈ parametersIn command.arguments scope,
    argument.isFlag = false →
      PlainPositional argument (command.choices.get? ⟨scope, argument.name⟩)
  flags : ∀ scope, ∀ argument ∈ parametersIn command.arguments scope,
    argument.isFlag = true → PlainFlag argument

/-- A declaration text has a place for all texts of a command. -/
structure Held (command : Command α) : Prop where
  typed : command.type = .chatInput
  bareword : PlainBareword command.name command.description
  subcommands : ∀ subcommand ∈ command.subcommands,
    PlainBareword subcommand.name subcommand.description
  positionals : ∀ scope, ∀ argument ∈ parametersIn command.arguments scope,
    argument.isFlag = false →
      HeldPositional argument (command.choices.get? ⟨scope, argument.name⟩)
  flags : ∀ scope, ∀ argument ∈ parametersIn command.arguments scope,
    argument.isFlag = true → SlashCommand.Plain argument.description

/-- No text of a command is written as a mark of a declaration. -/
structure Unmarked (command : Command α) : Prop where
  positionals : ∀ scope, ∀ argument ∈ parametersIn command.arguments scope,
    argument.isFlag = false →
      UnmarkedPositional argument (command.choices.get? ⟨scope, argument.name⟩)
  flags : ∀ scope, ∀ argument ∈ parametersIn command.arguments scope,
    argument.isFlag = true → UnmarkedFlag argument

theorem Plain.held {command : Command α} (h : command.Plain) : command.Held where
  typed := h.typed
  bareword := h.bareword
  subcommands := h.subcommands
  positionals := fun scope argument hmem hflag => (h.positionals scope argument hmem hflag).held
  flags := fun scope argument hmem hflag => (h.flags scope argument hmem hflag).described

theorem Plain.unmarked {command : Command α} (h : command.Plain) : command.Unmarked where
  positionals := fun scope argument hmem hflag =>
    (h.positionals scope argument hmem hflag).unmarked
  flags := fun scope argument hmem hflag => (h.flags scope argument hmem hflag).token

/-- The parameters in the order in which they are written: those of the command itself
first. -/
def writtenOrder (command : Command α) : List Argument :=
  (command.arguments.filter fun argument => !argument.isCommand) ++ command.subcommands

end Command

/-! ## From draft to draft -/

/-- Pieces lead from one draft to another wherever they stand in a declaration. -/
inductive Leads : List String → Draft α × Option String → Draft α × Option String → Prop where
  | nil (progress : Draft α × Option String) : Leads [] progress progress
  | cons {text : String} {rest : List String} {before between after : Draft α × Option String}
      (first : ∀ position, ∃ fragment, Fragment.parse .command position text = .ok fragment ∧
        Draft.addFragment before fragment = .ok between)
      (others : Leads rest between after) : Leads (text :: rest) before after

namespace Leads

theorem append {first second : List String} {before between after : Draft α × Option String}
    (hfirst : Leads first before between) (hsecond : Leads second between after) :
    Leads (first ++ second) before after := by
  induction hfirst with
  | nil => exact hsecond
  | cons hpiece _ ih => exact .cons hpiece (ih hsecond)

/-- The fragments of such pieces are added one after the other. -/
theorem foldlM {texts : List String} {before after : Draft α × Option String}
    (h : Leads texts before after) (position : Nat) :
    ∃ found, Fragment.parseFrom .command position texts = .ok found ∧
      found.foldlM Draft.addFragment before = .ok after := by
  induction h generalizing position with
  | nil => exact ⟨[], rfl, rfl⟩
  | cons hpiece _ ih =>
      obtain ⟨fragment, hfragment, hadded⟩ := hpiece position
      obtain ⟨found, hfound, hled⟩ := ih (position + 1)
      refine ⟨fragment :: found, ?_, ?_⟩
      · rw [Fragment.parseFrom, hfragment, ok_bind, hfound]
        rfl
      · rw [List.foldlM_cons, hadded, ok_bind, hled]

end Leads

/-! ## Copies -/

/-- A draft is the copy of a command as far as the given parameters go. -/
structure Copied (command : Command α) (copied : List Argument) (draft : Draft α) :
    Prop where
  name : draft.name = command.name
  description : draft.description = some command.description
  type : draft.type = .chatInput
  arguments : draft.arguments = copied.map Argument.unbounded
  indexed : draft.Indexed
  choices : ∀ scope, ∀ parameter ∈ parametersIn copied scope,
    draft.choices.get? ⟨scope, parameter.name⟩ = command.choices.get? ⟨scope, parameter.name⟩
  choicesKeyed : ∀ key listed, draft.choices.get? key = some listed →
    ∃ parameter ∈ parametersIn copied key.subcommand, parameter.name = key.name

namespace Argument

@[simp]
theorem unbounded_name (argument : Argument) : argument.unbounded.name = argument.name :=
  rfl

@[simp]
theorem unbounded_isCommand (argument : Argument) :
    argument.unbounded.isCommand = argument.isCommand :=
  rfl

@[simp]
theorem unbounded_isFlag (argument : Argument) : argument.unbounded.isFlag = argument.isFlag :=
  rfl

end Argument

/-- The parameter of a fragment is admitted as it is when its name is new. -/
theorem addParameter_unbounded {draft : Draft α} {scope : Option String} {argument : Argument}
    (choices : Option (List String)) (position : Nat) (source : String)
    (hvoid : Text.isVoid argument.description = false)
    (hfresh : ∀ own ∈ draft.inScope scope, own.name ≠ argument.name) :
    draft.addParameter scope ⟨position, source, argument.unbounded, choices⟩ none .payload {} =
      (draft.withSource ⟨scope, argument.name⟩ argument.unbounded choices .payload).map
        fun sourced => sourced.place argument.unbounded scope := by
  have hnew : ((draft.inScope scope).any fun own => own.name == argument.name) = false := by
    simpa using hfresh
  have hgiven : Text.unlessVoid (some argument.unbounded.description) =
      some argument.description := Text.unlessVoid_of_not_void hvoid
  have hnone : Text.unlessVoid none = none := rfl
  have hbounded : ∀ key own, Draft.bounded key {} own = .ok own := fun _ _ => rfl
  unfold Draft.addParameter
  simp only [Argument.unbounded_name, hnew, hgiven, hnone, hbounded, Bool.false_eq_true, if_false,
    Option.none_or, Option.getD_some, ok_bind]
  change (draft.withSource ⟨scope, argument.name⟩ argument.unbounded choices .payload >>=
    fun sourced => pure (sourced.place argument.unbounded scope)) = _
  cases draft.withSource ⟨scope, argument.name⟩ argument.unbounded choices .payload with
  | error error => rfl
  | ok sourced => rfl

/-- The choices a written parameter brings along. -/
def writtenChoices (command : Command α) (scope : Option String) (argument : Argument) :
    Option (List String) :=
  if argument.isFlag then none else command.choices.get? ⟨scope, argument.name⟩

/-- A parameter that is copied gets the choices it has. -/
theorem withSource_copied {command : Command α} (hwell : command.WellFormed) (draft : Draft α)
    {scope : Option String} {argument : Argument}
    (hmem : argument ∈ parametersIn command.arguments scope) :
    draft.withSource ⟨scope, argument.name⟩ argument.unbounded
        (writtenChoices command scope argument) .payload =
      .ok { draft with
        choices := draft.choices.insertSome ⟨scope, argument.name⟩
          (command.choices.get? ⟨scope, argument.name⟩) } := by
  rw [Draft.withSource_payload, Argument.unbounded_isFlag]
  · unfold writtenChoices
    cases hflag : argument.isFlag with
    | true =>
        rw [hwell.consistent.flagChoices scope argument hmem hflag]
        rfl
    | false => rfl
  · exact fun hflag => if_pos hflag

section

variable {command : Command α} (hwell : command.WellFormed) (hheld : command.Held)
  (hunmarked : command.Unmarked)
  {scope : Option String} {argument : Argument}
  (hmem : argument ∈ parametersIn command.arguments scope)

include hwell hheld hunmarked hmem

omit hunmarked in
theorem isPiece_argumentPiece : IsPiece (command.argumentPiece scope argument).toList := by
  have hkept := hwell.consistent.kept_of_mem hmem
  cases hkept.form with
  | positional form =>
      exact isPiece_positionalPiece form hkept.described command scope
        (hheld.positionals scope argument hmem form.isFlag)
  | flag form =>
      obtain ⟨token, htoken, hisToken⟩ := form.token
      exact isPiece_flagPiece form htoken hisToken hkept.described
        (hheld.flags scope argument hmem form.isFlag) command scope

/-- The piece of a parameter declares it without its bounds. -/
theorem parse_argumentPiece (position : Nat) :
    Fragment.parse .command position (command.argumentPiece scope argument) =
      .ok ⟨position, command.argumentPiece scope argument, argument.unbounded,
        writtenChoices command scope argument⟩ := by
  have hkept := hwell.consistent.kept_of_mem hmem
  cases hkept.form with
  | positional form =>
      rw [writtenChoices, form.isFlag]
      exact parse_positionalPiece form hkept.described command scope
        (hheld.positionals scope argument hmem form.isFlag)
        (hunmarked.positionals scope argument hmem form.isFlag) position
  | flag form =>
      obtain ⟨token, htoken, hisToken⟩ := form.token
      rw [writtenChoices, form.isFlag]
      exact parse_flagPiece form htoken hisToken hkept.described
        (hheld.flags scope argument hmem form.isFlag)
        (hunmarked.flags scope argument hmem form.isFlag) command scope position

/-- The piece of a parameter leads on to a copy with the parameter. -/
theorem Copied.parameter {copied copied' : List Argument} {draft : Draft α}
    (h : Copied command copied draft)
    (hfresh : ∀ own ∈ draft.inScope scope, own.name ≠ argument.name)
    (hnew : ∀ own ∈ parametersIn copied scope, own.name ≠ argument.name)
    (hplace : (draft.place argument.unbounded scope).arguments =
      copied'.map Argument.unbounded)
    (htakes : Takes scope argument copied copied') :
    ∃ next, Leads [command.argumentPiece scope argument] (draft, scope) (next, scope) ∧
      Copied command copied' next := by
  have hkept := hwell.consistent.kept_of_mem hmem
  have hkeyed : Keyed draft.choices copied := h.choicesKeyed
  have hsource := withSource_copied hwell draft hmem
  have hself := Dict.get?_insertSome_self (hkeyed.unrecorded hnew)
    (command.choices.get? ⟨scope, argument.name⟩)
  have hothers := fun key (hne : key ≠ ⟨scope, argument.name⟩) =>
    Dict.get?_insertSome_of_ne draft.choices (Ne.symm hne)
      (command.choices.get? ⟨scope, argument.name⟩)
  generalize draft.choices.insertSome ⟨scope, argument.name⟩
    (command.choices.get? ⟨scope, argument.name⟩) = choices at hsource hself hothers
  refine ⟨({ draft with choices := choices } : Draft α).place argument.unbounded scope,
    .cons (fun position =>
      ⟨_, parse_argumentPiece hwell hheld hunmarked hmem position, ?_⟩) (.nil _), ?_⟩
  · have hadd := addParameter_unbounded (writtenChoices command scope argument) position
      (command.argumentPiece scope argument) hkept.described hfresh
    unfold Draft.addFragment
    simp only [Argument.unbounded_isCommand, hkept.isCommand, Bool.false_eq_true, if_false,
      Draft.addParameter_fragmentSource, hadd, hsource, map_ok]
  · refine
      { name := ?_, description := ?_, type := ?_, arguments := ?_, indexed := ?_
        choices := ?_, choicesKeyed := ?_ }
    · cases scope <;> exact h.name
    · cases scope <;> exact h.description
    · cases scope <;> exact h.type
    · rw [← hplace]
      cases scope <;> rfl
    · have hindexed : ({ draft with choices := choices } : Draft α).Indexed :=
        h.indexed.of_same rfl rfl
      exact hindexed.place (argument.unbounded_isCommand.trans hkept.isCommand) scope
    · intro own parameter hparameter
      rw [Draft.place_choices]
      dsimp only
      rcases (htakes own parameter).mp hparameter with hold | ⟨rfl, rfl⟩
      · rw [hothers _ (scopeKey_ne_of_fresh hnew hold), h.choices own parameter hold]
      · exact hself
    · rw [Draft.place_choices]
      exact hkeyed.taken htakes hothers

end

/-! ## All parameters of a scope -/

/-- Among distinct names each is new behind those in front of it. -/
theorem fresh_of_distinct {done rest : List Argument} {argument : Argument}
    (h : ((done ++ argument :: rest).map Argument.name).Nodup) :
    ∀ own ∈ done, own.name ≠ argument.name := by
  rw [List.map_append, List.nodup_append] at h
  intro own hown
  exact h.2.2 _ (List.mem_map_of_mem hown) _ (by simp)

/-- A name that is new in the scope of a subcommand is new in that of its copy. -/
theorem Copied.fresh_inScope {command : Command α} {copied : List Argument} {draft : Draft α}
    (h : Copied command copied draft) {name : String} {argument : Argument}
    (hnew : ∀ own ∈ parametersIn copied (some name), own.name ≠ argument.name) :
    ∀ own ∈ draft.inScope (some name), own.name ≠ argument.name := by
  intro own hown
  simp only [Draft.inScope, h.arguments, List.mem_flatMap, List.mem_filter, List.mem_map] at hown
  obtain ⟨_, ⟨⟨other, hother, rfl⟩, hsub⟩, hown⟩ := hown
  obtain ⟨old, hold, rfl⟩ := List.mem_map.mp hown
  exact hnew old (mem_parametersIn_some.mpr ⟨other, hother, hsub, hold⟩)

/-- A parameter that is placed in the copy of the last subcommand goes to its end. -/
theorem Copied.place_subargument {command : Command α} {before done : List Argument}
    {subcommand argument : Argument} {draft : Draft α}
    (h : Copied command (before ++ [{ subcommand with subarguments := done }]) draft)
    (hcommand : subcommand.isCommand = true)
    (hbefore : ∀ argument ∈ before, argument.name ≠ subcommand.name)
    (hleaf : argument.subarguments = []) :
    (draft.place argument.unbounded (some subcommand.name)).arguments =
      (before ++ [{ subcommand with subarguments := done ++ [argument] }]).map
        Argument.unbounded := by
  have hsplit : draft.arguments = before.map Argument.unbounded ++
      [({ subcommand with subarguments := done } : Argument).unbounded] := by
    simp [h.arguments]
  have hothers : ∀ other ∈ before.map Argument.unbounded, other.name ≠ subcommand.name := by
    simpa using hbefore
  refine (Draft.place_last hsplit hcommand hothers argument.unbounded).trans ?_
  simp [Argument.unbounded, hleaf]

section

variable {command : Command α} (hwell : command.WellFormed) (hheld : command.Held)
  (hunmarked : command.Unmarked)

include hwell hheld hunmarked

/-- The parameters of the command itself are copied one after the other. -/
theorem Copied.ownParameters {done : List Argument} {draft : Draft α}
    (h : Copied command done draft) {rest : List Argument}
    (hmem : ∀ argument ∈ rest, argument ∈ parametersIn command.arguments none)
    (hdistinct : ((done ++ rest).map Argument.name).Nodup) :
    ∃ next, Leads (rest.map (command.argumentPiece none)) (draft, none) (next, none) ∧
      Copied command (done ++ rest) next := by
  induction rest generalizing done draft with
  | nil => exact ⟨draft, .nil _, by simpa using h⟩
  | cons argument rest ih =>
      have hargument := hmem argument List.mem_cons_self
      have hfresh := fresh_of_distinct hdistinct
      have hassoc : done ++ argument :: rest = (done ++ [argument]) ++ rest := by simp
      obtain ⟨between, hfirst, hcopied⟩ := Copied.parameter hwell hheld hunmarked hargument h
        (by simpa [Draft.inScope, h.arguments] using hfresh)
        (fun own hown => hfresh own (mem_parametersIn_none.mp hown).1)
        (by simp [Draft.place, h.arguments])
        (takes_append_parameter done (hwell.consistent.kept_of_mem hargument).isCommand)
      obtain ⟨next, hrest, hall⟩ := ih hcopied
        (fun other hother => hmem other (List.mem_cons_of_mem argument hother))
        (hassoc ▸ hdistinct)
      exact ⟨next, hfirst.append hrest, hassoc ▸ hall⟩

/-- The parameters of a subcommand are copied one after the other. -/
theorem Copied.subcommandParameters {before done : List Argument} {subcommand : Argument}
    {draft : Draft α}
    (h : Copied command (before ++ [{ subcommand with subarguments := done }]) draft)
    (hcommand : subcommand.isCommand = true)
    (hbefore : ∀ argument ∈ before, argument.name ≠ subcommand.name) (rest : List Argument)
    (hmem : ∀ argument ∈ rest,
      argument ∈ parametersIn command.arguments (some subcommand.name))
    (hdistinct : ((done ++ rest).map Argument.name).Nodup) :
    ∃ next, Leads (rest.map (command.argumentPiece (some subcommand.name)))
        (draft, some subcommand.name) (next, some subcommand.name) ∧
      Copied command (before ++ [{ subcommand with subarguments := done ++ rest }]) next := by
  induction rest generalizing done draft with
  | nil => exact ⟨draft, .nil _, by simpa using h⟩
  | cons argument rest ih =>
      have hargument := hmem argument List.mem_cons_self
      have hassoc : done ++ argument :: rest = (done ++ [argument]) ++ rest := by simp
      have hown : parametersIn (before ++ [{ subcommand with subarguments := done }])
          (some subcommand.name) = done := parametersIn_append_own hcommand hbefore
      have hnew : ∀ own ∈ parametersIn (before ++ [{ subcommand with subarguments := done }])
          (some subcommand.name), own.name ≠ argument.name := by
        rw [hown]
        exact fresh_of_distinct hdistinct
      have hleaf := (hwell.consistent.kept_of_mem hargument).form.leaf
      obtain ⟨between, hfirst, hcopied⟩ := Copied.parameter hwell hheld hunmarked hargument h
        (h.fresh_inScope hnew) hnew (h.place_subargument hcommand hbefore hleaf)
        (takes_append_subargument before done hcommand)
      obtain ⟨next, hrest, hall⟩ := ih hcopied
        (fun other hother => hmem other (List.mem_cons_of_mem argument hother))
        (hassoc ▸ hdistinct)
      exact ⟨next, hfirst.append hrest, hassoc ▸ hall⟩

omit hwell hheld hunmarked in
/-- A subcommand without its parameters is what its name and description declare. -/
theorem subcommand_eq_unbounded {subcommand : Argument} (hform : subcommand.SubcommandForm) :
    Argument.subcommand subcommand.name subcommand.description =
      ({ subcommand with subarguments := [] } : Argument).unbounded := by
  obtain ⟨kind, name, description, optional, variadic, datatype, token, low, high, own⟩ :=
    subcommand
  obtain ⟨rfl, _, _, rfl, rfl, rfl, rfl, _, _, _⟩ := hform
  rfl

omit hwell hheld hunmarked in
/-- A name that no argument of a copy has is new in the copy. -/
theorem Copied.hasArgument {before : List Argument} {draft : Draft α}
    (h : Copied command before draft) {name : String}
    (hbefore : ∀ argument ∈ before, argument.name ≠ name) : draft.hasArgument name = false := by
  simpa [Draft.hasArgument, h.arguments] using hbefore

omit hwell hheld hunmarked in
/-- A name that no argument of a copy has is declared as a subcommand. -/
theorem Copied.declareSubcommand {before : List Argument} {draft : Draft α}
    (h : Copied command before draft) {name : String} (description : Option String)
    (hbefore : ∀ argument ∈ before, argument.name ≠ name) :
    draft.declareSubcommand name description =
      .ok (draft.appendSubcommand name description) := by
  have hargument := h.hasArgument hbefore
  have hsubcommand := h.indexed.hasSubcommand_eq_false hargument
  unfold Draft.declareSubcommand
  simp only [hsubcommand, hargument, Bool.false_eq_true, if_false]

omit hwell hheld hunmarked in
/-- The piece of a subcommand leads on to a copy with the subcommand, as yet without
its parameters. -/
theorem Copied.openSubcommand {before : List Argument} {draft : Draft α}
    (h : Copied command before draft) (scope : Option String) {subcommand : Argument}
    (hform : subcommand.SubcommandForm)
    (hbareword : PlainBareword subcommand.name subcommand.description)
    (hbefore : ∀ argument ∈ before, argument.name ≠ subcommand.name) :
    ∃ next, Leads [Command.namePiece subcommand.name subcommand.description] (draft, scope)
        (next, some subcommand.name) ∧
      Copied command (before ++ [{ subcommand with subarguments := [] }]) next := by
  refine ⟨draft.appendSubcommand subcommand.name (some subcommand.description),
    .cons (fun position => ?_) (.nil _), ?_⟩
  · obtain ⟨role, hparse⟩ := parse_namePiece hform.name hform.described hbareword position
    refine ⟨_, hparse, ?_⟩
    have hrole : (argumentOf ⟨subcommand.name, some subcommand.description, none⟩
        (.command role) subcommand.name).isCommand = true := rfl
    unfold Draft.addFragment
    simp only [hrole, if_true]
    simp only [argumentOf, Option.getD_some, Text.unlessVoid_of_not_void hform.described,
      h.declareSubcommand _ hbefore, map_ok]
  · have hopened : ∀ own parameter,
        parameter ∈ parametersIn (before ++ [{ subcommand with subarguments := [] }]) own ↔
          parameter ∈ parametersIn before own := by
      intro own parameter
      have hlast : parameter ∈
          parametersIn (before ++ [{ subcommand with subarguments := [] }]) own ↔ _ :=
        mem_parametersIn_append_subcommand { subcommand with subarguments := [] } hform.isCommand
      simpa using hlast
    exact
      { name := h.name, description := h.description, type := h.type
        arguments := by
          simp only [Draft.appendSubcommand, h.arguments, List.map_append, Option.getD_some,
            subcommand_eq_unbounded hform, List.map_cons, List.map_nil]
        indexed := h.indexed.appendSubcommand (h.hasArgument hbefore) _
        choices := fun own parameter hmem => h.choices own parameter ((hopened _ _).mp hmem)
        choicesKeyed := fun key listed hlisted => by
          obtain ⟨parameter, hmem, hname⟩ := h.choicesKeyed key listed hlisted
          exact ⟨parameter, (hopened _ _).mpr hmem, hname⟩ }

/-- A subcommand is copied with its parameters. -/
theorem Copied.subcommand {before : List Argument} {draft : Draft α}
    (h : Copied command before draft) (scope : Option String) {subcommand : Argument}
    (hmem : subcommand ∈ command.subcommands)
    (hbefore : ∀ argument ∈ before, argument.name ≠ subcommand.name) :
    ∃ next, Leads (command.subcommandPieces subcommand) (draft, scope)
        (next, some subcommand.name) ∧
      Copied command (before ++ [subcommand]) next := by
  obtain ⟨hin, hcommand⟩ := List.mem_filter.mp hmem
  have hform := hwell.subcommandForm hmem
  obtain ⟨opened, hfirst, hopened⟩ := h.openSubcommand scope hform
    (hheld.subcommands subcommand hmem) hbefore
  obtain ⟨next, hrest, hcopied⟩ := hopened.subcommandParameters hwell hheld hunmarked hcommand
    hbefore subcommand.subarguments
    (fun argument hargument => mem_parametersIn_some.mpr
      ⟨subcommand, hin, isSubcommand_iff.mpr ⟨hcommand, rfl⟩, hargument⟩)
    hform.distinct
  refine ⟨next, hfirst.append hrest, ?_⟩
  have hwhole : ({ subcommand with subarguments := [] ++ subcommand.subarguments } : Argument) =
      subcommand := by
    cases subcommand
    rfl
  rwa [hwhole] at hcopied

/-- The subcommands are copied one after the other. -/
theorem Copied.allSubcommands {before : List Argument} {draft : Draft α}
    (h : Copied command before draft) (scope : Option String) (rest : List Argument)
    (hmem : ∀ subcommand ∈ rest, subcommand ∈ command.subcommands)
    (hdistinct : ((before ++ rest).map Argument.name).Nodup) :
    ∃ next, Leads (rest.flatMap command.subcommandPieces) (draft, scope) next ∧
      Copied command (before ++ rest) next.1 := by
  induction rest generalizing before draft scope with
  | nil => exact ⟨(draft, scope), .nil _, by simpa using h⟩
  | cons subcommand rest ih =>
      have hassoc : before ++ subcommand :: rest = (before ++ [subcommand]) ++ rest := by simp
      obtain ⟨between, hfirst, hcopied⟩ := h.subcommand hwell hheld hunmarked scope
        (hmem subcommand List.mem_cons_self) (fresh_of_distinct hdistinct)
      obtain ⟨next, hrest, hall⟩ := ih hcopied (some subcommand.name)
        (fun other hother => hmem other (List.mem_cons_of_mem subcommand hother))
        (hassoc ▸ hdistinct)
      exact ⟨next, hfirst.append hrest, hassoc ▸ hall⟩

end

/-! ## The written form of a command -/

/-- The pieces behind the name of a written command. -/
def Command.parameterPieces (command : Command α) : List String :=
  (parametersIn command.arguments none).map (command.argumentPiece none) ++
    command.subcommands.flatMap command.subcommandPieces

theorem Command.write_eq_join (command : Command α) :
    command.write = Text.join " "
      (Command.namePiece command.name command.description :: command.parameterPieces) :=
  rfl

section

variable {command : Command α} (hwell : command.WellFormed) (hheld : command.Held)
  (hunmarked : command.Unmarked)

include hwell hheld hunmarked

omit hunmarked in
theorem isPiece_parameterPieces : ∀ text ∈ command.parameterPieces, IsPiece text.toList := by
  intro text htext
  rcases List.mem_append.mp htext with hown | hsub
  · obtain ⟨argument, hmem, rfl⟩ := List.mem_map.mp hown
    exact isPiece_argumentPiece hwell hheld hmem
  · obtain ⟨subcommand, hmem, htext⟩ := List.mem_flatMap.mp hsub
    obtain ⟨hin, hcommand⟩ := List.mem_filter.mp hmem
    rcases List.mem_cons.mp htext with rfl | hparameter
    · have hform := hwell.subcommandForm hmem
      exact isPiece_namePiece hform.name hform.described (hheld.subcommands subcommand hmem)
    · obtain ⟨argument, hargument, rfl⟩ := List.mem_map.mp hparameter
      exact isPiece_argumentPiece hwell hheld (mem_parametersIn_some.mpr
        ⟨subcommand, hin, isSubcommand_iff.mpr ⟨hcommand, rfl⟩, hargument⟩)

omit hunmarked in
/-- The written form of a command is cut into the pieces it was joined from. -/
theorem pieces_write : pieces command.write =
    .ok (Command.namePiece command.name command.description :: command.parameterPieces) := by
  rw [Command.write_eq_join]
  refine pieces_join fun text htext => ?_
  rcases List.mem_cons.mp htext with rfl | hrest
  · exact isPiece_namePiece hwell.name (hwell.description hheld.typed) hheld.bareword
  · exact isPiece_parameterPieces hwell hheld text hrest

omit hheld hunmarked in
theorem writtenOrder_distinct : (command.writtenOrder.map Argument.name).Nodup := by
  have hperm : command.writtenOrder.Perm command.arguments :=
    List.perm_append_comm.trans (List.filter_append_perm Argument.isCommand command.arguments)
  exact (hperm.map Argument.name).nodup_iff.mpr hwell.consistent.distinct

omit hwell hheld hunmarked in
/-- Writing the parameters in another order leaves each of them in its scope. -/
theorem mem_parametersIn_writtenOrder {scope : Option String} {parameter : Argument} :
    parameter ∈ parametersIn command.writtenOrder scope ↔
      parameter ∈ parametersIn command.arguments scope := by
  have hmem : ∀ argument, argument ∈ command.writtenOrder ↔ argument ∈ command.arguments :=
    fun argument => List.Perm.mem_iff <|
      List.perm_append_comm.trans (List.filter_append_perm Argument.isCommand command.arguments)
  cases scope with
  | none => rw [mem_parametersIn_none, mem_parametersIn_none, hmem]
  | some name =>
      rw [mem_parametersIn_some, mem_parametersIn_some]
      exact exists_congr fun subcommand => and_congr_left' (hmem subcommand)

/-- The pieces behind the name lead to a copy of the whole command. -/
theorem leads_parameterPieces {draft : Draft α} (h : Copied command [] draft) :
    ∃ next, Leads command.parameterPieces (draft, none) next ∧
      Copied command command.writtenOrder next.1 := by
  have hdistinct := writtenOrder_distinct hwell
  have hown : (([] ++ parametersIn command.arguments none).map Argument.name).Nodup := by
    rw [Command.writtenOrder, List.map_append, List.nodup_append] at hdistinct
    exact hdistinct.1
  obtain ⟨between, hfirst, hcopied⟩ :=
    h.ownParameters hwell hheld hunmarked (fun _ hmem => hmem) hown
  obtain ⟨next, hrest, hall⟩ := hcopied.allSubcommands hwell hheld hunmarked none
    command.subcommands (fun _ hmem => hmem) hdistinct
  exact ⟨next, hfirst.append hrest, hall⟩

omit hheld hunmarked in
/-- A copy of the whole command has the choices of the command. -/
theorem Copied.choices_eq {draft : Draft α} (h : Copied command command.writtenOrder draft) :
    draft.choices = command.choices := by
  refine Dict.ext_get? fun key => ?_
  cases horiginal : command.choices.get? key with
  | some listed =>
      obtain ⟨parameter, hmem, hname⟩ := hwell.consistent.choicesKeyed key listed horiginal
      have hcopy := h.choices key.subcommand parameter (mem_parametersIn_writtenOrder.mpr hmem)
      rw [hname] at hcopy
      exact hcopy.trans horiginal
  | none =>
      refine Option.eq_none_iff_forall_ne_some.mpr fun listed hlisted => ?_
      obtain ⟨parameter, hmem, hname⟩ := h.choicesKeyed key listed hlisted
      have hcopy := h.choices key.subcommand parameter hmem
      rw [hname] at hcopy
      exact absurd (hcopy.symm.trans hlisted) (by simp [horiginal])

end

/-- A command whose texts a declaration holds without mistaking one for a mark is read back
from its written form as a copy. -/
theorem ofDeclaration_write_copied {command : Command α} (hwell : command.WellFormed)
    (hheld : command.Held) (hunmarked : command.Unmarked) :
    ∃ draft : Draft α, Builder.ofDeclaration command.write = .ok (.drafting draft) ∧
      Copied command command.writtenOrder draft := by
  have hvoid := hwell.description hheld.typed
  have hgiven : Text.unlessVoid (some command.description) = some command.description :=
    Text.unlessVoid_of_not_void hvoid
  obtain ⟨role, hroot⟩ := parse_namePiece hwell.name hvoid hheld.bareword 0
  have hstart : Copied command []
      { name := command.name, description := some command.description : Draft α } :=
    { name := rfl, description := rfl, type := rfl, arguments := rfl
      indexed := Draft.indexed_of_empty rfl rfl
      choices := fun scope parameter hmem => by cases scope <;> cases hmem
      choicesKeyed := fun key listed hlisted => by cases hlisted }
  obtain ⟨⟨draft, scope⟩, hleads, hcopied⟩ :=
    leads_parameterPieces hwell hheld hunmarked hstart
  obtain ⟨found, hfound, hfilled⟩ := hleads.foldlM 1
  have hfragments : fragments .command command.write =
      .ok (⟨0, Command.namePiece command.name command.description,
        argumentOf ⟨command.name, some command.description, none⟩ (.command role) command.name,
        none⟩ :: found) := by
    rw [fragments, pieces_write hwell hheld, ok_bind, Fragment.parseFrom, hroot, ok_bind, hfound]
    rfl
  have hnamed : (Draft.named command.name (some command.description) :
      Except BuildError (Draft α)) =
        .ok { name := command.name, description := some command.description } := by
    unfold Draft.named checkWord
    rw [if_pos hwell.name, hgiven]
  refine ⟨draft, ?_, hcopied⟩
  unfold Builder.ofDeclaration
  rw [hfragments]
  have hcommand : (argumentOf ⟨command.name, some command.description, none⟩
      (.command role) command.name).isCommand = true := rfl
  simp only [hcommand, if_true]
  simp only [argumentOf, Option.getD_some, hnamed, ok_bind, hfilled]
  rfl

/-- The copy of a whole command freezes to it, with the parameters as they are written. -/
theorem Copied.freeze {command : Command α} (hwell : command.WellFormed) {draft : Draft α}
    (h : Copied command command.writtenOrder draft) :
    draft.freeze.name = command.name ∧ draft.freeze.description = command.description ∧
      draft.freeze.choices = command.choices ∧
      draft.freeze.arguments = command.writtenOrder.map Argument.unbounded := by
  have hchat : draft.type.isContextMenu = false := by
    rw [h.type]
    rfl
  refine ⟨h.name, ?_, h.choices_eq hwell, h.arguments⟩
  simp [Draft.freeze, hchat, h.description]

/-- A declared command whose texts a declaration can hold is read back from its written
form with its name, its description, its choices, and its parameters, the subcommands
behind the others and none with bounds. -/
theorem Command.ofDeclaration_write {command : Command α} (hdeclared : command.Declared)
    (hplain : command.Plain) :
    ∃ (builder : Builder α) (rebuilt : Command α),
      Builder.ofDeclaration command.write = .ok builder ∧ builder.build.2 = .ok rebuilt ∧
        rebuilt.name = command.name ∧ rebuilt.description = command.description ∧
        rebuilt.choices = command.choices ∧
        rebuilt.arguments = command.writtenOrder.map Argument.unbounded := by
  have hwell := hdeclared.wellFormed
  obtain ⟨draft, hrebuilt, hcopied⟩ :=
    ofDeclaration_write_copied hwell hplain.held hplain.unmarked
  exact ⟨.drafting draft, draft.freeze, hrebuilt, rfl, hcopied.freeze hwell⟩

/-! ## A command with a subcommand in front -/

theorem plain_of_noSemicolon {text : String}
    (h : Text.trim text.toList = text.toList ∧ '+' ∉ text.toList ∧
      text.toList.any isBracket = false ∧ ';' ∉ text.toList) : Plain text where
  trimmed := h.1
  noPlus := h.2.1
  noBracket := Text.forall_of_any_eq_false h.2.2.1
  unparted := fun hin => h.2.2.2 (hin.subset List.mem_cons_self)

theorem plainBareword_of_plain {name description : String} (hdescribed : Plain description)
    (h : '+' ∉ name.toList ∧ name.toList.any isBracket = false ∧
      description.toList.any (fun c => Text.isBlank c && c != ' ') = false) :
    PlainBareword name description where
  noPlus := h.1
  noBracket := Text.forall_of_any_eq_false h.2.1
  described := hdescribed
  spaced := by
    intro c hc hblank
    simpa [hblank] using Text.forall_of_any_eq_false h.2.2 c hc

/-- The name to greet, one of two. -/
def whomParameter : Argument :=
  { kind := .positional
    name := "whom"
    description := "Whom to greet"
    optional := false
    variadic := false
    datatype := .string
    token := none
    min := none
    max := none
    subarguments := [] }

/-- How often to greet, once at least. -/
def timesParameter : Argument :=
  { kind := .positional
    name := "times"
    description := "How often"
    optional := true
    variadic := false
    datatype := .integer
    token := none
    min := some 1
    max := none
    subarguments := [] }

/-- A command whose bounded parameter is declared behind its subcommand. -/
def greeting : Command Unit :=
  { name := "greet"
    description := "Greet people"
    arguments :=
      [{ Argument.subcommand "loudly" fillerDescription with subarguments := [whomParameter] },
        timesParameter]
    type := .chatInput
    choices := Dict.empty.insert ⟨some "loudly", "whom"⟩ ["Ann", "Bob"]
    autocomplete := ∅
    defaults := ∅
    requires := ∅
    channels := ∅
    guilds := ∅
    action := Action.silent }

theorem greeting_declared : greeting.Declared := by
  refine ⟨Builder.run .unnamed
    [.setCommand "greet" (some "Greet people"),
      .addArgument "loudly <whom; Whom to greet; Ann|Bob>" none .payload {},
      .addArgument "[times: integer]" (some "How often") .payload { min := some 1 }], ?_, rfl⟩
  exact .call (.call (.call .unnamed _) _) _

theorem greeting_scopes : ∀ scope, ∀ argument ∈ parametersIn greeting.arguments scope,
    scope = some "loudly" ∧ argument = whomParameter ∨
      scope = none ∧ argument = timesParameter := by
  intro scope argument hmem
  cases scope with
  | none => exact Or.inr ⟨rfl, List.mem_singleton.mp hmem⟩
  | some name =>
      obtain ⟨subcommand, hin, hsub, hown⟩ := mem_parametersIn_some.mp hmem
      obtain ⟨hcommand, hname⟩ := isSubcommand_iff.mp hsub
      rcases List.mem_cons.mp hin with rfl | hlast
      · exact Or.inl ⟨congrArg some hname.symm, List.mem_singleton.mp hown⟩
      · rw [List.mem_singleton.mp hlast] at hcommand
        cases hcommand

theorem whomParameter_plain : PlainPositional whomParameter (some ["Ann", "Bob"]) where
  described := by
    have hplain : Plain "Whom to greet" :=
      plain_of_noSemicolon (by decide)
    exact hplain
  undotted := by decide
  listed := by
    intro listed hlisted choice hchoice
    rw [← Option.some.inj hlisted] at hchoice
    rcases List.mem_cons.mp hchoice with rfl | hlast
    · exact ⟨plain_of_noSemicolon (by decide), by decide, by decide⟩
    · rw [List.mem_singleton.mp hlast]
      exact ⟨plain_of_noSemicolon (by decide), by decide, by decide⟩
  ending := by
    intro text htext
    have hlast : "Bob" = text := Option.some.inj htext
    rw [← hlast]
    decide

theorem timesParameter_plain : PlainPositional timesParameter none where
  described := by
    have hplain : Plain "How often" :=
      plain_of_noSemicolon (by decide)
    exact hplain
  undotted := by decide
  listed := by
    intro listed hlisted
    cases hlisted
  ending := by
    intro text htext
    have hlast : "How often" = text := Option.some.inj htext
    rw [← hlast]
    decide

theorem greeting_plain : greeting.Plain where
  typed := rfl
  bareword := by
    have hplain : PlainBareword "greet" "Greet people" :=
      plainBareword_of_plain (plain_of_noSemicolon (by decide)) (by decide)
    exact hplain
  subcommands := by
    intro subcommand hmem
    rw [List.mem_singleton.mp hmem]
    have hplain : PlainBareword "loudly" "No description provided." :=
      plainBareword_of_plain (plain_of_noSemicolon (by decide)) (by decide)
    exact hplain
  positionals := by
    intro scope argument hmem _
    rcases greeting_scopes scope argument hmem with ⟨rfl, rfl⟩ | ⟨rfl, rfl⟩
    · have hchoices : greeting.choices.get? ⟨some "loudly", "whom"⟩ = some ["Ann", "Bob"] :=
        Dict.get?_insert_self _ _ _
      change PlainPositional whomParameter (greeting.choices.get? ⟨some "loudly", "whom"⟩)
      rw [hchoices]
      exact whomParameter_plain
    · have hchoices : greeting.choices.get? ⟨none, "times"⟩ = none :=
        Dict.get?_insert_of_ne _ (by decide) _
      change PlainPositional timesParameter (greeting.choices.get? ⟨none, "times"⟩)
      rw [hchoices]
      exact timesParameter_plain
  flags := by
    intro scope argument hmem hflag
    rcases greeting_scopes scope argument hmem with ⟨rfl, rfl⟩ | ⟨rfl, rfl⟩ <;> cases hflag

/-- The parameter goes in front of the subcommand and loses its bound. -/
theorem greeting_rebuilt :
    greeting.Declared ∧ greeting.Plain ∧
      ∃ (builder : Builder Unit) (rebuilt : Command Unit),
        Builder.ofDeclaration greeting.write = .ok builder ∧ builder.build.2 = .ok rebuilt ∧
          rebuilt.name = "greet" ∧ rebuilt.description = "Greet people" ∧
          rebuilt.choices = greeting.choices ∧
          rebuilt.arguments =
            [{ timesParameter with min := none },
              { Argument.subcommand "loudly" fillerDescription with
                subarguments := [whomParameter] }] :=
  ⟨greeting_declared, greeting_plain, Command.ofDeclaration_write greeting_declared greeting_plain⟩

end SlashCommand
