import SlashCommand.Proofs.Builder.Scope
import SlashCommand.Proofs.Declaration.Fragment
import SlashCommand.Proofs.Dict

/-!
# Admitting a parameter

A parameter that is admitted to a scope has a name that is new there and a
description.  What is recorded about it stands under its own key, and nothing that
was recorded under another key changes.
-/

namespace SlashCommand

open Declaration

namespace Argument

/-- A parameter as builders keep it: of its form, with a description. -/
structure Kept (argument : Argument) : Prop where
  form : argument.ParameterForm
  described : Text.isVoid argument.description = false

end Argument

theorem fillerDescription_not_void : Text.isVoid fillerDescription = false := by decide

theorem not_void_getD {given : Option String} (h : ∀ text ∈ given, Text.isVoid text = false) :
    Text.isVoid (given.getD fillerDescription) = false := by
  cases given with
  | none => exact fillerDescription_not_void
  | some text => exact h text rfl

namespace Draft

variable {α : Type}

/-! ## Bounds -/

/-- A bounded parameter differs from the given one in its bounds at most. -/
theorem bounded_ok {key : ScopeKey} {options : ArgumentOptions} {given argument : Argument}
    (h : bounded key options given = .ok argument) :
    argument = { given with min := argument.min, max := argument.max } ∧
      (argument = given ∨ given.datatype.isNumeric = true ∧
        ∀ low ∈ argument.min, ∀ high ∈ argument.max, ¬ high < low) := by
  unfold bounded at h
  split at h
  next =>
      cases h
      cases given
      exact ⟨rfl, Or.inl rfl⟩
  next =>
      split at h
      next => cases h
      next hnumeric =>
          have hdatatype : given.datatype.isNumeric = true := by simpa using hnumeric
          dsimp only at h
          split at h
          next low high hlow hhigh =>
              split at h
              next => cases h
              next hordered =>
                  cases h
                  refine ⟨rfl, Or.inr ⟨hdatatype, ?_⟩⟩
                  intro low' hlow' high' hhigh'
                  rw [hlow] at hlow'
                  rw [hhigh] at hhigh'
                  cases hlow'
                  cases hhigh'
                  exact hordered
          next hmissing =>
              cases h
              refine ⟨rfl, Or.inr ⟨hdatatype, ?_⟩⟩
              intro low hlow high hhigh
              exact (hmissing low high hlow hhigh).elim

/-- A parameter without bounds gets the given ones. -/
theorem bounded_eq {key : ScopeKey} {options : ArgumentOptions} {given argument : Argument}
    (hmin : given.min = none) (hmax : given.max = none)
    (h : bounded key options given = .ok argument) :
    argument = { given with min := options.min, max := options.max } := by
  unfold bounded at h
  split at h
  next hnone =>
      rw [Bool.and_eq_true, Option.isNone_iff_eq_none, Option.isNone_iff_eq_none] at hnone
      cases h
      cases given
      simp_all
  next =>
      split at h
      next => cases h
      next =>
          dsimp only at h
          split at h
          next =>
              split at h <;> cases h
              simp_all
          next =>
              cases h
              rfl

/-- Describing and bounding a parameter keeps its form. -/
theorem bounded_form {key : ScopeKey} {options : ArgumentOptions} {argument bounded : Argument}
    {description : String} (hform : argument.ParameterForm)
    (h : Draft.bounded key options { argument with description := description } = .ok bounded) :
    bounded.ParameterForm := by
  obtain ⟨hbounded, hcases⟩ := bounded_ok h
  cases hform with
  | positional form =>
      refine .positional ?_
      rw [hbounded]
      rcases hcases with heq | ⟨hnumeric, hordered⟩
      · rw [heq]
        exact
          { kind := form.kind, name := form.name, untyped := form.untyped, token := form.token
            bounds := form.bounds, ordered := form.ordered, leaf := form.leaf }
      · exact
          { kind := form.kind, name := form.name, untyped := form.untyped, token := form.token
            bounds := fun hnot => absurd hnumeric (by simpa using hnot)
            ordered := hordered, leaf := form.leaf }
  | flag form =>
      have heq : bounded = { argument with description := description } := by
        rcases hcases with heq | ⟨hnumeric, _⟩
        · exact heq
        · dsimp only at hnumeric
          rw [form.datatype] at hnumeric
          cases hnumeric
      refine .flag ?_
      rw [heq]
      exact
        { kind := form.kind, name := form.name, undotted := form.undotted
          optional := form.optional, variadic := form.variadic, datatype := form.datatype
          token := form.token, bounds := form.bounds, leaf := form.leaf }

/-! ## What is recorded under a key -/

/-- One draft comes from another by records under one key. -/
structure Records (key : ScopeKey) (before after : Draft α) : Prop where
  name : after.name = before.name
  description : after.description = before.description
  type : after.type = before.type
  arguments : after.arguments = before.arguments
  subcommands : after.subcommands = before.subcommands
  implicit : after.implicit = before.implicit
  choices : ∀ other, other ≠ key → after.choices.get? other = before.choices.get? other
  autocomplete : ∀ other, other ≠ key →
    after.autocomplete.get? other = before.autocomplete.get? other
  defaults : ∀ other, other ≠ key → after.defaults.get? other = before.defaults.get? other

theorem Records.refl (key : ScopeKey) (draft : Draft α) : Records key draft draft :=
  ⟨rfl, rfl, rfl, rfl, rfl, rfl, fun _ _ => rfl, fun _ _ => rfl, fun _ _ => rfl⟩

theorem Records.trans {key : ScopeKey} {first second third : Draft α}
    (h : Records key first second) (h' : Records key second third) : Records key first third where
  name := h'.name.trans h.name
  description := h'.description.trans h.description
  type := h'.type.trans h.type
  arguments := h'.arguments.trans h.arguments
  subcommands := h'.subcommands.trans h.subcommands
  implicit := h'.implicit.trans h.implicit
  choices := fun other hne => (h'.choices other hne).trans (h.choices other hne)
  autocomplete := fun other hne => (h'.autocomplete other hne).trans (h.autocomplete other hne)
  defaults := fun other hne => (h'.defaults other hne).trans (h.defaults other hne)

theorem records_choices (draft : Draft α) (key : ScopeKey) (listed : List String) :
    Records key draft { draft with choices := draft.choices.insert key listed } :=
  { Records.refl key draft with
    choices := fun _ hne => Dict.get?_insert_of_ne draft.choices (Ne.symm hne) listed }

theorem records_autocomplete (draft : Draft α) (key : ScopeKey) (suggester : Suggester α) :
    Records key draft { draft with autocomplete := draft.autocomplete.insert key suggester } :=
  { Records.refl key draft with
    autocomplete := fun _ hne =>
      Dict.get?_insert_of_ne draft.autocomplete (Ne.symm hne) suggester }

theorem records_defaults (draft : Draft α) (key : ScopeKey) (value : Value) :
    Records key draft { draft with defaults := draft.defaults.insert key value } :=
  { Records.refl key draft with
    defaults := fun _ hne => Dict.get?_insert_of_ne draft.defaults (Ne.symm hne) value }

/-- What admitting a parameter records about where its values come from. -/
theorem withSource_ok {draft next : Draft α} {key : ScopeKey} {argument : Argument}
    {payload : Option (List String)} {source : ChoiceSource α}
    (h : draft.withSource key argument payload source = .ok next) :
    Records key draft next ∧ next.defaults = draft.defaults ∧
      (argument.isFlag = true → next.choices.get? key = some [argument.token.getD ""]) ∧
      (draft.choices.get? key = none → draft.autocomplete.get? key = none →
        next.choices.get? key = none ∨ next.autocomplete.get? key = none) := by
  unfold withSource at h
  cases hflag : argument.isFlag with
  | true =>
      rw [hflag, if_pos rfl] at h
      split at h
      next =>
          cases h
          exact ⟨records_choices draft key _, rfl,
            fun _ => Dict.get?_insert_self draft.choices key _, fun _ hnone => Or.inr hnone⟩
      next => cases h
  | false =>
      simp only [hflag, Bool.false_eq_true, if_false] at h
      have hnot : ∀ {goal : Prop}, false = true → goal := fun h => by cases h
      split at h
      next =>
          cases h
          exact ⟨records_choices draft key _, rfl, hnot, fun _ hnone => Or.inr hnone⟩
      next => cases h
      next =>
          cases h
          exact ⟨records_autocomplete draft key _, rfl, hnot, fun hnone _ => Or.inl hnone⟩
      next =>
          cases h
          exact ⟨records_choices draft key _, rfl, hnot, fun _ hnone => Or.inr hnone⟩
      next =>
          cases h
          exact ⟨Records.refl key draft, rfl, hnot, fun hnone _ => Or.inl hnone⟩

/-- From the payload alone a flag gets its token, and a positional parameter the choices
it brings along. -/
theorem withSource_payload (draft : Draft α) (key : ScopeKey) {argument : Argument}
    {payload : Option (List String)} (h : argument.isFlag = true → payload = none) :
    draft.withSource key argument payload .payload =
      .ok { draft with
        choices := draft.choices.insertSome key
          (if argument.isFlag then some [argument.token.getD ""] else payload) } := by
  unfold withSource
  cases hflag : argument.isFlag with
  | true =>
      rw [h hflag]
      rfl
  | false => cases payload <;> rfl

/-- A default is recorded for optional positional parameters only. -/
theorem withDefault_cases (draft : Draft α) (key : ScopeKey) (argument : Argument)
    (value : Option Value) :
    draft.withDefault key argument value = draft ∨
      (argument.optional = true ∧ argument.isFlag = false ∧ ∃ given,
        draft.withDefault key argument value =
          { draft with defaults := draft.defaults.insert key given }) := by
  cases value with
  | none => exact Or.inl rfl
  | some given =>
      unfold withDefault
      dsimp only
      split
      next hboth => exact Or.inr ⟨by simp_all, by simp_all, given, rfl⟩
      next => exact Or.inl rfl

/-! ## Admission -/

/-- What admitting a parameter to a scope makes of a draft. -/
structure Admits (draft : Draft α) (scope : Option String) (argument : Argument)
    (next : Draft α) : Prop where
  kept : argument.Kept
  fresh : ∀ own ∈ draft.inScope scope, own.name ≠ argument.name
  recorded : ∃ between, Records ⟨scope, argument.name⟩ draft between ∧
    next = between.place argument scope
  flag : argument.isFlag = true →
    next.choices.get? ⟨scope, argument.name⟩ = some [argument.token.getD ""]
  exclusive : draft.choices.get? ⟨scope, argument.name⟩ = none →
    draft.autocomplete.get? ⟨scope, argument.name⟩ = none →
      next.choices.get? ⟨scope, argument.name⟩ = none ∨
        next.autocomplete.get? ⟨scope, argument.name⟩ = none
  default : draft.defaults.get? ⟨scope, argument.name⟩ = none →
    (∃ value, next.defaults.get? ⟨scope, argument.name⟩ = some value) →
      argument.optional = true ∧ argument.isFlag = false

theorem place_choices (draft : Draft α) (argument : Argument) (scope : Option String) :
    (draft.place argument scope).choices = draft.choices := by
  cases scope <;> rfl

theorem place_autocomplete (draft : Draft α) (argument : Argument) (scope : Option String) :
    (draft.place argument scope).autocomplete = draft.autocomplete := by
  cases scope <;> rfl

theorem place_defaults (draft : Draft α) (argument : Argument) (scope : Option String) :
    (draft.place argument scope).defaults = draft.defaults := by
  cases scope <;> rfl

namespace Admits

variable {draft next : Draft α} {scope : Option String} {argument : Argument}

theorem arguments (h : draft.Admits scope argument next) :
    next.arguments = (draft.place argument scope).arguments := by
  obtain ⟨between, hrecords, rfl⟩ := h.recorded
  cases scope with
  | none => simp [place, hrecords.arguments]
  | some name => simp [place, changeSubcommand, hrecords.arguments]

theorem choices_other (h : draft.Admits scope argument next) (key : ScopeKey)
    (hne : key ≠ ⟨scope, argument.name⟩) : next.choices.get? key = draft.choices.get? key := by
  obtain ⟨between, hrecords, rfl⟩ := h.recorded
  rw [place_choices]
  exact hrecords.choices key hne

theorem autocomplete_other (h : draft.Admits scope argument next) (key : ScopeKey)
    (hne : key ≠ ⟨scope, argument.name⟩) :
    next.autocomplete.get? key = draft.autocomplete.get? key := by
  obtain ⟨between, hrecords, rfl⟩ := h.recorded
  rw [place_autocomplete]
  exact hrecords.autocomplete key hne

theorem defaults_other (h : draft.Admits scope argument next) (key : ScopeKey)
    (hne : key ≠ ⟨scope, argument.name⟩) : next.defaults.get? key = draft.defaults.get? key := by
  obtain ⟨between, hrecords, rfl⟩ := h.recorded
  rw [place_defaults]
  exact hrecords.defaults key hne

end Admits

/-- The parameter of a fragment with the description it gets. -/
def described (fragment : Fragment) (description : Option String) : Argument :=
  let given :=
    (Text.unlessVoid description).or (Text.unlessVoid (some fragment.argument.description))
  { fragment.argument with description := given.getD fillerDescription }

theorem not_void_described (fragment : Fragment) (description : Option String) :
    Text.isVoid (described fragment description).description = false := by
  refine not_void_getD fun text htext => ?_
  rcases Option.or_eq_some_iff.mp htext with hgiven | ⟨_, hpayload⟩
  · exact Text.not_void_of_unlessVoid hgiven
  · exact Text.not_void_of_unlessVoid hpayload

/-- The parameter of a fragment is added in steps: its name is new, it gets its bounds, its
source and default are recorded, and it is placed. -/
structure Adds (draft : Draft α) (scope : Option String) (fragment : Fragment)
    (description : Option String) (source : ChoiceSource α) (options : ArgumentOptions)
    (argument : Argument) (next : Draft α) : Prop where
  fresh : ∀ own ∈ draft.inScope scope, own.name ≠ argument.name
  bounded : bounded ⟨scope, argument.name⟩ options (described fragment description) = .ok argument
  recorded : ∃ sourced,
    draft.withSource ⟨scope, argument.name⟩ argument fragment.choices source = .ok sourced ∧
      next = (sourced.withDefault ⟨scope, argument.name⟩ argument options.default).place argument
        scope

section

variable {draft next : Draft α} {scope : Option String} {fragment : Fragment}
  {description : Option String} {source : ChoiceSource α} {options : ArgumentOptions}
  {argument : Argument}

theorem Adds.name (h : draft.Adds scope fragment description source options argument next) :
    argument.name = fragment.argument.name := by
  rw [(bounded_ok h.bounded).1]
  rfl

theorem adds_of_addParameter
    (h : draft.addParameter scope fragment description source options = .ok next) :
    ∃ argument, draft.Adds scope fragment description source options argument next := by
  unfold addParameter at h
  dsimp only at h
  split at h
  next => cases h
  next hfresh =>
      obtain ⟨argument, hbounded, h⟩ := ok_of_bind_eq_ok h
      obtain ⟨sourced, hsourced, h⟩ := ok_of_bind_eq_ok h
      have hdescribed : Draft.bounded ⟨scope, fragment.argument.name⟩ options
          (described fragment description) = .ok argument := hbounded
      have hname : argument.name = fragment.argument.name := by
        rw [(bounded_ok hdescribed).1]
        rfl
      have hnext := (Except.ok.inj h).symm
      rw [← hname] at hfresh hdescribed hsourced hnext
      exact ⟨argument, by simpa using hfresh, hdescribed, sourced, hsourced, hnext⟩

/-- A parameter that is added is admitted to its scope. -/
theorem Adds.admits (h : draft.Adds scope fragment description source options argument next)
    (hform : fragment.argument.ParameterForm) : draft.Admits scope argument next := by
  obtain ⟨sourced, hsourced, hnext⟩ := h.recorded
  have hkept : argument.Kept := by
    refine ⟨bounded_form hform h.bounded, ?_⟩
    rw [(bounded_ok h.bounded).1]
    exact not_void_described fragment description
  obtain ⟨hrecords, hdefaults, hflag, hexclusive⟩ := withSource_ok hsourced
  rcases withDefault_cases sourced ⟨scope, argument.name⟩ argument options.default with
    hnone | ⟨hoptional, hpositional, given, hsome⟩
  · rw [hnone] at hnext
    exact
      { kept := hkept
        fresh := h.fresh
        recorded := ⟨sourced, hrecords, hnext⟩
        flag := by rwa [hnext, place_choices]
        exclusive := by rwa [hnext, place_choices, place_autocomplete]
        default := by
          rw [hnext, place_defaults, hdefaults]
          rintro habsent ⟨value, hvalue⟩
          rw [habsent] at hvalue
          cases hvalue }
  · rw [hsome] at hnext
    exact
      { kept := hkept
        fresh := h.fresh
        recorded := ⟨_, hrecords.trans (records_defaults sourced _ given), hnext⟩
        flag := by rwa [hnext, place_choices]
        exclusive := by rwa [hnext, place_choices, place_autocomplete]
        default := fun _ _ => ⟨hoptional, hpositional⟩ }

end

/-! ## The declaration of a parameter -/

theorem settle_ok {draft : Draft α} {step : Except BuildError (Draft α)}
    (h : (draft.settle step).2 = .ok ()) : step = .ok (draft.settle step).1 := by
  cases step with
  | ok next => rfl
  | error fault => cases h

/-- What an accepted declaration of a parameter does: it mentions the subcommand of the
parameter, if it has one, and adds the parameter. -/
inductive Took (draft : Draft α) (description : Option String) (source : ChoiceSource α)
    (options : ArgumentOptions) (next : Draft α) : Parameter → Prop where
  | own {fragment : Fragment}
      (hnext : draft.addParameter none fragment description source options = .ok next) :
      Took draft description source options next ⟨none, fragment⟩
  | mentioned {mention fragment : Fragment} {between : Draft α}
      (hmention : draft.mentionSubcommand mention.argument.name
        (Text.unlessVoid (some mention.argument.description)) = .ok between)
      (hnext : between.addParameter (some mention.argument.name) fragment description source
        options = .ok next) :
      Took draft description source options next ⟨some mention, fragment⟩

/-- Only a text that declares a parameter is accepted, and it does so in these steps. -/
theorem took_of_addArgument {draft : Draft α} {declaration : String}
    {description : Option String} {source : ChoiceSource α} {options : ArgumentOptions}
    (h : (draft.addArgument declaration description source options).2 = .ok ()) :
    ∃ parameter, Parameter.parse declaration = .ok parameter ∧
      draft.Took description source options
        (draft.addArgument declaration description source options).1 parameter := by
  cases hparse : Parameter.parse declaration with
  | error fault =>
      simp only [addArgument, hparse] at h
      cases h
  | ok parameter =>
      refine ⟨parameter, rfl, ?_⟩
      obtain ⟨mention?, fragment⟩ := parameter
      simp only [addArgument, hparse] at h ⊢
      cases mention? with
      | none => exact .own (settle_ok h)
      | some mention =>
          dsimp only at h ⊢
          cases hmention : draft.mentionSubcommand mention.argument.name
              (Text.unlessVoid (some mention.argument.description)) with
          | error fault =>
              rw [hmention] at h
              cases h
          | ok between =>
              rw [hmention] at h
              dsimp only at h ⊢
              cases hnext : between.addParameter (some mention.argument.name) fragment
                  description source options with
              | error fault =>
                  rw [hnext] at h
                  cases h
              | ok next => exact .mentioned hmention hnext

end Draft

end SlashCommand
