import SlashCommand.Proofs.Builder.Admission
import SlashCommand.Proofs.Builder.Index
import SlashCommand.Proofs.Builder.Refusal
import SlashCommand.Proofs.Builder.Start

/-!
# What every declaration satisfies

The names in a scope are distinct, every parameter is of its form, the index of
subcommands is in step with them, and choices, suggesters and defaults are recorded for
declared parameters only.  Every call keeps this, refused calls included, so every
command that is built satisfies it.
-/

namespace SlashCommand

open Declaration

/-! ## The invariant -/

/-- A subcommand as builders keep it. -/
structure Argument.SubcommandForm (argument : Argument) : Prop where
  kind : argument.kind = .command .sub
  name : Text.isWord argument.name = true
  described : Text.isVoid argument.description = false
  required : argument.optional = false
  single : argument.variadic = false
  datatype : argument.datatype = .string
  token : argument.token = none
  bounds : argument.min = none ∧ argument.max = none
  distinct : (argument.subarguments.map Argument.name).Nodup
  own : ∀ parameter ∈ argument.subarguments, parameter.Kept

/-- The parameters of a declaration and what is recorded about them fit together. -/
structure Consistent {α : Type} (arguments : List Argument)
    (choices : Dict ScopeKey (List String)) (autocomplete : Dict ScopeKey (Suggester α))
    (defaults : Dict ScopeKey Value) : Prop where
  distinct : (arguments.map Argument.name).Nodup
  members : ∀ argument ∈ arguments, argument.Kept ∨ argument.SubcommandForm
  choicesKeyed : ∀ key listed, choices.get? key = some listed →
    ∃ parameter ∈ parametersIn arguments key.subcommand, parameter.name = key.name
  flagChoices : ∀ scope, ∀ flag ∈ parametersIn arguments scope, flag.isFlag = true →
    choices.get? ⟨scope, flag.name⟩ = some [flag.token.getD ""]
  suggestersKeyed : ∀ key suggester, autocomplete.get? key = some suggester →
    ∃ parameter ∈ parametersIn arguments key.subcommand, parameter.name = key.name
  exclusive : ∀ key, choices.get? key = none ∨ autocomplete.get? key = none
  defaultsKeyed : ∀ key value, defaults.get? key = some value →
    ∃ parameter ∈ parametersIn arguments key.subcommand, parameter.name = key.name ∧
      parameter.optional = true ∧ parameter.isFlag = false

/-- What every draft satisfies. -/
structure Draft.WellFormed {α : Type} (draft : Draft α) : Prop where
  name : Text.isWord draft.name = true
  description : ∀ text ∈ draft.description, Text.isVoid text = false
  indexed : draft.Indexed
  implicit : ∀ name ∈ draft.implicit, draft.hasSubcommand name = true
  consistent : Consistent draft.arguments draft.choices draft.autocomplete draft.defaults

/-- What every command satisfies. -/
structure Command.WellFormed {α : Type} (command : Command α) : Prop where
  name : Text.isWord command.name = true
  description : command.type = .chatInput → Text.isVoid command.description = false
  consistent :
    Consistent command.arguments command.choices command.autocomplete command.defaults

/-! ## Members -/

namespace Argument

theorem SubcommandForm.isCommand {argument : Argument} (h : argument.SubcommandForm) :
    argument.isCommand = true := by
  simp [Argument.isCommand, h.kind]

theorem Kept.isCommand {argument : Argument} (h : argument.Kept) : argument.isCommand = false :=
  h.form.isCommand

theorem subcommandForm_subcommand {name description : String} (hname : Text.isWord name = true)
    (hdescription : Text.isVoid description = false) :
    (subcommand name description).SubcommandForm :=
  { kind := rfl, name := hname, described := hdescription, required := rfl, single := rfl
    datatype := rfl, token := rfl, bounds := ⟨rfl, rfl⟩, distinct := .nil
    own := fun _ hmem => by cases hmem }

theorem SubcommandForm.described_anew {argument : Argument} (h : argument.SubcommandForm)
    {text : String} (htext : Text.isVoid text = false) :
    ({ argument with description := text } : Argument).SubcommandForm :=
  { kind := h.kind, name := h.name, described := htext, required := h.required
    single := h.single, datatype := h.datatype, token := h.token, bounds := h.bounds
    distinct := h.distinct, own := h.own }

/-- A subcommand takes a parameter with a new name. -/
theorem SubcommandForm.extended {argument parameter : Argument} (h : argument.SubcommandForm)
    (hkept : parameter.Kept) (hfresh : ∀ own ∈ argument.subarguments, own.name ≠ parameter.name) :
    ({ argument with
        subarguments := argument.subarguments ++ [parameter] } : Argument).SubcommandForm :=
  { kind := h.kind, name := h.name, described := h.described, required := h.required
    single := h.single, datatype := h.datatype, token := h.token, bounds := h.bounds
    distinct := by
      rw [List.map_append, List.nodup_append]
      refine ⟨h.distinct, by simp, ?_⟩
      simpa using hfresh
    own := by
      intro own hmem
      rcases List.mem_append.mp hmem with hold | hnew
      · exact h.own own hold
      · exact List.mem_singleton.mp hnew ▸ hkept }

end Argument

/-! ## Steps of a declaration -/

namespace Consistent

variable {α : Type} {arguments : List Argument} {choices : Dict ScopeKey (List String)}
  {autocomplete : Dict ScopeKey (Suggester α)} {defaults : Dict ScopeKey Value}

theorem kept_of_mem (h : Consistent arguments choices autocomplete defaults)
    {scope : Option String} {parameter : Argument}
    (hmem : parameter ∈ parametersIn arguments scope) : parameter.Kept := by
  cases scope with
  | none =>
      obtain ⟨hin, hcommand⟩ := mem_parametersIn_none.mp hmem
      rcases h.members parameter hin with hkept | hsubcommand
      · exact hkept
      · rw [hsubcommand.isCommand] at hcommand
        cases hcommand
  | some name =>
      obtain ⟨subcommand, hin, hsub, hown⟩ := mem_parametersIn_some.mp hmem
      rcases h.members subcommand hin with hkept | hsubcommand
      · rw [isSubcommand_of_not_command hkept.isCommand] at hsub
        cases hsub
      · exact hsubcommand.own parameter hown

theorem subcommandForm_of_mem (h : Consistent arguments choices autocomplete defaults)
    {subcommand : Argument} (hmem : subcommand ∈ arguments)
    (hcommand : subcommand.isCommand = true) : subcommand.SubcommandForm := by
  rcases h.members subcommand hmem with hkept | hsubcommand
  · rw [hkept.isCommand] at hcommand
    cases hcommand
  · exact hsubcommand

/-- Names are distinct in each scope. -/
theorem eq_of_name_eq (h : Consistent arguments choices autocomplete defaults)
    {scope : Option String} {first second : Argument}
    (hfirst : first ∈ parametersIn arguments scope) (hsecond : second ∈ parametersIn arguments scope)
    (hname : first.name = second.name) : first = second := by
  cases scope with
  | none =>
      exact List.inj_on_of_nodup_map h.distinct (mem_parametersIn_none.mp hfirst).1
        (mem_parametersIn_none.mp hsecond).1 hname
  | some name =>
      obtain ⟨owner, howner, hsub, hfirst⟩ := mem_parametersIn_some.mp hfirst
      obtain ⟨other, hother, hotherSub, hsecond⟩ := mem_parametersIn_some.mp hsecond
      have hnames : other.name = owner.name :=
        (isSubcommand_iff.mp hotherSub).2.trans (isSubcommand_iff.mp hsub).2.symm
      obtain rfl := List.inj_on_of_nodup_map h.distinct hother howner hnames
      have hform := h.subcommandForm_of_mem howner (isSubcommand_iff.mp hsub).1
      exact List.inj_on_of_nodup_map hform.distinct hfirst hsecond hname

/-- What has a default is an optional positional parameter. -/
theorem optional_of_default (h : Consistent arguments choices autocomplete defaults)
    {key : ScopeKey} {value : Value} (hvalue : defaults.get? key = some value) :
    ∃ parameter ∈ parametersIn arguments key.subcommand,
      parameter.name = key.name ∧ parameter.kind = .positional ∧ parameter.optional = true := by
  obtain ⟨parameter, hmem, hname, hoptional, hflag⟩ := h.defaultsKeyed key value hvalue
  exact ⟨parameter, hmem, hname,
    (h.kept_of_mem hmem).form.positional_of_not_flag hflag, hoptional⟩

/-- A declaration without parameters. -/
theorem empty : @Consistent α [] ∅ ∅ ∅ where
  distinct := .nil
  members := fun _ hmem => by cases hmem
  choicesKeyed := fun _ _ h => by cases h
  flagChoices := fun scope flag hmem => by cases scope <;> cases hmem
  suggestersKeyed := fun _ _ h => by cases h
  exclusive := fun _ => Or.inl rfl
  defaultsKeyed := fun _ _ h => by cases h

/-- What is recorded still fits when no parameter moves. -/
theorem of_same_scopes {other : List Argument}
    (h : Consistent arguments choices autocomplete defaults)
    (hdistinct : (other.map Argument.name).Nodup)
    (hmembers : ∀ argument ∈ other, argument.Kept ∨ argument.SubcommandForm)
    (hscopes : ∀ scope parameter,
      parameter ∈ parametersIn other scope ↔ parameter ∈ parametersIn arguments scope) :
    Consistent other choices autocomplete defaults where
  distinct := hdistinct
  members := hmembers
  choicesKeyed := fun key listed hkey => by
    obtain ⟨parameter, hmem, hname⟩ := h.choicesKeyed key listed hkey
    exact ⟨parameter, (hscopes _ _).mpr hmem, hname⟩
  flagChoices := fun scope flag hmem => h.flagChoices scope flag ((hscopes _ _).mp hmem)
  suggestersKeyed := fun key suggester hkey => by
    obtain ⟨parameter, hmem, hname⟩ := h.suggestersKeyed key suggester hkey
    exact ⟨parameter, (hscopes _ _).mpr hmem, hname⟩
  exclusive := h.exclusive
  defaultsKeyed := fun key value hkey => by
    obtain ⟨parameter, hmem, hname⟩ := h.defaultsKeyed key value hkey
    exact ⟨parameter, (hscopes _ _).mpr hmem, hname⟩

/-- A new subcommand. -/
theorem append_subcommand (h : Consistent arguments choices autocomplete defaults)
    {name description : String} (hname : Text.isWord name = true)
    (hdescription : Text.isVoid description = false)
    (hfresh : ∀ argument ∈ arguments, argument.name ≠ name) :
    Consistent (arguments ++ [Argument.subcommand name description]) choices autocomplete
      defaults := by
  refine h.of_same_scopes ?_ ?_ ?_
  · rw [List.map_append, List.nodup_append]
    refine ⟨h.distinct, by simp, ?_⟩
    simpa [Argument.subcommand] using hfresh
  · intro argument hmem
    rcases List.mem_append.mp hmem with hold | hnew
    · exact h.members argument hold
    · rw [List.mem_singleton.mp hnew]
      exact Or.inr (Argument.subcommandForm_subcommand hname hdescription)
  · intro scope parameter
    rw [parametersIn_append, parametersIn_subcommand, List.append_nil]

/-- A new description of a subcommand. -/
theorem describe_subcommand (h : Consistent arguments choices autocomplete defaults)
    (name : String) {text : String} (htext : Text.isVoid text = false) :
    Consistent
      (arguments.map (Draft.changed name fun argument => { argument with description := text }))
      choices autocomplete defaults := by
  refine h.of_same_scopes ?_ ?_ fun scope parameter => by rw [Draft.parametersIn_described]
  · rw [Draft.map_changed_name (Draft.keepsSubcommand_describe text)]
    exact h.distinct
  · intro argument hmem
    obtain ⟨old, hold, rfl⟩ := List.mem_map.mp hmem
    rcases h.members old hold with hkept | hsubcommand
    · rw [Draft.changed_of_not_command hkept.isCommand]
      exact Or.inl hkept
    · refine Or.inr ?_
      unfold Draft.changed
      split
      · exact hsubcommand.described_anew htext
      · exact hsubcommand

end Consistent

theorem Command.WellFormed.subcommandForm {command : Command α} (h : command.WellFormed)
    {subcommand : Argument} (hmem : subcommand ∈ command.subcommands) :
    subcommand.SubcommandForm := by
  obtain ⟨hin, hcommand⟩ := List.mem_filter.mp hmem
  exact h.consistent.subcommandForm_of_mem hin hcommand

namespace Draft

variable {α : Type} {draft next : Draft α}

/-- A name that is new in a scope is the name of no parameter there. -/
theorem Admits.fresh_parameter {scope : Option String} {argument : Argument}
    (h : draft.Admits scope argument next) :
    ∀ own ∈ parametersIn draft.arguments scope, own.name ≠ argument.name := by
  intro own hmem
  refine h.fresh own ?_
  cases scope with
  | none => exact (List.mem_filter.mp hmem).1
  | some name => exact hmem

/-- A draft that admits a parameter holds that parameter more. -/
theorem Admits.takes {scope : Option String} {argument : Argument}
    (h : draft.Admits scope argument next) (hindexed : draft.Indexed)
    (hdistinct : (draft.arguments.map Argument.name).Nodup)
    (hscope : ∀ name ∈ scope, draft.hasSubcommand name = true) :
    Takes scope argument draft.arguments next.arguments := by
  rw [h.arguments]
  refine takes_place draft h.kept.isCommand hdistinct fun name hname => ?_
  rw [← hindexed.hasSubcommand_eq]
  exact hscope name hname

/-- The names of the command itself stay distinct when a parameter is placed. -/
theorem Admits.distinct {scope : Option String} {argument : Argument}
    (h : draft.Admits scope argument next)
    (hdistinct : (draft.arguments.map Argument.name).Nodup) :
    ((draft.place argument scope).arguments.map Argument.name).Nodup := by
  cases scope with
  | none =>
      simp only [place, List.map_append, List.nodup_append]
      refine ⟨hdistinct, by simp, ?_⟩
      simpa [inScope] using h.fresh
  | some name =>
      simp only [place, changeSubcommand_arguments]
      rwa [map_changed_name (keepsSubcommand_own argument)]

/-- Every argument keeps its form when a parameter is placed. -/
theorem Admits.members {scope : Option String} {argument : Argument}
    (h : draft.Admits scope argument next)
    (hmembers : ∀ argument ∈ draft.arguments, argument.Kept ∨ argument.SubcommandForm) :
    ∀ member ∈ (draft.place argument scope).arguments,
      member.Kept ∨ member.SubcommandForm := by
  intro member hmem
  cases scope with
  | none =>
      rcases List.mem_append.mp hmem with hold | hnew
      · exact hmembers member hold
      · rw [List.mem_singleton.mp hnew]
        exact Or.inl h.kept
  | some name =>
      simp only [place, changeSubcommand_arguments] at hmem
      obtain ⟨old, hold, rfl⟩ := List.mem_map.mp hmem
      rcases hmembers old hold with hkept | hsubcommand
      · rw [changed_of_not_command hkept.isCommand]
        exact Or.inl hkept
      · refine Or.inr ?_
        cases hnamed : isSubcommand name old with
        | false =>
            rw [changed_of_not_subcommand hnamed]
            exact hsubcommand
        | true =>
            rw [changed_of_subcommand hnamed]
            refine hsubcommand.extended h.kept fun own hown => h.fresh own ?_
            simp only [inScope, List.mem_flatMap, List.mem_filter]
            exact ⟨old, ⟨hold, hnamed⟩, hown⟩

/-- Admitting a parameter keeps a declaration consistent. -/
theorem Admits.consistent {scope : Option String} {argument : Argument}
    (h : draft.Admits scope argument next) (hindexed : draft.Indexed)
    (hscope : ∀ name ∈ scope, draft.hasSubcommand name = true)
    (hconsistent : Consistent draft.arguments draft.choices draft.autocomplete draft.defaults) :
    Consistent next.arguments next.choices next.autocomplete next.defaults := by
  have htakes := h.takes hindexed hconsistent.distinct hscope
  have hfresh := h.fresh_parameter
  have hchoices : Keyed draft.choices draft.arguments := hconsistent.choicesKeyed
  have hsuggesters : Keyed draft.autocomplete draft.arguments := hconsistent.suggestersKeyed
  have hdefaults : Keyed draft.defaults draft.arguments := fun key value hvalue => by
    obtain ⟨parameter, hmem, hname, _⟩ := hconsistent.defaultsKeyed key value hvalue
    exact ⟨parameter, hmem, hname⟩
  exact
    { distinct := h.arguments ▸ h.distinct hconsistent.distinct
      members := h.arguments ▸ h.members hconsistent.members
      choicesKeyed := hchoices.taken htakes h.choices_other
      flagChoices := by
        intro own flag hflag hisFlag
        rcases (htakes own flag).mp hflag with hold | ⟨rfl, rfl⟩
        · rw [h.choices_other _ (scopeKey_ne_of_fresh hfresh hold)]
          exact hconsistent.flagChoices own flag hold hisFlag
        · exact h.flag hisFlag
      suggestersKeyed := hsuggesters.taken htakes h.autocomplete_other
      exclusive := by
        intro key
        by_cases hown : key = ⟨scope, argument.name⟩
        · exact hown ▸ h.exclusive (hchoices.unrecorded hfresh) (hsuggesters.unrecorded hfresh)
        · rw [h.choices_other key hown, h.autocomplete_other key hown]
          exact hconsistent.exclusive key
      defaultsKeyed := by
        intro key value hkey
        by_cases hown : key = ⟨scope, argument.name⟩
        · subst hown
          exact ⟨argument, (htakes _ _).mpr (Or.inr ⟨rfl, rfl⟩), rfl,
            h.default (hdefaults.unrecorded hfresh) ⟨value, hkey⟩⟩
        · rw [h.defaults_other key hown] at hkey
          obtain ⟨parameter, hparameter, hname⟩ := hconsistent.defaultsKeyed key value hkey
          exact ⟨parameter, (htakes _ _).mpr (Or.inl hparameter), hname⟩ }

/-! ## Calls -/

theorem WellFormed.named {name : String} {description : Option String}
    (h : Draft.named name description = .ok draft) : draft.WellFormed := by
  obtain ⟨hword, rfl⟩ := named_ok h
  exact
    { name := hword
      description := fun text htext => Text.not_void_of_unlessVoid htext
      indexed := indexed_of_empty rfl rfl
      implicit := fun _ hmem => by cases hmem
      consistent := Consistent.empty }

theorem WellFormed.describeSubcommand (h : draft.WellFormed) (name : String)
    {description : Option String} (hdescription : ∀ text ∈ description, Text.isVoid text = false) :
    (draft.describeSubcommand name description).WellFormed := by
  cases description with
  | none => exact h
  | some text =>
      exact
        { name := h.name
          description := h.description
          indexed := h.indexed.describeSubcommand name (some text)
          implicit := fun own hmem =>
            (hasSubcommand_describeSubcommand draft name own (some text)).trans
              (h.implicit own hmem)
          consistent := h.consistent.describe_subcommand name (hdescription text rfl) }

theorem WellFormed.appendSubcommand (h : draft.WellFormed) {name : String}
    {description : Option String} (hname : Text.isWord name = true)
    (hdescription : ∀ text ∈ description, Text.isVoid text = false)
    (hfresh : draft.hasArgument name = false) :
    (draft.appendSubcommand name description).WellFormed where
  name := h.name
  description := h.description
  indexed := h.indexed.appendSubcommand hfresh description
  implicit := fun own hmem => hasSubcommand_appendSubcommand description (h.implicit own hmem)
  consistent := h.consistent.append_subcommand hname (not_void_getD hdescription) (by
    simpa [hasArgument] using hfresh)

theorem WellFormed.declareSubcommand (h : draft.WellFormed) {name : String}
    {description : Option String} (hname : Text.isWord name = true)
    (hdescription : ∀ text ∈ description, Text.isVoid text = false)
    (hnext : draft.declareSubcommand name description = .ok next) : next.WellFormed := by
  cases declares_of_declareSubcommand hnext with
  | settled =>
      refine WellFormed.describeSubcommand ?_ name hdescription
      exact { h with implicit := fun own hmem => h.implicit own (List.mem_of_mem_erase hmem) }
  | anew hsub hfresh => exact h.appendSubcommand hname hdescription hfresh

/-- Mentioning a subcommand leaves one of that name. -/
theorem WellFormed.mentionSubcommand (h : draft.WellFormed) {name : String}
    {description : Option String} (hname : Text.isWord name = true)
    (hdescription : ∀ text ∈ description, Text.isVoid text = false)
    (hnext : draft.mentionSubcommand name description = .ok next) :
    next.WellFormed ∧ next.hasSubcommand name = true := by
  cases mentions_of_mentionSubcommand hnext with
  | described hsub =>
      exact ⟨h.describeSubcommand name hdescription,
        (hasSubcommand_describeSubcommand draft name name description).trans hsub⟩
  | ignored hsub => exact ⟨h, hsub⟩
  | anew hsub hfresh =>
      have happended := h.appendSubcommand hname hdescription hfresh
      have hthere := hasSubcommand_appendSubcommand_self draft name description
      refine ⟨{ happended with implicit := fun own hmem => ?_ }, hthere⟩
      rcases List.mem_cons.mp hmem with rfl | hold
      · exact hthere
      · exact happended.implicit own hold

/-- Adding a parameter keeps every subcommand. -/
theorem hasSubcommand_of_addParameter {scope : Option String} {fragment : Fragment}
    {description : Option String} {source : ChoiceSource α} {options : ArgumentOptions}
    (hform : fragment.argument.ParameterForm)
    (hnext : draft.addParameter scope fragment description source options = .ok next)
    {name : String} (h : draft.hasSubcommand name = true) : next.hasSubcommand name = true := by
  obtain ⟨argument, hadds⟩ := adds_of_addParameter hnext
  have hadmits := hadds.admits hform
  obtain ⟨between, hrecords, rfl⟩ := hadmits.recorded
  rw [hasSubcommand_place, hasSubcommand, hrecords.subcommands]
  exact h

theorem WellFormed.addParameter (h : draft.WellFormed) {scope : Option String}
    {fragment : Fragment} {description : Option String} {source : ChoiceSource α}
    {options : ArgumentOptions} (hform : fragment.argument.ParameterForm)
    (hscope : ∀ name ∈ scope, draft.hasSubcommand name = true)
    (hnext : draft.addParameter scope fragment description source options = .ok next) :
    next.WellFormed := by
  obtain ⟨argument, hadds⟩ := adds_of_addParameter hnext
  have hadmits := hadds.admits hform
  obtain ⟨between, hrecords, hplaced⟩ := hadmits.recorded
  refine
    { name := ?_, description := ?_, indexed := ?_, implicit := ?_
      consistent := hadmits.consistent h.indexed hscope h.consistent }
  · rw [hplaced]
    cases scope <;> exact hrecords.name ▸ h.name
  · rw [hplaced]
    cases scope <;> exact hrecords.description ▸ h.description
  · rw [hplaced]
    refine Indexed.place ?_ hadmits.kept.isCommand scope
    exact h.indexed.of_same hrecords.arguments hrecords.subcommands
  · rw [hplaced]
    intro own hmem
    refine hplaced ▸ hasSubcommand_of_addParameter hform hnext (h.implicit own ?_)
    rw [← hrecords.implicit]
    cases scope <;> exact hmem

/-- What a refused call describes anew is described. -/
theorem WellFormed.reworded (h : draft.WellFormed) (call : Call α) :
    (draft.reworded call).WellFormed := by
  unfold Draft.reworded
  cases hrewording : draft.rewording? call with
  | none => exact h
  | some pair =>
      obtain ⟨name, text⟩ := pair
      refine h.describeSubcommand name fun given hgiven => ?_
      cases hgiven
      cases call with
      | addArgument declaration description source options =>
          simp only [rewording?] at hrewording
          split at hrewording
          next =>
              split at hrewording
              next =>
                  obtain ⟨given, hvoid, heq⟩ := Option.map_eq_some_iff.mp hrewording
                  cases heq
                  exact Text.not_void_of_unlessVoid hvoid
              next => cases hrewording
          next => cases hrewording
      | _ => cases hrewording

end Draft

end SlashCommand
