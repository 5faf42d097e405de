import Mathlib.Data.List.Basic
import SlashCommand.Command.Builder

/-!
# The parameters in a scope

A parameter belongs to the command itself or to a subcommand.  Declaring and
describing subcommands moves no parameter, and a placed parameter goes to its own
scope and to no other.  What an accepted declaration or mention of a subcommand does
to a draft is told by one relation each.
-/

namespace SlashCommand

/-! ## Scopes -/

/-- The parameters in a scope, subcommands left out: those of the command itself or
those of a subcommand. -/
def parametersIn (arguments : List Argument) : Option String → List Argument
  | none => arguments.filter fun argument => !argument.isCommand
  | some name => (arguments.filter (Draft.isSubcommand name)).flatMap Argument.subarguments

theorem mem_parametersIn_none {arguments : List Argument} {parameter : Argument} :
    parameter ∈ parametersIn arguments none ↔
      parameter ∈ arguments ∧ parameter.isCommand = false := by
  simp [parametersIn]

theorem mem_parametersIn_some {arguments : List Argument} {name : String}
    {parameter : Argument} :
    parameter ∈ parametersIn arguments (some name) ↔
      ∃ subcommand ∈ arguments, Draft.isSubcommand name subcommand = true ∧
        parameter ∈ subcommand.subarguments := by
  simp [parametersIn, and_assoc]

theorem isSubcommand_iff {name : String} {argument : Argument} :
    Draft.isSubcommand name argument = true ↔
      argument.isCommand = true ∧ argument.name = name := by
  simp [Draft.isSubcommand]

theorem isSubcommand_of_not_command {argument : Argument} (h : argument.isCommand = false)
    (name : String) : Draft.isSubcommand name argument = false := by
  simp [Draft.isSubcommand, h]

theorem parametersIn_append (first second : List Argument) (scope : Option String) :
    parametersIn (first ++ second) scope =
      parametersIn first scope ++ parametersIn second scope := by
  cases scope with
  | none => simp [parametersIn]
  | some name => simp [parametersIn]

/-- A new subcommand owns no parameter and is none. -/
theorem parametersIn_subcommand (name description : String) (scope : Option String) :
    parametersIn [Argument.subcommand name description] scope = [] := by
  cases scope with
  | none => rfl
  | some own =>
      simp only [parametersIn, List.filter_cons, List.filter_nil]
      split <;> simp [Argument.subcommand]

/-- A subcommand at the end brings its parameters along. -/
theorem mem_parametersIn_append_subcommand {arguments : List Argument} (subcommand : Argument)
    (hcommand : subcommand.isCommand = true) {scope : Option String} {parameter : Argument} :
    parameter ∈ parametersIn (arguments ++ [subcommand]) scope ↔
      parameter ∈ parametersIn arguments scope ∨
        scope = some subcommand.name ∧ parameter ∈ subcommand.subarguments := by
  rw [parametersIn_append, List.mem_append]
  refine or_congr_right ?_
  cases scope with
  | none => simp [parametersIn, hcommand]
  | some own =>
      rw [mem_parametersIn_some]
      simp only [List.mem_singleton, exists_eq_left, isSubcommand_iff, hcommand, true_and,
        Option.some.injEq]
      exact and_congr_left' eq_comm

/-- Among arguments with distinct names one subcommand at most has a name. -/
theorem filter_isSubcommand {arguments : List Argument} {name : String} {subcommand : Argument}
    (hdistinct : (arguments.map Argument.name).Nodup) (hmem : subcommand ∈ arguments)
    (hsub : Draft.isSubcommand name subcommand = true) :
    arguments.filter (Draft.isSubcommand name) = [subcommand] := by
  induction arguments with
  | nil => cases hmem
  | cons argument rest ih =>
      obtain ⟨hfresh, hrest⟩ := List.nodup_cons.mp hdistinct
      have hname := (isSubcommand_iff.mp hsub).2
      rcases List.mem_cons.mp hmem with rfl | hlater
      · rw [List.filter_cons_of_pos hsub, List.cons_inj_right, List.filter_eq_nil_iff]
        intro other hother hnamed
        apply hfresh
        rw [hname, ← (isSubcommand_iff.mp hnamed).2]
        exact List.mem_map_of_mem hother
      · have hother : ¬ Draft.isSubcommand name argument = true := by
          intro hnamed
          apply hfresh
          rw [(isSubcommand_iff.mp hnamed).2, ← hname]
          exact List.mem_map_of_mem hlater
        rw [List.filter_cons_of_neg hother]
        exact ih hrest hlater

/-! ## One parameter more -/

/-- Some arguments hold one parameter more than others, in the given scope. -/
def Takes (scope : Option String) (argument : Argument) (before after : List Argument) : Prop :=
  ∀ own parameter, parameter ∈ parametersIn after own ↔
    parameter ∈ parametersIn before own ∨ own = scope ∧ parameter = argument

/-- What is recorded is recorded for parameters. -/
def Keyed {β : Type} (recorded : Dict ScopeKey β) (arguments : List Argument) : Prop :=
  ∀ key value, recorded.get? key = some value →
    ∃ parameter ∈ parametersIn arguments key.subcommand, parameter.name = key.name

section

variable {β : Type} {scope : Option String} {argument : Argument} {before after : List Argument}

/-- A parameter has another key than one whose name is new. -/
theorem scopeKey_ne_of_fresh (hfresh : ∀ own ∈ parametersIn before scope, own.name ≠ argument.name)
    {own : Option String} {parameter : Argument} (hmem : parameter ∈ parametersIn before own) :
    (⟨own, parameter.name⟩ : ScopeKey) ≠ ⟨scope, argument.name⟩ := by
  intro heq
  rw [ScopeKey.mk.injEq] at heq
  exact hfresh parameter (heq.1 ▸ hmem) heq.2

/-- Nothing is recorded for a parameter whose name is new. -/
theorem Keyed.unrecorded {recorded : Dict ScopeKey β} (h : Keyed recorded before)
    (hfresh : ∀ own ∈ parametersIn before scope, own.name ≠ argument.name) :
    recorded.get? ⟨scope, argument.name⟩ = none := by
  refine Option.eq_none_iff_forall_ne_some.mpr fun value hvalue => ?_
  obtain ⟨own, hmem, hname⟩ := h _ value hvalue
  exact hfresh own hmem hname

/-- Records stay those of parameters when the new parameter gets one. -/
theorem Keyed.taken {recorded other : Dict ScopeKey β} (h : Keyed recorded before)
    (htakes : Takes scope argument before after)
    (hothers : ∀ key, key ≠ ⟨scope, argument.name⟩ → other.get? key = recorded.get? key) :
    Keyed other after := by
  intro key value hvalue
  by_cases hkey : key = ⟨scope, argument.name⟩
  · exact ⟨argument, (htakes _ _).mpr (Or.inr ⟨hkey ▸ rfl, rfl⟩), hkey ▸ rfl⟩
  · rw [hothers key hkey] at hvalue
    obtain ⟨parameter, hmem, hname⟩ := h key value hvalue
    exact ⟨parameter, (htakes _ _).mpr (Or.inl hmem), hname⟩

end

/-- A parameter at the end belongs to the command itself. -/
theorem takes_append_parameter (arguments : List Argument) {argument : Argument}
    (hcommand : argument.isCommand = false) :
    Takes none argument arguments (arguments ++ [argument]) := by
  intro scope parameter
  rw [parametersIn_append, List.mem_append]
  refine or_congr_right ?_
  cases scope with
  | none =>
      rw [mem_parametersIn_none, List.mem_singleton]
      constructor
      · rintro ⟨rfl, _⟩
        exact ⟨rfl, rfl⟩
      · rintro ⟨_, rfl⟩
        exact ⟨rfl, hcommand⟩
  | some own => simp [parametersIn, isSubcommand_of_not_command hcommand]

/-- A parameter at the end of the last subcommand belongs to that subcommand. -/
theorem takes_append_subargument (arguments done : List Argument) {subcommand argument : Argument}
    (hcommand : subcommand.isCommand = true) :
    Takes (some subcommand.name) argument
      (arguments ++ [{ subcommand with subarguments := done }])
      (arguments ++ [{ subcommand with subarguments := done ++ [argument] }]) := by
  intro scope parameter
  have hscope : ∀ listed, parameter ∈
      parametersIn (arguments ++ [{ subcommand with subarguments := listed }]) scope ↔
        parameter ∈ parametersIn arguments scope ∨
          scope = some subcommand.name ∧ parameter ∈ listed :=
    fun listed =>
      mem_parametersIn_append_subcommand { subcommand with subarguments := listed } hcommand
  rw [hscope, hscope, List.mem_append, List.mem_singleton, and_or_left, or_assoc]

/-- The scope of a subcommand with a new name is that subcommand. -/
theorem parametersIn_append_own {arguments : List Argument} {subcommand : Argument}
    (hcommand : subcommand.isCommand = true)
    (hfresh : ∀ argument ∈ arguments, argument.name ≠ subcommand.name) :
    parametersIn (arguments ++ [subcommand]) (some subcommand.name) =
      subcommand.subarguments := by
  have hnone : arguments.filter (Draft.isSubcommand subcommand.name) = [] := by
    rw [List.filter_eq_nil_iff]
    intro argument hmem hsub
    exact hfresh argument hmem (isSubcommand_iff.mp hsub).2
  have hown : Draft.isSubcommand subcommand.name subcommand = true :=
    isSubcommand_iff.mpr ⟨hcommand, rfl⟩
  simp [parametersIn, hnone, hown]

/-! ## Changing subcommands -/

/-- A change of subcommands that keeps what they are and their names. -/
structure KeepsSubcommand (change : Argument → Argument) : Prop where
  name : ∀ argument, (change argument).name = argument.name
  isCommand : ∀ argument, (change argument).isCommand = argument.isCommand

namespace Draft

variable {α : Type}

/-- The change of one argument by `changeSubcommand`. -/
def changed (name : String) (change : Argument → Argument) (argument : Argument) : Argument :=
  if isSubcommand name argument then change argument else argument

theorem changeSubcommand_arguments (draft : Draft α) (name : String)
    (change : Argument → Argument) :
    (draft.changeSubcommand name change).arguments = draft.arguments.map (changed name change) :=
  rfl

variable {name : String} {change : Argument → Argument}

theorem changed_of_not_command {argument : Argument} (h : argument.isCommand = false) :
    changed name change argument = argument := by
  simp [changed, isSubcommand_of_not_command h]

theorem changed_of_subcommand {argument : Argument} (h : isSubcommand name argument = true) :
    changed name change argument = change argument :=
  if_pos h

theorem changed_of_not_subcommand {argument : Argument} (h : isSubcommand name argument = false) :
    changed name change argument = argument := by
  simp [changed, h]

@[simp]
theorem changed_name (hchange : KeepsSubcommand change) (argument : Argument) :
    (changed name change argument).name = argument.name := by
  unfold changed
  split
  · exact hchange.name argument
  · rfl

@[simp]
theorem changed_isCommand (hchange : KeepsSubcommand change) (argument : Argument) :
    (changed name change argument).isCommand = argument.isCommand := by
  unfold changed
  split
  · exact hchange.isCommand argument
  · rfl

theorem isSubcommand_changed (hchange : KeepsSubcommand change) (own : String)
    (argument : Argument) :
    isSubcommand own (changed name change argument) = isSubcommand own argument := by
  simp [isSubcommand, hchange]

theorem map_changed_name (hchange : KeepsSubcommand change) (arguments : List Argument) :
    (arguments.map (changed name change)).map Argument.name = arguments.map Argument.name := by
  simp [Function.comp_def, hchange]

/-- The command itself keeps its parameters when a subcommand changes. -/
theorem parametersIn_changed_none (hchange : KeepsSubcommand change) (arguments : List Argument) :
    parametersIn (arguments.map (changed name change)) none = parametersIn arguments none := by
  induction arguments with
  | nil => rfl
  | cons argument rest ih =>
      simp only [parametersIn, List.map_cons, List.filter_cons, changed_isCommand hchange] at ih ⊢
      cases hcommand : argument.isCommand with
      | true => simpa using ih
      | false => simpa [changed_of_not_command hcommand] using ih

/-- A subcommand has the parameters that its change gives it. -/
theorem parametersIn_changed_some (hchange : KeepsSubcommand change) (arguments : List Argument)
    (own : String) :
    parametersIn (arguments.map (changed name change)) (some own) =
      (arguments.filter (isSubcommand own)).flatMap fun subcommand =>
        (changed name change subcommand).subarguments := by
  have hkept : isSubcommand own ∘ changed name change = isSubcommand own :=
    funext (isSubcommand_changed hchange own)
  rw [parametersIn, List.filter_map, hkept, List.flatMap_map]

/-! ## Descriptions -/

theorem keepsSubcommand_describe (text : String) :
    KeepsSubcommand fun argument => { argument with description := text } where
  name := fun _ => rfl
  isCommand := fun _ => rfl

/-- Describing a subcommand moves no parameter. -/
theorem parametersIn_described (arguments : List Argument) (text : String)
    (scope : Option String) :
    parametersIn
        (arguments.map (changed name fun argument => { argument with description := text })) scope =
      parametersIn arguments scope := by
  cases scope with
  | none => exact parametersIn_changed_none (keepsSubcommand_describe text) arguments
  | some own =>
      rw [parametersIn_changed_some (keepsSubcommand_describe text), parametersIn]
      refine List.flatMap_congr fun subcommand _ => ?_
      unfold changed
      split <;> rfl

/-! ## Placing a parameter -/

theorem keepsSubcommand_own (parameter : Argument) :
    KeepsSubcommand fun argument =>
      { argument with subarguments := argument.subarguments ++ [parameter] } where
  name := fun _ => rfl
  isCommand := fun _ => rfl

/-- A placed parameter goes to the end of its scope, and every other parameter stays where it
is. -/
theorem parametersIn_place (draft : Draft α) {argument : Argument}
    (hcommand : argument.isCommand = false) {place : Option String}
    (hdistinct : (draft.arguments.map Argument.name).Nodup)
    (hplace : ∀ name ∈ place, draft.arguments.any (isSubcommand name) = true)
    (scope : Option String) :
    parametersIn (draft.place argument place).arguments scope =
      parametersIn draft.arguments scope ++ if scope = place then [argument] else [] := by
  cases place with
  | none =>
      rw [Draft.place, parametersIn_append]
      cases scope with
      | none => simp [parametersIn, hcommand]
      | some own => simp [parametersIn, isSubcommand_of_not_command hcommand]
  | some name =>
      have hchange := keepsSubcommand_own argument
      rw [Draft.place, changeSubcommand_arguments]
      cases scope with
      | none =>
          rw [parametersIn_changed_none hchange]
          simp
      | some own =>
          rw [parametersIn_changed_some hchange, parametersIn]
          by_cases hown : own = name
          · subst hown
            obtain ⟨subcommand, hmem, hsub⟩ := List.any_eq_true.mp (hplace own rfl)
            rw [filter_isSubcommand hdistinct hmem hsub]
            simp [changed_of_subcommand hsub]
          · rw [if_neg (by simpa using hown), List.append_nil]
            refine List.flatMap_congr fun subcommand hmem => ?_
            have hnamed := (isSubcommand_iff.mp (List.mem_filter.mp hmem).2).2
            rw [changed_of_not_subcommand (by simp [isSubcommand, hnamed, hown])]

theorem takes_place (draft : Draft α) {argument : Argument}
    (hcommand : argument.isCommand = false) {place : Option String}
    (hdistinct : (draft.arguments.map Argument.name).Nodup)
    (hplace : ∀ name ∈ place, draft.arguments.any (isSubcommand name) = true) :
    Takes place argument draft.arguments (draft.place argument place).arguments := by
  intro scope parameter
  rw [parametersIn_place draft hcommand hdistinct hplace, List.mem_append]
  refine or_congr_right ?_
  split <;> simp [*]

/-- A parameter of the last subcommand goes to the end of its parameters. -/
theorem place_last {draft : Draft α} {before : List Argument} {last : Argument}
    (h : draft.arguments = before ++ [last]) (hcommand : last.isCommand = true)
    (hbefore : ∀ argument ∈ before, argument.name ≠ last.name) (argument : Argument) :
    (draft.place argument (some last.name)).arguments =
      before ++ [{ last with subarguments := last.subarguments ++ [argument] }] := by
  have hlast : isSubcommand last.name last = true := isSubcommand_iff.mpr ⟨hcommand, rfl⟩
  simp only [place, changeSubcommand_arguments, h, List.map_append, List.map_cons, List.map_nil]
  rw [changed_of_subcommand hlast]
  congr 1
  refine (List.map_congr_left fun other hother => changed_of_not_subcommand ?_).trans
    (List.map_id before)
  exact Bool.eq_false_iff.mpr fun hsub => hbefore other hother (isSubcommand_iff.mp hsub).2

/-! ## Declaring and mentioning a subcommand -/

/-- What an accepted declaration of a subcommand does. -/
inductive DeclaresSubcommand (draft : Draft α) (name : String) (given : Option String) :
    Draft α → Prop where
  | settled (hsub : draft.hasSubcommand name = true)
      (himplicit : draft.implicit.contains name = true) :
      DeclaresSubcommand draft name given
        (describeSubcommand { draft with implicit := draft.implicit.erase name } name given)
  | anew (hsub : draft.hasSubcommand name = false) (hfresh : draft.hasArgument name = false) :
      DeclaresSubcommand draft name given (draft.appendSubcommand name given)

/-- What an accepted mention of a subcommand does. -/
inductive MentionsSubcommand (draft : Draft α) (name : String) (given : Option String) :
    Draft α → Prop where
  | described (hsub : draft.hasSubcommand name = true)
      (himplicit : draft.implicit.contains name = true) :
      MentionsSubcommand draft name given (draft.describeSubcommand name given)
  | ignored (hsub : draft.hasSubcommand name = true)
      (himplicit : draft.implicit.contains name = false) :
      MentionsSubcommand draft name given draft
  | anew (hsub : draft.hasSubcommand name = false) (hfresh : draft.hasArgument name = false) :
      MentionsSubcommand draft name given
        (appendSubcommand { draft with implicit := name :: draft.implicit } name given)

theorem declares_of_declareSubcommand {draft next : Draft α} {name : String} {given : Option String}
    (h : draft.declareSubcommand name given = .ok next) :
    draft.DeclaresSubcommand name given next := by
  unfold declareSubcommand at h
  split at h
  next hsub =>
      split at h
      next himplicit =>
          cases h
          exact .settled hsub himplicit
      next => cases h
  next hsub =>
      split at h
      next => cases h
      next hfresh =>
          cases h
          exact .anew (Bool.eq_false_iff.mpr hsub) (Bool.eq_false_iff.mpr hfresh)

theorem mentions_of_mentionSubcommand {draft next : Draft α} {name : String} {given : Option String}
    (h : draft.mentionSubcommand name given = .ok next) :
    draft.MentionsSubcommand name given next := by
  unfold mentionSubcommand at h
  split at h
  next hsub =>
      split at h
      next himplicit =>
          cases h
          exact .described hsub himplicit
      next himplicit =>
          cases h
          exact .ignored hsub (Bool.eq_false_iff.mpr himplicit)
  next hsub =>
      split at h
      next => cases h
      next hfresh =>
          cases h
          exact .anew (Bool.eq_false_iff.mpr hsub) (Bool.eq_false_iff.mpr hfresh)

end Draft

end SlashCommand
