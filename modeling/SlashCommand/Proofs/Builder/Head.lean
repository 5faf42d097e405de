import SlashCommand.Proofs.Builder.Scope
import SlashCommand.Proofs.Outcome

/-!
# What declaring parameters leaves alone

The name, the description, the type, the restrictions and the action of a draft are its
head.  Declaring subcommands and parameters changes other parts of a draft only, whether it
is refused or not.
-/

namespace SlashCommand.Draft

open Declaration

variable {α : Type} {draft next : Draft α}

/-- A draft without its parameters and what is recorded about them. -/
def head (draft : Draft α) : Draft α :=
  { draft with
    arguments := []
    subcommands := ∅
    implicit := []
    choices := ∅
    autocomplete := ∅
    defaults := ∅ }

/-- Drafts with one head have one description. -/
theorem description_of_head (h : next.head = draft.head) :
    next.description = draft.description := by
  have hdescription := congrArg Draft.description h
  exact hdescription

/-- Drafts with one head have one action. -/
theorem action_of_head (h : next.head = draft.head) : next.action = draft.action := by
  have haction := congrArg Draft.action h
  exact haction

/-! ## Subcommands -/

@[simp]
theorem head_describeSubcommand (draft : Draft α) (name : String) (description : Option String) :
    (draft.describeSubcommand name description).head = draft.head := by
  cases description <;> rfl

@[simp]
theorem head_discardSubcommand (draft : Draft α) (name : String) :
    (draft.discardSubcommand name).head = draft.head := by
  unfold discardSubcommand
  split <;> rfl

theorem head_declareSubcommand {name : String} {description : Option String}
    (h : draft.declareSubcommand name description = .ok next) : next.head = draft.head := by
  cases declares_of_declareSubcommand h with
  | settled => exact head_describeSubcommand _ name description
  | anew => rfl

theorem head_mentionSubcommand {name : String} {description : Option String}
    (h : draft.mentionSubcommand name description = .ok next) : next.head = draft.head := by
  cases mentions_of_mentionSubcommand h with
  | described => exact head_describeSubcommand draft name description
  | ignored => rfl
  | anew => rfl

/-! ## Parameters -/

theorem head_withSource {key : ScopeKey} {argument : Argument} {payload : Option (List String)}
    {source : ChoiceSource α} (h : draft.withSource key argument payload source = .ok next) :
    next.head = draft.head := by
  unfold withSource at h
  split at h
  all_goals
    split at h <;> cases h
    all_goals rfl

@[simp]
theorem head_withDefault (draft : Draft α) (key : ScopeKey) (argument : Argument)
    (value : Option Value) : (draft.withDefault key argument value).head = draft.head := by
  cases value with
  | none => rfl
  | some given =>
      unfold withDefault
      dsimp only
      split <;> rfl

@[simp]
theorem head_place (draft : Draft α) (argument : Argument) (scope : Option String) :
    (draft.place argument scope).head = draft.head := by
  cases scope <;> rfl

theorem head_addParameter {scope : Option String} {fragment : Fragment}
    {description : Option String} {source : ChoiceSource α} {options : ArgumentOptions}
    (h : draft.addParameter scope fragment description source options = .ok next) :
    next.head = draft.head := by
  unfold addParameter at h
  dsimp only at h
  split at h
  · cases h
  · obtain ⟨argument, _, h⟩ := ok_of_bind_eq_ok h
    obtain ⟨sourced, hsourced, h⟩ := ok_of_bind_eq_ok h
    cases h
    rw [head_place, head_withDefault, head_withSource hsourced]

/-- The declaration of a parameter leaves the head alone, whether it is refused or not. -/
@[simp]
theorem head_addArgument (draft : Draft α) (declaration : String) (description : Option String)
    (source : ChoiceSource α) (options : ArgumentOptions) :
    (draft.addArgument declaration description source options).1.head = draft.head := by
  unfold addArgument
  split
  next => rfl
  next fragment _ =>
      cases hadded : draft.addParameter none fragment description source options with
      | error fault => rfl
      | ok added => exact head_addParameter hadded
  next mention fragment _ =>
      dsimp only
      cases hmentioned : draft.mentionSubcommand mention.argument.name
          (Text.unlessVoid (some mention.argument.description)) with
      | error fault => rfl
      | ok mentioned =>
          rw [← head_mentionSubcommand hmentioned]
          dsimp only
          cases hadded : mentioned.addParameter (some mention.argument.name) fragment description
              source options with
          | ok added => exact head_addParameter hadded
          | error fault =>
              dsimp only
              split
              · rfl
              · exact head_discardSubcommand mentioned mention.argument.name

/-- The declaration of a subcommand leaves the head alone, whether it is refused or not. -/
@[simp]
theorem head_addSubcommand (draft : Draft α) (name : String) (description : Option String) :
    (Builder.callDraft draft (.addSubcommand name description)).1.head = draft.head := by
  simp only [Builder.callDraft]
  split
  · rfl
  · cases hdeclared : draft.declareSubcommand name (Text.unlessVoid description) with
    | error fault => rfl
    | ok declared => exact head_declareSubcommand hdeclared

end SlashCommand.Draft
