import SlashCommand.Proofs.Builder.Undescribed
import SlashCommand.Proofs.Dict

/-!
# What a refused call leaves behind

A refused call leaves a builder as it was, with one exception: the declaration of a
parameter may give a new description to an implicit subcommand before the parameter
is refused, and that description stays.  The calls that were not refused therefore
build the same command up to the descriptions of subcommands, and the very same
command when no refused call rewords one.
-/

namespace SlashCommand

namespace Draft

variable {α : Type}

/-! ## Rewording -/

/-- The implicit subcommand that a call mentions with a description of its own, and
that description. -/
def rewording? (draft : Draft α) : Call α → Option (String × String)
  | .addArgument declaration _ _ _ =>
      match Declaration.Parameter.parse declaration with
      | .ok ⟨some mention, _⟩ =>
          if draft.hasSubcommand mention.argument.name &&
              draft.implicit.contains mention.argument.name then
            (Text.unlessVoid (some mention.argument.description)).map
              (mention.argument.name, ·)
          else
            none
      | _ => none
  | _ => none

/-- The draft with the description that a call gives to an implicit subcommand. -/
def reworded (draft : Draft α) (call : Call α) : Draft α :=
  match draft.rewording? call with
  | none => draft
  | some (name, text) => draft.describeSubcommand name (some text)

/-- A call gives an implicit subcommand a description other than the one it has. -/
def Rewords (draft : Draft α) (call : Call α) : Prop :=
  ∃ name text, draft.rewording? call = some (name, text) ∧
    ∃ subcommand ∈ draft.arguments,
      isSubcommand name subcommand = true ∧ subcommand.description ≠ text

theorem map_eq_self_iff {β : Type} (change : β → β) (items : List β) :
    items.map change = items ↔ ∀ item ∈ items, change item = item := by
  induction items with
  | nil => simp
  | cons item rest ih => simp [ih]

theorem describeSubcommand_eq_self_iff (draft : Draft α) (name text : String) :
    draft.describeSubcommand name (some text) = draft ↔
      ∀ subcommand ∈ draft.arguments,
        isSubcommand name subcommand = true → subcommand.description = text := by
  have hfield : draft.describeSubcommand name (some text) = draft ↔
      (draft.describeSubcommand name (some text)).arguments = draft.arguments := by
    constructor
    · intro h
      exact congrArg Draft.arguments h
    · intro h
      cases draft
      simpa [describeSubcommand, changeSubcommand] using h
  rw [hfield]
  simp only [describeSubcommand, changeSubcommand]
  rw [map_eq_self_iff]
  refine forall₂_congr fun argument _ => ?_
  cases hsub : isSubcommand name argument with
  | false => simp
  | true =>
      cases argument
      simp [eq_comm]

/-- A call rewords a subcommand exactly when its description changes the draft. -/
theorem reworded_eq_self_iff (draft : Draft α) (call : Call α) :
    draft.reworded call = draft ↔ ¬ draft.Rewords call := by
  unfold reworded Rewords
  cases hrewording : draft.rewording? call with
  | none => simp
  | some pair =>
      obtain ⟨name, text⟩ := pair
      dsimp only
      rw [describeSubcommand_eq_self_iff]
      constructor
      · rintro hsame ⟨name', text', heq, subcommand, hmem, hsub, hne⟩
        cases heq
        exact hne (hsame subcommand hmem hsub)
      · intro hnone subcommand hmem hsub
        refine Classical.byContradiction fun hne => ?_
        exact hnone ⟨name, text, rfl, subcommand, hmem, hsub, hne⟩

/-! ## Refusals of single steps -/

/-- A subcommand that was brought about and taken away again leaves no trace. -/
theorem discardSubcommand_appendSubcommand (draft : Draft α) (name : String)
    (description : Option String) (hnone : draft.hasSubcommand name = false) :
    discardSubcommand
      (appendSubcommand { draft with implicit := name :: draft.implicit } name description)
      name = draft := by
  have habsent : draft.subcommands.get? name = none :=
    Option.not_isSome_iff_eq_none.mp (Bool.eq_false_iff.mp hnone)
  simp only [discardSubcommand, subcommandIndex?, appendSubcommand, Dict.get?_insert_self,
    Dict.erase_insert habsent]
  simp [List.eraseIdx_append_of_length_le]

theorem settle_error {draft : Draft α} {step : Except BuildError (Draft α)} {error : BuildError}
    (h : (draft.settle step).2 = .error error) : (draft.settle step).1 = draft := by
  cases step with
  | ok next => simp [settle] at h
  | error error' => rfl

/-- The description that a refused declaration gives to a subcommand it mentions is
all that stays of it. -/
theorem addArgument_mention_error {draft : Draft α} {declaration : String}
    {mention fragment : Declaration.Fragment} {description : Option String}
    {source : ChoiceSource α} {options : ArgumentOptions} {error : BuildError}
    (hparse : Declaration.Parameter.parse declaration = .ok ⟨some mention, fragment⟩)
    (h : (draft.addArgument declaration description source options).2 = .error error) :
    (draft.addArgument declaration description source options).1 =
      draft.reworded (.addArgument declaration description source options) := by
  simp only [addArgument, reworded, rewording?, hparse, mentionSubcommand] at h ⊢
  cases hsub : draft.hasSubcommand mention.argument.name with
  | false =>
      cases hname : draft.hasArgument mention.argument.name with
      | true => simp
      | false =>
          simp only [hsub, hname, Bool.false_eq_true, if_false] at h ⊢
          split at h
          next => cases h
          next => simp [discardSubcommand_appendSubcommand, hsub]
  | true =>
      cases himplicit : draft.implicit.contains mention.argument.name with
      | false =>
          simp only [hsub, himplicit, Bool.false_eq_true, if_true, if_false] at h ⊢
          split at h
          next => cases h
          next => simp
      | true =>
          simp only [hsub, himplicit, if_true] at h ⊢
          split at h
          next => cases h
          next =>
              cases Text.unlessVoid (some mention.argument.description) with
              | none => simp [describeSubcommand]
              | some text => simp

/-- A refused parameter declaration leaves the draft with the description it gave. -/
theorem addArgument_error {draft : Draft α} {declaration : String}
    {description : Option String} {source : ChoiceSource α} {options : ArgumentOptions}
    {error : BuildError}
    (h : (draft.addArgument declaration description source options).2 = .error error) :
    (draft.addArgument declaration description source options).1 =
      draft.reworded (.addArgument declaration description source options) := by
  cases hparse : Declaration.Parameter.parse declaration with
  | error fault => simp [addArgument, reworded, rewording?, hparse]
  | ok parameter =>
      obtain ⟨mention?, fragment⟩ := parameter
      cases mention? with
      | none =>
          simp only [addArgument, reworded, rewording?, hparse] at h ⊢
          exact settle_error h
      | some mention => exact addArgument_mention_error hparse h

/-- A refused call leaves the draft as it was but for the description it gave. -/
theorem callDraft_error {draft : Draft α} {call : Call α} {error : BuildError}
    (h : (Builder.callDraft draft call).2 = .error error) :
    (Builder.callDraft draft call).1 = draft.reworded call := by
  cases call with
  | setCommand name description => rfl
  | setDescription description => exact settle_error h
  | setType type => cases h
  | addSubcommand name description =>
      simp only [Builder.callDraft] at h ⊢
      split at h
      next => rfl
      next => exact settle_error h
  | addArgument declaration description source options => exact addArgument_error h
  | addRequirement token => cases h
  | addChannel id => cases h
  | addGuild id => cases h
  | setAction action => exact settle_error h

end Draft

namespace Builder

variable {α : Type}

/-! ## Refusals of calls -/

/-- A call gives an implicit subcommand of a draft another description. -/
def Rewords : Builder α → Call α → Prop
  | .drafting draft, call => draft.Rewords call
  | _, _ => False

/-- The builder with the description that a call gives to an implicit subcommand. -/
def reworded : Builder α → Call α → Builder α
  | .drafting draft, call => .drafting (draft.reworded call)
  | builder, _ => builder

theorem reworded_eq_self_iff (builder : Builder α) (call : Call α) :
    builder.reworded call = builder ↔ ¬ builder.Rewords call := by
  cases builder with
  | unnamed => simp [reworded, Rewords]
  | drafting draft =>
      simp only [reworded, Rewords, drafting.injEq]
      exact draft.reworded_eq_self_iff call
  | built command => simp [reworded, Rewords]

theorem undescribed_reworded (builder : Builder α) (call : Call α) :
    (builder.reworded call).undescribed = builder.undescribed := by
  cases builder with
  | unnamed => rfl
  | drafting draft =>
      refine congrArg Builder.drafting ?_
      unfold Draft.reworded
      cases draft.rewording? call with
      | none => rfl
      | some pair => exact draft.undescribed_describeSubcommand pair.1 (some pair.2)
  | built command => rfl

/-- A refused call leaves the builder as it was but for the description it gave. -/
theorem call_error {builder : Builder α} {call : Call α} {error : BuildError}
    (h : (builder.call call).2 = .error error) :
    (builder.call call).1 = builder.reworded call := by
  cases builder with
  | unnamed =>
      cases call with
      | setCommand name description =>
          simp only [Builder.call, callUnnamed] at h ⊢
          split at h
          next => cases h
          next => rfl
      | setDescription description => rfl
      | setType type => rfl
      | addSubcommand name description => rfl
      | addArgument declaration description source options => rfl
      | addRequirement token => rfl
      | addChannel id => rfl
      | addGuild id => rfl
      | setAction action => rfl
  | drafting draft => exact congrArg Builder.drafting (Draft.callDraft_error h)
  | built command => rfl

/-! ## Refusals in a chain of calls -/

/-- The builder that calls lead to, one after the other, refused ones included. -/
def run (builder : Builder α) : List (Call α) → Builder α
  | [] => builder
  | next :: rest => (builder.call next).1.run rest

/-- The calls of a chain that are not refused. -/
def accepted (builder : Builder α) : List (Call α) → List (Call α)
  | [] => []
  | next :: rest =>
      match builder.call next with
      | (changed, .ok ()) => next :: changed.accepted rest
      | (changed, .error _) => changed.accepted rest

/-- No refused call of a chain rewords a subcommand. -/
def RefusesQuietly (builder : Builder α) : List (Call α) → Prop
  | [] => True
  | next :: rest =>
      ((∃ error, (builder.call next).2 = .error error) → ¬ builder.Rewords next) ∧
        (builder.call next).1.RefusesQuietly rest

theorem accepted_cons_ok {builder : Builder α} {next : Call α} (rest : List (Call α))
    (h : (builder.call next).2 = .ok ()) :
    builder.accepted (next :: rest) = next :: (builder.call next).1.accepted rest := by
  rw [accepted]
  split
  next hcall => rw [hcall]
  next hcall =>
      rw [hcall] at h
      cases h

theorem accepted_cons_error {builder : Builder α} {next : Call α} {error : BuildError}
    (rest : List (Call α)) (h : (builder.call next).2 = .error error) :
    builder.accepted (next :: rest) = (builder.call next).1.accepted rest := by
  rw [accepted]
  split
  next hcall =>
      rw [hcall] at h
      cases h
  next hcall => rw [hcall]

/-- Leaving out the refused calls changes the descriptions of subcommands at most. -/
theorem run_accepted_alike (calls : List (Call α)) {first second : Builder α}
    (h : first.undescribed = second.undescribed) :
    (first.run (second.accepted calls)).undescribed = (second.run calls).undescribed := by
  induction calls generalizing first second with
  | nil => exact h
  | cons next rest ih =>
      cases houtcome : (second.call next).2 with
      | ok =>
          rw [accepted_cons_ok rest houtcome]
          exact ih (call_alike h next).2
      | error error =>
          rw [accepted_cons_error rest houtcome]
          refine ih (h.trans ?_)
          rw [call_error houtcome, undescribed_reworded]

/-- Leaving out the refused calls changes nothing if none of them rewords a
subcommand. -/
theorem run_accepted (calls : List (Call α)) {builder : Builder α}
    (h : builder.RefusesQuietly calls) :
    builder.run (builder.accepted calls) = builder.run calls := by
  induction calls generalizing builder with
  | nil => rfl
  | cons next rest ih =>
      obtain ⟨hnext, hrest⟩ := h
      cases houtcome : (builder.call next).2 with
      | ok =>
          rw [accepted_cons_ok rest houtcome]
          exact ih hrest
      | error error =>
          have hsame : (builder.call next).1 = builder := by
            rw [call_error houtcome, reworded_eq_self_iff]
            exact hnext ⟨error, houtcome⟩
          rw [accepted_cons_error rest houtcome, run]
          rw [hsame] at hrest ⊢
          exact ih hrest

/-- A refused call leaves the builder as it was exactly when it gives no implicit
subcommand another description; otherwise that description is all that changes.
Without its refused calls a chain builds the same command up to the descriptions of
subcommands, and the very same command if none of them gives such a description. -/
theorem refused_call_unchanged_iff (builder : Builder α) :
    (∀ call error, (builder.call call).2 = .error error →
      (builder.call call).1 = builder.reworded call ∧
        ((builder.call call).1 = builder ↔ ¬ builder.Rewords call)) ∧
    (∀ calls, (builder.run (builder.accepted calls)).build.2.map Command.undescribed =
      (builder.run calls).build.2.map Command.undescribed) ∧
    (∀ calls, builder.RefusesQuietly calls →
      (builder.run (builder.accepted calls)).build.2 = (builder.run calls).build.2) := by
  refine ⟨fun call error h => ?_, fun calls => ?_, fun calls h => ?_⟩
  · rw [call_error h]
    exact ⟨rfl, builder.reworded_eq_self_iff call⟩
  · exact build_alike (run_accepted_alike calls rfl)
  · rw [run_accepted calls h]

/-- A command whose subcommand `add` was brought about by its parameter `item`. -/
def itemDeclared : Builder Unit :=
  run .unnamed [.setCommand "todo" none, .addArgument "add <item>" none .payload {}]

theorem repeated_item_unchanged :
    (itemDeclared.call (.addArgument "add <item>" none .payload {})).2 =
        .error (.duplicate ⟨some "add", "item"⟩) ∧
      (itemDeclared.call (.addArgument "add <item>" none .payload {})).1 = itemDeclared := by
  refine ⟨rfl, ?_⟩
  refine (((refused_call_unchanged_iff itemDeclared).1 _ _ rfl).2).mpr ?_
  rintro ⟨name, text, hrewording, _⟩
  cases hrewording

/-- Declaring `item` once more is refused, yet it describes `add` anew. -/
theorem repeated_item_reworded :
    (itemDeclared.call (.addArgument "add;+Changed <item>" none .payload {})).2 =
        .error (.duplicate ⟨some "add", "item"⟩) ∧
      (itemDeclared.call (.addArgument "add;+Changed <item>" none .payload {})).1 ≠
        itemDeclared := by
  refine ⟨rfl, fun hsame => ?_⟩
  have hdescriptions := congrArg
    (fun builder => builder.build.2.map fun command => command.arguments.map (·.description)) hsame
  have hwords : (Except.ok ["Changed"] : Except BuildError (List String)) =
      .ok [fillerDescription] := hdescriptions
  exact absurd (Except.ok.inj hwords) (by decide)

end Builder

end SlashCommand
