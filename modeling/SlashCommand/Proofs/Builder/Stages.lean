import SlashCommand.Proofs.Builder.Head
import SlashCommand.Proofs.Builder.Start
import SlashCommand.Proofs.Text.Trim

/-!
# The stages of a builder

A builder is named by one call and is built once.  What it answers depends on its stage:
before it is named every other step is premature, a named builder can be built at any time,
and a built one refuses every call and gives the same command again.  The stage can be read
off the record of the steps taken so far.  A description and an action are accepted once at
most.
-/

namespace SlashCommand

variable {α : Type}

/-! ## Records of steps -/

/-- A step of a declaration: a call, or building. -/
inductive Step (α : Type) where
  | call (call : Call α)
  | build

/-- What a step is answered with: an error, the command for building, or nothing. -/
abbrev Answer (α : Type) :=
  Except BuildError (Option (Command α))

/-- Steps with their answers, in order. -/
abbrev Record (α : Type) :=
  List (Step α × Answer α)

namespace Builder

/-- Takes a step. -/
def step (builder : Builder α) : Step α → Builder α × Answer α
  | .call call => ((builder.call call).1, (builder.call call).2.map fun _ => none)
  | .build => (builder.build.1, builder.build.2.map some)

/-- The builder that steps lead to, refused ones included. -/
def after (builder : Builder α) : List (Step α) → Builder α
  | [] => builder
  | next :: rest => (builder.step next).1.after rest

/-- The record of steps taken one after the other. -/
def record (builder : Builder α) : List (Step α) → Record α
  | [] => []
  | next :: rest => (next, (builder.step next).2) :: (builder.step next).1.record rest

end Builder

/-- The step that an error calls premature when the command has no name.  Naming the command
is never premature. -/
def Step.operation? : Step α → Option Operation
  | .call (.setCommand _ _) => none
  | .call (.setDescription _) => some .setDescription
  | .call (.setType _) => some .setType
  | .call (.addSubcommand _ _) => some .addSubcommand
  | .call (.addArgument _ _ _ _) => some .addArgument
  | .call (.addRequirement _) => some .addRequirement
  | .call (.addChannel _) => some .addChannel
  | .call (.addGuild _) => some .addGuild
  | .call (.setAction _) => some .setAction
  | .build => some .build

/-- A step brings a description that is not void. -/
def Step.describes : Step α → Bool
  | .call (.setCommand _ (some description)) => !Text.isVoid description
  | .call (.setDescription description) => !Text.isVoid description
  | _ => false

/-- A step brings an action. -/
def Step.acts : Step α → Bool
  | .call (.setAction _) => true
  | _ => false

namespace Record

/-- A command was named. -/
def Named (record : Record α) : Prop :=
  ∃ name description, (.call (.setCommand name description), .ok none) ∈ record

/-- A command was built. -/
def Gave (record : Record α) (command : Command α) : Prop :=
  (.build, .ok (some command)) ∈ record

/-- How many steps of a kind were accepted. -/
def countAccepted (kind : Step α → Bool) (record : Record α) : Nat :=
  record.countP fun entry => entry.2.isOk && kind entry.1

end Record

namespace Builder

/-! ## Named and built builders -/

theorem step_unnamed_iff (builder : Builder α) (next : Step α) :
    (builder.step next).1 = .unnamed ↔ builder = .unnamed ∧
      ¬ ∃ name description, next = .call (.setCommand name description) ∧
        (builder.step next).2 = .ok none := by
  cases builder with
  | drafting draft => cases next <;> simp [step, call, build]
  | built command => cases next <;> simp [step, call, build]
  | unnamed =>
      cases next with
      | build => simp [step, build]
      | call next =>
          cases next with
          | setCommand name description =>
              simp only [step, call, callUnnamed]
              cases Draft.named name description with
              | ok draft => simp [Except.map]
              | error fault => simp [Except.map]
          | _ => simp [step, call, callUnnamed]

/-- A builder is still without a name exactly when no step has named the command. -/
theorem after_unnamed_iff (builder : Builder α) (steps : List (Step α)) :
    builder.after steps = .unnamed ↔ builder = .unnamed ∧ ¬ (builder.record steps).Named := by
  induction steps generalizing builder with
  | nil => simp [after, record, Record.Named]
  | cons next rest ih =>
      rw [after, ih, step_unnamed_iff, and_assoc, ← not_or]
      refine and_congr_right fun _ => not_congr ?_
      simp only [record, Record.Named, List.mem_cons, Prod.mk.injEq]
      constructor
      · rintro (⟨name, description, hnext, hanswer⟩ | ⟨name, description, hmem⟩)
        · exact ⟨name, description, Or.inl ⟨hnext.symm, hanswer.symm⟩⟩
        · exact ⟨name, description, Or.inr hmem⟩
      · rintro ⟨name, description, ⟨hnext, hanswer⟩ | hmem⟩
        · exact Or.inl ⟨name, description, hnext.symm, hanswer.symm⟩
        · exact Or.inr ⟨name, description, hmem⟩

theorem step_built_iff (builder : Builder α) (next : Step α) (command : Command α) :
    (builder.step next).1 = .built command ↔
      builder = .built command ∨ next = .build ∧ (builder.step next).2 = .ok (some command) := by
  cases builder with
  | built given => cases next <;> simp [step, call, build, Except.map]
  | drafting draft => cases next <;> simp [step, call, build, Except.map]
  | unnamed =>
      cases next with
      | build => simp [step, build, Except.map]
      | call next =>
          cases next with
          | setCommand name description =>
              simp only [step, call, callUnnamed]
              cases Draft.named name description <;> simp
          | _ => simp [step, call, callUnnamed]

/-- A builder holds the command that a step before has built. -/
theorem after_built_iff (builder : Builder α) (steps : List (Step α)) (command : Command α) :
    builder.after steps = .built command ↔
      builder = .built command ∨ (builder.record steps).Gave command := by
  induction steps generalizing builder with
  | nil => simp [after, record, Record.Gave]
  | cons next rest ih =>
      rw [after, ih, step_built_iff, or_assoc]
      simp [record, Record.Gave, eq_comm]

/-! ## What is accepted once -/

/-- A kind of step that is accepted only where its part is missing, and leaves the part there
for good, is accepted once at most. -/
theorem countAccepted_add_le {kind : Step α → Bool} {Has : Builder α → Bool → Prop}
    (hstep : ∀ builder next has, Has builder has → ∃ later, Has (builder.step next).1 later ∧
      ((builder.step next).2.isOk && kind next).toNat + has.toNat ≤ later.toNat)
    {builder : Builder α} {has : Bool} (h : Has builder has) (steps : List (Step α)) :
    (builder.record steps).countAccepted kind + has.toNat ≤ 1 := by
  induction steps generalizing builder has with
  | nil =>
      have hbool := Bool.toNat_le has
      simpa [record, Record.countAccepted] using hbool
  | cons next rest ih =>
      obtain ⟨later, hlater, hcount⟩ := hstep builder next has h
      have hrest := ih hlater
      simp only [record, Record.countAccepted, List.countP_cons] at hrest ⊢
      cases haccepted : (builder.step next).2.isOk && kind next <;>
        simp only [haccepted, Bool.toNat_true, Bool.toNat_false, if_true, if_false,
          Bool.false_eq_true] at hcount ⊢ <;> omega

/-- A part that is accepted only where it is missing, and stays, is accepted once at most. -/
theorem countAccepted_le {kind : Step α → Bool} {has : Builder α → Bool}
    (hkeeps : ∀ builder next, has builder = true → has (builder.step next).1 = true)
    (hgives : ∀ builder next, kind next = true → (builder.step next).2.isOk = true →
      has builder = false ∧ has (builder.step next).1 = true)
    (builder : Builder α) (steps : List (Step α)) :
    (builder.record steps).countAccepted kind + (has builder).toNat ≤ 1 := by
  refine @countAccepted_add_le α kind (fun builder part => has builder = part) ?_ _ _ rfl steps
  rintro builder next _ rfl
  refine ⟨_, rfl, ?_⟩
  cases haccepted : (builder.step next).2.isOk && kind next with
  | true =>
      rw [Bool.and_eq_true] at haccepted
      obtain ⟨hmissing, hthere⟩ := hgives builder next haccepted.2 haccepted.1
      rw [hmissing, hthere]
      rfl
  | false =>
      cases hhas : has builder with
      | true => rw [hkeeps builder next hhas]; rfl
      | false => exact Nat.zero_le _

/-- A builder has a part, or cannot take it any more. -/
def holds {β : Type} (part : Draft α → Option β) : Builder α → Bool
  | .unnamed => false
  | .drafting draft => (part draft).isSome
  | .built _ => true

/-- A part that calls leave in a draft stays in a builder. -/
theorem holds_step {β : Type} {part : Draft α → Option β}
    (hkeeps : ∀ draft next, (part draft).isSome = true →
      part (callDraft draft next).1 = part draft)
    {builder : Builder α} (h : builder.holds part = true) (next : Step α) :
    (builder.step next).1.holds part = true := by
  cases builder with
  | unnamed => cases h
  | built command => cases next <;> rfl
  | drafting draft =>
      cases next with
      | build => rfl
      | call next =>
          simp only [holds, step, call] at h ⊢
          rw [hkeeps draft next h, h]

/-- No call takes the description of a draft away. -/
theorem callDraft_description (draft : Draft α) (next : Call α)
    (h : draft.description.isSome = true) :
    (callDraft draft next).1.description = draft.description := by
  cases next with
  | setDescription description =>
      obtain ⟨held, hheld⟩ := Option.isSome_iff_exists.mp h
      simp only [callDraft, Draft.describe, hheld]
      cases Text.unlessVoid (some description) <;> exact hheld
  | addSubcommand name description =>
      exact Draft.description_of_head (draft.head_addSubcommand name description)
  | addArgument declaration description source options =>
      exact Draft.description_of_head
        (draft.head_addArgument declaration description source options)
  | addRequirement token =>
      simp only [callDraft, Draft.addRequirement]
      split <;> rfl
  | setAction action =>
      simp only [callDraft, Draft.setAction]
      split <;> rfl
  | _ => rfl

/-- No call takes the action of a draft away. -/
theorem callDraft_action (draft : Draft α) (next : Call α) (h : draft.action.isSome = true) :
    (callDraft draft next).1.action = draft.action := by
  cases next with
  | setDescription description =>
      simp only [callDraft, Draft.describe]
      split <;> rfl
  | addSubcommand name description =>
      exact Draft.action_of_head (draft.head_addSubcommand name description)
  | addArgument declaration description source options =>
      exact Draft.action_of_head (draft.head_addArgument declaration description source options)
  | addRequirement token =>
      simp only [callDraft, Draft.addRequirement]
      split <;> rfl
  | setAction action =>
      obtain ⟨held, hheld⟩ := Option.isSome_iff_exists.mp h
      simp [callDraft, Draft.setAction, hheld, Draft.settle]
  | _ => rfl

/-- A command that is named with a description has it. -/
theorem description_of_named {name text : String} {draft : Draft α}
    (hvoid : Text.isVoid text = false) (h : Draft.named name (some text) = .ok draft) :
    draft.description = some text := by
  obtain ⟨_, rfl⟩ := Draft.named_ok h
  exact Text.unlessVoid_of_not_void hvoid

/-- A draft takes a description only where it has none. -/
theorem describe_ok {draft next : Draft α} {text : String} (hvoid : Text.isVoid text = false)
    (h : draft.describe text = .ok next) :
    draft.description = none ∧ next.description = some text := by
  rw [Draft.describe, Text.unlessVoid_of_not_void hvoid] at h
  cases hheld : draft.description with
  | none =>
      rw [hheld] at h
      cases h
      exact ⟨rfl, rfl⟩
  | some held =>
      rw [hheld] at h
      cases h

/-- A draft takes an action only where it has none. -/
theorem setAction_ok {draft next : Draft α} {action : Action α}
    (h : draft.setAction action = .ok next) :
    draft.action = none ∧ next.action = some action := by
  rw [Draft.setAction] at h
  cases hheld : draft.action with
  | none =>
      rw [hheld] at h
      cases h
      exact ⟨rfl, rfl⟩
  | some held =>
      rw [hheld] at h
      cases h

/-- A description is accepted only where there is none yet. -/
theorem holds_description_of_accepted {builder : Builder α} {next : Step α}
    (hkind : next.describes = true) (haccepted : (builder.step next).2.isOk = true) :
    builder.holds Draft.description = false ∧
      (builder.step next).1.holds Draft.description = true := by
  cases next with
  | build => cases hkind
  | call next =>
      cases builder with
      | built command => cases haccepted
      | unnamed =>
          cases next with
          | setCommand name description =>
              cases description with
              | none => cases hkind
              | some text =>
                  have hvoid : Text.isVoid text = false := by
                    simpa [Step.describes] using hkind
                  simp only [step, call, callUnnamed] at haccepted ⊢
                  cases hnamed : (Draft.named name (some text) : Except BuildError (Draft α)) with
                  | error fault =>
                      rw [hnamed] at haccepted
                      cases haccepted
                  | ok draft => simp [holds, description_of_named hvoid hnamed]
          | _ => cases haccepted
      | drafting draft =>
          cases next with
          | setDescription text =>
              have hvoid : Text.isVoid text = false := by simpa [Step.describes] using hkind
              simp only [step, call, callDraft] at haccepted ⊢
              cases hnext : draft.describe text with
              | error fault =>
                  rw [hnext] at haccepted
                  cases haccepted
              | ok next =>
                  obtain ⟨hmissing, hthere⟩ := describe_ok hvoid hnext
                  simp [holds, Draft.settle, hmissing, hthere]
          | setCommand name description => cases haccepted
          | _ => cases hkind

/-- An action is accepted only where there is none yet. -/
theorem holds_action_of_accepted {builder : Builder α} {next : Step α}
    (hkind : next.acts = true) (haccepted : (builder.step next).2.isOk = true) :
    builder.holds Draft.action = false ∧ (builder.step next).1.holds Draft.action = true := by
  cases next with
  | build => cases hkind
  | call next =>
      cases next with
      | setAction action =>
          cases builder with
          | built command => cases haccepted
          | unnamed => cases haccepted
          | drafting draft =>
              simp only [step, call, callDraft] at haccepted ⊢
              cases hnext : draft.setAction action with
              | error fault =>
                  rw [hnext] at haccepted
                  cases haccepted
              | ok next =>
                  obtain ⟨hmissing, hthere⟩ := setAction_ok hnext
                  simp [holds, Draft.settle, hmissing, hthere]
      | _ => cases hkind

/-! ## Errors of a draft -/

end Builder

/-- An error that is about the stage of a builder. -/
def BuildError.isUntimely : BuildError → Bool
  | .premature _ => true
  | .finalized => true
  | _ => false

namespace Draft

theorem timely_declareSubcommand {draft : Draft α} {name : String} {description : Option String}
    {fault : BuildError} (h : draft.declareSubcommand name description = .error fault) :
    fault.isUntimely = false := by
  unfold declareSubcommand at h
  split at h
  all_goals
    split at h <;> cases h
    all_goals rfl

theorem timely_mentionSubcommand {draft : Draft α} {name : String} {description : Option String}
    {fault : BuildError} (h : draft.mentionSubcommand name description = .error fault) :
    fault.isUntimely = false := by
  unfold mentionSubcommand at h
  split at h
  all_goals
    split at h <;> cases h
    all_goals rfl

theorem timely_bounded {key : ScopeKey} {options : ArgumentOptions} {argument : Argument}
    {fault : BuildError} (h : bounded key options argument = .error fault) :
    fault.isUntimely = false := by
  unfold bounded at h
  split at h
  · cases h
  · split at h
    · cases h
      rfl
    · dsimp only at h
      split at h
      · split at h <;> cases h
        rfl
      · cases h

theorem timely_withSource {draft : Draft α} {key : ScopeKey} {argument : Argument}
    {payload : Option (List String)} {source : ChoiceSource α} {fault : BuildError}
    (h : draft.withSource key argument payload source = .error fault) :
    fault.isUntimely = false := by
  unfold withSource at h
  split at h
  all_goals
    split at h <;> cases h
    all_goals rfl

theorem timely_addParameter {draft : Draft α} {scope : Option String}
    {fragment : Declaration.Fragment} {description : Option String} {source : ChoiceSource α}
    {options : ArgumentOptions} {fault : BuildError}
    (h : draft.addParameter scope fragment description source options = .error fault) :
    fault.isUntimely = false := by
  unfold addParameter at h
  dsimp only at h
  split at h
  · cases h
    rfl
  · rcases error_of_bind_eq_error h with hbounds | ⟨argument, _, h⟩
    · exact timely_bounded hbounds
    · rcases error_of_bind_eq_error h with hsource | ⟨sourced, _, h⟩
      · exact timely_withSource hsource
      · cases h

theorem timely_addArgument {draft : Draft α} {declaration : String}
    {description : Option String} {source : ChoiceSource α} {options : ArgumentOptions}
    {fault : BuildError}
    (h : (draft.addArgument declaration description source options).2 = .error fault) :
    fault.isUntimely = false := by
  unfold addArgument at h
  split at h
  next =>
      cases h
      rfl
  next fragment _ =>
      cases hadded : draft.addParameter none fragment description source options with
      | ok added =>
          rw [hadded] at h
          cases h
      | error refusal =>
          rw [hadded] at h
          cases h
          exact timely_addParameter hadded
  next mention fragment _ =>
      dsimp only at h
      split at h
      next refusal hmentioned =>
          cases h
          exact timely_mentionSubcommand hmentioned
      next mentioned _ =>
          split at h
          next => cases h
          next refusal hadded =>
              cases h
              exact timely_addParameter hadded

end Draft

namespace Builder

/-- A draft refuses a call for what it brings, not for its time. -/
theorem timely_callDraft {draft : Draft α} {next : Call α} {fault : BuildError}
    (h : (callDraft draft next).2 = .error fault) : fault.isUntimely = false := by
  cases next with
  | setCommand name description =>
      cases h
      rfl
  | setDescription description =>
      simp only [callDraft, Draft.describe] at h
      split at h <;> cases h
      rfl
  | addSubcommand name description =>
      simp only [callDraft] at h
      split at h
      next =>
          cases h
          rfl
      next =>
          cases hdeclared : draft.declareSubcommand name (Text.unlessVoid description) with
          | ok declared =>
              rw [hdeclared] at h
              cases h
          | error refusal =>
              rw [hdeclared] at h
              cases h
              exact Draft.timely_declareSubcommand hdeclared
  | addArgument declaration description source options => exact Draft.timely_addArgument h
  | setAction action =>
      simp only [callDraft, Draft.setAction] at h
      split at h <;> cases h
      rfl
  | _ => cases h

/-- A named builder that is not built refuses no step for its time. -/
theorem timely_step {draft : Draft α} {next : Step α} {fault : BuildError}
    (h : ((Builder.drafting draft).step next).2 = .error fault) : fault.isUntimely = false := by
  cases next with
  | build => cases h
  | call next => exact timely_callDraft (error_of_map_eq_error h)

/-! ## Answers by stage -/

/-- A builder without a name calls every step but naming premature. -/
theorem step_unnamed_premature {next : Step α} {operation : Operation}
    (h : operation ∈ next.operation?) :
    ((Builder.unnamed : Builder α).step next).2 = .error (.premature operation) := by
  cases next with
  | build =>
      cases h
      rfl
  | call next => cases next <;> cases h <;> rfl

/-- What the builder that steps lead to answers next can be told from the record of the
steps.  Before a command is named, every step but naming is premature.  From then on a second
name is refused, no error is about the stage, and building gives a command.  From the first
command given on, every call is refused as one too late, the same command is given again and
nothing changes.  One description and one action are accepted at most. -/
theorem answers_by_stage (steps : List (Step α)) :
    let record := (Builder.unnamed : Builder α).record steps
    let builder := (Builder.unnamed : Builder α).after steps
    (¬ record.Named → ∀ next : Step α, ∀ operation ∈ next.operation?,
        (builder.step next).2 = .error (.premature operation)) ∧
      (record.Named → (∀ command, ¬ record.Gave command) →
        (∀ name description, (builder.step (.call (.setCommand name description))).2 =
          .error (.alreadySet .commandName)) ∧
        (∀ next fault, (builder.step next).2 = .error fault →
          fault ≠ .finalized ∧ ∀ operation, fault ≠ .premature operation) ∧
        ∃ command, (builder.step .build).2 = .ok (some command)) ∧
      (∀ command, record.Gave command →
        (∀ call, builder.step (.call call) = (builder, .error .finalized)) ∧
        builder.step .build = (builder, .ok (some command))) ∧
      record.countAccepted Step.describes ≤ 1 ∧ record.countAccepted Step.acts ≤ 1 := by
  intro record builder
  have hunnamed : builder = .unnamed ↔ ¬ record.Named := by
    simpa using after_unnamed_iff (Builder.unnamed : Builder α) steps
  have hbuilt : ∀ command, builder = .built command ↔ record.Gave command := fun command => by
    simpa using after_built_iff (Builder.unnamed : Builder α) steps command
  refine ⟨fun hstage next operation hoperation => ?_, fun hnamed hnotBuilt => ?_,
    fun command hgave => ?_, ?_, ?_⟩
  · rw [hunnamed.mpr hstage]
    exact step_unnamed_premature hoperation
  · cases hbuilder : builder with
    | unnamed => exact absurd hnamed (hunnamed.mp hbuilder)
    | built command => exact absurd ((hbuilt command).mp hbuilder) (hnotBuilt command)
    | drafting draft =>
        refine ⟨fun name description => rfl, fun next fault hfault => ?_, draft.freeze, rfl⟩
        have htimely := timely_step hfault
        refine ⟨?_, fun operation => ?_⟩
        · rintro rfl
          cases htimely
        · rintro rfl
          cases htimely
  · rw [(hbuilt command).mpr hgave]
    exact ⟨fun call => rfl, rfl⟩
  · exact countAccepted_le (fun _ next h => holds_step callDraft_description h next)
      (fun _ _ => holds_description_of_accepted) .unnamed steps
  · exact countAccepted_le (fun _ next h => holds_step callDraft_action h next)
      (fun _ _ => holds_action_of_accepted) .unnamed steps

end Builder

end SlashCommand
