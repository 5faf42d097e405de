import SlashCommand.Proofs.Builder.WellFormed

/-!
# Reachable builders and declared commands

A builder is reachable when it starts without a name or from a declaration text and
goes on by calls, refused ones included.  Reachable builders are well formed, and so
are the commands they build.
-/

namespace SlashCommand

open Declaration

variable {α : Type}

/-- The builders that calls lead to from the start or from a declaration text. -/
inductive Builder.Reachable : Builder α → Prop where
  | unnamed : Reachable .unnamed
  | ofDeclaration {text : String} {builder : Builder α}
      (h : Builder.ofDeclaration text = .ok builder) : Reachable builder
  | call {builder : Builder α} (h : Reachable builder) (next : Call α) :
      Reachable (builder.call next).1
  | build {builder : Builder α} (h : Reachable builder) : Reachable builder.build.1

/-- The commands that reachable builders build. -/
def Command.Declared (command : Command α) : Prop :=
  ∃ builder : Builder α, builder.Reachable ∧ builder.build.2 = .ok command

/-- What every builder satisfies: a draft or a command in it is well formed. -/
def Builder.WellFormed : Builder α → Prop
  | .unnamed => True
  | .drafting draft => draft.WellFormed
  | .built command => command.WellFormed

namespace Draft

variable {draft : Draft α}

/-! ## One call -/

theorem WellFormed.settle (h : draft.WellFormed) {step : Except BuildError (Draft α)}
    (hstep : ∀ next, step = .ok next → next.WellFormed) : (draft.settle step).1.WellFormed := by
  cases step with
  | ok next => exact hstep next rfl
  | error error => exact h

theorem WellFormed.describe (h : draft.WellFormed) {description : String} {next : Draft α}
    (hnext : draft.describe description = .ok next) : next.WellFormed := by
  unfold Draft.describe at hnext
  split at hnext
  next =>
      cases hnext
      exact h
  next => cases hnext
  next text hvoid _ =>
      cases hnext
      refine { h with description := fun given hgiven => ?_ }
      cases hgiven
      exact Text.not_void_of_unlessVoid hvoid

/-- The declaration of a parameter keeps a draft well formed, whether it is refused
or not. -/
theorem WellFormed.addArgument (h : draft.WellFormed) (declaration : String)
    (description : Option String) (source : ChoiceSource α) (options : ArgumentOptions) :
    (draft.addArgument declaration description source options).1.WellFormed := by
  cases houtcome : (draft.addArgument declaration description source options).2 with
  | error error =>
      rw [addArgument_error houtcome]
      exact h.reworded _
  | ok =>
      obtain ⟨parameter, hparse, htook⟩ := took_of_addArgument houtcome
      obtain ⟨hform, hmention⟩ := Parameter.parse_formed hparse
      cases htook with
      | own hnext => exact h.addParameter hform (fun name hname => by cases hname) hnext
      | @mentioned mention fragment between hmentioned hnext =>
          obtain ⟨hwell, hsub⟩ := h.mentionSubcommand (hmention mention rfl).name
            (fun text htext => Text.not_void_of_unlessVoid htext) hmentioned
          refine hwell.addParameter hform (fun name hname => ?_) hnext
          cases hname
          exact hsub

/-- A call keeps a draft well formed. -/
theorem WellFormed.callDraft (h : draft.WellFormed) (call : Call α) :
    (Builder.callDraft draft call).1.WellFormed := by
  cases call with
  | setCommand name description => exact h
  | setDescription description => exact h.settle fun next hnext => h.describe hnext
  | setType type =>
      exact { name := h.name, description := h.description, indexed := h.indexed
              implicit := h.implicit, consistent := h.consistent }
  | addSubcommand name description =>
      simp only [Builder.callDraft]
      split
      next => exact h
      next hword =>
          exact h.settle fun next hnext => h.declareSubcommand (isWord_of_checkWord hword)
            (fun text htext => Text.not_void_of_unlessVoid htext) hnext
  | addArgument declaration description source options =>
      exact h.addArgument declaration description source options
  | addRequirement token =>
      simp only [Builder.callDraft, Draft.addRequirement]
      split
      next => exact h
      next =>
          exact { name := h.name, description := h.description, indexed := h.indexed
                  implicit := h.implicit, consistent := h.consistent }
  | addChannel id =>
      exact { name := h.name, description := h.description, indexed := h.indexed
              implicit := h.implicit, consistent := h.consistent }
  | addGuild id =>
      exact { name := h.name, description := h.description, indexed := h.indexed
              implicit := h.implicit, consistent := h.consistent }
  | setAction action =>
      refine h.settle fun next hnext => ?_
      unfold Draft.setAction at hnext
      split at hnext
      next => cases hnext
      next =>
          cases hnext
          exact { name := h.name, description := h.description, indexed := h.indexed
                  implicit := h.implicit, consistent := h.consistent }

theorem WellFormed.freeze (h : draft.WellFormed) : draft.freeze.WellFormed where
  name := h.name
  description := fun htype => by
    have hchat : draft.type.isContextMenu = false := by
      have hdraft : draft.type = .chatInput := htype
      rw [hdraft]
      rfl
    simp only [Draft.freeze, hchat, Bool.false_eq_true, if_false]
    exact not_void_getD h.description
  consistent := h.consistent

/-! ## A declaration text -/

/-- The subcommand that the latest bareword opened is declared. -/
def Progress (progress : Draft α × Option String) : Prop :=
  progress.1.WellFormed ∧ ∀ name ∈ progress.2, progress.1.hasSubcommand name = true

theorem Progress.addFragment {progress next : Draft α × Option String} (h : Progress progress)
    {fragment : Fragment} (hformed : fragment.Formed)
    (hnext : Draft.addFragment progress fragment = .ok next) : Progress next := by
  obtain ⟨draft, scope⟩ := progress
  obtain ⟨hwell, hscope⟩ := h
  unfold Draft.addFragment at hnext
  dsimp only at hnext
  split at hnext
  next hcommand =>
      obtain ⟨declared, hdeclared, rfl⟩ := ok_of_map_eq_ok hnext
      have hword := (hformed.bareword hcommand).name
      refine ⟨hwell.declareSubcommand hword (fun text htext => Text.not_void_of_unlessVoid htext)
        hdeclared, fun name hname => ?_⟩
      cases hname
      exact hasSubcommand_of_declareSubcommand hdeclared
  next hcommand =>
      obtain ⟨added, hadded, rfl⟩ := ok_of_map_eq_ok hnext
      have hform := hformed.parameter (by simpa using hcommand)
      refine ⟨hwell.addParameter hform hscope hadded, fun name hname => ?_⟩
      exact hasSubcommand_of_addParameter hform hadded (hscope name hname)

theorem Progress.foldlM {fragments : List Fragment} {progress next : Draft α × Option String}
    (h : Progress progress) (hformed : ∀ fragment ∈ fragments, fragment.Formed)
    (hnext : fragments.foldlM Draft.addFragment progress = .ok next) : Progress next := by
  induction fragments generalizing progress with
  | nil =>
      cases hnext
      exact h
  | cons fragment rest ih =>
      rw [List.foldlM_cons] at hnext
      obtain ⟨between, hbetween, hrest⟩ := ok_of_bind_eq_ok hnext
      exact ih (h.addFragment (hformed fragment List.mem_cons_self) hbetween)
        (fun other hother => hformed other (List.mem_cons_of_mem fragment hother)) hrest

end Draft

namespace Builder

theorem WellFormed.ofDeclaration {text : String} {builder : Builder α}
    (h : Builder.ofDeclaration text = .ok builder) : builder.WellFormed := by
  obtain ⟨root, rest, draft, filled, hfragments, _, hdraft, hfilled, rfl⟩ := ofDeclaration_cases h
  have hformed := formed_of_mem_fragments hfragments
  have hstart : Draft.Progress (draft, none) :=
    ⟨Draft.WellFormed.named hdraft, fun _ hname => by cases hname⟩
  exact (hstart.foldlM
    (fun fragment hmem => hformed fragment (List.mem_cons_of_mem root hmem)) hfilled).1

/-- A call keeps a builder well formed. -/
theorem WellFormed.call {builder : Builder α} (h : builder.WellFormed) (next : Call α) :
    (builder.call next).1.WellFormed := by
  cases builder with
  | unnamed =>
      cases next with
      | setCommand name description =>
          simp only [Builder.call, callUnnamed]
          split
          next hnamed => exact Draft.WellFormed.named hnamed
          next => trivial
      | _ => trivial
  | drafting draft => exact Draft.WellFormed.callDraft h next
  | built command => exact h

theorem WellFormed.build {builder : Builder α} (h : builder.WellFormed) :
    builder.build.1.WellFormed := by
  cases builder with
  | unnamed => trivial
  | drafting draft => exact Draft.WellFormed.freeze h
  | built command => exact h

/-- Every reachable builder is well formed. -/
theorem Reachable.wellFormed {builder : Builder α} (h : builder.Reachable) :
    builder.WellFormed := by
  induction h with
  | unnamed => trivial
  | ofDeclaration h => exact WellFormed.ofDeclaration h
  | call _ next ih => exact ih.call next
  | build _ ih => exact ih.build

end Builder

/-- Every declared command is well formed. -/
theorem Command.Declared.wellFormed {command : Command α} (h : command.Declared) :
    command.WellFormed := by
  obtain ⟨builder, hreachable, hbuild⟩ := h
  have hwell := hreachable.wellFormed
  cases builder with
  | unnamed => cases hbuild
  | drafting draft =>
      cases hbuild
      exact Draft.WellFormed.freeze hwell
  | built command =>
      cases hbuild
      exact hwell

end SlashCommand
