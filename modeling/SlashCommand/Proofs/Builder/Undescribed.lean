import Mathlib.Data.List.InsertIdx
import SlashCommand.Command.Builder

/-!
# The descriptions of subcommands decide nothing

No call asks what a subcommand is described by.  Erasing these descriptions before
a call changes neither its outcome nor, up to such descriptions, the builder it
leaves behind.
-/

namespace SlashCommand

/-! ## Erasing descriptions -/

namespace Argument

/-- A parameter, or a subcommand without its description. -/
def undescribed (argument : Argument) : Argument :=
  if argument.isCommand then { argument with description := "" } else argument

@[simp]
theorem undescribed_name (argument : Argument) : argument.undescribed.name = argument.name := by
  unfold undescribed
  split <;> rfl

@[simp]
theorem undescribed_subarguments (argument : Argument) :
    argument.undescribed.subarguments = argument.subarguments := by
  unfold undescribed
  split <;> rfl

@[simp]
theorem undescribed_isCommand (argument : Argument) :
    argument.undescribed.isCommand = argument.isCommand := by
  unfold undescribed
  split <;> rfl

@[simp]
theorem isSubcommand_undescribed (name : String) (argument : Argument) :
    Draft.isSubcommand name argument.undescribed = Draft.isSubcommand name argument := by
  simp [Draft.isSubcommand]

/-- Erasing a description twice is erasing it once, whatever it was changed to in
between. -/
theorem undescribed_describe (name text : String) (argument : Argument) :
    (if Draft.isSubcommand name argument then { argument with description := text }
      else argument).undescribed = argument.undescribed := by
  obtain ⟨kind, own⟩ := argument
  cases kind with
  | command role =>
      by_cases hname : own = name <;>
        simp [Draft.isSubcommand, Argument.isCommand, undescribed, hname]
  | positional => rfl
  | flag => rfl

/-- A subcommand takes a parameter with or without its description. -/
theorem undescribed_own (name : String) (parameter argument : Argument) :
    (if Draft.isSubcommand name argument.undescribed then
        { argument.undescribed with
          subarguments := argument.undescribed.subarguments ++ [parameter] }
      else argument.undescribed).undescribed =
    (if Draft.isSubcommand name argument then
        { argument with subarguments := argument.subarguments ++ [parameter] }
      else argument).undescribed := by
  obtain ⟨kind, own⟩ := argument
  cases kind with
  | command role =>
      by_cases hname : own = name <;>
        simp [Draft.isSubcommand, Argument.isCommand, undescribed, hname]
  | positional => rfl
  | flag => rfl

end Argument

namespace Draft

variable {α : Type}

/-- A draft without the descriptions of its subcommands. -/
def undescribed (draft : Draft α) : Draft α :=
  { draft with arguments := draft.arguments.map Argument.undescribed }

@[simp]
theorem undescribed_implicit (draft : Draft α) : draft.undescribed.implicit = draft.implicit :=
  rfl

@[simp]
theorem hasSubcommand_undescribed (draft : Draft α) (name : String) :
    draft.undescribed.hasSubcommand name = draft.hasSubcommand name :=
  rfl

@[simp]
theorem hasArgument_undescribed (draft : Draft α) (name : String) :
    draft.undescribed.hasArgument name = draft.hasArgument name := by
  simp [hasArgument, undescribed, Function.comp_def]

/-- A new description of a subcommand is erased with the others. -/
theorem undescribed_describeSubcommand (draft : Draft α) (name : String)
    (description : Option String) :
    (draft.describeSubcommand name description).undescribed = draft.undescribed := by
  cases description with
  | none => rfl
  | some text =>
      simp only [undescribed, describeSubcommand, changeSubcommand, List.map_map]
      congr 1
      exact List.map_congr_left fun argument _ => Argument.undescribed_describe name text argument

theorem undescribed_idem (draft : Draft α) : draft.undescribed.undescribed = draft.undescribed := by
  simp only [undescribed, List.map_map]
  congr 1
  refine List.map_congr_left fun argument _ => ?_
  obtain ⟨kind, own⟩ := argument
  cases kind <;> rfl

/-! ## The steps of a declaration -/

theorem undescribed_appendSubcommand (draft : Draft α) (name : String)
    (description : Option String) :
    (draft.undescribed.appendSubcommand name description).undescribed =
      (draft.appendSubcommand name description).undescribed := by
  simp only [appendSubcommand, undescribed, List.map_append, List.length_map]
  congr 2
  exact congrArg Draft.arguments draft.undescribed_idem

theorem declareSubcommand_undescribed (draft : Draft α) (name : String)
    (description : Option String) :
    (draft.undescribed.declareSubcommand name description).map undescribed =
      (draft.declareSubcommand name description).map undescribed := by
  unfold declareSubcommand
  rw [hasSubcommand_undescribed, hasArgument_undescribed, undescribed_implicit]
  split
  · split
    · simp only [Except.map, undescribed_describeSubcommand]
      exact congrArg _ (undescribed_idem { draft with implicit := draft.implicit.erase name })
    · rfl
  · split
    · rfl
    · exact congrArg Except.ok (undescribed_appendSubcommand draft name description)

theorem mentionSubcommand_undescribed (draft : Draft α) (name : String)
    (description : Option String) :
    (draft.undescribed.mentionSubcommand name description).map undescribed =
      (draft.mentionSubcommand name description).map undescribed := by
  unfold mentionSubcommand
  rw [hasSubcommand_undescribed, hasArgument_undescribed, undescribed_implicit]
  split
  · split
    · simp only [Except.map, undescribed_describeSubcommand, undescribed_idem]
    · exact congrArg Except.ok draft.undescribed_idem
  · split
    · rfl
    · exact congrArg Except.ok <|
        undescribed_appendSubcommand { draft with implicit := name :: draft.implicit } name
          description

theorem place_undescribed (draft : Draft α) (argument : Argument) (scope : Option String) :
    (draft.undescribed.place argument scope).undescribed =
      (draft.place argument scope).undescribed := by
  cases scope with
  | none =>
      simp only [place, undescribed, List.map_append]
      congr 2
      exact congrArg Draft.arguments draft.undescribed_idem
  | some name =>
      simp only [place, changeSubcommand, undescribed, List.map_map]
      congr 1
      exact List.map_congr_left fun own _ => Argument.undescribed_own name argument own

theorem inScope_undescribed (draft : Draft α) (scope : Option String) (name : String) :
    ((draft.undescribed.inScope scope).any fun argument => argument.name == name) =
      (draft.inScope scope).any fun argument => argument.name == name := by
  cases scope with
  | none => simp [inScope, undescribed, Function.comp_def]
  | some own =>
      simp [inScope, undescribed, List.filter_map, List.flatMap_map, Function.comp_def]

theorem withSource_undescribed (draft : Draft α) (key : ScopeKey) (argument : Argument)
    (payload : Option (List String)) (source : ChoiceSource α) :
    draft.undescribed.withSource key argument payload source =
      (draft.withSource key argument payload source).map undescribed := by
  unfold withSource
  split
  · cases source <;> cases payload <;> rfl
  · cases source <;> cases payload <;> rfl

theorem withDefault_undescribed (draft : Draft α) (key : ScopeKey) (argument : Argument)
    (value : Option Value) :
    draft.undescribed.withDefault key argument value =
      (draft.withDefault key argument value).undescribed := by
  cases value with
  | none => rfl
  | some value =>
      simp only [withDefault]
      split <;> rfl

/-- A parameter is admitted or refused for the same reason whatever the subcommands
are described by. -/
theorem addParameter_undescribed (draft : Draft α) (scope : Option String)
    (fragment : Declaration.Fragment) (description : Option String) (source : ChoiceSource α)
    (options : ArgumentOptions) :
    (draft.undescribed.addParameter scope fragment description source options).map undescribed =
      (draft.addParameter scope fragment description source options).map undescribed := by
  simp only [addParameter, inScope_undescribed, withSource_undescribed]
  split
  · rfl
  · cases bounded ⟨scope, fragment.argument.name⟩ options _ with
    | error error => rfl
    | ok argument =>
        simp only [bind, Except.bind, pure, Except.pure]
        cases draft.withSource ⟨scope, fragment.argument.name⟩ argument fragment.choices source with
        | error error => rfl
        | ok sourced =>
            simp only [Except.map, withDefault_undescribed, place_undescribed]

theorem undescribed_discardSubcommand (draft : Draft α) (name : String) :
    (draft.undescribed.discardSubcommand name).undescribed =
      (draft.discardSubcommand name).undescribed := by
  have hindex : draft.undescribed.subcommandIndex? name = draft.subcommandIndex? name := rfl
  unfold discardSubcommand
  rw [hindex]
  cases draft.subcommandIndex? name with
  | none => exact draft.undescribed_idem
  | some index =>
      have hidem := congrArg (fun draft => draft.arguments.eraseIdx index) draft.undescribed_idem
      simpa [undescribed, List.eraseIdx_map] using hidem

/-! ## Calls -/

/-- Two steps with one result up to descriptions are both refused for the same
reason, or both lead on. -/
theorem step_cases {first second : Except BuildError (Draft α)}
    (h : first.map undescribed = second.map undescribed) :
    (∃ error, first = .error error ∧ second = .error error) ∨
      ∃ next next', first = .ok next ∧ second = .ok next' ∧
        next.undescribed = next'.undescribed := by
  cases first with
  | error error =>
      cases second with
      | error error' =>
          cases h
          exact Or.inl ⟨error, rfl, rfl⟩
      | ok next' => cases h
  | ok next =>
      cases second with
      | error error' => cases h
      | ok next' => exact Or.inr ⟨next, next', rfl, rfl, Except.ok.inj h⟩

/-- A parameter is admitted or refused alike by drafts that differ in the
descriptions of subcommands only. -/
theorem addParameter_alike {first second : Draft α} (h : first.undescribed = second.undescribed)
    (scope : Option String) (fragment : Declaration.Fragment) (description : Option String)
    (source : ChoiceSource α) (options : ArgumentOptions) :
    (first.addParameter scope fragment description source options).map undescribed =
      (second.addParameter scope fragment description source options).map undescribed := by
  rw [← addParameter_undescribed first, ← addParameter_undescribed second, h]

theorem discardSubcommand_alike {first second : Draft α}
    (h : first.undescribed = second.undescribed) (name : String) :
    (first.discardSubcommand name).undescribed = (second.discardSubcommand name).undescribed := by
  rw [← undescribed_discardSubcommand first, ← undescribed_discardSubcommand second, h]

/-- Two calls end alike: their outcome is one and the same, and so is what they leave
behind, up to the descriptions of subcommands. -/
def EndAlike (first second : Draft α × Except BuildError Unit) : Prop :=
  first.2 = second.2 ∧ first.1.undescribed = second.1.undescribed

theorem settle_endAlike {first second : Draft α} (hdraft : first.undescribed = second.undescribed)
    {step step' : Except BuildError (Draft α)}
    (hstep : step.map undescribed = step'.map undescribed) :
    EndAlike (first.settle step) (second.settle step') := by
  rcases step_cases hstep with ⟨error, rfl, rfl⟩ | ⟨next, next', rfl, rfl, hnext⟩
  · exact ⟨rfl, hdraft⟩
  · exact ⟨rfl, hnext⟩

theorem addArgument_undescribed (draft : Draft α) (declaration : String)
    (description : Option String) (source : ChoiceSource α) (options : ArgumentOptions) :
    EndAlike (draft.undescribed.addArgument declaration description source options)
      (draft.addArgument declaration description source options) := by
  unfold addArgument
  cases Declaration.Parameter.parse declaration with
  | error fault => exact ⟨rfl, draft.undescribed_idem⟩
  | ok parameter =>
      obtain ⟨mention?, fragment⟩ := parameter
      cases mention? with
      | none => exact settle_endAlike draft.undescribed_idem (addParameter_undescribed _ _ _ _ _ _)
      | some mention =>
          dsimp only
          rw [hasSubcommand_undescribed]
          rcases step_cases (mentionSubcommand_undescribed draft mention.argument.name
              (Text.unlessVoid (some mention.argument.description))) with
            ⟨error, hfirst, hsecond⟩ | ⟨mentioned, mentioned', hfirst, hsecond, hmentioned⟩
          · rw [hfirst, hsecond]
            exact ⟨rfl, draft.undescribed_idem⟩
          · rw [hfirst, hsecond]
            dsimp only
            rcases step_cases (addParameter_alike hmentioned (some mention.argument.name) fragment
                description source options) with
              ⟨error, hfirst', hsecond'⟩ | ⟨next, next', hfirst', hsecond', hnext⟩
            · rw [hfirst', hsecond']
              refine ⟨rfl, ?_⟩
              dsimp only
              split
              · exact hmentioned
              · exact discardSubcommand_alike hmentioned mention.argument.name
            · rw [hfirst', hsecond']
              exact ⟨rfl, hnext⟩

/-- No outcome of a call depends on the descriptions of subcommands. -/
theorem callDraft_undescribed (draft : Draft α) (call : Call α) :
    EndAlike (Builder.callDraft draft.undescribed call) (Builder.callDraft draft call) := by
  have hidem := draft.undescribed_idem
  cases call with
  | setCommand name description => exact ⟨rfl, hidem⟩
  | setDescription description =>
      refine settle_endAlike hidem ?_
      unfold describe
      cases Text.unlessVoid (some description) with
      | none => exact congrArg Except.ok hidem
      | some text =>
          cases hdescription : draft.description with
          | none =>
              simp only [undescribed, hdescription]
              exact congrArg Except.ok (undescribed_idem { draft with description := some text })
          | some own => simp only [undescribed, hdescription, Except.map]
  | setType type => exact ⟨rfl, undescribed_idem { draft with type := type }⟩
  | addSubcommand name description =>
      simp only [Builder.callDraft]
      split
      · exact ⟨rfl, hidem⟩
      · exact settle_endAlike hidem (declareSubcommand_undescribed draft name _)
  | addArgument declaration description source options =>
      exact addArgument_undescribed draft declaration description source options
  | addRequirement token =>
      refine ⟨rfl, ?_⟩
      simp only [Builder.callDraft, addRequirement]
      cases Requirement.ofToken? token with
      | none => exact hidem
      | some requirement =>
          exact undescribed_idem { draft with requires := draft.requires.add requirement }
  | addChannel id => exact ⟨rfl, undescribed_idem { draft with channels := draft.channels.add id }⟩
  | addGuild id => exact ⟨rfl, undescribed_idem { draft with guilds := draft.guilds.add id }⟩
  | setAction action =>
      refine settle_endAlike hidem ?_
      unfold setAction
      cases haction : draft.action with
      | none =>
          simp only [undescribed, haction]
          exact congrArg Except.ok (undescribed_idem { draft with action := some action })
      | some own => simp only [undescribed, haction, Except.map]

end Draft

/-! ## Builders -/

/-- A command without the descriptions of its subcommands. -/
def Command.undescribed {α : Type} (command : Command α) : Command α :=
  { command with arguments := command.arguments.map Argument.undescribed }

namespace Builder

variable {α : Type}

/-- A builder without the descriptions of the subcommands declared so far. -/
def undescribed : Builder α → Builder α
  | .unnamed => .unnamed
  | .drafting draft => .drafting draft.undescribed
  | .built command => .built command.undescribed

/-- Builders that differ in the descriptions of subcommands only take every call
alike. -/
theorem call_alike {first second : Builder α} (h : first.undescribed = second.undescribed)
    (call : Call α) :
    (first.call call).2 = (second.call call).2 ∧
      (first.call call).1.undescribed = (second.call call).1.undescribed := by
  cases first with
  | unnamed =>
      cases second with
      | unnamed => exact ⟨rfl, rfl⟩
      | drafting draft => cases h
      | built command => cases h
  | drafting draft =>
      cases second with
      | unnamed => cases h
      | drafting draft' =>
          have hdraft : draft.undescribed = draft'.undescribed := by
            injection h
          obtain ⟨houtcome, hnext⟩ := draft.callDraft_undescribed call
          obtain ⟨houtcome', hnext'⟩ := draft'.callDraft_undescribed call
          rw [hdraft] at houtcome hnext
          exact ⟨houtcome.symm.trans houtcome',
            congrArg Builder.drafting (hnext.symm.trans hnext')⟩
      | built command => cases h
  | built command =>
      cases second with
      | unnamed => cases h
      | drafting draft => cases h
      | built command' => exact ⟨rfl, h⟩

/-- They freeze to commands that differ in the descriptions of subcommands only. -/
theorem build_alike {first second : Builder α} (h : first.undescribed = second.undescribed) :
    first.build.2.map Command.undescribed = second.build.2.map Command.undescribed := by
  cases first with
  | unnamed =>
      cases second with
      | unnamed => rfl
      | drafting draft => cases h
      | built command => cases h
  | drafting draft =>
      cases second with
      | unnamed => cases h
      | drafting draft' =>
          have hdraft : draft.undescribed = draft'.undescribed := by
            injection h
          exact congrArg (fun draft => Except.ok draft.freeze) hdraft
      | built command => cases h
  | built command =>
      cases second with
      | unnamed => cases h
      | drafting draft => cases h
      | built command' =>
          have hcommand : command.undescribed = command'.undescribed := by
            injection h
          exact congrArg Except.ok hcommand

end Builder

end SlashCommand
