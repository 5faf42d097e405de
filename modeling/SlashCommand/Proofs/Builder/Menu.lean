import SlashCommand.Proofs.Builder.Reflection
import SlashCommand.Proofs.Builder.Restriction
import SlashCommand.Proofs.Builder.Transcript

/-!
# Context menus

The command of a context menu has no description, whenever its kind was set.  Its parameters
are those of any other command: what the accepted calls declared is built along with it, so it
carries none exactly when no accepted call and no declaration text declared one.
-/

namespace SlashCommand

open Declaration

variable {α : Type}

/-! ## Bare commands -/

/-- A command carries no description and no parameters. -/
structure Command.Bare (command : Command α) : Prop where
  description : command.description = ""
  arguments : command.arguments = []
  choices : command.choices = ∅
  autocomplete : command.autocomplete = ∅
  defaults : command.defaults = ∅
  options : command.schema.options = []

/-- A record for declared parameters only is empty where none is declared. -/
theorem Keyed.eq_empty {β : Type} {dict : Dict ScopeKey β} (h : Keyed dict []) : dict = ∅ := by
  refine Dict.ext_get? fun key => ?_
  cases hvalue : dict.get? key with
  | none => rfl
  | some value =>
      obtain ⟨parameter, hmem, _⟩ := h key value hvalue
      cases hscope : key.subcommand <;> rw [hscope] at hmem <;> cases hmem

theorem Command.WellFormed.bare {command : Command α} (h : command.WellFormed)
    (hdescription : command.description = "") (harguments : command.arguments = []) :
    command.Bare := by
  obtain ⟨_, _, hconsistent⟩ := h
  rw [harguments] at hconsistent
  exact
    { description := hdescription
      arguments := harguments
      choices := Keyed.eq_empty hconsistent.choicesKeyed
      autocomplete := Keyed.eq_empty hconsistent.suggestersKeyed
      defaults := Keyed.eq_empty fun key value hvalue => by
        obtain ⟨parameter, hmem, hname, _⟩ := hconsistent.defaultsKeyed key value hvalue
        exact ⟨parameter, hmem, hname⟩
      options := by rw [Command.schema, harguments, OptionSchema.ofArguments] }

/-! ## Calls that declare something -/

/-- A call that, once accepted, leaves a subcommand or a parameter behind. -/
def Call.populates : Call α → Bool
  | .addSubcommand _ _ => true
  | .addArgument _ _ _ _ => true
  | _ => false

namespace Draft

variable {draft next : Draft α}

theorem arguments_ne_nil_of_hasSubcommand (h : draft.Indexed) {name : String}
    (hsub : draft.hasSubcommand name = true) : draft.arguments ≠ [] := by
  rw [h.hasSubcommand_eq] at hsub
  exact fun hnil => by simp [hnil] at hsub

theorem arguments_describeSubcommand_eq_nil_iff (draft : Draft α) (name : String)
    (description : Option String) :
    (draft.describeSubcommand name description).arguments = [] ↔ draft.arguments = [] := by
  cases description with
  | none => rfl
  | some text => exact List.map_eq_nil_iff

/-- An accepted declaration of a subcommand or a parameter leaves one behind. -/
theorem arguments_ne_nil_of_populates (hwell : draft.WellFormed) {call : Call α}
    (hpopulates : call.populates = true) (haccepted : (Builder.callDraft draft call).2 = .ok ()) :
    (Builder.callDraft draft call).1.arguments ≠ [] := by
  have hindexed := (hwell.callDraft call).indexed
  cases call with
  | addSubcommand name description =>
      suffices hsub : (Builder.callDraft draft (.addSubcommand name description)).1.hasSubcommand
          name = true from arguments_ne_nil_of_hasSubcommand hindexed hsub
      simp only [Builder.callDraft] at haccepted ⊢
      split at haccepted
      next => cases haccepted
      next => exact hasSubcommand_of_declareSubcommand (settle_ok haccepted)
  | addArgument declaration description source options =>
      obtain ⟨parameter, hparse, htook⟩ := took_of_addArgument haccepted
      obtain ⟨hform, hmention⟩ := Parameter.parse_formed hparse
      cases htook with
      | own hnext =>
          obtain ⟨argument, hadds⟩ := adds_of_addParameter hnext
          have harguments := (hadds.admits hform).arguments
          simp only [Builder.callDraft]
          rw [harguments]
          simp [place]
      | @mentioned mention fragment between hmentioned hnext =>
          obtain ⟨_, hsub⟩ := hwell.mentionSubcommand (hmention mention rfl).name
            (fun text htext => Text.not_void_of_unlessVoid htext) hmentioned
          exact arguments_ne_nil_of_hasSubcommand hindexed
            (hasSubcommand_of_addParameter hform hnext hsub)
  | _ => cases hpopulates

/-- Every other call leaves the arguments alone. -/
theorem arguments_of_not_populates (draft : Draft α) {call : Call α}
    (h : call.populates = false) :
    (Builder.callDraft draft call).1.arguments = draft.arguments := by
  cases call with
  | setCommand name description => rfl
  | setDescription description =>
      simp only [Builder.callDraft, describe]
      split <;> rfl
  | setType type => rfl
  | addSubcommand name description => cases h
  | addArgument declaration description source options => cases h
  | addRequirement token =>
      simp only [Builder.callDraft, addRequirement]
      split <;> rfl
  | addChannel id => rfl
  | addGuild id => rfl
  | setAction action =>
      simp only [Builder.callDraft, setAction]
      split <;> rfl

/-- A refused call neither declares the first parameter nor takes the last one away. -/
theorem arguments_eq_nil_iff_of_refused {call : Call α} {fault : BuildError}
    (h : (Builder.callDraft draft call).2 = .error fault) :
    (Builder.callDraft draft call).1.arguments = [] ↔ draft.arguments = [] := by
  rw [callDraft_error h, reworded]
  split
  next => rfl
  next name text _ => exact arguments_describeSubcommand_eq_nil_iff draft name (some text)

end Draft

/-! ## Runs -/

namespace Builder

/-- The parameters and subcommands declared so far. -/
def arguments : Builder α → List Argument
  | .unnamed => []
  | .drafting draft => draft.arguments
  | .built command => command.arguments

/-- Nothing is declared after a step exactly when nothing was before and the step is no accepted
declaration. -/
theorem arguments_step_eq_nil_iff {builder : Builder α} (hwell : builder.WellFormed)
    (next : Step α) :
    (builder.step next).1.arguments = [] ↔ builder.arguments = [] ∧
      ∀ call ∈ Record.calls [(next, (builder.step next).2)], call.populates = false := by
  cases builder with
  | built command =>
      cases next <;> simp [step, Builder.call, Builder.build, Record.calls, Except.map, arguments]
  | unnamed =>
      cases next with
      | build => simp [step, Builder.build, Record.calls, arguments]
      | call next =>
          cases next with
          | setCommand name description =>
              simp only [step, Builder.call, callUnnamed]
              cases hnamed : Draft.named name description with
              | error fault => simp [Record.calls, Except.map, arguments]
              | ok draft =>
                  obtain ⟨_, rfl⟩ := Draft.named_ok hnamed
                  simp [Record.calls, Except.map, arguments, Call.populates]
          | _ => simp [step, Builder.call, callUnnamed, Record.calls, Except.map, arguments]
  | drafting draft =>
      cases next with
      | build => simp [step, Builder.build, Record.calls, Except.map, arguments, Draft.freeze]
      | call next =>
          cases houtcome : (callDraft draft next).2 with
          | error fault =>
              have hsame := Draft.arguments_eq_nil_iff_of_refused houtcome
              simpa [step, Builder.call, Record.calls, houtcome, Except.map, arguments] using hsame
          | ok =>
              simp only [step, Builder.call, Record.calls, houtcome, Except.map, arguments,
                List.filterMap_cons, List.filterMap_nil, List.mem_singleton, forall_eq]
              cases hpopulates : next.populates with
              | true =>
                  have hsome := Draft.arguments_ne_nil_of_populates hwell hpopulates houtcome
                  simp [hsome]
              | false => simp [Draft.arguments_of_not_populates draft hpopulates]

/-- Nothing is declared after a run exactly when nothing was before and no call of the run that
declares something was accepted. -/
theorem arguments_after_eq_nil_iff {builder : Builder α} (hwell : builder.WellFormed)
    (steps : List (Step α)) :
    (builder.after steps).arguments = [] ↔ builder.arguments = [] ∧
      ∀ call ∈ (builder.record steps).calls, call.populates = false := by
  induction steps generalizing builder with
  | nil => simp [after, record, Record.calls]
  | cons next rest ih =>
      rw [after, ih (wellFormed_step hwell next), arguments_step_eq_nil_iff hwell,
        calls_record_cons, and_assoc]
      simp only [List.mem_append, or_imp, forall_and]

end Builder

/-! ## Where declarations start -/

/-- What a declaration starts from: nothing, or a declaration text. -/
inductive Origin where
  | nothing
  | declaration (text : String)

namespace Origin

/-- The builder that a declaration starts with. -/
def start : Origin → Except BuildError (Builder α)
  | .nothing => .ok .unnamed
  | .declaration text => Builder.ofDeclaration text

/-- The origin declares nothing but a command at most. -/
def IsBare : Origin → Prop
  | .nothing => True
  | .declaration text => ∃ root, fragments .command text = .ok [root]

variable {origin : Origin} {builder : Builder α}

theorem reachable_start (h : origin.start = .ok builder) : builder.Reachable := by
  cases origin with
  | nothing =>
      cases h
      exact .unnamed
  | declaration text => exact .ofDeclaration h

theorem arguments_start_eq_nil_iff (h : origin.start = .ok builder) :
    builder.arguments = [] ↔ origin.IsBare := by
  cases origin with
  | nothing =>
      cases h
      exact ⟨fun _ => trivial, fun _ => rfl⟩
  | declaration text =>
      obtain ⟨root, rest, draft, hread, _, rfl, hfilled⟩ := Builder.ofDeclaration_ok h
      -- A draft has a row for every fragment behind the first, and one at least for every argument.
      have hrows : draft.arguments = [] ↔ draft.rows = [] := by
        cases harguments : draft.arguments <;> simp [Draft.rows, harguments, rowsOf]
      have hrest : transcript none rest = [] ↔ rest = [] := by
        cases rest <;> simp [transcript]
      rw [Builder.arguments, hrows, hfilled.rows, hrest]
      simp [IsBare, hread]

end Origin

/-! ## What menus carry -/

namespace Builder

/-- A context menu was built without a description. -/
theorem Reachable.description_of_built {builder : Builder α} (h : builder.Reachable)
    {command : Command α} (hbuilt : builder = .built command)
    (hmenu : command.type.isContextMenu = true) : command.description = "" := by
  induction h with
  | unnamed => cases hbuilt
  | ofDeclaration hread =>
      obtain ⟨_, _, _, _, _, rfl, _⟩ := ofDeclaration_ok hread
      cases hbuilt
  | @call builder _ next ih =>
      rcases (step_built_iff builder (.call next) command).mp hbuilt with hheld | ⟨hnext, _⟩
      · exact ih hheld
      · cases hnext
  | @build builder _ ih =>
      cases builder with
      | unnamed => cases hbuilt
      | built given => exact ih hbuilt
      | drafting draft =>
          cases hbuilt
          exact if_pos hmenu

theorem Reachable.description_of_menu {builder : Builder α} (h : builder.Reachable)
    {command : Command α} (hbuild : builder.build.2 = .ok command)
    (hmenu : command.type.isContextMenu = true) : command.description = "" := by
  refine h.build.description_of_built ?_ hmenu
  cases builder <;> cases hbuild <;> rfl

theorem arguments_of_build {builder : Builder α} {command : Command α}
    (h : builder.build.2 = .ok command) : builder.arguments = command.arguments := by
  cases builder <;> cases h <;> rfl

/-- Whatever a declaration starts from and whatever steps follow, refused ones included and in any
order: a context menu that is built has no description.  It carries no parameters either, and
nothing recorded about any, exactly when its origin declares none and no accepted call declares a
subcommand or a parameter. -/
theorem menu_bare_iff {origin : Origin} {start : Builder α} (hstart : origin.start = .ok start)
    {steps : List (Step α)} {command : Command α}
    (hbuild : (start.after steps).build.2 = .ok command)
    (hmenu : command.type.isContextMenu = true) :
    command.description = "" ∧
      (command.Bare ↔ origin.IsBare ∧
        ∀ call ∈ (start.record steps).calls, call.populates = false) := by
  have hstarted := Origin.reachable_start hstart
  have hreachable := hstarted.after steps
  have hdescription := hreachable.description_of_menu hbuild hmenu
  have hwell : command.WellFormed := Command.Declared.wellFormed ⟨_, hreachable, hbuild⟩
  refine ⟨hdescription, ?_⟩
  rw [← Origin.arguments_start_eq_nil_iff hstart,
    ← arguments_after_eq_nil_iff hstarted.wellFormed, arguments_of_build hbuild]
  exact ⟨fun hbare => hbare.arguments, fun harguments => hwell.bare hdescription harguments⟩

/-- A menu that is described, and to which no parameter can be added: a bareword is none, and
after building it is too late. -/
def profileSteps : List (Step Unit) :=
  [.call (.setDescription "Shows a profile"),
    .call (.addArgument "item" none .payload {}),
    .call (.setType .message),
    .call (.setType .user),
    .build,
    .call (.addArgument "<item>" none .payload {})]

/-- The draft of a profile that a declaration text starts. -/
def profile : Builder Unit :=
  .drafting { name := "profile" }

theorem profileSteps_bare :
    ∃ command : Command Unit, (Origin.declaration "profile").start = .ok profile ∧
      (profile.after profileSteps).build.2 = .ok command ∧
      command.type.isContextMenu = true ∧ command.description = "" ∧ command.Bare := by
  have hstart : (Origin.declaration "profile").start = .ok profile := by rfl
  have hcalls : ∀ call ∈ (profile.record profileSteps).calls, call.populates = false := by
    decide
  obtain ⟨command, hbuild, hmenu⟩ : ∃ command : Command Unit,
      (profile.after profileSteps).build.2 = .ok command ∧
        command.type.isContextMenu = true := ⟨_, rfl, rfl⟩
  obtain ⟨hdescription, hbare⟩ := menu_bare_iff hstart hbuild hmenu
  exact ⟨command, hstart, hbuild, hmenu, hdescription, hbare.mpr ⟨⟨_, rfl⟩, hcalls⟩⟩

/-- The parameters of a command that becomes a context menu afterwards. -/
def inspectSteps : List (Step Unit) :=
  [.call (.setCommand "inspect" (some "Looks at a user")),
    .call (.addArgument "[detail; What+to+look+at; name|roles]" none .payload
      { default := some (.text "name") }),
    .call (.setType .user)]

/-- They stay: the menu loses its description only. -/
theorem inspectSteps_not_bare :
    ∃ command : Command Unit, (Builder.unnamed.after inspectSteps).build.2 = .ok command ∧
      command.type = .user ∧ command.description = "" ∧
      command.arguments.map Argument.name = ["detail"] ∧
      command.choices.get? ⟨none, "detail"⟩ = some ["name", "roles"] ∧
      command.defaults.get? ⟨none, "detail"⟩ = some (.text "name") ∧
      command.schema.options.map OptionSchema.name = ["detail"] ∧ ¬ command.Bare := by
  obtain ⟨command, hbuild, htype, hdescription, hnames, hchoices, hdefaults⟩ :
      ∃ command : Command Unit, (Builder.unnamed.after inspectSteps).build.2 = .ok command ∧
        command.type = .user ∧ command.description = "" ∧
        command.arguments.map Argument.name = ["detail"] ∧
        command.choices.get? ⟨none, "detail"⟩ = some ["name", "roles"] ∧
        command.defaults.get? ⟨none, "detail"⟩ = some (.text "name") :=
    ⟨_, rfl, rfl, rfl, rfl, rfl, rfl⟩
  have hoptions : command.schema.options.map OptionSchema.name = ["detail"] := by
    rw [Command.schema, OptionSchema.ofArguments_eq_map, List.map_map, ← hnames]
    exact List.map_congr_left fun argument _ => OptionSchema.ofArgument_name command none argument
  refine ⟨command, hbuild, htype, hdescription, hnames, hchoices, hdefaults, hoptions, ?_⟩
  intro hbare
  rw [hbare.arguments] at hnames
  cases hnames

end Builder

end SlashCommand
