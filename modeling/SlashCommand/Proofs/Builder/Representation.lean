import Mathlib.Data.List.Nodup
import SlashCommand.Proofs.Builder.Reachable

/-!
# How builders represent a declaration

Names are distinct in each scope, subcommands are found at their places, and what is
recorded under a key belongs to the parameter declared there.  Every reachable builder
keeps this before it is built, and so does the command it builds.
-/

namespace SlashCommand

variable {α : Type}

/-! ## The representation -/

/-- Every argument of a declaration: those of the command itself and those of its
subcommands. -/
def allArguments (arguments : List Argument) : List Argument :=
  arguments.flatMap fun argument => argument :: argument.subarguments

/-- A parameter is declared under a key. -/
def DeclaredAt (arguments : List Argument) (key : ScopeKey) : Prop :=
  ∃ parameter ∈ parametersIn arguments key.subcommand,
    parameter.isCommand = false ∧ parameter.name = key.name

/-- Arguments and what is recorded about them, as builders represent them. -/
structure Represented (arguments : List Argument) (choices : Dict ScopeKey (List String))
    (autocomplete : Dict ScopeKey (Suggester α)) (defaults : Dict ScopeKey Value) : Prop where
  distinct : (arguments.map Argument.name).Nodup
  ownDistinct : ∀ argument ∈ arguments, (argument.subarguments.map Argument.name).Nodup
  /-- Subcommands stand at the top only. -/
  ownParameters : ∀ argument ∈ arguments, ∀ own ∈ argument.subarguments,
    own.isCommand = false ∧ own.subarguments = []
  choicesDeclared : ∀ key, choices.contains key = true → DeclaredAt arguments key
  suggestersDeclared : ∀ key, autocomplete.contains key = true → DeclaredAt arguments key
  exclusive : ∀ key, ¬ (choices.contains key = true ∧ autocomplete.contains key = true)
  /-- A flag admits its token only. -/
  flagChoices : ∀ scope, ∀ flag ∈ parametersIn arguments scope, flag.isFlag = true →
    ∃ token, flag.token = some token ∧ choices.get? ⟨scope, flag.name⟩ = some [token]
  defaultsOptional : ∀ key, defaults.contains key = true →
    ∃ parameter ∈ parametersIn arguments key.subcommand, parameter.name = key.name ∧
      parameter.kind = .positional ∧ parameter.optional = true
  bounded : ∀ argument ∈ allArguments arguments,
    argument.min.isSome = true ∨ argument.max.isSome = true →
      argument.kind = .positional ∧
        (argument.datatype = .number ∨ argument.datatype = .integer)
  ordered : ∀ argument ∈ allArguments arguments, ∀ low ∈ argument.min, ∀ high ∈ argument.max,
    ¬ high < low
  flags : ∀ argument ∈ allArguments arguments, argument.isFlag = true →
    argument.optional = true ∧ argument.variadic = false ∧ argument.token.isSome = true
  names : ∀ argument ∈ allArguments arguments, Text.isWord argument.name = true

/-- A draft as builders represent it. -/
structure Draft.Represented (draft : Draft α) : Prop where
  name : Text.isWord draft.name = true
  parts : SlashCommand.Represented draft.arguments draft.choices draft.autocomplete draft.defaults
  /-- Exactly the subcommands are found, each at its place. -/
  index : ∀ name place, draft.subcommandIndex? name = some place ↔
    ∃ subcommand, draft.arguments[place]? = some subcommand ∧
      subcommand.isCommand = true ∧ subcommand.name = name
  implicit : ∀ name ∈ draft.implicit, ∃ place, draft.subcommandIndex? name = some place

/-- A command as builders represent it. -/
structure Command.Represented (command : Command α) : Prop where
  name : Text.isWord command.name = true
  parts : SlashCommand.Represented command.arguments command.choices command.autocomplete
    command.defaults

/-! ## Single arguments -/

section

variable {arguments : List Argument} {choices : Dict ScopeKey (List String)}
  {autocomplete : Dict ScopeKey (Suggester α)} {defaults : Dict ScopeKey Value}

/-- Every argument of a declaration has the form of a parameter or of a subcommand. -/
theorem Consistent.member (h : Consistent arguments choices autocomplete defaults)
    {argument : Argument} (hmem : argument ∈ allArguments arguments) :
    argument.Kept ∨ argument.SubcommandForm := by
  obtain ⟨outer, houter, hin⟩ := List.mem_flatMap.mp hmem
  rcases List.mem_cons.mp hin with rfl | hown
  · exact h.members argument houter
  · rcases h.members outer houter with hkept | hsubcommand
    · rw [hkept.form.leaf] at hown
      cases hown
    · exact Or.inl (hsubcommand.own argument hown)

theorem Argument.SubcommandForm.isFlag {argument : Argument} (h : argument.SubcommandForm) :
    argument.isFlag = false := by
  simp [Argument.isFlag, h.kind]

theorem Argument.ParameterForm.bounded {argument : Argument} (h : argument.ParameterForm)
    (hbounds : argument.min.isSome = true ∨ argument.max.isSome = true) :
    argument.kind = .positional ∧
      (argument.datatype = .number ∨ argument.datatype = .integer) := by
  cases h with
  | flag form => simp [form.bounds] at hbounds
  | positional form =>
      refine ⟨form.kind, ?_⟩
      cases hdatatype : argument.datatype with
      | number => exact Or.inl rfl
      | integer => exact Or.inr rfl
      | _ =>
          have hnone := form.bounds (by rw [hdatatype]; rfl)
          simp [hnone] at hbounds

theorem Argument.ParameterForm.ordered {argument : Argument} (h : argument.ParameterForm) :
    ∀ low ∈ argument.min, ∀ high ∈ argument.max, ¬ high < low := by
  cases h with
  | positional form => exact form.ordered
  | flag form =>
      intro low hlow
      rw [form.bounds.1] at hlow
      cases hlow

theorem Argument.ParameterForm.flag_shape {argument : Argument} (h : argument.ParameterForm)
    (hflag : argument.isFlag = true) :
    argument.optional = true ∧ argument.variadic = false ∧ argument.token.isSome = true := by
  cases h with
  | positional form =>
      rw [form.isFlag] at hflag
      cases hflag
  | flag form =>
      obtain ⟨token, htoken, _⟩ := form.token
      exact ⟨form.optional, form.variadic, by rw [htoken]; rfl⟩

/-! ## Well-formed declarations -/

theorem Consistent.declaredAt (h : Consistent arguments choices autocomplete defaults)
    {key : ScopeKey}
    (hkey : ∃ parameter ∈ parametersIn arguments key.subcommand, parameter.name = key.name) :
    DeclaredAt arguments key := by
  obtain ⟨parameter, hmem, hname⟩ := hkey
  exact ⟨parameter, hmem, (h.kept_of_mem hmem).isCommand, hname⟩

/-- What is consistent is represented as builders do. -/
theorem Consistent.representation (h : Consistent arguments choices autocomplete defaults) :
    Represented arguments choices autocomplete defaults where
  distinct := h.distinct
  ownDistinct := by
    intro argument hmem
    rcases h.members argument hmem with hkept | hsubcommand
    · rw [hkept.form.leaf]
      exact .nil
    · exact hsubcommand.distinct
  ownParameters := by
    intro argument hmem own hown
    rcases h.members argument hmem with hkept | hsubcommand
    · rw [hkept.form.leaf] at hown
      cases hown
    · have hkept := hsubcommand.own own hown
      exact ⟨hkept.isCommand, hkept.form.leaf⟩
  choicesDeclared := by
    intro key hkey
    obtain ⟨listed, hlisted⟩ := Option.isSome_iff_exists.mp hkey
    exact h.declaredAt (h.choicesKeyed key listed hlisted)
  suggestersDeclared := by
    intro key hkey
    obtain ⟨suggester, hsuggester⟩ := Option.isSome_iff_exists.mp hkey
    exact h.declaredAt (h.suggestersKeyed key suggester hsuggester)
  exclusive := by
    rintro key ⟨hchoices, hsuggesters⟩
    rcases h.exclusive key with hnone | hnone
    · simp [Dict.contains, hnone] at hchoices
    · simp [Dict.contains, hnone] at hsuggesters
  flagChoices := by
    intro scope flag hmem hflag
    obtain ⟨_, _, hsome⟩ := (h.kept_of_mem hmem).form.flag_shape hflag
    obtain ⟨token, htoken⟩ := Option.isSome_iff_exists.mp hsome
    refine ⟨token, htoken, ?_⟩
    rw [h.flagChoices scope flag hmem hflag, htoken]
    rfl
  defaultsOptional := by
    intro key hkey
    obtain ⟨value, hvalue⟩ := Option.isSome_iff_exists.mp hkey
    exact h.optional_of_default hvalue
  bounded := by
    intro argument hmem hbounds
    rcases h.member hmem with hkept | hsubcommand
    · exact hkept.form.bounded hbounds
    · simp [hsubcommand.bounds] at hbounds
  ordered := by
    intro argument hmem
    rcases h.member hmem with hkept | hsubcommand
    · exact hkept.form.ordered
    · simp [hsubcommand.bounds]
  flags := by
    intro argument hmem hflag
    rcases h.member hmem with hkept | hsubcommand
    · exact hkept.form.flag_shape hflag
    · rw [hsubcommand.isFlag] at hflag
      cases hflag
  names := by
    intro argument hmem
    rcases h.member hmem with hkept | hsubcommand
    · exact hkept.form.isWord
    · exact hsubcommand.name

end

theorem Draft.WellFormed.representation {draft : Draft α} (h : draft.WellFormed) :
    draft.Represented where
  name := h.name
  parts := h.consistent.representation
  index := by
    intro name place
    rw [h.indexed name place, StandsAt]
    simp only [isSubcommand_iff]
  implicit := fun name hmem => Option.isSome_iff_exists.mp (h.implicit name hmem)

theorem Command.WellFormed.representation {command : Command α} (h : command.WellFormed) :
    command.Represented where
  name := h.name
  parts := h.consistent.representation

/-! ## Reachable builders -/

/-- Every reachable builder represents its declaration so before it is built, and the
command it builds is represented so too. -/
theorem Builder.Reachable.represented {builder : Builder α} (h : builder.Reachable) :
    (∀ draft, builder = .drafting draft → draft.Represented) ∧
      ∀ command, builder.build.2 = .ok command → command.Represented := by
  constructor
  · rintro draft rfl
    exact Draft.WellFormed.representation h.wellFormed
  · intro command hbuild
    exact Command.WellFormed.representation (Command.Declared.wellFormed ⟨builder, h, hbuild⟩)

/-- A draft with a bounded number between two subcommands.  A third one went again, as its
flag was refused. -/
def errands : Builder Unit :=
  .run .unnamed
    [.setCommand "todo" (some "Keeps a list"),
      .addArgument "add <item; What to do; milk|bread>" none .payload {},
      .addArgument "drop (-v verbose)" none (.literal ["yes"]) {},
      .addArgument "[times: integer]" none .payload { default := some (.integer 1), min := some 1 },
      .addArgument "list (-v verbose)" none .payload {}]

theorem errands_reachable : errands.Reachable :=
  .call (.call (.call (.call (.call .unnamed _) _) _) _) _

/-- The subcommands are found around the number, and the built command is represented
as the draft was. -/
theorem errands_represented :
    errands.Reachable ∧
      (∃ draft, errands = .drafting draft ∧ draft.Represented ∧
        draft.implicit = ["list", "add"] ∧ draft.subcommandIndex? "add" = some 0 ∧
          draft.subcommandIndex? "list" = some 2) ∧
        ∃ command, errands.build.2 = .ok command ∧ command.Represented :=
  ⟨errands_reachable,
    ⟨_, rfl, (Builder.Reachable.represented errands_reachable).1 _ rfl, rfl, rfl, rfl⟩,
    ⟨_, rfl, (Builder.Reachable.represented errands_reachable).2 _ rfl⟩⟩

end SlashCommand
