import SlashCommand.Command.Schema
import SlashCommand.Proofs.Resolution.Activation

/-!
# What a schema offers

The schema of a well-formed command offers each of its parameters once, in the scope that
declares it.  The parameters of the command itself stand beside the subcommands, and those of
a subcommand are nested in its option, which says nothing about values.
-/

namespace SlashCommand

variable {α : Type}

/-! ## Kinds of options -/

/-- Options that other options are nested in. -/
def OptionSchema.isSubcommand (option : OptionSchema) : Bool :=
  option.kind == .subcommand

/-- The options of the command itself. -/
def Schema.parameters (schema : Schema) : List OptionSchema :=
  schema.options.filter fun option => !option.isSubcommand

/-- The options that stand for subcommands. -/
def Schema.subcommands (schema : Schema) : List OptionSchema :=
  schema.options.filter OptionSchema.isSubcommand

theorem OptionKind.ofDataType_ne_subcommand (datatype : DataType) :
    OptionKind.ofDataType datatype ≠ .subcommand := by
  cases datatype <;> exact nofun

namespace OptionSchema

/-! ## Options of parameters -/

theorem ofArguments_eq_map (command : Command α) (scope : Option String)
    (arguments : List Argument) :
    ofArguments command scope arguments = arguments.map (ofArgument command scope) := by
  induction arguments with
  | nil => rfl
  | cons argument rest ih => rw [ofArguments, ih, List.map_cons]

theorem ofArgument_eq_ofParts (command : Command α) (scope : Option String)
    (argument : Argument) :
    ofArgument command scope argument =
      ofParts command scope argument
        (argument.subarguments.map (ofArgument command (some argument.name))) := by
  cases argument
  rw [ofArgument, ofArguments_eq_map]

@[simp]
theorem ofArgument_name (command : Command α) (scope : Option String) (argument : Argument) :
    (ofArgument command scope argument).name = argument.name := by
  rw [ofArgument_eq_ofParts]
  rfl

theorem ofArgument_kind (command : Command α) (scope : Option String) (argument : Argument) :
    (ofArgument command scope argument).kind = .ofArgument argument := by
  rw [ofArgument_eq_ofParts]
  rfl

/-- The option of a parameter has no options nested in it. -/
theorem ofArgument_of_not_command (command : Command α) (scope : Option String)
    {argument : Argument} (h : argument.isCommand = false) :
    ofArgument command scope argument = ofParts command scope argument [] := by
  rw [ofArgument_eq_ofParts]
  simp [ofParts, h]

/-- The option of a subcommand has those of its parameters nested in it. -/
theorem ofArgument_options (command : Command α) (scope : Option String) {argument : Argument}
    (h : argument.isCommand = true) :
    (ofArgument command scope argument).options =
      argument.subarguments.map (ofArgument command (some argument.name)) := by
  rw [ofArgument_eq_ofParts]
  simp [ofParts, h]

theorem isSubcommand_of_not_command (command : Command α) (scope : Option String)
    {argument : Argument} (h : argument.isCommand = false) :
    (ofArgument command scope argument).isSubcommand = false := by
  rw [isSubcommand, ofArgument_kind, OptionKind.ofArgument]
  cases hkind : argument.kind with
  | command role => simp [Argument.isCommand, hkind] at h
  | flag => rfl
  | positional => simpa using OptionKind.ofDataType_ne_subcommand argument.datatype

theorem isSubcommand_of_subcommandForm (command : Command α) (scope : Option String)
    {argument : Argument} (h : argument.SubcommandForm) :
    (ofArgument command scope argument).isSubcommand = true := by
  rw [isSubcommand, ofArgument_kind, OptionKind.ofArgument, h.kind]
  rfl

end OptionSchema

/-- A test of the options of a schema that agrees with one of the arguments keeps the options
of the arguments that this one keeps. -/
theorem Command.filter_schema_options {command : Command α} {shown : OptionSchema → Bool}
    {kept : Argument → Bool} (hagree : ∀ argument ∈ command.arguments,
      shown (.ofArgument command none argument) = kept argument) :
    command.schema.options.filter shown =
      (command.arguments.filter kept).map (OptionSchema.ofArgument command none) := by
  rw [Command.schema, OptionSchema.ofArguments_eq_map, List.filter_map]
  exact congrArg (List.map _) (List.filter_congr hagree)

namespace Command.WellFormed

variable {command : Command α}

/-- The kind of an option tells parameters and subcommands apart. -/
theorem isSubcommand_ofArgument (h : command.WellFormed) {argument : Argument}
    (hmem : argument ∈ command.arguments) :
    (OptionSchema.ofArgument command none argument).isSubcommand = argument.isCommand := by
  rcases h.consistent.members argument hmem with hkept | hsubcommand
  · rw [hkept.isCommand]
    exact OptionSchema.isSubcommand_of_not_command command none hkept.isCommand
  · rw [hsubcommand.isCommand]
    exact OptionSchema.isSubcommand_of_subcommandForm command none hsubcommand

/-! ## Schemas -/

/-- The parameters in a scope have no options nested in theirs. -/
theorem map_ofArgument (h : command.WellFormed) (scope : Option String) :
    (parametersIn command.arguments scope).map (OptionSchema.ofArgument command scope) =
      (parametersIn command.arguments scope).map fun parameter =>
        .ofParts command scope parameter [] := by
  refine List.map_congr_left fun parameter hmem => ?_
  exact OptionSchema.ofArgument_of_not_command command scope
    (h.consistent.kept_of_mem hmem).isCommand

/-- The parameters of the command itself are offered in declaration order. -/
theorem schema_parameters (h : command.WellFormed) :
    command.schema.parameters =
      (parametersIn command.arguments none).map fun parameter =>
        .ofParts command none parameter [] := by
  rw [← h.map_ofArgument]
  refine filter_schema_options fun argument hmem => ?_
  rw [h.isSubcommand_ofArgument hmem]

/-- The subcommands are offered in declaration order. -/
theorem schema_subcommands (h : command.WellFormed) :
    command.schema.subcommands =
      command.subcommands.map (OptionSchema.ofArgument command none) :=
  filter_schema_options fun _ hmem => h.isSubcommand_ofArgument hmem

/-- An option that stands for a subcommand stands for a declared one. -/
theorem subcommand_of_mem_schema (h : command.WellFormed) {option : OptionSchema}
    (hmem : option ∈ command.schema.subcommands) :
    ∃ subcommand ∈ command.arguments, subcommand.isCommand = true ∧
      OptionSchema.ofArgument command none subcommand = option := by
  rw [h.schema_subcommands] at hmem
  obtain ⟨subcommand, hsubcommand, rfl⟩ := List.mem_map.mp hmem
  obtain ⟨hin, hcommand⟩ := List.mem_filter.mp hsubcommand
  exact ⟨subcommand, hin, hcommand, rfl⟩

/-- The parameters of a subcommand are offered in its option, in declaration order. -/
theorem nested_options (h : command.WellFormed) {subcommand : Argument}
    (hmem : subcommand ∈ command.arguments) (hcommand : subcommand.isCommand = true) :
    (OptionSchema.ofArgument command none subcommand).options =
      (parametersIn command.arguments (some subcommand.name)).map fun parameter =>
        .ofParts command (some subcommand.name) parameter [] := by
  rw [← h.map_ofArgument, OptionSchema.ofArgument_options command none hcommand, parametersIn,
    filter_isSubcommand h.consistent.distinct hmem (isSubcommand_iff.mpr ⟨hcommand, rfl⟩),
    List.flatMap_singleton]

/-- Nothing is recorded under the key of a subcommand. -/
theorem unrecorded_subcommand {β : Type} (h : command.WellFormed) {recorded : Dict ScopeKey β}
    (hkeyed : Keyed recorded command.arguments) {subcommand : Argument}
    (hmem : subcommand ∈ command.arguments) (hcommand : subcommand.isCommand = true) :
    recorded.get? ⟨none, subcommand.name⟩ = none := by
  refine Option.eq_none_iff_forall_ne_some.mpr fun value hvalue => ?_
  obtain ⟨parameter, hparameter, hname⟩ := hkeyed _ value hvalue
  obtain ⟨hin, hnot⟩ := mem_parametersIn_none.mp hparameter
  have hsame : parameter = subcommand :=
    List.inj_on_of_nodup_map h.consistent.distinct hin hmem hname
  rw [hsame, hcommand] at hnot
  cases hnot

/-- The option of a subcommand asks for no value: it is not required, and has no choices, no
suggestions and no bounds. -/
theorem subcommand_option_bare (h : command.WellFormed) {subcommand : Argument}
    (hmem : subcommand ∈ command.arguments) (hcommand : subcommand.isCommand = true) :
    let option := OptionSchema.ofArgument command none subcommand
    option.required = false ∧ option.choices = [] ∧ option.autocomplete = false ∧
      option.min = none ∧ option.max = none := by
  intro option
  have hform := h.consistent.subcommandForm_of_mem hmem hcommand
  have hchoices := h.unrecorded_subcommand h.consistent.choicesKeyed hmem hcommand
  have hsuggester := h.unrecorded_subcommand h.consistent.suggestersKeyed hmem hcommand
  have hoption : option = OptionSchema.ofParts command none subcommand _ :=
    OptionSchema.ofArgument_eq_ofParts command none subcommand
  rw [hoption]
  simp [OptionSchema.ofParts, hcommand, hchoices, Dict.contains, hsuggester, hform.bounds.1,
    hform.bounds.2]

end Command.WellFormed

end SlashCommand
