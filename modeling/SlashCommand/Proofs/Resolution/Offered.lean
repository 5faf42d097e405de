import SlashCommand.Proofs.Command.Offer
import SlashCommand.Proofs.Resolution.Agreement

/-!
# What a schema offers resolves

Whatever subcommand is chosen from a schema, and whatever values are given for some of the
options it then offers, the invocation resolves, and every offered option gets exactly one
entry.
-/

namespace SlashCommand

variable {α : Type}

/-- The options that a schema offers beside subcommands, and in the chosen one if there is one,
with their scopes. -/
def Schema.offered (schema : Schema) (choice : Option OptionSchema) :
    List (Option String × OptionSchema) :=
  schema.parameters.map (none, ·) ++
    choice.elim [] fun subcommand => subcommand.options.map (some subcommand.name, ·)

/-- The value of an option: the given one, or the default recorded in its scope. -/
def Command.valueFor (command : Command α) (options : Dict String Value) (scope : Option String)
    (name : String) : Option Value :=
  (options.get? name).or (command.defaults.get? ⟨scope, name⟩)

/-- The place, the name and the value of an entry. -/
def Entry.summary (entry : Entry) : Option String × String × Option Value :=
  (entry.subcommand, entry.name, entry.value)

/-- The arguments and the flags of a resolution are its entries. -/
theorem Resolution.perm_ofEntries (entries : List Entry) (active : Option String) :
    ((ofEntries entries active).args ++ (ofEntries entries active).flags).Perm entries :=
  List.perm_append_comm.trans (List.filter_append_perm Entry.isFlag entries)

namespace Command.WellFormed

variable {command : Command α}

/-- Only an optional parameter has a default, so what stands in for a missing value is what is
recorded. -/
theorem fallback?_eq (h : command.WellFormed) {scope : Option String} {parameter : Argument}
    (hmem : parameter ∈ parametersIn command.arguments scope) :
    Entry.fallback? command scope parameter = command.defaults.get? ⟨scope, parameter.name⟩ := by
  unfold Entry.fallback?
  split
  next => rfl
  next hrequired =>
      refine (Option.eq_none_iff_forall_ne_some.mpr fun value hvalue => hrequired ?_).symm
      obtain ⟨other, hother, hname, hoptional, hflag⟩ :=
        h.consistent.defaultsKeyed _ value hvalue
      obtain rfl := h.consistent.eq_of_name_eq hother hmem hname
      rw [hoptional, hflag]
      rfl

/-- A parameter that is looked up by its name alone has the value for it. -/
theorem summary_entryOf (h : command.WellFormed) {options : Dict String Value}
    (hplain : ∀ name value, options.get? name = some value → ':' ∉ name.toList)
    {scope : Option String} {parameter : Argument}
    (hmem : parameter ∈ parametersIn command.arguments scope) :
    (Resolution.entryOf command options scope parameter).summary =
      (scope, parameter.name, command.valueFor options scope parameter.name) := by
  have hoption : Resolution.option? options scope parameter = options.get? parameter.name := by
    unfold Resolution.option?
    split
    next value _ hvalue => exact hvalue.symm
    next hnone => exact hnone.symm
    next name hnone =>
        rw [hnone]
        refine Option.eq_none_iff_forall_ne_some.mpr fun value hvalue => ?_
        exact hplain _ value hvalue (by simp [ScopeKey.display])
  rw [Resolution.entryOf, Entry.ofArgument, Entry.summary, hoption, h.fallback?_eq hmem,
    valueFor]

/-! ## Both sides by parameters -/

/-- The offers of a schema are those of the parameters in scope. -/
theorem map_offered {β : Type} (h : command.WellFormed) {choice : Option OptionSchema}
    (hchoice : ∀ option ∈ choice, option ∈ command.schema.subcommands)
    (shown : Option String → String → β) :
    (command.schema.offered choice).map (fun offer => shown offer.1 offer.2.name) =
      (parametersIn command.arguments none).map (fun parameter => shown none parameter.name) ++
        (command.inner (choice.map OptionSchema.name)).map fun parameter =>
          shown (choice.map OptionSchema.name) parameter.name := by
  rw [Schema.offered, List.map_append, h.schema_parameters, List.map_map, List.map_map]
  congr 1
  cases choice with
  | none => rfl
  | some option =>
      obtain ⟨subcommand, hin, hcommand, rfl⟩ := h.subcommand_of_mem_schema (hchoice option rfl)
      simp only [Option.elim_some, Option.map_some, inner, OptionSchema.ofArgument_name,
        h.nested_options hin hcommand, List.map_map]
      rfl

end Command.WellFormed

/-- A subcommand that the schema offers can be chosen. -/
theorem Command.WellFormed.resolveOptions_offered {command : Command α} (h : command.WellFormed)
    {choice : Option OptionSchema}
    (hchoice : ∀ option ∈ choice, option ∈ command.schema.subcommands) {invocation : Invocation}
    (hscope : invocation.subcommand = choice.map OptionSchema.name) :
    command.resolveOptions invocation =
      .ok (.ofOptions command invocation.options (choice.map OptionSchema.name)) := by
  rw [resolveOptions, hscope]
  cases choice with
  | none => rfl
  | some option =>
      obtain ⟨subcommand, hin, hcommand, rfl⟩ := h.subcommand_of_mem_schema (hchoice option rfl)
      obtain ⟨found, hfound⟩ :=
        Option.isSome_iff_exists.mp (isSome_subcommand? hin hcommand)
      simp only [Option.map_some, OptionSchema.ofArgument_name, hfound]

namespace Command.WellFormed

variable {command : Command α} {choice : Option OptionSchema}

/-- The name of an offered option has no colon where those of the parameters have none. -/
theorem uncolonned_of_offered (h : command.WellFormed)
    (huncolonned : ∀ scope, ∀ parameter ∈ parametersIn command.arguments scope,
      ':' ∉ parameter.name.toList)
    (hchoice : ∀ option ∈ choice, option ∈ command.schema.subcommands)
    {offer : Option String × OptionSchema} (hoffer : offer ∈ command.schema.offered choice) :
    ':' ∉ offer.2.name.toList := by
  have hnamed := List.mem_map_of_mem (f := fun offer => offer.2.name) hoffer
  rw [h.map_offered hchoice fun _ name => name, List.mem_append, List.mem_map,
    List.mem_map] at hnamed
  rcases hnamed with ⟨parameter, hmem, hname⟩ | ⟨parameter, hmem, hname⟩
  · rw [← hname]
    exact huncolonned none parameter hmem
  · rw [← hname]
    exact huncolonned _ parameter (command.inner_subset _ hmem)

/-- Values under plain names resolve to one entry for each offered option. -/
theorem summaries_ofOptions (h : command.WellFormed)
    (hchoice : ∀ option ∈ choice, option ∈ command.schema.subcommands)
    {options : Dict String Value}
    (hplain : ∀ name value, options.get? name = some value → ':' ∉ name.toList) :
    let resolution := Resolution.ofOptions command options (choice.map OptionSchema.name)
    ((resolution.args ++ resolution.flags).map Entry.summary).Perm
      ((command.schema.offered choice).map fun (scope, option) =>
        (scope, option.name, command.valueFor options scope option.name)) := by
  intro resolution
  rw [h.map_offered hchoice fun scope name => (scope, name, command.valueFor options scope name)]
  have hentries := Resolution.perm_entriesOf command options (choice.map OptionSchema.name)
  refine (((Resolution.perm_ofEntries _ _).trans hentries).map Entry.summary).trans
    (List.Perm.of_eq ?_)
  rw [List.map_append, List.map_map, List.map_map]
  congr 1
  · exact List.map_congr_left fun parameter hmem => h.summary_entryOf hplain hmem
  · exact List.map_congr_left fun parameter hmem =>
      h.summary_entryOf hplain (command.inner_subset _ hmem)

end Command.WellFormed

/-- Whatever the schema of a typed command offers is understood: with a subcommand that the
schema has or none, and values for some of the options that it then offers, the invocation
resolves, and the arguments and flags hold exactly one entry for each offered option.  Its value
is the given one, or else the default, which only an optional positional parameter has. -/
theorem Command.resolve_offered {command : Command α} (hdeclared : command.Declared)
    (htype : command.type = .chatInput)
    (huncolonned : ∀ scope, ∀ parameter ∈ parametersIn command.arguments scope,
      ':' ∉ parameter.name.toList)
    {choice : Option OptionSchema}
    (hchoice : ∀ option ∈ choice, option ∈ command.schema.subcommands)
    {invocation : Invocation} (hraw : invocation.raw = none)
    (hscope : invocation.subcommand = choice.map OptionSchema.name)
    (hkeys : ∀ name value, invocation.options.get? name = some value →
      ∃ offer ∈ command.schema.offered choice, offer.2.name = name) :
    (∃ resolution, command.resolve invocation = .ok resolution ∧
      ((resolution.args ++ resolution.flags).map Entry.summary).Perm
        ((command.schema.offered choice).map fun (scope, option) =>
          (scope, option.name, command.valueFor invocation.options scope option.name))) ∧
      ∀ key value, command.defaults.get? key = some value →
        ∃ parameter ∈ parametersIn command.arguments key.subcommand,
          parameter.name = key.name ∧ parameter.kind = .positional ∧
            parameter.optional = true := by
  have hwell := hdeclared.wellFormed
  have hplain : ∀ name value, invocation.options.get? name = some value →
      ':' ∉ name.toList := fun name value hvalue => by
    obtain ⟨offer, hoffer, rfl⟩ := hkeys name value hvalue
    exact hwell.uncolonned_of_offered huncolonned hchoice hoffer
  refine ⟨⟨.ofOptions command invocation.options (choice.map OptionSchema.name), ?_,
    hwell.summaries_ofOptions hchoice hplain⟩,
    fun key value => hwell.consistent.optional_of_default⟩
  rw [hwell.resolve_options htype hraw, hwell.resolveOptions_offered hchoice hscope]

/-! ## An order -/

/-- A subcommand that takes a dish and a flag. -/
def addDish : Argument :=
  { Argument.subcommand "add" fillerDescription with
    subarguments := [requiredText "dish", urgentFlag] }

/-- An order, which is large unless a size is given. -/
def order : Command Unit :=
  { errand with
    name := "order"
    arguments := [{ requiredText "size" with optional := true }, addDish]
    defaults := Dict.empty.insert ⟨none, "size"⟩ (.text "large") }

theorem order_declared : order.Declared := by
  refine ⟨Builder.run .unnamed
    [.setCommand "order" none,
      .addArgument "[size]" none .payload { default := some (.text "large") },
      .addArgument "add <dish>" none .payload {}, .addArgument "add (-u urgent)" none .payload {}],
    ?_, rfl⟩
  exact .call (.call (.call (.call .unnamed _) _) _) _

theorem order_uncolonned (scope : Option String) :
    ∀ parameter ∈ parametersIn order.arguments scope, ':' ∉ parameter.name.toList := by
  intro parameter hmem
  cases scope with
  | none =>
      have hnames : ∀ argument ∈ order.arguments, ':' ∉ argument.name.toList := by decide
      exact hnames parameter (mem_parametersIn_none.mp hmem).1
  | some name =>
      have hnames : ∀ argument ∈ order.arguments, ∀ own ∈ argument.subarguments,
          ':' ∉ own.name.toList := by decide
      obtain ⟨subcommand, hin, _, hown⟩ := mem_parametersIn_some.mp hmem
      exact hnames subcommand hin parameter hown

/-- With a dish the order resolves to the default size, the dish and a flag that is absent. -/
theorem order_resolved :
    ∃ resolution, order.resolve
        { Invocation.plain "order" "42" with
          subcommand := some "add"
          options := Dict.empty.insert "dish" (.text "soup") } = .ok resolution ∧
      ((resolution.args ++ resolution.flags).map Entry.summary).Perm
        [(none, "size", some (.text "large")), (some "add", "dish", some (.text "soup")),
          (some "add", "urgent", none)] := by
  have hchoice : ∀ option ∈ some (OptionSchema.ofArgument order none addDish),
      option ∈ order.schema.subcommands := by
    rintro option ⟨⟩
    exact List.mem_singleton_self _
  have hkeys : ∀ name value,
      (Dict.empty.insert "dish" (.text "soup")).get? name = some (value : Value) →
        ∃ offer ∈ order.schema.offered (some (OptionSchema.ofArgument order none addDish)),
          offer.2.name = name := by
    intro name value hvalue
    by_cases hname : "dish" = name
    · exact ⟨_, List.mem_append_right _ List.mem_cons_self, hname⟩
    · rw [Dict.get?_insert_of_ne _ hname] at hvalue
      cases hvalue
  exact (Command.resolve_offered order_declared rfl order_uncolonned hchoice rfl rfl hkeys).1

end SlashCommand
