import SlashCommand.Proofs.Resolution.FilledMessage
import SlashCommand.Proofs.Resolution.Places

/-!
# Messages and named options agree

A filling resolves to the same entries, and so to the same argument object, whether it is
said in a message or handed over as named options.
-/

namespace SlashCommand

open Message Declaration

variable {α : Type}

/-- Named options resolve to the entries of the parameters in scope. -/
theorem Resolution.perm_entriesOf (command : Command α) (options : Dict String Value)
    (scope : Option String) :
    (command.arguments.flatMap (entriesOf command options scope)).Perm
      ((parametersIn command.arguments none).map (entryOf command options none) ++
        (command.inner scope).map (entryOf command options scope)) := by
  rw [flatMap_entriesOf]
  cases scope with
  | none =>
      rw [Command.places_none, within, List.map_map]
      exact List.Perm.of_eq (List.append_nil _).symm
  | some name =>
      refine ((flatMap_placesAt_perm name command.arguments).map _).trans (List.Perm.of_eq ?_)
      rw [List.map_append, within, within, List.map_map, List.map_map]
      rfl

namespace Filling

variable {filling : Filling} {command : Command α} {scope : Option String}

/-! ## Handing over named options -/

/-- The options hold the values of the parameters under their names. -/
theorem get?_options (hexpressible : command.Expressible scope) {key : String} {value : Value} :
    (filling.options command scope).get? key = some value ↔
      ∃ parameter ∈ command.visible scope,
        filling.value? parameter = some value ∧ parameter.name = key := by
  have hsublist : ∀ parameters : List Argument,
      ((parameters.filterMap fun parameter =>
        (filling.value? parameter).map fun value => (parameter.name, value)).map Prod.fst).Sublist
          (parameters.map Argument.name) := by
    intro parameters
    induction parameters with
    | nil => exact List.Sublist.refl []
    | cons parameter rest ih =>
        rw [List.map_cons, List.filterMap_cons]
        cases filling.value? parameter with
        | none => exact ih.cons parameter.name
        | some value => exact ih.cons_cons parameter.name
  rw [options, Dict.get?_ofList (hexpressible.names.sublist (hsublist _)), List.mem_filterMap]
  simp only [Option.map_eq_some_iff, Prod.mk.injEq]
  constructor
  · rintro ⟨parameter, hmem, found, hfound, hname, rfl⟩
    exact ⟨parameter, hmem, hfound, hname⟩
  · rintro ⟨parameter, hmem, hfound, hname⟩
    exact ⟨parameter, hmem, value, hfound, hname, rfl⟩

/-- The option of a parameter, whatever subcommand it may be looked up in, is its value. -/
theorem option?_options (hexpressible : command.Expressible scope) {parameter : Argument}
    (hmem : parameter ∈ command.visible scope) (own : Option String) :
    Resolution.option? (filling.options command scope) own parameter =
      filling.value? parameter := by
  cases hvalue : filling.value? parameter with
  | some value =>
      have hfound : (filling.options command scope).get? parameter.name = some value :=
        (get?_options hexpressible).mpr ⟨parameter, hmem, hvalue, rfl⟩
      unfold Resolution.option?
      rw [hfound]
  | none =>
      have hmissing : (filling.options command scope).get? parameter.name = none := by
        apply Option.eq_none_iff_forall_ne_some.mpr
        intro value hfound
        obtain ⟨other, hother, hgiven, hname⟩ := (get?_options hexpressible).mp hfound
        rw [hexpressible.eq_of_name_eq hother hmem hname, hvalue] at hgiven
        cases hgiven
      unfold Resolution.option?
      rw [hmissing]
      cases own with
      | none => rfl
      | some name =>
          apply Option.eq_none_iff_forall_ne_some.mpr
          intro value hfound
          obtain ⟨other, hother, _, hname⟩ := (get?_options hexpressible).mp hfound
          apply hexpressible.uncolonned other hother
          rw [hname]
          simp [ScopeKey.display]

theorem entryOf_options (hexpressible : command.Expressible scope) {parameter : Argument}
    (hmem : parameter ∈ command.visible scope) (own : Option String) :
    Resolution.entryOf command (filling.options command scope) own parameter =
      filling.entryOf command own parameter := by
  rw [Resolution.entryOf, option?_options hexpressible hmem]
  rfl

/-- The named options in which a filling is handed over resolve to its values. -/
theorem ofOptions_options (filling : Filling) (hexpressible : command.Expressible scope) :
    (Resolution.ofOptions command (filling.options command scope) scope).Alike
      (Resolution.ofEntries (filling.entries command scope) scope) := by
  have hown : (parametersIn command.arguments none).map
      (Resolution.entryOf command (filling.options command scope) none) =
        (parametersIn command.arguments none).map (filling.entryOf command none) := by
    apply List.map_congr_left
    intro parameter hmem
    exact entryOf_options hexpressible (List.mem_append_left _ hmem) none
  have hinner : (command.inner scope).map
      (Resolution.entryOf command (filling.options command scope) scope) =
        (command.inner scope).map (filling.entryOf command scope) := by
    apply List.map_congr_left
    intro parameter hmem
    exact entryOf_options hexpressible (List.mem_append_right _ hmem) scope
  have hperm := Resolution.perm_entriesOf command (filling.options command scope) scope
  rw [hown, hinner] at hperm
  exact Resolution.alike_ofEntries hperm scope

/-! ## Agreement -/

theorem map_name_entries (filling : Filling) (command : Command α) (scope : Option String) :
    (filling.entries command scope).map Entry.name = (command.visible scope).map Argument.name := by
  rw [entries, Command.visible, List.map_append, List.map_append, List.map_map, List.map_map]
  rfl

/-- No two parameters that are no flags share a name. -/
theorem distinct_args (hexpressible : command.Expressible scope) {resolution : Resolution}
    (h : resolution.Alike (Resolution.ofEntries (filling.entries command scope) scope)) :
    (resolution.args.map Entry.name).Nodup := by
  have hentries : ((filling.entries command scope).map Entry.name).Nodup := by
    rw [map_name_entries]
    exact hexpressible.names
  apply (h.args.map Entry.name).nodup_iff.mpr
  exact hentries.sublist (List.filter_sublist.map Entry.name)

end Filling

/-- A filling that is said in a message resolves to the same subcommand, the same entries and
the same argument object as when it is handed over as named options: every parameter has the
value that the filling has for it. -/
theorem Command.resolve_message_alike_options {command : Command α}
    (hdeclared : command.Declared) (htype : command.type = .chatInput) {scope : Option String}
    (hexpressible : command.Expressible scope) {filling : Filling}
    (hfits : filling.Fits command scope) {said handed : Invocation}
    (hsaid : said.raw = some (filling.message command scope)) (hunsaid : handed.raw = none)
    (hscope : handed.subcommand = scope)
    (hoptions : handed.options = filling.options command scope) :
    ∃ spoken named, command.resolve said = .ok spoken ∧ command.resolve handed = .ok named ∧
      spoken.subcommand = scope ∧ spoken.Alike named ∧
        Arguments.ofResolution spoken = Arguments.ofResolution named ∧
          spoken.Alike (Resolution.ofEntries (filling.entries command scope) scope) := by
  have hwell := hdeclared.wellFormed
  have hspoken := Filling.resolve_message hwell hexpressible hfits
  have hnamed := Filling.ofOptions_options filling hexpressible
  have halike := hspoken.trans hnamed.symm
  refine ⟨_, _, hwell.resolve_raw htype hsaid, ?_, hspoken.subcommand, halike,
    Arguments.ofResolution_eq_of_alike halike (Filling.distinct_args hexpressible hspoken),
      hspoken⟩
  rw [hwell.resolve_options htype hunsaid, Command.resolveOptions, hscope, hoptions]
  cases scope with
  | none => rfl
  | some name =>
      obtain ⟨subcommand, hdeclaredName⟩ := hexpressible.declared name rfl
      simp only [hdeclaredName]

/-! ## An errand -/

/-- A required text as declarations make it. -/
def requiredText (name : String) : Argument :=
  { kind := .positional
    name := name
    description := fillerDescription
    optional := false
    variadic := false
    datatype := .string
    token := none
    min := none
    max := none
    subarguments := [] }

/-- A flag that tells how much an errand presses. -/
def urgentFlag : Argument :=
  { requiredText "urgent" with
    kind := .flag
    optional := true
    token := some "-u" }

/-- A subcommand with parameters of the command itself on both sides. -/
def errand : Command Unit :=
  { name := "todo"
    description := fillerDescription
    arguments :=
      [requiredText "list",
        { Argument.subcommand "add" fillerDescription with
          subarguments := [requiredText "item", urgentFlag] },
        requiredText "day"]
    type := .chatInput
    choices := Dict.empty.insert ⟨some "add", "urgent"⟩ ["-u"]
    autocomplete := ∅
    defaults := ∅
    requires := ∅
    channels := ∅
    guilds := ∅
    action := Action.silent }

theorem errand_declared : errand.Declared := by
  refine ⟨Builder.run .unnamed
    [.setCommand "todo" none, .addArgument "<list>" none .payload {},
      .addArgument "add <item>" none .payload {}, .addArgument "add (-u urgent)" none .payload {},
      .addArgument "<day>" none .payload {}], ?_, rfl⟩
  exact .call (.call (.call (.call (.call .unnamed _) _) _) _) _

theorem errand_expressible : errand.Expressible (some "add") where
  declared := by
    rintro name ⟨⟩
    exact ⟨_, rfl⟩
  bare := by
    rintro name ⟨⟩
    decide
  names := by decide
  uncolonned := by decide
  tokens := by decide
  tokensBare := by decide
  textual := by decide

/-- Texts that look like the flag and the subcommand. -/
def errandFilling : Filling where
  text
    | "list" => "add"
    | "item" => "buy milk"
    | _ => "-u"
  chosen := [urgentFlag]

theorem errandFilling_fits : errandFilling.Fits errand (some "add") where
  chosen := by
    intro flag hchosen
    rw [List.mem_singleton.mp hchosen]
    constructor
    · apply List.mem_append_right
      apply mem_parametersIn_some.mpr
      exact ⟨_, List.mem_cons_of_mem _ List.mem_cons_self, rfl,
        List.mem_cons_of_mem _ List.mem_cons_self⟩
    · rfl
  texts := by decide

/-- Quotation marks keep a text from being taken for a flag or a subcommand. -/
theorem errand_said :
    errandFilling.message errand (some "add") = "“add” add “buy milk” “-u” -u “-u”" ∧
      ∃ spoken named,
        errand.resolve
          { Invocation.plain "todo" "42" with
            raw := some (errandFilling.message errand (some "add")) } = .ok spoken ∧
        errand.resolve
          { Invocation.plain "todo" "42" with
            subcommand := some "add"
            options := errandFilling.options errand (some "add") } = .ok named ∧
        spoken.subcommand = some "add" ∧ spoken.Alike named ∧
          Arguments.ofResolution spoken = Arguments.ofResolution named ∧
            spoken.Alike (Resolution.ofEntries (errandFilling.entries errand (some "add"))
              (some "add")) :=
  ⟨by decide, Command.resolve_message_alike_options errand_declared rfl errand_expressible
    errandFilling_fits rfl rfl rfl rfl⟩

end SlashCommand
