import SlashCommand.Proofs.Resolution.Agreement
import SlashCommand.Proofs.Resolution.FlagValue
import SlashCommand.Proofs.Resolution.Places

/-!
# The order of parameters in a resolution

Named options resolve in declaration order.  A message resolves the parameters of its
subcommand right behind the leading ones, so they overtake those of the command itself that
are declared between another subcommand and this one.
-/

namespace SlashCommand

open Message

variable {α : Type}

/-- In a message, parameters of a subcommand overtake parameters of the command itself that
count like them: these are declared in front of the subcommand, but listed behind it. -/
structure Command.Overtakes (command : Command α) (name : String)
    (counts : Argument → Bool) : Prop where
  inner : ∃ parameter ∈ parametersIn command.arguments (some name), counts parameter = true
  overtaken : ∃ parameter ∈ command.overtaken name, counts parameter = true

/-! ## Keys in order -/

variable {counts : Argument → Bool}

theorem countedKeys_append (first second : List (Option String × Argument)) :
    countedKeys counts (first ++ second) =
      countedKeys counts first ++ countedKeys counts second := by
  simp [countedKeys]

theorem countedKeys_within_eq_nil_iff {scope : Option String} {parameters : List Argument} :
    countedKeys counts (within scope parameters) = [] ↔
      ¬ ∃ parameter ∈ parameters, counts parameter = true := by
  simp [countedKeys, within]

theorem subcommand_of_mem_countedKeys {scope : Option String} {parameters : List Argument}
    {key : ScopeKey} (h : key ∈ countedKeys counts (within scope parameters)) :
    key.subcommand = scope := by
  obtain ⟨place, hplace, rfl⟩ := List.mem_map.mp h
  obtain ⟨parameter, _, rfl⟩ := List.mem_map.mp (List.mem_filter.mp hplace).1
  rfl

/-- Keys of different scopes cannot be exchanged unless there is nothing to exchange. -/
theorem append_comm_iff_of_scopes {first second : List ScopeKey}
    (h : ∀ key ∈ first, ∀ other ∈ second, key.subcommand ≠ other.subcommand) :
    first ++ second = second ++ first ↔ first = [] ∨ second = [] := by
  constructor
  · intro heq
    cases first with
    | nil => exact Or.inl rfl
    | cons key rest =>
        cases second with
        | nil => exact Or.inr rfl
        | cons other others =>
            have hhead : key = other := (List.cons.inj heq).1
            exact absurd (congrArg ScopeKey.subcommand hhead)
              (h key List.mem_cons_self other List.mem_cons_self)
  · rintro (rfl | rfl)
    · exact (List.append_nil second).symm
    · exact List.append_nil first

/-- The places of a message are those of the declaration in their order, as far as they count,
exactly unless some are overtaken. -/
theorem Command.WellFormed.countedKeys_placesIn_iff {command : Command α} (h : command.WellFormed)
    {name : String} {subcommand : Argument} (hnamed : command.subcommand? name = some subcommand) :
    countedKeys counts (placesIn command (some subcommand)) =
        countedKeys counts (command.places (some name)) ↔
      ¬ command.Overtakes name counts := by
  obtain ⟨behind, htrailing, hplaces⟩ := h.places_some hnamed
  have hname : subcommand.name = name := (Command.mem_of_subcommand? hnamed).2.2
  have hscopes : ∀ key ∈ countedKeys counts (within (some name) subcommand.subarguments),
      ∀ other ∈ countedKeys counts (within none (command.overtaken name)),
        key.subcommand ≠ other.subcommand := by
    intro key hkey other hother
    rw [subcommand_of_mem_countedKeys hkey, subcommand_of_mem_countedKeys hother]
    exact nofun
  rw [placesIn_some, hname, hplaces, htrailing, within_append, within_append]
  simp only [countedKeys_append, List.append_assoc, List.append_cancel_left_eq]
  rw [← List.append_assoc, ← List.append_assoc, List.append_cancel_right_eq,
    append_comm_iff_of_scopes hscopes, countedKeys_within_eq_nil_iff,
    countedKeys_within_eq_nil_iff, ← h.parametersIn_subcommand hnamed, ← not_and_or]
  exact not_congr ⟨fun ⟨hinner, hovertaken⟩ => ⟨hinner, hovertaken⟩,
    fun hovertakes => ⟨hovertakes.inner, hovertakes.overtaken⟩⟩

/-! ## Both strategies -/

/-- Named options of a declared subcommand resolve in it. -/
theorem Command.WellFormed.resolve_named {command : Command α} (h : command.WellFormed)
    (htype : command.type = .chatInput) {invocation : Invocation} (hraw : invocation.raw = none)
    {name : String} {subcommand : Argument} (hscope : invocation.subcommand = some name)
    (hnamed : command.subcommand? name = some subcommand) :
    command.resolve invocation =
      .ok (.ofOptions command invocation.options (some name)) := by
  rw [h.resolve_options htype hraw, resolveOptions, hscope]
  simp only [hnamed]

/-- Named options list their arguments and their flags in declaration order.  A message in the
same subcommand lists the same arguments in the same order exactly unless arguments of the
subcommand overtake some of the command itself, and the same holds of the flags. -/
theorem Command.resolve_same_order_iff {command : Command α} (hdeclared : command.Declared)
    (htype : command.type = .chatInput) {said handed : Invocation} {raw name : String}
    {spoken : Resolution} (hraw : said.raw = some raw) (hspoken : command.resolve said = .ok spoken)
    (hactive : spoken.subcommand = some name) (hunsaid : handed.raw = none)
    (hscope : handed.subcommand = some name) :
    ∃ named, command.resolve handed = .ok named ∧
      named.args.map Entry.key =
        countedKeys (fun parameter => !parameter.isFlag) (command.places (some name)) ∧
      named.flags.map Entry.key = countedKeys Argument.isFlag (command.places (some name)) ∧
      (spoken.args.map Entry.key = named.args.map Entry.key ↔
        ¬ command.Overtakes name fun parameter => !parameter.isFlag) ∧
      (spoken.flags.map Entry.key = named.flags.map Entry.key ↔
        ¬ command.Overtakes name Argument.isFlag) := by
  have hwell := hdeclared.wellFormed
  rw [hwell.resolve_raw htype hraw] at hspoken
  obtain rfl := Except.ok.inj hspoken
  rw [Message.resolve, subcommand_resolveTokens, Option.map_eq_some_iff] at hactive
  obtain ⟨subcommand, hin, hname⟩ := hactive
  have hnamed := subcommand?_of_activeIn hin
  rw [hname] at hnamed
  have hkept : ∀ place ∈ command.places (some name), place.2.Kept :=
    fun place => hwell.kept_of_place
  have hnamedLists := Resolution.lists_ofOptions command handed.options (some name)
  have hspokenLists := lists_resolveTokens command (tokens raw)
  rw [hin] at hspokenLists
  have hspokenKept : ∀ place ∈ placesIn command (some subcommand), place.2.Kept := by
    refine fun place => hwell.kept_of_placesIn fun other hother => ?_
    cases hother
    exact subcommand?_of_activeIn hin
  refine ⟨_, hwell.resolve_named htype hunsaid hscope hnamed, hnamedLists.keys_args hkept,
    hnamedLists.keys_flags hkept, ?_, ?_⟩
  · rw [Message.resolve, hspokenLists.keys_args hspokenKept, hnamedLists.keys_args hkept]
    exact hwell.countedKeys_placesIn_iff hnamed
  · rw [Message.resolve, hspokenLists.keys_flags hspokenKept, hnamedLists.keys_flags hkept]
    exact hwell.countedKeys_placesIn_iff hnamed

/-- The named options of a user in a subcommand. -/
def picked (subcommand : String) (options : Dict String Value) : Invocation :=
  { Invocation.plain "todo" "42" with
    subcommand := some subcommand
    options := options }

/-- No parameter of the errand is overtaken, so both strategies list its parameters alike. -/
theorem errand_same_order :
    errand.Declared ∧ errand.type = .chatInput ∧
      ∃ spoken named, errand.resolve (said "groceries add milk -u today") = .ok spoken ∧
        spoken.subcommand = some "add" ∧
        errand.resolve (picked "add" ∅) = .ok named ∧
        named.args.map Entry.key = [⟨none, "list"⟩, ⟨some "add", "item"⟩, ⟨none, "day"⟩] ∧
        named.flags.map Entry.key = [⟨some "add", "urgent"⟩] ∧
        spoken.args.map Entry.key = named.args.map Entry.key ∧
          spoken.flags.map Entry.key = named.flags.map Entry.key := by
  have hnone : errand.overtaken "add" = [] := rfl
  have hfree : ∀ counts, ¬ errand.Overtakes "add" counts := by
    rintro counts ⟨_, parameter, hmem, _⟩
    rw [hnone] at hmem
    cases hmem
  obtain ⟨named, hnamed, hargs, hflags, hsameArgs, hsameFlags⟩ :=
    Command.resolve_same_order_iff errand_declared rfl
      (rfl : (said "groceries add milk -u today").raw = _) rfl rfl
      (rfl : (picked "add" ∅).raw = none) rfl
  exact ⟨errand_declared, rfl, _, named, rfl, rfl, hnamed, hargs, hflags,
    hsameArgs.mpr (hfree _), hsameFlags.mpr (hfree _)⟩

/-- A day between two subcommands. -/
def chores : Command Unit :=
  { errand with
    arguments :=
      [{ Argument.subcommand "add" fillerDescription with
          subarguments := [requiredText "item"] },
        requiredText "day",
        { Argument.subcommand "drop" fillerDescription with
          subarguments := [requiredText "what"] }]
    choices := ∅ }

theorem chores_declared : chores.Declared := by
  refine ⟨Builder.run .unnamed
    [.setCommand "todo" none, .addArgument "add <item>" none .payload {},
      .addArgument "<day>" none .payload {}, .addArgument "drop <what>" none .payload {}],
    ?_, rfl⟩
  exact .call (.call (.call (.call .unnamed _) _) _) _

/-- In a message the second subcommand lists its parameter in front of the day, which is
declared before it and which named options list first. -/
theorem chores_out_of_order :
    chores.Declared ∧ chores.type = .chatInput ∧
      ∃ spoken named,
        chores.resolve (said "drop milk monday") = .ok spoken ∧
        spoken.subcommand = some "drop" ∧
        chores.resolve (picked "drop"
          ((Dict.empty.insert "what" (.text "milk")).insert "day" (.text "monday"))) =
            .ok named ∧
        spoken.args.map Entry.key ≠ named.args.map Entry.key := by
  refine ⟨chores_declared, rfl, _, _, rfl, rfl, rfl, ?_⟩
  decide

end SlashCommand
