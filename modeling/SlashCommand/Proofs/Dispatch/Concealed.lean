import SlashCommand.Proofs.Command.Offer
import SlashCommand.Proofs.Dispatch.Containment
import SlashCommand.Proofs.Dispatch.Suggestion

/-!
# What restricted commands give away

A command with channels or guilds is refused elsewhere: an invocation from another place runs
nothing.  A request for suggestions is not held back in the same way.  Wherever it comes from, the
suggester of the focused parameter answers it, so what is suggested depends on the suggesters of a
command exactly when the focused parameter has one.
-/

namespace SlashCommand

variable {α π : Type}

/-! ## Other suggesters -/

/-- The command with other suggesters for the same parameters. -/
def Command.suggestingBy (command : Command α) (source : ScopeKey → Suggester α) : Command α :=
  { command with autocomplete := command.autocomplete.mapWithKey fun key _ => source key }

theorem Command.get?_suggestingBy (command : Command α) (source : ScopeKey → Suggester α)
    (key : ScopeKey) :
    (command.suggestingBy source).autocomplete.get? key =
      (command.autocomplete.get? key).map fun _ => source key :=
  Dict.get?_mapWithKey _ _ _

theorem Command.isEmpty_suggestingBy (command : Command α) (source : ScopeKey → Suggester α) :
    (command.suggestingBy source).autocomplete.isEmpty = command.autocomplete.isEmpty := by
  simp [suggestingBy, Dict.isEmpty, Dict.mapWithKey]

namespace OptionSchema

theorem ofParts_suggestingBy (command : Command α) (source : ScopeKey → Suggester α)
    (scope : Option String) (argument : Argument) (nested : List OptionSchema) :
    ofParts (command.suggestingBy source) scope argument nested =
      ofParts command scope argument nested := by
  simp only [ofParts, Dict.contains, Command.get?_suggestingBy, Option.isSome_map]
  rfl

mutual

theorem ofArgument_suggestingBy (command : Command α) (source : ScopeKey → Suggester α)
    (scope : Option String) : (argument : Argument) →
      ofArgument (command.suggestingBy source) scope argument = ofArgument command scope argument
  | ⟨_, _, _, _, _, _, _, _, _, subarguments⟩ => by
      rw [ofArgument, ofArgument, ofArguments_suggestingBy command source _ subarguments,
        ofParts_suggestingBy]

theorem ofArguments_suggestingBy (command : Command α) (source : ScopeKey → Suggester α)
    (scope : Option String) : (arguments : List Argument) →
      ofArguments (command.suggestingBy source) scope arguments =
        ofArguments command scope arguments
  | [] => rfl
  | argument :: rest => by
      rw [ofArguments, ofArguments, ofArgument_suggestingBy command source scope argument,
        ofArguments_suggestingBy command source scope rest]

end

end OptionSchema

/-- A platform is told which parameters have a suggester, and nothing else about them. -/
theorem Command.schema_suggestingBy (command : Command α) (source : ScopeKey → Suggester α) :
    (command.suggestingBy source).schema = command.schema := by
  have hoptions := OptionSchema.ofArguments_suggestingBy command source none command.arguments
  simp only [schema, suggestingBy] at hoptions ⊢
  rw [hoptions]
  rfl

/-! ## Registered commands -/

/-- The state of a platform after it was asked to register commands. -/
def Platform.afterEach (platform : Platform π) (state : π) (commands : List (Command α)) : π :=
  commands.foldl (fun state command => (platform.register command.schema state).2) state

theorem Platform.accepted_append (platform : Platform π) (state : π)
    (first second : List (Command α)) :
    platform.accepted state (first ++ second) =
      platform.accepted state first ++
        platform.accepted (platform.afterEach state first) second := by
  induction first generalizing state with
  | nil => rfl
  | cons command rest ih =>
      simp only [List.cons_append, accepted, afterEach, List.foldl_cons]
      rcases platform.register command.schema state with ⟨_ | _, after⟩
      · exact ih after
      · exact congrArg (command :: ·) (ih after)

/-- A command is registered between others: it is accepted, and nothing of its name is accepted
after it. -/
structure Platform.Registered (platform : Platform π) (state : π) (earlier : List (Command α))
    (command : Command α) (later : List (Command α)) : Prop where
  accepted : (platform.register command.schema (platform.afterEach state earlier)).1 = .ok ()
  last : lastNamed? command.name
    (platform.accepted (platform.afterEach state (earlier ++ [command])) later) = none

theorem lastNamed?_append (name : String) (first second : List (Command α)) :
    lastNamed? name (first ++ second) = (lastNamed? name second).or (lastNamed? name first) := by
  simp only [lastNamed?, List.findRev?_eq_find?_reverse, List.reverse_append, List.find?_append]

namespace Platform

variable {platform : Platform π} {state : π}

variable {earlier later : List (Command α)} {command : Command α}

/-- Of a history with the command, or with one like it, the same commands are accepted before and
after it. -/
theorem Registered.accepted_eq (h : platform.Registered state earlier command later)
    {other : Command α} (hschema : other.schema = command.schema) :
    platform.accepted state (earlier ++ other :: later) =
      platform.accepted state earlier ++
        other :: platform.accepted (platform.afterEach state (earlier ++ [command])) later := by
  have haccepted := h.accepted
  have hstate : platform.afterEach state (earlier ++ [command]) =
      (platform.register command.schema (platform.afterEach state earlier)).2 := by
    simp only [afterEach, List.foldl_append, List.foldl_cons, List.foldl_nil]
  rw [accepted_append, Platform.accepted, hschema, hstate]
  rcases hanswer : platform.register command.schema (platform.afterEach state earlier) with
    ⟨reason | _, after⟩
  · rw [hanswer] at haccepted
    cases haccepted
  · rfl

theorem Registered.lastNamed?_eq (h : platform.Registered state earlier command later)
    {other : Command α} (hschema : other.schema = command.schema)
    (hname : other.name = command.name) :
    lastNamed? command.name (platform.accepted state (earlier ++ other :: later)) =
      some other := by
  rw [h.accepted_eq hschema, lastNamed?_append, lastNamed?_cons, h.last]
  simp [hname]

/-- Where the command has no suggesters, only those of the others are published. -/
theorem Registered.suggesting_eq (h : platform.Registered state earlier command later)
    {other : Command α} (hschema : other.schema = command.schema)
    (hempty : other.autocomplete.isEmpty = true) :
    suggesting (platform.accepted state (earlier ++ other :: later)) =
      suggesting (platform.accepted state earlier ++
        platform.accepted (platform.afterEach state (earlier ++ [command])) later) := by
  rw [h.accepted_eq hschema]
  simp [suggesting, hempty]

end Platform

/-! ## Requests for suggestions -/

namespace Dispatcher

/-- A request is answered alike where the suggesters that it may ask for are the same. -/
theorem autocomplete_recorded_congr {first second : Dispatcher α π} {invocation : Invocation}
    (hplatform : first.platform = second.platform)
    (hsuggester : ∀ focused ∈ invocation.focused,
      first.registry.suggester? invocation.commandName ⟨invocation.subcommand, focused⟩ =
        second.registry.suggester? invocation.commandName ⟨invocation.subcommand, focused⟩)
    (world : Watched α π) :
    first.recorded.autocomplete invocation world =
      second.recorded.autocomplete invocation world := by
  have hcalls : first.recorded.platform = second.recorded.platform :=
    congrArg Platform.recorded hplatform
  unfold autocomplete
  cases hfocused : invocation.focused with
  | none => rfl
  | some focused =>
      have hsame : first.recorded.suggestionsFor invocation focused world.shared =
          second.recorded.suggestionsFor invocation focused world.shared := by
        simp only [suggestionsFor, suggester?_recorded, hsuggester focused hfocused]
      simp only [hsame, hcalls]

variable {state : π} {earlier later : List (Command α)} {command : Command α}

/-- The dispatcher that a history of registrations leads to when a command in it has other
suggesters. -/
def registeredWith (start : Dispatcher α π) (state : π) (earlier : List (Command α))
    (command : Command α) (later : List (Command α)) (source : ScopeKey → Suggester α) :
    Dispatcher α π :=
  (start.registerEach state (earlier ++ command.suggestingBy source :: later)).1

section

variable (start : Dispatcher α π) (source : ScopeKey → Suggester α)

theorem platform_registeredWith :
    (start.registeredWith state earlier command later source).platform = start.platform := by
  rw [registeredWith, registerEach_eq]

theorem get?_registeredWith (h : start.platform.Registered state earlier command later) :
    (start.registeredWith state earlier command later source).commands.get? command.name =
      some (command.suggestingBy source) := by
  rw [registeredWith, registerEach_eq, get?_foldl_insert_name,
    h.lastNamed?_eq (command.schema_suggestingBy source) rfl, Option.some_or]

/-- What is looked up for a registered command: its own suggester, or one that was published
earlier where it has none at all. -/
theorem suggester?_registeredWith (h : start.platform.Registered state earlier command later)
    (key : ScopeKey) :
    (start.registeredWith state earlier command later source).registry.suggester?
        command.name key =
      if command.autocomplete.isEmpty then
        (((lastNamed? command.name (suggesting (start.platform.accepted state earlier ++
          start.platform.accepted (start.platform.afterEach state (earlier ++ [command]))
            later))).map Command.autocomplete).or (start.registry.get? command.name)).bind
              (·.get? key)
      else
        (command.autocomplete.get? key).map fun _ => source key := by
  have hschema := command.schema_suggestingBy source
  simp only [registeredWith, registerEach_eq, Registry.suggester?, Registry.get?_foldl_publish]
  split
  next hnone =>
      rw [← command.isEmpty_suggestingBy source] at hnone
      rw [h.suggesting_eq hschema hnone]
  next hsome =>
      rw [← command.isEmpty_suggestingBy source, Bool.not_eq_true] at hsome
      rw [lastNamed?_suggesting (h.lastNamed?_eq hschema rfl) hsome]
      exact command.get?_suggestingBy source key

theorem suggester?_registeredWith_of_isSome
    (h : start.platform.Registered state earlier command later) {key : ScopeKey}
    (hsome : (command.autocomplete.get? key).isSome = true) :
    (start.registeredWith state earlier command later source).registry.suggester? command.name
      key = some (source key) := by
  obtain ⟨suggester, hsuggester⟩ := Option.isSome_iff_exists.mp hsome
  have hany : ¬ command.autocomplete.isEmpty = true := fun hempty => by
    rw [get?_of_isEmpty hempty] at hsuggester
    cases hsuggester
  rw [suggester?_registeredWith start source h, if_neg hany, hsuggester]
  rfl

end

/-- An invocation is turned away: no code of a command is used, and the answer that the command is
not available is sent. -/
structure TurnedAway (command : Command α) (invocation : Invocation) (after : Watched α π) :
    Prop where
  unused : after.uses = []
  told : after.calls = [.respond invocation (Responses.notAvailable command.name)]

theorem turnedAway_of_not_serves {dispatcher : Dispatcher α π} {invocation : Invocation}
    (hknown : dispatcher.commands.get? invocation.commandName = some command)
    (haway : ¬ command.Serves invocation) (world : World α π) :
    TurnedAway command invocation (dispatcher.recorded.dispatch invocation world.watched).2 := by
  obtain ⟨reply, hanswers, hsent⟩ := dispatcher.contained_dispatch invocation world
  rw [hknown] at hanswers
  obtain ⟨hunused, rfl⟩ := hanswers.eq_of_unavailable haway
  exact ⟨hunused, hsent.calls_eq nofun⟩

/-- Whatever the suggesters of a restricted command compute, it is refused elsewhere. -/
theorem turnedAway_registeredWith {start : Dispatcher α π}
    (h : start.platform.Registered state earlier command later) {invocation : Invocation}
    (hname : invocation.commandName = command.name) (haway : ¬ command.Serves invocation)
    (source : ScopeKey → Suggester α) (world : World α π) :
    TurnedAway command invocation
      ((start.registeredWith state earlier command later source).recorded.dispatch invocation
        world.watched).2 := by
  have hstill : ¬ (command.suggestingBy source).Serves invocation :=
    fun hserves => haway ⟨hserves.channel, hserves.guild⟩
  have hknown := get?_registeredWith start source h
  rw [← hname] at hknown
  obtain ⟨hunused, htold⟩ := turnedAway_of_not_serves hknown hstill world
  exact ⟨hunused, htold⟩

/-- The suggester of the focused parameter answers, wherever the request comes from. -/
theorem suggested_registeredWith {start : Dispatcher α π}
    (h : start.platform.Registered state earlier command later) {invocation : Invocation}
    (hname : invocation.commandName = command.name) {focused : String}
    (hfocused : invocation.focused = some focused)
    (hsome : (command.autocomplete.get? ⟨invocation.subcommand, focused⟩).isSome = true)
    (source : ScopeKey → Suggester α) (world : World α π) :
    let requested :=
      (start.registeredWith state earlier command later source).recorded.autocomplete invocation
        world.watched
    Suggested start.platform (source ⟨invocation.subcommand, focused⟩) command.name
      ⟨invocation.subcommand, focused⟩
      (((invocation.options.get? focused).map Value.display).getD "") invocation world requested.1
      requested.2 := by
  have hfound := suggester?_registeredWith_of_isSome start source h hsome
  rw [← hname] at hfound
  have hanswered := suggested_of_suggester? hfocused hfound world
  rwa [platform_registeredWith, hname] at hanswered

/-- A restricted command is refused elsewhere, whatever its suggesters compute.  What a request for
suggestions is answered with, and what is done for it, does not depend on them exactly when the
command has no suggester for the focused parameter in the scope of the active subcommand.  If it
has one, this is run with what was typed, and its suggestions are sent. -/
theorem concealed_iff {start : Dispatcher α π}
    (hregistered : start.platform.Registered state earlier command later)
    {invocation : Invocation} (hname : invocation.commandName = command.name)
    (haway : ¬ command.Serves invocation) (world : World α π) :
    let dispatcher := start.registeredWith state earlier command later
    let requested := fun source => (dispatcher source).recorded.autocomplete invocation world.watched
    (∀ source,
      TurnedAway command invocation
          ((dispatcher source).recorded.dispatch invocation world.watched).2 ∧
        ((requested source).1, (requested source).2.plain) =
          (dispatcher source).autocomplete invocation world) ∧
      ((∀ first second, requested first = requested second) ↔
        ∀ focused ∈ invocation.focused,
          command.autocomplete.get? ⟨invocation.subcommand, focused⟩ = none) ∧
      ∀ focused ∈ invocation.focused,
        (command.autocomplete.get? ⟨invocation.subcommand, focused⟩).isSome = true →
          ∀ source,
            Suggested start.platform (source ⟨invocation.subcommand, focused⟩) command.name
              ⟨invocation.subcommand, focused⟩
              (((invocation.options.get? focused).map Value.display).getD "") invocation world
              (requested source).1 (requested source).2 := by
  intro dispatcher requested
  refine ⟨fun source => ⟨turnedAway_registeredWith hregistered hname haway source world,
      (dispatcher source).autocomplete_recorded invocation world.watched⟩,
    ⟨fun hsame focused hfocused => ?_, fun hnone first second => ?_⟩,
    fun focused hfocused hsome source =>
      suggested_registeredWith hregistered hname hfocused hsome source world⟩
  · -- One suggester offers something and another one nothing, and the platform sees which.
    refine Option.not_isSome_iff_eq_none.mp fun hsome => ?_
    have hanswered := suggested_registeredWith hregistered hname hfocused hsome
    have hmore := (hanswered (fun _ _ _ shared => (.ok [""], shared)) world).shown.once
    have hless := (hanswered (fun _ _ _ shared => (.ok [], shared)) world).shown.once
    have hcalls := congrArg (fun answer => World.calls answer.2) <|
      hsame (fun _ _ _ shared => (.ok [""], shared)) fun _ _ _ shared => (.ok [], shared)
    cases hmore.symm.trans (hcalls.trans hless)
  · refine autocomplete_recorded_congr
      ((platform_registeredWith start first).trans (platform_registeredWith start second).symm)
      (fun focused hfocused => ?_) world.watched
    rw [hname, suggester?_registeredWith start first hregistered,
      suggester?_registeredWith start second hregistered, hnone focused hfocused]
    rfl

end Dispatcher

/-! ## A vault in the lobby -/

/-- A command for the lobby, with suggestions for its item and none for its note. -/
def vaultCommand : Except BuildError (Command Unit) := do
  let declared ← Builder.calls .unnamed
    [.setCommand "vault" none, .addChannel "lobby",
      .addArgument "<item>" none (.dynamic echoSuggester) {},
      .addArgument "[note]" none .payload {}]
  declared.build.2

/-- A dispatcher that has registered nothing yet. -/
def lobbyDispatcher : Dispatcher Unit Unit :=
  { platform := acceptingPlatform, lead := "!" }

/-- A request for suggestions from the garden. -/
def gardenRequest (focused : String) : Invocation :=
  { Invocation.plain "vault" "42" with
    channelId := some "garden"
    options := Dict.empty.insert focused (.text "mi")
    focused := some focused }

theorem not_serves_garden {command : Command Unit} (hchannels : command.channels.toList = ["lobby"])
    (focused : String) : ¬ command.Serves (gardenRequest focused) := by
  rintro ⟨hnone | ⟨given, hmem, hgiven⟩, _⟩
  · rw [hchannels] at hnone
    cases hnone
  · rw [hchannels, List.mem_singleton] at hmem
    rw [hmem] at hgiven
    exact absurd (Option.some.inj hgiven : "garden" = "lobby") (by decide)

namespace Dispatcher

/-- A request about the note gives nothing away, and one about the item runs its suggester. -/
theorem vault_concealed :
    ∃ vault, vaultCommand = .ok vault ∧
      lobbyDispatcher.platform.Registered () [vault] vault [] ∧
      let requested := fun source focused =>
        (lobbyDispatcher.registeredWith () [vault] vault [] source).recorded.autocomplete
          (gardenRequest focused) (World.watched ⟨(), ()⟩)
      (∀ focused, ¬ vault.Serves (gardenRequest focused)) ∧
      (∀ first second, requested first "note" = requested second "note") ∧
      ∀ source,
        Suggested acceptingPlatform (source ⟨none, "item"⟩) "vault" ⟨none, "item"⟩ "mi"
          (gardenRequest "item") ⟨(), ()⟩ (requested source "item").1
          (requested source "item").2 := by
  obtain ⟨vault, hvault, hname, hchannels, hitem, hnote⟩ : ∃ vault, vaultCommand = .ok vault ∧
      vault.name = "vault" ∧ vault.channels.toList = ["lobby"] ∧
      (vault.autocomplete.get? ⟨none, "item"⟩).isSome = true ∧
      vault.autocomplete.get? ⟨none, "note"⟩ = none := ⟨_, rfl, rfl, rfl, rfl, rfl⟩
  have hregistered : lobbyDispatcher.platform.Registered () [vault] vault [] := ⟨rfl, rfl⟩
  have haway := not_serves_garden hchannels
  obtain ⟨_, hnotes, _⟩ := concealed_iff hregistered hname.symm (haway "note") ⟨(), ()⟩
  obtain ⟨_, _, hitems⟩ := concealed_iff hregistered hname.symm (haway "item") ⟨(), ()⟩
  refine ⟨vault, hvault, hregistered, haway, hnotes.mpr ?_, fun source => ?_⟩
  · rintro focused ⟨⟩
    exact hnote
  · have hanswered := hitems "item" rfl hitem source
    rwa [hname] at hanswered

/-- The vault is not available in the garden, and still suggests its items there. -/
theorem vault_not_concealed :
    ∃ vault, vaultCommand = .ok vault ∧ ¬ vault.Serves (gardenRequest "item") ∧
      let dispatcher := (lobbyDispatcher.registerEach () [vault]).1
      let request := gardenRequest "item"
      let dispatched := dispatcher.recorded.dispatch request (World.watched ⟨(), ()⟩)
      let requested := dispatcher.recorded.autocomplete request (World.watched ⟨(), ()⟩)
      dispatched.2.uses = [] ∧
        dispatched.2.calls = [.respond request (Responses.notAvailable "vault")] ∧
        requested.2.uses = [.suggester "vault" ⟨none, "item"⟩ "mi" request] ∧
        requested.2.calls = [.suggest request ["mi"]] :=
  ⟨_, rfl, not_serves_garden rfl "item", rfl, rfl, rfl, rfl⟩

end Dispatcher

end SlashCommand
