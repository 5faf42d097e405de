import SlashCommand.Dispatch.Dispatcher
import SlashCommand.Proofs.Dict

/-!
# What a dispatcher does to its surroundings

A dispatcher runs the code its commands bring along and calls its platform.  Both can be
recorded: every action and suggester, and every operation of the platform, does what it
does anyway and writes down that it was used.  Recording changes nothing else
(`dispatch_recorded`, `handleMessage_recorded`, `autocomplete_recorded`), so the records tell
what the dispatcher itself does.
-/

namespace SlashCommand

variable {α π : Type}

/-! ## Records -/

/-- One use of the code a command brings along. -/
inductive Command.Use (α : Type) where
  | action (command : Command α) (invocation : Invocation) (arguments : Arguments)
      (resolution : Resolution)
  | suggester (commandName : String) (key : ScopeKey) (typed : String) (invocation : Invocation)

/-- One call of a platform. -/
inductive Platform.Call where
  | register (schema : Schema)
  | respond (invocation : Invocation) (reply : Reply)
  | suggest (invocation : Invocation) (suggestions : List String)

/-- A step on a state with a record that writes down one entry. -/
def noting {ρ σ ν : Type} (note : ν) (step : σ → ρ × σ) (recorded : σ × List ν) :
    ρ × (σ × List ν) :=
  ((step recorded.1).1, ((step recorded.1).2, recorded.2 ++ [note]))

/-- A result without the record. -/
def unrecorded {ρ σ ν : Type} (result : ρ × (σ × List ν)) : ρ × σ :=
  (result.1, result.2.1)

/-- Suggesters that record their use. -/
def recordedSuggesters (commandName : String) (suggesters : Dict ScopeKey (Suggester α)) :
    Dict ScopeKey (Suggester (α × List (Command.Use α))) :=
  suggesters.mapWithKey fun key suggester typed invocation =>
    noting (.suggester commandName key typed invocation) (suggester typed invocation)

/-- A command whose action and suggesters record their use. -/
def Command.recorded (command : Command α) : Command (α × List (Command.Use α)) :=
  { command with
    autocomplete := recordedSuggesters command.name command.autocomplete
    action := fun invocation arguments resolution =>
      noting (.action command invocation arguments resolution)
        (command.action invocation arguments resolution) }

/-- A platform that records its calls. -/
def Platform.recorded (platform : Platform π) : Platform (π × List Platform.Call) where
  register := fun schema => noting (.register schema) (platform.register schema)
  respond := fun invocation reply =>
    noting (.respond invocation reply) (platform.respond invocation reply)
  suggest := fun invocation suggestions =>
    noting (.suggest invocation suggestions) (platform.suggest invocation suggestions)

/-- A dispatcher whose commands and whose platform are recorded. -/
def Dispatcher.recorded (dispatcher : Dispatcher α π) :
    Dispatcher (α × List (Command.Use α)) (π × List Platform.Call) where
  platform := dispatcher.platform.recorded
  lead := dispatcher.lead
  registry := dispatcher.registry.mapWithKey recordedSuggesters
  commands := dispatcher.commands.mapWithKey fun _ => Command.recorded

/-- A world with a record of both of its parts. -/
abbrev Watched (α π : Type) :=
  World (α × List (Command.Use α)) (π × List Platform.Call)

namespace World

/-- A world in which nothing is recorded yet. -/
def watched (world : World α π) : Watched α π :=
  ⟨(world.shared, []), (world.platform, [])⟩

/-- A world without what is recorded in it. -/
def plain (world : Watched α π) : World α π :=
  ⟨world.shared.1, world.platform.1⟩

/-- The recorded uses of commands, in order. -/
def uses (world : Watched α π) : List (Command.Use α) :=
  world.shared.2

/-- The recorded calls of the platform, in order. -/
def calls (world : Watched α π) : List Platform.Call :=
  world.platform.2

end World

/-! ## Recorded commands resolve alike -/

/-- The values handed out do not depend on the code of the command. -/
theorem Message.handOut_recorded (command : Command α) (occurrences : List (String × String))
    (scope : Option String) (arguments : List Argument) (left : List Token) :
    handOut command.recorded occurrences scope arguments left =
      handOut command occurrences scope arguments left := by
  induction arguments generalizing left with
  | nil => rfl
  | cons argument rest ih =>
      simp only [handOut, ih]
      rfl

theorem Message.resolve_recorded (command : Command α) (raw : String) :
    resolve command.recorded raw = resolve command raw := by
  unfold resolve resolveTokens
  simp only [handOut_recorded]
  rfl

theorem Command.resolve_recorded (command : Command α) (invocation : Invocation) :
    command.recorded.resolve invocation = command.resolve invocation := by
  unfold resolve
  simp only [Message.resolve_recorded]
  rfl

namespace Dispatcher

/-! ## Recorded dispatchers answer alike -/

theorem execute_recorded (command : Command α) (invocation : Invocation)
    (shared : α × List (Command.Use α)) :
    unrecorded (execute command.recorded invocation shared) =
      execute command invocation shared.1 := by
  unfold execute
  rw [command.resolve_recorded]
  cases command.resolve invocation with
  | error fault => rfl
  | ok resolution =>
      rcases houtcome : command.action invocation (.ofResolution resolution) resolution shared.1
        with ⟨_ | _ | _, after⟩
      all_goals simp only [Command.recorded, noting, houtcome, unrecorded]

variable (dispatcher : Dispatcher α π)

theorem get?_recorded (name : String) :
    dispatcher.recorded.commands.get? name =
      (dispatcher.commands.get? name).map Command.recorded :=
  Dict.get?_mapWithKey _ _ _

theorem answer_recorded (invocation : Invocation) (shared : α × List (Command.Use α)) :
    unrecorded (dispatcher.recorded.answer invocation shared) =
      dispatcher.answer invocation shared.1 := by
  unfold answer
  rw [get?_recorded]
  cases dispatcher.commands.get? invocation.commandName with
  | none => rfl
  | some command =>
      have hsame : isAvailable command.recorded invocation = isAvailable command invocation := rfl
      simp only [Option.map_some, hsame]
      split
      · exact execute_recorded command invocation shared
      · rfl

theorem send_recorded (invocation : Invocation) (reply : Reply) (state : π × List Platform.Call) :
    unrecorded (dispatcher.recorded.send invocation reply state) =
      dispatcher.send invocation reply state.1 := by
  by_cases hsilent : reply = .silent
  · simp only [send, hsilent, if_true]
    rfl
  · simp only [send, hsilent, if_false]
    rfl

/-- A recorded dispatcher answers an invocation as the plain one does. -/
theorem dispatch_recorded (invocation : Invocation) (world : Watched α π) :
    let watched := dispatcher.recorded.dispatch invocation world
    (watched.1, watched.2.plain) = dispatcher.dispatch invocation world.plain := by
  simp only [dispatch, World.plain]
  -- the reply is the same first, and then it is sent alike
  rw [← dispatcher.answer_recorded invocation world.shared]
  simp only [unrecorded]
  rw [← dispatcher.send_recorded invocation _ world.platform]
  rfl

/-! ### Text messages -/

theorem parseMessage_recorded (body : String) (template : Invocation) :
    dispatcher.recorded.parseMessage body template = dispatcher.parseMessage body template := by
  unfold parseMessage
  simp only [Dict.contains, get?_recorded, Option.isSome_map]
  rfl

theorem help_recorded : dispatcher.recorded.help = dispatcher.help := by
  have hvalues : dispatcher.recorded.commands.values =
      dispatcher.commands.values.map Command.recorded := by
    simp [recorded, Dict.values, Dict.mapWithKey]
  unfold help Responses.help
  rw [hvalues, List.isEmpty_map, List.flatMap_map]
  rfl

theorem replyToUnknown_recorded (name : String) :
    dispatcher.recorded.replyToUnknown name = dispatcher.replyToUnknown name := by
  rw [replyToUnknown, replyToUnknown, help_recorded]
  rfl

/-- A recorded dispatcher answers a text message as the plain one does. -/
theorem handleMessage_recorded (body : String) (template : Invocation) (world : Watched α π) :
    let watched := dispatcher.recorded.handleMessage body template world
    (watched.1, watched.2.plain) = dispatcher.handleMessage body template world.plain := by
  unfold handleMessage
  rw [parseMessage_recorded]
  cases dispatcher.parseMessage body template with
  | ok invocation =>
      simp only
      rw [← dispatcher.dispatch_recorded invocation world]
  | error fault =>
      cases fault with
      | notForBot => rfl
      | unknownCommand name =>
          simp only [replyToUnknown_recorded, World.plain]
          rw [← dispatcher.send_recorded _ _ world.platform]
          rfl

/-! ### Suggestions -/

theorem suggester?_recorded (name : String) (key : ScopeKey) :
    dispatcher.recorded.registry.suggester? name key =
      (dispatcher.registry.suggester? name key).map fun suggester typed invocation =>
        noting (.suggester name key typed invocation) (suggester typed invocation) := by
  have hregistry : dispatcher.recorded.registry.get? name =
      (dispatcher.registry.get? name).map (recordedSuggesters name) :=
    Dict.get?_mapWithKey _ _ _
  rw [Registry.suggester?, Registry.suggester?, hregistry]
  cases dispatcher.registry.get? name with
  | none => rfl
  | some suggesters => exact Dict.get?_mapWithKey _ suggesters key

theorem suggestionsFor_recorded (invocation : Invocation) (focused : String)
    (shared : α × List (Command.Use α)) :
    unrecorded (dispatcher.recorded.suggestionsFor invocation focused shared) =
      dispatcher.suggestionsFor invocation focused shared.1 := by
  simp only [suggestionsFor, suggester?_recorded]
  cases dispatcher.registry.suggester? invocation.commandName ⟨invocation.subcommand, focused⟩ with
  | none => rfl
  | some suggester =>
      rcases houtcome : suggester (invocation.focusedText?.getD "") invocation shared.1
        with ⟨_ | _, after⟩
      all_goals simp only [Option.map_some, noting, houtcome, unrecorded]

/-- A recorded dispatcher answers a request for suggestions as the plain one does. -/
theorem autocomplete_recorded (invocation : Invocation) (world : Watched α π) :
    let watched := dispatcher.recorded.autocomplete invocation world
    (watched.1, watched.2.plain) = dispatcher.autocomplete invocation world.plain := by
  unfold autocomplete
  cases invocation.focused with
  | none => rfl
  | some focused =>
      simp only [World.plain]
      rw [← dispatcher.suggestionsFor_recorded invocation focused world.shared]
      rfl

end Dispatcher

end SlashCommand
