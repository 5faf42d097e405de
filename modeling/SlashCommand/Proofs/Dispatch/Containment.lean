import SlashCommand.Proofs.Dispatch.Recording
import SlashCommand.Proofs.Dispatch.Registration

/-!
# Safe dispatching

Of all registered commands, an invocation runs the one of its name, once, where the
command may be used and if the invocation can be resolved; else it runs none.  Whatever
goes wrong before or in the action is answered with a reply, and the reply is sent once.
So a dispatch fails only where the platform refuses to send.  Text messages that name a
command take the same way.
-/

namespace SlashCommand

variable {α π : Type}

/-! ## Where a command may be used -/

/-- There is no restriction, or the id is among the allowed ones. -/
def Allowed (allowed : OrderedSet String) (id : Option String) : Prop :=
  allowed.toList = [] ∨ ∃ given ∈ allowed.toList, id = some given

/-- The command may be used where the invocation comes from. -/
structure Command.Serves (command : Command α) (invocation : Invocation) : Prop where
  channel : Allowed command.channels invocation.channelId
  guild : Allowed command.guilds invocation.guildId

theorem allows_iff {allowed : OrderedSet String} {id : Option String} :
    Dispatcher.allows allowed id = true ↔ Allowed allowed id := by
  have hempty : allowed.isEmpty = true ↔ allowed.toList = [] := by
    simp [Dict.isEmpty, OrderedSet.toList, Dict.keys]
  rw [Dispatcher.allows, Bool.or_eq_true, hempty, Allowed]
  cases id with
  | none => simp
  | some given => simp [OrderedSet.contains_iff_mem_toList]

theorem isAvailable_iff {command : Command α} {invocation : Invocation} :
    Dispatcher.isAvailable command invocation = true ↔ command.Serves invocation := by
  rw [Dispatcher.isAvailable, Bool.and_eq_true, allows_iff, allows_iff]
  exact ⟨fun ⟨hchannel, hguild⟩ => ⟨hchannel, hguild⟩, fun h => ⟨h.channel, h.guild⟩⟩

/-! ## How an invocation is answered -/

/-- What the user of a command is told when it could not be carried out. -/
def failureNotice : String :=
  "Something went wrong while running this command."

/-- The reply to an invocation whose action ended so.  A failure is told to the user only. -/
def Outcome.reply : Outcome → Reply
  | .replied reply => reply
  | .failed _ => .ephemeral failureNotice
  | .crashed => .ephemeral failureNotice

/-- How an invocation is answered, given the command registered under its name: which
commands are used for it, with which reply, and what becomes of the shared state.  What the
dispatcher says on its own is shown to the user only. -/
inductive Answers (lead : String) (registered : Option (Command α)) (invocation : Invocation)
    (shared : α) : List (Command.Use α) → Reply → α → Prop where
  | unknown (hnone : registered = none) :
      Answers lead registered invocation shared []
        (.ephemeral ("Unknown command `" ++ invocation.commandName ++ "`. Type `" ++ lead ++
          "help` for more information.")) shared
  | unavailable {command : Command α} (hcommand : registered = some command)
      (hserves : ¬ command.Serves invocation) :
      Answers lead registered invocation shared []
        (.ephemeral ("The `" ++ command.name ++ "` command is not available here.")) shared
  | unresolved {command : Command α} {fault : ResolutionError}
      (hcommand : registered = some command) (hserves : command.Serves invocation)
      (hfault : command.resolve invocation = .error fault) :
      Answers lead registered invocation shared [] (.ephemeral failureNotice) shared
  | ran {command : Command α} {resolution : Resolution} {outcome : Outcome} {after : α}
      (hcommand : registered = some command) (hserves : command.Serves invocation)
      (hresolution : command.resolve invocation = .ok resolution)
      (haction : command.action invocation (.ofResolution resolution) resolution shared =
        (outcome, after)) :
      Answers lead registered invocation shared
        [.action command invocation (.ofResolution resolution) resolution] outcome.reply after

section Inversion

variable {lead : String} {command : Command α} {invocation : Invocation} {shared after : α}
  {uses : List (Command.Use α)} {reply : Reply}

theorem Answers.eq_of_unknown (h : Answers lead (none : Option (Command α)) invocation shared
    uses reply after) :
    uses = [] ∧ reply = .ephemeral ("Unknown command `" ++ invocation.commandName ++
      "`. Type `" ++ lead ++ "help` for more information.") := by
  cases h with
  | unknown => exact ⟨rfl, rfl⟩
  | unavailable hcommand => cases hcommand
  | unresolved hcommand => cases hcommand
  | ran hcommand => cases hcommand

/-- Where a command may not be used, it is answered that it is not available, and nothing is
used. -/
theorem Answers.eq_of_unavailable (haway : ¬ command.Serves invocation)
    (h : Answers lead (some command) invocation shared uses reply after) :
    uses = [] ∧
      reply = .ephemeral ("The `" ++ command.name ++ "` command is not available here.") := by
  cases h with
  | unknown hnone => cases hnone
  | unavailable hcommand =>
      cases hcommand
      exact ⟨rfl, rfl⟩
  | unresolved hcommand hserves =>
      cases hcommand
      exact absurd hserves haway
  | ran hcommand hserves =>
      cases hcommand
      exact absurd hserves haway

/-- Where a command may be used and the invocation can be resolved, its action is run once. -/
theorem Answers.eq_of_ran {resolution : Resolution} (hserves : command.Serves invocation)
    (hresolution : command.resolve invocation = .ok resolution)
    (h : Answers lead (some command) invocation shared uses reply after) :
    uses = [.action command invocation (.ofResolution resolution) resolution] ∧
      reply = (command.action invocation (.ofResolution resolution) resolution shared).1.reply := by
  cases h with
  | unknown hnone => cases hnone
  | unavailable hcommand haway =>
      cases hcommand
      exact absurd hserves haway
  | unresolved hcommand _ hfault =>
      cases hcommand
      cases hresolution.symm.trans hfault
  | ran hcommand _ hresolved haction =>
      cases hcommand
      cases hresolution.symm.trans hresolved
      rw [haction]
      exact ⟨rfl, rfl⟩

end Inversion

/-- How a reply is sent: with which calls of the platform, how that ends, and what becomes
of the platform. -/
inductive Sent (platform : Platform π) (invocation : Invocation) (reply : Reply) (state : π) :
    List Platform.Call → Except DispatchError Reply → π → Prop where
  | silent (hsilent : reply = .silent) : Sent platform invocation reply state [] (.ok reply) state
  | sent {after : π} (hspoken : reply ≠ .silent)
      (hrespond : platform.respond invocation reply state = (.ok (), after)) :
      Sent platform invocation reply state [.respond invocation reply] (.ok reply) after
  | refused {reason : String} {after : π} (hspoken : reply ≠ .silent)
      (hrespond : platform.respond invocation reply state = (.error reason, after)) :
      Sent platform invocation reply state [.respond invocation reply]
        (.error (.sendingRefused reason)) after

/-- A reply that is not silent is sent once. -/
theorem Sent.calls_eq {platform : Platform π} {invocation : Invocation} {reply : Reply}
    {state after : π} {calls : List Platform.Call} {outcome : Except DispatchError Reply}
    (h : Sent platform invocation reply state calls outcome after) (hspoken : reply ≠ .silent) :
    calls = [.respond invocation reply] := by
  cases h with
  | silent hsilent => exact absurd hsilent hspoken
  | sent => rfl
  | refused => rfl

/-- An invocation is answered with one reply, and the reply is sent. -/
def Contained (platform : Platform π) (lead : String) (registered : Option (Command α))
    (invocation : Invocation) (world : World α π) (outcome : Except DispatchError Reply)
    (after : Watched α π) : Prop :=
  ∃ reply,
    Answers lead registered invocation world.shared after.uses reply after.plain.shared ∧
    Sent platform invocation reply world.platform after.calls outcome after.plain.platform

namespace Dispatcher

variable (dispatcher : Dispatcher α π)

/-- The reply of a command that may be used. -/
theorem answers_execute {lead : String} {registered : Option (Command α)} {command : Command α}
    {invocation : Invocation} (hcommand : registered = some command)
    (hserves : command.Serves invocation) (shared : α) :
    let watched := execute command.recorded invocation (shared, [])
    Answers lead registered invocation shared watched.2.2 watched.1 watched.2.1 := by
  unfold execute
  rw [command.resolve_recorded]
  cases hresolve : command.resolve invocation with
  | error fault => exact .unresolved hcommand hserves hresolve
  | ok resolution =>
      rcases haction : command.action invocation (.ofResolution resolution) resolution shared
        with ⟨outcome, after⟩
      have hran : Answers lead registered invocation shared _ outcome.reply after :=
        .ran hcommand hserves hresolve haction
      simp only [Command.recorded, noting, haction]
      cases outcome with
      | replied reply => exact hran
      | failed reason => exact hran
      | crashed => exact hran

/-- An invocation is answered by the command the dispatcher knows under its name. -/
theorem answers_answer (invocation : Invocation) (shared : α) :
    let watched := dispatcher.recorded.answer invocation (shared, [])
    Answers dispatcher.lead (dispatcher.commands.get? invocation.commandName) invocation shared
      watched.2.2 watched.1 watched.2.1 := by
  unfold answer
  rw [get?_recorded]
  cases hknown : dispatcher.commands.get? invocation.commandName with
  | none => exact .unknown rfl
  | some command =>
      have hsame : isAvailable command.recorded invocation = isAvailable command invocation := rfl
      simp only [Option.map_some, hsame]
      split
      next havailable => exact answers_execute rfl (isAvailable_iff.mp havailable) shared
      next haway => exact .unavailable rfl fun hserves => haway (isAvailable_iff.mpr hserves)

theorem sent_send (invocation : Invocation) (reply : Reply) (state : π) :
    let watched := dispatcher.recorded.send invocation reply (state, [])
    Sent dispatcher.platform invocation reply state watched.2.2
      (watched.1.map fun _ => reply) watched.2.1 := by
  by_cases hsilent : reply = .silent
  · simp only [send, hsilent, if_true]
    exact .silent rfl
  · rcases hrespond : dispatcher.platform.respond invocation reply state with ⟨outcome, after⟩
    simp only [send, hsilent, if_false, recorded, Platform.recorded, noting, hrespond]
    cases outcome with
    | error reason => exact .refused hsilent hrespond
    | ok done => exact .sent hsilent hrespond

/-- A dispatch answers an invocation and sends the reply. -/
theorem contained_dispatch (invocation : Invocation) (world : World α π) :
    let watched := dispatcher.recorded.dispatch invocation world.watched
    Contained dispatcher.platform dispatcher.lead
      (dispatcher.commands.get? invocation.commandName) invocation world watched.1 watched.2 :=
  ⟨(dispatcher.recorded.answer invocation (world.shared, [])).1,
    dispatcher.answers_answer invocation world.shared,
    dispatcher.sent_send invocation _ world.platform⟩

/-! ## Text messages -/

/-- The invocation of a text message names a known command and keeps the place of the
template. -/
theorem ok_of_parseMessage {body : String} {template invocation : Invocation}
    (h : dispatcher.parseMessage body template = .ok invocation) :
    (∃ command, dispatcher.commands.get? invocation.commandName = some command) ∧
      invocation.channelId = template.channelId ∧ invocation.guildId = template.guildId := by
  unfold parseMessage at h
  split at h
  next => cases h
  next rest _ =>
      dsimp only at h
      split at h
      next => cases h
      next =>
          split at h
          next => cases h
          next hknown =>
              cases h
              refine ⟨Option.ne_none_iff_exists'.mp ?_, rfl, rfl⟩
              simpa [Dict.contains] using hknown

/-- A text message that names a known command is answered like its invocation; any other
uses no command. -/
theorem contained_handleMessage (body : String) (template : Invocation) (world : World α π) :
    let watched := dispatcher.recorded.handleMessage body template world.watched
    (∃ fault, dispatcher.parseMessage body template = .error fault ∧ watched.2.uses = []) ∨
      ∃ invocation command outcome,
        dispatcher.parseMessage body template = .ok invocation ∧
        dispatcher.commands.get? invocation.commandName = some command ∧
        invocation.channelId = template.channelId ∧ invocation.guildId = template.guildId ∧
        watched.1 = outcome.map some ∧
        Contained dispatcher.platform dispatcher.lead (some command) invocation world outcome
          watched.2 := by
  unfold handleMessage
  rw [parseMessage_recorded]
  cases hparse : dispatcher.parseMessage body template with
  | error fault =>
      refine .inl ⟨fault, rfl, ?_⟩
      cases fault with
      | notForBot => rfl
      | unknownCommand name => rfl
  | ok invocation =>
      obtain ⟨⟨command, hcommand⟩, hchannel, hguild⟩ := dispatcher.ok_of_parseMessage hparse
      have hcontained := dispatcher.contained_dispatch invocation world
      rw [hcommand] at hcontained
      exact .inr ⟨invocation, command, _, rfl, hcommand, hchannel, hguild, rfl, hcontained⟩

/-! ## Registered commands -/

/-- A dispatcher reached by registrations answers an invocation with the command accepted
last under its name, and a text message that names a registered command like its
invocation, which comes from the channel and the guild of the template.  Any other message
uses no command. -/
theorem registerEach_contained (platform : Platform π) (lead : String) (registry : Registry α)
    (state : π) (commands : List (Command α)) (world : World α π) :
    let fresh : Dispatcher α π := { platform := platform, lead := lead, registry := registry }
    let dispatcher := (fresh.registerEach state commands).1
    let registered := fun name => lastNamed? name (platform.accepted state commands)
    (∀ invocation,
      let watched := dispatcher.recorded.dispatch invocation world.watched
      (watched.1, watched.2.plain) = dispatcher.dispatch invocation world ∧
      Contained platform lead (registered invocation.commandName) invocation world watched.1
        watched.2) ∧
    ∀ body template,
      let watched := dispatcher.recorded.handleMessage body template world.watched
      (watched.1, watched.2.plain) = dispatcher.handleMessage body template world ∧
      ((∃ fault, dispatcher.parseMessage body template = .error fault ∧ watched.2.uses = []) ∨
        ∃ invocation command outcome,
          dispatcher.parseMessage body template = .ok invocation ∧
          registered invocation.commandName = some command ∧
          invocation.channelId = template.channelId ∧ invocation.guildId = template.guildId ∧
          watched.1 = outcome.map some ∧
          Contained platform lead (some command) invocation world outcome watched.2) := by
  intro fresh dispatcher registered
  have hplatform : dispatcher.platform = platform := by
    simp only [dispatcher, registerEach_eq, fresh]
  have hlead : dispatcher.lead = lead := by
    simp only [dispatcher, registerEach_eq, fresh]
  have hregistered : ∀ name, dispatcher.commands.get? name = registered name :=
    get?_registerEach platform lead registry state commands
  refine ⟨fun invocation => ⟨?_, ?_⟩, fun body template => ⟨?_, ?_⟩⟩
  · exact dispatcher.dispatch_recorded invocation world.watched
  · simpa only [hplatform, hlead, hregistered] using dispatcher.contained_dispatch invocation world
  · exact dispatcher.handleMessage_recorded body template world.watched
  · simpa only [hplatform, hlead, hregistered] using
      dispatcher.contained_handleMessage body template world

end Dispatcher

/-! ## A command that crashes -/

/-- A command for the lobby whose action crashes. -/
def dumpCommand : Except BuildError (Command Unit) := do
  let declared ← Builder.calls .unnamed
    [.setCommand "dump" none, .addChannel "lobby",
      .setAction fun _ _ _ shared => (.crashed, shared)]
  declared.build.2

/-- The use of a command from a channel. -/
def usedFrom (channel name : String) : Invocation :=
  { Invocation.plain name "42" with channelId := some channel }

/-- In the lobby the command is run once and its crash is told, in the garden it is not available,
and another name is unknown. -/
theorem dump_contained :
    ∃ dump, dumpCommand = .ok dump ∧
      let fresh : Dispatcher Unit Unit := { platform := acceptingPlatform, lead := "!" }
      let dispatcher := (fresh.registerEach () [dump]).1
      let dispatched := fun channel name =>
        (dispatcher.recorded.dispatch (usedFrom channel name) (World.watched ⟨(), ()⟩)).2
      let told := fun channel name notice =>
        (dispatched channel name).calls = [.respond (usedFrom channel name) (.ephemeral notice)]
      ((∃ arguments resolution, (dispatched "lobby" "dump").uses =
          [.action dump (usedFrom "lobby" "dump") arguments resolution]) ∧
        told "lobby" "dump" "Something went wrong while running this command.") ∧
      ((dispatched "garden" "dump").uses = [] ∧
        told "garden" "dump" "The `dump` command is not available here.") ∧
      ((dispatched "lobby" "dumb").uses = [] ∧
        told "lobby" "dumb" "Unknown command `dumb`. Type `!help` for more information.") := by
  obtain ⟨dump, hdump, hname, hserves, haway, ⟨resolution, hresolve⟩, haction⟩ :
      ∃ dump, dumpCommand = .ok dump ∧ dump.name = "dump" ∧
        dump.Serves (usedFrom "lobby" "dump") ∧ ¬ dump.Serves (usedFrom "garden" "dump") ∧
        (∃ resolution, dump.resolve (usedFrom "lobby" "dump") = .ok resolution) ∧
        ∀ invocation arguments resolution,
          dump.action invocation arguments resolution () = (.crashed, ()) :=
    ⟨_, rfl, rfl, isAvailable_iff.mp rfl,
      fun h => Bool.false_ne_true (isAvailable_iff.mpr h), ⟨_, rfl⟩, fun _ _ _ => rfl⟩
  have hlast : lastNamed? "dump" (acceptingPlatform.accepted () [dump]) = some dump := by
    simp [lastNamed?, hname, Platform.accepted, acceptingPlatform]
  have hnone : lastNamed? "dumb" (acceptingPlatform.accepted () [dump]) = none := by
    simp [lastNamed?, hname, Platform.accepted, acceptingPlatform]
  have hcontained : ∀ channel name registered,
      lastNamed? name (acceptingPlatform.accepted () [dump]) = registered →
      let fresh : Dispatcher Unit Unit := { platform := acceptingPlatform, lead := "!" }
      let watched := (fresh.registerEach () [dump]).1.recorded.dispatch (usedFrom channel name)
        (World.watched ⟨(), ()⟩)
      Contained acceptingPlatform "!" registered (usedFrom channel name) ⟨(), ()⟩ watched.1
        watched.2 := by
    rintro channel name registered rfl
    exact ((Dispatcher.registerEach_contained acceptingPlatform "!" ∅ () [dump] ⟨(), ()⟩).1
      (usedFrom channel name)).2
  refine ⟨dump, hdump, ?_, ?_, ?_⟩
  · obtain ⟨reply, hanswers, hsent⟩ := hcontained "lobby" "dump" _ hlast
    obtain ⟨hused, rfl⟩ := hanswers.eq_of_ran hserves hresolve
    rw [haction] at hsent
    exact ⟨⟨_, _, hused⟩, hsent.calls_eq (by simp [Outcome.reply])⟩
  · obtain ⟨reply, hanswers, hsent⟩ := hcontained "garden" "dump" _ hlast
    obtain ⟨hunused, rfl⟩ := hanswers.eq_of_unavailable haway
    rw [hname] at hsent
    exact ⟨hunused, hsent.calls_eq (by simp)⟩
  · obtain ⟨reply, hanswers, hsent⟩ := hcontained "lobby" "dumb" _ hnone
    obtain ⟨hunused, rfl⟩ := hanswers.eq_of_unknown
    exact ⟨hunused, hsent.calls_eq (by simp)⟩

end SlashCommand
