import SlashCommand.Dispatch.Platform
import SlashCommand.Dispatch.Registry
import SlashCommand.Dispatch.Responses
import SlashCommand.Resolution.Resolve

/-!
# Dispatching

A dispatcher registers commands with a platform and routes invocations to them.
An action that fails or crashes, and an invocation that cannot be resolved, are
answered with one and the same reply; only a refusal of the platform is an error.
-/

namespace SlashCommand

inductive DispatchError where
  | registrationRefused (command reason : String)
  | sendingRefused (reason : String)
  /-- A request for suggestions without a focused option. -/
  | notFocused
deriving DecidableEq

def DispatchError.message : DispatchError → String
  | .registrationRefused command reason =>
      "failed to register command `" ++ command ++ "`: " ++ reason
  | .sendingRefused reason => reason
  | .notFocused => "autocomplete request without a focused option"

inductive MessageError where
  | notForBot
  | unknownCommand (name : String)
deriving DecidableEq

def MessageError.message : MessageError → String
  | .notForBot => "message not addressed to the bot"
  | .unknownCommand name => "unknown command `" ++ name ++ "`"

/-! ## Dispatchers -/

/-- Registered commands and where to answer them. -/
structure Dispatcher (α π : Type) where
  platform : Platform π
  /-- What a text message that invokes a command starts with. -/
  lead : String
  registry : Registry α := ∅
  commands : Dict String (Command α) := ∅

namespace Dispatcher

variable {α π : Type}

/-- Registers a command, in place of one registered earlier under its name.  Only
when the platform accepts it are its suggesters published and the command made
known. -/
def register (dispatcher : Dispatcher α π) (command : Command α) (platform : π) :
    Except DispatchError (Dispatcher α π) × π :=
  match dispatcher.platform.register command.schema platform with
  | (.error reason, after) => (.error (.registrationRefused command.name reason), after)
  | (.ok (), after) =>
      (.ok
        { dispatcher with
          registry := dispatcher.registry.publish command
          commands := dispatcher.commands.insert command.name command }, after)

def help (dispatcher : Dispatcher α π) : String :=
  Responses.help dispatcher.lead dispatcher.commands.values

/-- An id is among the allowed ones, or there is no restriction. -/
def allows (allowed : OrderedSet String) (id : Option String) : Bool :=
  allowed.isEmpty || id.any allowed.contains

/-- The invocation comes from a channel and a guild in which the command may be
used. -/
def isAvailable (command : Command α) (invocation : Invocation) : Bool :=
  allows command.channels invocation.channelId && allows command.guilds invocation.guildId

/-- The reply of a command to an invocation.  Whatever goes wrong, the reply is the
same. -/
def execute (command : Command α) (invocation : Invocation) (shared : α) : Reply × α :=
  match command.resolve invocation with
  | .error _ => (Responses.dispatchFailure, shared)
  | .ok resolution =>
      match command.action invocation (.ofResolution resolution) resolution shared with
      | (.replied reply, after) => (reply, after)
      | (.failed _, after) => (Responses.dispatchFailure, after)
      | (.crashed, after) => (Responses.dispatchFailure, after)

def answer (dispatcher : Dispatcher α π) (invocation : Invocation) (shared : α) : Reply × α :=
  match dispatcher.commands.get? invocation.commandName with
  | none => (Responses.unknownCommand dispatcher.lead invocation.commandName, shared)
  | some command =>
      if isAvailable command invocation then
        execute command invocation shared
      else
        (Responses.notAvailable command.name, shared)

/-- Sends a reply, unless it is silent. -/
def send (dispatcher : Dispatcher α π) (invocation : Invocation) (reply : Reply) (platform : π) :
    Except DispatchError Unit × π :=
  if reply = .silent then
    (.ok (), platform)
  else
    let (outcome, after) := dispatcher.platform.respond invocation reply platform
    (outcome.mapError .sendingRefused, after)

def dispatch (dispatcher : Dispatcher α π) (invocation : Invocation) (world : World α π) :
    Except DispatchError Reply × World α π :=
  let (reply, shared) := dispatcher.answer invocation world.shared
  let (sent, platform) := dispatcher.send invocation reply world.platform
  (sent.map fun _ => reply, ⟨shared, platform⟩)

/-- The name and the arguments in a text message, without the lead.  The name ends
at the first blank. -/
def nameAndRaw (rest : List Char) : List Char × List Char :=
  (Text.splitAtFirst? Text.isBlank rest).getD (rest, [])

/-- The invocation of a text message.  The user, the channel and the guild are
those of the template. -/
def parseMessage (dispatcher : Dispatcher α π) (body : String) (template : Invocation) :
    Except MessageError Invocation :=
  match Text.afterStart? dispatcher.lead.toList (Text.trim body.toList) with
  | none => .error .notForBot
  | some rest =>
      let (name, raw) := nameAndRaw rest
      let commandName := String.ofList name
      if name.isEmpty then
        .error .notForBot
      else if !dispatcher.commands.contains commandName then
        .error (.unknownCommand commandName)
      else
        .ok
          { commandName := commandName
            raw := some (String.ofList (Text.trim raw))
            userId := template.userId
            channelId := template.channelId
            guildId := template.guildId }

/-- The reply to a message that names no registered command: the help message, or a
hint at it. -/
def replyToUnknown (dispatcher : Dispatcher α π) (name : String) : Reply :=
  if name = "help" then
    .message dispatcher.help
  else
    Responses.unknownCommand dispatcher.lead name

/-- Answers a text message.  One that is not addressed to the bot gets no reply. -/
def handleMessage (dispatcher : Dispatcher α π) (body : String) (template : Invocation)
    (world : World α π) : Except DispatchError (Option Reply) × World α π :=
  match dispatcher.parseMessage body template with
  | .ok invocation =>
      let (outcome, after) := dispatcher.dispatch invocation world
      (outcome.map some, after)
  | .error .notForBot => (.ok none, world)
  | .error (.unknownCommand name) =>
      let reply := dispatcher.replyToUnknown name
      let invocation := { template with commandName := name }
      let (sent, platform) := dispatcher.send invocation reply world.platform
      (sent.map fun _ => some reply, { world with platform := platform })

/-- The most suggestions a platform shows. -/
def maxSuggestions : Nat :=
  25

/-- The suggestions for the focused option of an invocation, given its name.
There are none without a suggester or when the suggester fails. -/
def suggestionsFor (dispatcher : Dispatcher α π) (invocation : Invocation) (focused : String)
    (shared : α) : List String × α :=
  let key : ScopeKey := ⟨invocation.subcommand, focused⟩
  match dispatcher.registry.suggester? invocation.commandName key with
  | none => ([], shared)
  | some suggester =>
      match suggester (invocation.focusedText?.getD "") invocation shared with
      | (.ok suggestions, after) => (suggestions.take maxSuggestions, after)
      | (.error _, after) => ([], after)

def autocomplete (dispatcher : Dispatcher α π) (invocation : Invocation) (world : World α π) :
    Except DispatchError (List String) × World α π :=
  match invocation.focused with
  | none => (.error .notFocused, world)
  | some focused =>
      let (suggestions, shared) := dispatcher.suggestionsFor invocation focused world.shared
      let (outcome, platform) :=
        dispatcher.platform.suggest invocation suggestions world.platform
      ((outcome.mapError .sendingRefused).map fun _ => suggestions, ⟨shared, platform⟩)

end Dispatcher

end SlashCommand
