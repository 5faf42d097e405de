import SlashCommand.Console.Demo
import SlashCommand.Console.Line
import SlashCommand.Console.Options
import SlashCommand.Console.Settings

/-!
# Console sessions

The console is a platform that prints.  A session registers the demonstration
commands and handles one line after the other; a failing line does not end it.
-/

namespace SlashCommand.Console

open SlashCommand.Demo

/-- The texts printed so far, in order. -/
abbrev Screen :=
  List String

def printReply (invocation : Invocation) : Reply → Screen
  | .message content => [content]
  | .ephemeral content => ["(only visible to " ++ invocation.userId ++ ") " ++ content]
  | .silent => []

def printSuggestions (suggestions : List String) : Screen :=
  if suggestions.isEmpty then
    ["(no suggestions)"]
  else
    suggestions.map fun suggestion => "> " ++ suggestion

/-- The console, which refuses nothing.  It prints schemas only when asked to. -/
def console (printSchemas : Bool) : Platform Screen :=
  { register := fun schema screen =>
      (.ok (), if printSchemas then screen ++ [schema.toJson.pretty] else screen)
    respond := fun invocation reply screen => (.ok (), screen ++ printReply invocation reply)
    suggest := fun _ suggestions screen => (.ok (), screen ++ printSuggestions suggestions) }

/-! ## Sessions -/

/-- A session: the registered commands, the identity of the console user and the
todo list. -/
structure Session where
  dispatcher : Dispatcher TodoList Screen
  template : Invocation
  todos : TodoList

namespace Session

def identity (settings : Settings) : Invocation :=
  { Invocation.plain "" settings.userId with
    channelId := some settings.channelId
    guildId := settings.guildId }

/-- Starts a session, none if the commands cannot be registered, and what that
prints. -/
def start (settings : Settings) (printSchemas : Bool) : Option Session × Screen :=
  match Demo.commands with
  | .error _ => (none, [])
  | .ok commands =>
      let unused : Dispatcher TodoList Screen :=
        { platform := console printSchemas, lead := settings.lead }
      let (refusal, dispatcher, world) := registerAll unused ⟨[], []⟩ commands
      match refusal with
      | some _ => (none, world.platform)
      | none => (some ⟨dispatcher, identity settings, world.shared⟩, world.platform)

def greeting (session : Session) : String :=
  "Type `" ++ session.dispatcher.lead ++ "help` to list the commands, Ctrl-D to quit."

/-- What is printed for a message that is not addressed to the bot. -/
def notACommand (session : Session) : String :=
  "(not a command, type `" ++ session.dispatcher.lead ++ "help` for the list)"

def handle (session : Session) (line : String) : Session × Screen :=
  let world : World TodoList Screen := ⟨session.todos, []⟩
  match parseLine session.dispatcher session.template line with
  | .empty => (session, [])
  | .text body =>
      let (outcome, after) := session.dispatcher.handleMessage body session.template world
      let note :=
        match outcome with
        | .ok none => [session.notACommand]
        | _ => []
      ({ session with todos := after.shared }, after.platform ++ note)
  | .structured invocation =>
      let (_, after) := session.dispatcher.dispatch invocation world
      ({ session with todos := after.shared }, after.platform)
  | .autocomplete invocation =>
      let (_, after) := session.dispatcher.autocomplete invocation world
      ({ session with todos := after.shared }, after.platform)

def handleAll (session : Session) : List String → Screen
  | [] => []
  | line :: rest =>
      let (next, printed) := session.handle line
      printed ++ next.handleAll rest

end Session

/-! ## Runs -/

structure Transcript where
  printed : Screen
  exitCode : UInt8
deriving DecidableEq

/-- How a run goes on after its start. -/
inductive Launch where
  | ended (transcript : Transcript)
  | session (session : Session) (greeting : String)

/-- Starts a run with options, given the configuration file, if any, and the
environment. -/
def launch (options : Options) (file : Option ConfigFile) (environment : List (String × String)) :
    Launch :=
  match Settings.load file environment with
  | .error _ => .ended ⟨[], 0⟩
  | .ok settings =>
      match Session.start settings options.schema with
      | (none, printed) => .ended ⟨printed, 0⟩
      | (some session, printed) =>
          if options.schema then .ended ⟨printed, 0⟩ else .session session session.greeting

def usageFailure : UInt8 :=
  2

/-- A whole run: its arguments, the content of files by path, the environment and
the lines of its input. -/
def run (arguments : List String) (content : String → Option String)
    (environment : List (String × String)) (input : List String) : Transcript :=
  match Options.parse? arguments with
  | none => ⟨[], usageFailure⟩
  | some options =>
      let file := options.config.map fun path => ⟨path, content path⟩
      match launch options file environment with
      | .ended transcript => transcript
      | .session session greeting => ⟨greeting :: session.handleAll input, 0⟩

end SlashCommand.Console
