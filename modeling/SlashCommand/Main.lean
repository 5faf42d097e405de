import SlashCommand.Console.Session

/-!
# The console host

Reads lines from standard input and prints what the session answers.
-/

namespace SlashCommand.Host

open SlashCommand.Console

def variableNames : List String :=
  ["SLASHKIT_CONSOLE", "SLASHKIT_CONSOLE__PREFIX", "SLASHKIT_CONSOLE__USER_ID",
    "SLASHKIT_CONSOLE__CHANNEL_ID", "SLASHKIT_CONSOLE__GUILD_ID"]

def environment : IO (List (String × String)) := do
  let values ← variableNames.mapM fun name => return (name, ← IO.getEnv name)
  return values.filterMap fun (name, value) => value.map fun text => (name, text)

/-- The configuration file at a path.  A directory holds no settings. -/
def configFile (path : String) : IO ConfigFile := do
  let content ←
    try
      some <$> IO.FS.readFile path
    catch
      | .inappropriateType .. => pure (some "")
      | _ => pure none
  return ⟨path, content⟩

/-- Handles the lines of the input until it ends. -/
partial def loop (input : IO.FS.Stream) (session : Session) : IO Unit := do
  let line ← input.getLine
  unless line.isEmpty do
    let (next, printed) := session.handle line
    printed.forM IO.println
    loop input next

def host (arguments : List String) : IO UInt32 := do
  match Options.parse? arguments with
  | none =>
      IO.eprintln "usage: [--config <CONFIG>] [--schema]"
      return usageFailure.toUInt32
  | some options =>
      let file ← options.config.mapM configFile
      match launch options file (← environment) with
      | .ended transcript =>
          transcript.printed.forM IO.println
          return transcript.exitCode.toUInt32
      | .session session greeting =>
          IO.println greeting
          loop (← IO.getStdin) session
          return 0

end SlashCommand.Host

def main (arguments : List String) : IO UInt32 :=
  SlashCommand.Host.host arguments
