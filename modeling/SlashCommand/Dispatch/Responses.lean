import SlashCommand.Command

/-!
# Standard responses

The texts a dispatcher answers on its own: the help message and the replies to
invocations that cannot be carried out.
-/

namespace SlashCommand.Responses

variable {α : Type}

/-- The lines of the help message about a command: its usage lines with its
description, or its name for a context menu. -/
def helpLines (lead : String) (command : Command α) : List String :=
  match command.type with
  | .chatInput =>
      command.usage.map fun usage =>
        "- `" ++ lead ++ usage ++ "`: " ++ command.description
  | .user => ["- *" ++ command.name ++ "*: user menu"]
  | .message => ["- *" ++ command.name ++ "*: message menu"]

def help (lead : String) (commands : List (Command α)) : String :=
  if commands.isEmpty then
    "No commands registered."
  else
    Text.join "\n" <|
      "Commands:" :: commands.flatMap (helpLines lead) ++
        ["", "Type `" ++ lead ++ "help` to show this help message."]

def unknownCommand (lead name : String) : Reply :=
  .ephemeral ("Unknown command `" ++ name ++ "`. Type `" ++ lead ++ "help` for more information.")

/-- The answer to a command used outside its channels or guilds. -/
def notAvailable (name : String) : Reply :=
  .ephemeral ("The `" ++ name ++ "` command is not available here.")

/-- The answer to an invocation that could not be carried out. -/
def dispatchFailure : Reply :=
  .ephemeral "Something went wrong while running this command."

end SlashCommand.Responses
