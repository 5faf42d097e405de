import SlashCommand.Command

/-!
# Published suggesters

The suggesters of registered commands, by the name of the command and the scope
key of the parameter.
-/

namespace SlashCommand

/-- The suggesters of commands, by command name and scope key. -/
abbrev Registry (α : Type) :=
  Dict String (Dict ScopeKey (Suggester α))

namespace Registry

variable {α : Type}

/-- Publishes the suggesters of a command in place of those published earlier
under its name.  A command without suggesters publishes nothing. -/
def publish (registry : Registry α) (command : Command α) : Registry α :=
  if command.autocomplete.isEmpty then
    registry
  else
    registry.insert command.name command.autocomplete

def suggester? (registry : Registry α) (commandName : String) (key : ScopeKey) :
    Option (Suggester α) :=
  (registry.get? commandName).bind fun suggesters => suggesters.get? key

end Registry

end SlashCommand
