import SlashCommand.Command

/-!
# Entries of parameters

An entry is made from a parameter and what an invocation holds for it.  Only an
optional positional parameter falls back to its default.
-/

namespace SlashCommand

namespace Entry

/-- The default that stands in for an absent value. -/
def fallback? {α : Type} (command : Command α) (scope : Option String) (argument : Argument) :
    Option Value :=
  if argument.optional && !argument.isFlag then
    command.defaults.get? ⟨scope, argument.name⟩
  else
    none

def ofArgument {α : Type} (command : Command α) (scope : Option String) (argument : Argument)
    (given : Option Value) : Entry :=
  let fallback := fallback? command scope argument
  { name := argument.name
    value := given.or fallback
    flag := if argument.isFlag then argument.token else none
    subcommand := scope
    defaulted := given.isNone && fallback.isSome }

end Entry

end SlashCommand
