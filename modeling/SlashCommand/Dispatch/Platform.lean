import SlashCommand.Command.Schema

/-!
# Chat platforms

A platform registers commands, sends replies and shows suggestions.  It is a
state together with these three operations, each of which may be refused with a
reason.  A command is answered in a world of two parts: the state the actions
share and the state of the platform.
-/

namespace SlashCommand

/-- The operations of a platform with a state `π`. -/
structure Platform (π : Type) where
  register : Schema → π → Except String Unit × π
  respond : Invocation → Reply → π → Except String Unit × π
  suggest : Invocation → List String → π → Except String Unit × π

/-- The state the actions share and the state of the platform. -/
structure World (α π : Type) where
  shared : α
  platform : π

end SlashCommand
