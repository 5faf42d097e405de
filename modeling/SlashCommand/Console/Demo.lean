import SlashCommand.Command.Builder
import SlashCommand.Dispatch.Dispatcher
import SlashCommand.Json.Writer

/-!
# Demonstration commands

The commands the console host registers: a restricted command with literal
choices, one declared by a single text, a todo list with subcommands, bounds, a
default, suggestions and a flag, and a context menu.
-/

namespace SlashCommand.Demo

/-! ## The todo list -/

structure Todo where
  item : String
  priority : Int64
deriving DecidableEq

/-- The state the demonstration commands share. -/
abbrev TodoList :=
  List Todo

abbrev DemoAction :=
  Action TodoList

def itemText (arguments : Arguments) : String :=
  Text.join " " ((arguments.list? "item").getD [])

/-- The line of an item, with its priority if asked for. -/
def todoLine (priorities : Bool) (todo : Todo) : String :=
  if priorities then
    "- " ++ todo.item ++ " (" ++ toString todo.priority.toInt ++ ")"
  else
    "- " ++ todo.item

/-- Adds an item, of priority three unless another is given. -/
def addTodo (arguments : Arguments) (todos : TodoList) : Outcome × TodoList :=
  let item := itemText arguments
  let priority := (arguments.integer? "priority").getD 3
  (.replied (.message ("Added `" ++ item ++ "`")), todos ++ [⟨item, priority⟩])

/-- Removes the first item with a text. -/
def removeTodo (arguments : Arguments) (todos : TodoList) : Outcome × TodoList :=
  let item := itemText arguments
  if todos.any fun todo => todo.item == item then
    (.replied (.message ("Removed `" ++ item ++ "`")), todos.eraseP fun todo => todo.item == item)
  else
    (.replied (.ephemeral ("No item named `" ++ item ++ "`")), todos)

/-- Lists the items, greatest priority first and older items first among equals. -/
def listTodos (arguments : Arguments) (todos : TodoList) : Outcome × TodoList :=
  if todos.isEmpty then
    (.replied (.message "Nothing to do."), todos)
  else
    let ordered := todos.mergeSort fun first second => second.priority ≤ first.priority
    let lines := ordered.map (todoLine (arguments.flag "priorities"))
    (.replied (.message (Text.join "\n" lines)), todos)

def todoAction : DemoAction :=
  fun _ arguments _ todos =>
    match arguments.subcommand with
    | some "add" => addTodo arguments todos
    | some "remove" => removeTodo arguments todos
    | some "list" => listTodos arguments todos
    | _ => (.failed "unexpected todo subcommand", todos)

/-- The items that start with the text typed so far. -/
def suggestTodos : Suggester TodoList :=
  fun typed _ todos =>
    let fits (todo : Todo) := (Text.afterStart? typed.toList todo.item.toList).isSome
    (.ok ((todos.filter fits).map Todo.item), todos)

def todoName : String :=
  "todo"

def todo : Except BuildError (Command TodoList) := do
  let started ← Builder.chatInput todoName (some "Manage a todo list")
  let declared ← started.calls
    [.addSubcommand "add" (some "Add an item"),
      .addSubcommand "remove" (some "Remove an item"),
      .addSubcommand "list" (some "List the items"),
      .addArgument "add <item...; Item to add>" none .payload {},
      .addArgument "add [priority: integer; Priority from 1 to 5]" none .payload
        { default := some (.integer 3), min := some 1, max := some 5 },
      .addArgument "remove <item...; Item to remove>" none (.dynamic suggestTodos) {},
      .addArgument "list (-p priorities; Show priorities)" none .payload {}]
  declared.finish (some todoAction)

/-! ## The other commands -/

def testyAction : DemoAction :=
  fun _ arguments _ todos =>
    let text (name absent : String) := (arguments.text? name).getD absent
    let content := "testy " ++ text "subcmd" "" ++ " `" ++ text "required" "" ++ "` with `" ++
      text "optional" "nothing" ++ "`"
    (.replied (.message content), todos)

/-- A command with literal choices and restrictions. -/
def testy : Except BuildError (Command TodoList) := do
  let started ← Builder.chatInput "testy" (some "A test command")
  let declared ← started.calls
    [.addArgument "<subcmd; Sub command>" none (.literal ["add", "delete"]) {},
      .addArgument "<required; A required argument>" none .payload {},
      .addArgument "[optional; Noob; Choice A|Choice B|Choice C]" none .payload {},
      .addRequirement "ADMINISTRATOR",
      .addRequirement "@Bot",
      .addGuild "668485643487412234"]
  declared.finish (some testyAction)

def argumentsAction : DemoAction :=
  fun _ arguments _ todos => (.replied (.message arguments.toJson.compact), todos)

/-- A command declared by a single text. -/
def anotha : Except BuildError (Command TodoList) := do
  let declared ← Builder.ofDeclaration
    "anotha;+Another+test+command <req; An argument> [opt; Choice; A|B]"
  declared.finish (some argumentsAction)

def inspectAction : DemoAction :=
  fun _ arguments _ todos =>
    (.replied (.ephemeral ("```json\n" ++ arguments.toJson.compact ++ "\n```")), todos)

def inspect : Except BuildError (Command TodoList) := do
  let started ← Builder.contextMenu "Inspect"
  let kind ← started.menuKind "message"
  kind.finish (some inspectAction)

def commands : Except BuildError (List (Command TodoList)) := do
  return [← testy, ← anotha, ← todo, ← inspect]

/-- Registers demonstration commands one after the other, up to the first one that is
refused.  The todo list is empty whenever its command has been registered. -/
def registerAll {π : Type} (dispatcher : Dispatcher TodoList π) (world : World TodoList π) :
    List (Command TodoList) → Option DispatchError × Dispatcher TodoList π × World TodoList π
  | [] => (none, dispatcher, world)
  | command :: rest =>
      match dispatcher.register command world.platform with
      | (.error refusal, after) => (some refusal, dispatcher, { world with platform := after })
      | (.ok next, after) =>
          let todos := if command.name = todoName then [] else world.shared
          registerAll next ⟨todos, after⟩ rest

end SlashCommand.Demo
