import SlashCommand.Console.Literal
import SlashCommand.Text.Split

/-!
# Settings from the environment

An environment variable `SLASHKIT_A__B` sets the key `b` in the mapping `a`; a point
may stand for the two underscores.  Its value is written as a literal.
-/

namespace SlashCommand.Console.Environment

/-- What the name of a variable starts with, in any case. -/
def lead : List Char :=
  "slashkit_".toList

def unifyMarks : List Char → List Char
  | [] => []
  | '_' :: '_' :: rest => '.' :: unifyMarks rest
  | c :: rest => c :: unifyMarks rest

/-- The keys in the name of a variable, the outermost first, unless it does not concern
the settings or one of them is empty. -/
def keys? (name : String) : Option (List String) := do
  let path ← Text.afterStart? lead ((Text.trim name.toList).map Char.toLower)
  let keys := Text.splitAtEach (fun c => c == '.') (Text.trim (unifyMarks path))
  if keys.any List.isEmpty then none else return keys.map String.ofList

def nest (node : Node) : List String → Node
  | [] => node
  | key :: rest => .mapping [(key, nest node rest)]

/-- The tree of one variable, empty if it does not concern the settings. -/
def entryNode (entry : String × String) : Node :=
  match keys? entry.1 with
  | none => .mapping []
  | some keys => nest (Literal.value entry.2) keys

/-- The tree of all variables, taken in the order of their names. -/
def node (environment : List (String × String)) : Node :=
  let ordered := environment.mergeSort fun first second => first.1 ≤ second.1
  ordered.foldl (fun tree entry => tree.merge (entryNode entry)) (.mapping [])

end SlashCommand.Console.Environment
