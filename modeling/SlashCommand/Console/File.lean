import SlashCommand.Console.Node
import SlashCommand.Yaml.Document
import SlashCommand.Yaml.Scalar

/-!
# Configuration files

A configuration file is a YAML document with a mapping at its root.  An alias is
read as the node it stands for, as long as that does not blow up the document.
-/

namespace SlashCommand.Console.File

open Yaml (Tree)

/-! ## Aliases -/

/-- Reading a tree, given how many aliases may still be followed. -/
abbrev Reading := StateT Nat Option

/-- The tree an alias stands for, which is the last one with the anchor. -/
def target? (anchored : List (Nat × Tree)) (anchor : Nat) : Option Tree :=
  anchored.reverse.lookup anchor

def follow (anchored : List (Nat × Tree)) : Tree → Reading Tree
  | .alias anchor => fun allowed =>
      match allowed with
      | 0 => none
      | remaining + 1 => (target? anchored anchor).map fun tree => (tree, remaining)
  | tree => pure tree

def ofScalar : Yaml.Scalar → Node
  | .null => .null
  | .bool value => .bool value
  | .number => .number
  | .text value => .text value

def keyText (anchored : List (Nat × Tree)) (tree : Tree) : Reading String := do
  match ← follow anchored tree with
  | .scalar _ _ text => return text
  | _ => failure

/-- A tag of the document's own makes a mapping of one field, from its name to the
node. -/
def underTag (properties : Yaml.Properties) (node : Node) : Node :=
  match properties.ownTag? with
  | none => node
  | some name => .mapping [(name, node)]

/-- The node of a tree within which collections are nested down to a depth. -/
def ofTree (anchored : List (Nat × Tree)) (depth : Nat) (tree : Tree) : Reading Node := do
  match ← follow anchored tree, depth with
  | .scalar properties plain text, _ =>
      match Yaml.Scalar.value? properties.schemaTag? plain text with
      | some value => return underTag properties (ofScalar value)
      | none => failure
  | .sequence properties items, deeper + 1 =>
      return underTag properties (.sequence (← items.mapM (ofTree anchored deeper)))
  | .mapping properties fields, deeper + 1 =>
      let named ← fields.mapM fun (key, value) => do
        return (← keyText anchored key, ← ofTree anchored deeper value)
      return underTag properties (.ofFields named)
  | _, _ => failure

/-! ## Documents -/

/-- How deep collections may be nested, the root included. -/
def depthLimit : Nat :=
  128

/-- The node of the root of a document: a mapping, empty if nothing is written.  Its tag
has no meaning. -/
def root? (tree : Tree) : Option Node :=
  match tree with
  | .scalar _ true "" => some (.mapping [])
  | .mapping properties fields =>
      let untagged : Tree := .mapping { properties with tag := none } fields
      (ofTree tree.anchored depthLimit untagged (100 * tree.size)).map Prod.fst
  | _ => none

def read? (content : String) : Option Node := do
  match ← Yaml.document? content with
  | none => return .mapping []
  | some tree => root? tree

end SlashCommand.Console.File
