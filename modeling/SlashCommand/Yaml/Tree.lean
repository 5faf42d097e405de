import SlashCommand.Text.Split

/-!
# Trees of a document

A YAML document is a tree of scalars, sequences and mappings.  A node may have an
anchor, and an alias stands for the node with an anchor.
-/

namespace SlashCommand.Yaml

/-- What a node states in front of its content. -/
structure Properties where
  anchor : Option Nat := none
  tag : Option String := none
deriving DecidableEq

namespace Properties

/-- The name of a tag of the document's own, which an exclamation mark starts. -/
def ownTag? (properties : Properties) : Option String :=
  properties.tag.bind fun tag => (Text.afterStart? ['!'] tag.toList).map String.ofList

/-- The tag of a schema, which is any other tag. -/
def schemaTag? (properties : Properties) : Option String :=
  if properties.ownTag?.isSome then none else properties.tag

end Properties

inductive Tree where
  /-- Stands for the node whose anchor has the number. -/
  | alias (anchor : Nat)
  /-- A scalar, and whether it is plain, that is written without quotation marks. -/
  | scalar (properties : Properties) (plain : Bool) (text : String)
  | sequence (properties : Properties) (items : List Tree)
  | mapping (properties : Properties) (fields : List (Tree × Tree))

namespace Tree

/-- The scalar where nothing is written. -/
def empty : Tree :=
  .scalar {} true ""

/-- A node in front of others, if it has an anchor. -/
def noteAnchor (properties : Properties) (tree : Tree) (others : List (Nat × Tree)) :
    List (Nat × Tree) :=
  match properties.anchor with
  | none => others
  | some anchor => (anchor, tree) :: others

mutual

/-- The nodes with anchors, each with the number of its anchor, in the order in which
they start. -/
def anchored : Tree → List (Nat × Tree)
  | .alias _ => []
  | .scalar properties plain text => noteAnchor properties (.scalar properties plain text) []
  | .sequence properties items =>
      noteAnchor properties (.sequence properties items) (anchoredItems items)
  | .mapping properties fields =>
      noteAnchor properties (.mapping properties fields) (anchoredFields fields)

def anchoredItems : List Tree → List (Nat × Tree)
  | [] => []
  | item :: others => anchored item ++ anchoredItems others

def anchoredFields : List (Tree × Tree) → List (Nat × Tree)
  | [] => []
  | (key, value) :: others => anchored key ++ anchored value ++ anchoredFields others

end

mutual

/-- The size of a document, where the start and the end of a collection count. -/
def size : Tree → Nat
  | .alias _ => 1
  | .scalar _ _ _ => 1
  | .sequence _ items => sizeOfItems items + 2
  | .mapping _ fields => sizeOfFields fields + 2

def sizeOfItems : List Tree → Nat
  | [] => 0
  | item :: others => size item + sizeOfItems others

def sizeOfFields : List (Tree × Tree) → Nat
  | [] => 0
  | (key, value) :: others => size key + size value + sizeOfFields others

end

end Tree

end SlashCommand.Yaml
