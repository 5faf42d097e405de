/-!
# Configuration trees

A configuration is a tree of mappings and sequences with scalars at its leaves.
Merging lets one tree override another key by key.
-/

namespace SlashCommand.Console

inductive Node where
  | null
  | bool (value : Bool)
  /-- A number, of which no setting makes use. -/
  | number
  | text (value : String)
  | sequence (items : List Node)
  | mapping (fields : List (String × Node))

namespace Node

def field? (node : Node) (key : String) : Option Node :=
  match node with
  | .mapping fields => fields.lookup key
  | _ => none

/-- Puts a field into a list of fields, in place of one with the same key. -/
def putField (key : String) (node : Node) : List (String × Node) → List (String × Node)
  | [] => [(key, node)]
  | (other, value) :: rest =>
      if other = key then
        (key, node) :: rest
      else
        (other, value) :: putField key node rest

/-- Fields in their order, where of two with one key the later one counts. -/
def ofFields (fields : List (String × Node)) : Node :=
  .mapping (fields.foldl (fun known field => putField field.1 field.2 known) [])

mutual

/-- The first tree overridden by the second one. -/
def merge (base : Node) : Node → Node
  | .mapping fields =>
      match base with
      | .mapping known => .mapping (mergeFields known fields)
      | _ => .mapping fields
  | other => other

def mergeFields (known : List (String × Node)) : List (String × Node) → List (String × Node)
  | [] => known
  | (key, node) :: rest =>
      let merged :=
        match known.lookup key with
        | none => node
        | some value => merge value node
      mergeFields (putField key merged known) rest

end

end Node

end SlashCommand.Console
