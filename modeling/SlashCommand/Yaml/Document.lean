import SlashCommand.Yaml.Layout
import SlashCommand.Yaml.Tree

/-!
# Documents

The tokens of a YAML document are read as a tree.  Where a node may stand but none
is written, there is an empty scalar.
-/

namespace SlashCommand.Yaml

/-- What is left of a document, and what was learned from the part before. -/
structure Reader where
  tokens : List Token
  /-- The handles of tags, each with the beginning it stands for. -/
  handles : List (String × String) := [("!", "!"), ("!!", "tag:yaml.org,2002:")]
  /-- The names of anchors, each with its number. -/
  names : List (String × Nat) := []

namespace Reader

def next? (reader : Reader) : Option Token :=
  reader.tokens.head?

def nextIs (reader : Reader) (tokens : List Token) : Bool :=
  reader.next?.any tokens.contains

def advance (reader : Reader) : Reader :=
  { reader with tokens := reader.tokens.drop 1 }

/-- Numbers an anchor by the count of the names known before.  A name that is known
already gets a number again, which it shares with the next new name. -/
def nameAnchor (reader : Reader) (name : String) : Nat × Reader :=
  let number := reader.names.length
  let others := reader.names.filter fun known => known.1 != name
  (number, { reader with names := (name, number) :: others })

/-- The tag of a handle and a suffix, which is a whole tag if there is no handle. -/
def tagOf? (reader : Reader) (handle suffix : String) : Option String :=
  if handle.isEmpty then
    some suffix
  else
    (reader.handles.lookup handle).map fun beginning => beginning ++ suffix

def anchor (reader : Reader) : Option Nat × Reader :=
  match reader.next? with
  | some (.anchor name) =>
      let (number, named) := reader.nameAnchor name
      (some number, named.advance)
  | _ => (none, reader)

def tag? (reader : Reader) : Option (Option String × Reader) :=
  match reader.next? with
  | some (.tag handle suffix) =>
      (reader.tagOf? handle suffix).map fun tag => (some tag, reader.advance)
  | _ => some (none, reader)

/-- Reads an anchor and a tag, in either order. -/
def properties? (reader : Reader) : Option (Properties × Reader) := do
  match reader.anchor with
  | (some number, behind) =>
      let (tag, rest) ← behind.tag?
      return (⟨some number, tag⟩, rest)
  | (none, _) =>
      let (tag, behind) ← reader.tag?
      if tag.isSome then
        let (number, rest) := behind.anchor
        return (⟨number, tag⟩, rest)
      else
        return ({}, behind)

/-! ## Nodes -/

mutual

/-- Reads a node.  Blocks may start within blocks only, and a sequence without
indentation as the key or the value of a block mapping only. -/
def node? (inBlock indentless : Bool) : Nat → Reader → Option (Tree × Reader)
  | 0, _ => none
  | steps + 1, reader => do
      if let some (.alias name) := reader.next? then
        let number ← reader.names.lookup name
        return (.alias number, reader.advance)
      let (properties, behind) ← reader.properties?
      let tree (content : List Tree × Reader) := (Tree.sequence properties content.1, content.2)
      let table (content : List (Tree × Tree) × Reader) :=
        (Tree.mapping properties content.1, content.2)
      match behind.next?, inBlock with
      | some (.scalar plain text), _ => return (.scalar properties plain text, behind.advance)
      | some .flowSequenceStart, _ => (flowItems? true steps behind.advance).map tree
      | some .flowMappingStart, _ => (flowFields? true steps behind.advance).map table
      | some .blockSequenceStart, true => (blockItems? false steps behind.advance).map tree
      | some .blockMappingStart, true => (blockFields? steps behind.advance).map table
      | some .entry, _ =>
          if indentless then
            (blockItems? true steps behind).map tree
          else if properties = {} then
            none
          else
            return (.scalar properties true "", behind)
      | _, _ =>
          if properties = {} then
            none
          else
            return (.scalar properties true "", behind)

def nodeUnless? (ends : List Token) (inBlock indentless : Bool) (steps : Nat)
    (reader : Reader) : Option (Tree × Reader) :=
  match steps with
  | 0 => none
  | steps + 1 =>
      if reader.nextIs ends then
        some (.empty, reader)
      else
        node? inBlock indentless steps reader

/-- Reads the items of a block sequence.  One without indentation ends before any
token that is no item. -/
def blockItems? (indentless : Bool) : Nat → Reader → Option (List Tree × Reader)
  | 0, _ => none
  | steps + 1, reader => do
      if reader.nextIs [.entry] then
        let ends : List Token :=
          if indentless then [.entry, .key, .value, .blockEnd] else [.entry, .blockEnd]
        let (item, behind) ← nodeUnless? ends true false steps reader.advance
        let (items, rest) ← blockItems? indentless steps behind
        return (item :: items, rest)
      else if indentless then
        return ([], reader)
      else if reader.nextIs [.blockEnd] then
        return ([], reader.advance)
      else
        none

def blockFields? : Nat → Reader → Option (List (Tree × Tree) × Reader)
  | 0, _ => none
  | steps + 1, reader => do
      if reader.nextIs [.key] then
        let ends : List Token := [.key, .value, .blockEnd]
        let (key, behind) ← nodeUnless? ends true true steps reader.advance
        let (value, after) ← value? ends true steps behind
        let (fields, rest) ← blockFields? steps after
        return ((key, value) :: fields, rest)
      else if reader.nextIs [.blockEnd] then
        return ([], reader.advance)
      else
        none

/-- Reads a value, which is empty without its indicator or before one of some
tokens. -/
def value? (ends : List Token) (inBlock : Bool) (steps : Nat) (reader : Reader) :
    Option (Tree × Reader) :=
  match steps with
  | 0 => none
  | steps + 1 =>
      if reader.nextIs [.value] then
        nodeUnless? ends inBlock inBlock steps reader.advance
      else
        some (.empty, reader)

/-- Reads the items of a flow sequence.  A comma may follow the last one. -/
def flowItems? (first : Bool) : Nat → Reader → Option (List Tree × Reader)
  | 0, _ => none
  | steps + 1, reader => do
      let ended := reader.nextIs [.flowSequenceEnd]
      if !ended && !first && !reader.nextIs [.separator] then
        none
      let start := if ended || first then reader else reader.advance
      if start.nextIs [.flowSequenceEnd] then
        return ([], start.advance)
      let (item, behind) ←
        if start.nextIs [.key] then
          flowPair? steps start.advance
        else
          node? false false steps start
      let (items, rest) ← flowItems? false steps behind
      return (item :: items, rest)

/-- Reads a mapping of one field within a flow sequence.  A token that stands in
place of its key is left out. -/
def flowPair? (steps : Nat) (reader : Reader) : Option (Tree × Reader) :=
  match steps with
  | 0 => none
  | steps + 1 => do
      let (key, behind) ←
        if reader.nextIs [.value, .separator, .flowSequenceEnd] then
          some (.empty, reader.advance)
        else
          node? false false steps reader
      let (value, rest) ← value? [.separator, .flowSequenceEnd] false steps behind
      return (.mapping {} [(key, value)], rest)

/-- Reads the fields of a flow mapping.  A comma may follow the last one. -/
def flowFields? (first : Bool) : Nat → Reader → Option (List (Tree × Tree) × Reader)
  | 0, _ => none
  | steps + 1, reader => do
      let ended := reader.nextIs [.flowMappingEnd]
      if !ended && !first && !reader.nextIs [.separator] then
        none
      let start := if ended || first then reader else reader.advance
      if start.nextIs [.flowMappingEnd] then
        return ([], start.advance)
      let (field, behind) ← flowField? steps start
      let (fields, rest) ← flowFields? false steps behind
      return (field :: fields, rest)

/-- Reads a field of a flow mapping.  A node that is no key has an empty value. -/
def flowField? (steps : Nat) (reader : Reader) : Option ((Tree × Tree) × Reader) :=
  match steps with
  | 0 => none
  | steps + 1 => do
      if reader.nextIs [.key] then
        let keyEnds : List Token := [.value, .separator, .flowMappingEnd]
        let (key, behind) ← nodeUnless? keyEnds false false steps reader.advance
        let (value, rest) ← value? [.separator, .flowMappingEnd] false steps behind
        return ((key, value), rest)
      else
        let (key, behind) ← node? false false steps reader
        return ((key, .empty), behind)

end

/-! ## Documents -/

/-- The handles that directives define, in front of those defined anyway.  A handle
may be defined once, and the version be stated once. -/
def handles? (directives : List Token) : Option (List (String × String)) :=
  let defined := directives.filterMap fun token =>
    match token with
    | .shorthand handle beginning => some (handle, beginning)
    | _ => none
  if (defined.map Prod.fst).Nodup ∧ directives.count .version ≤ 1 then some defined else none

/-- Reads the directives, if there are any, which the mark of a start must follow. -/
def directives? (reader : Reader) : Option Reader := do
  let defined ← handles? (reader.tokens.takeWhile Token.isDirective)
  let behind := reader.tokens.dropWhile Token.isDirective
  if behind.head? = some .documentStart then
    return { reader with tokens := behind, handles := defined ++ reader.handles }
  else
    none

def document? (reader : Reader) : Option (Tree × Reader) := do
  let steps := 4 * reader.tokens.length + 4
  if reader.next?.any fun token => token.isDirective || token == .documentStart then
    let content := (← reader.directives?).advance
    let ends := content.next?.all fun token =>
      token.isDirective || token == .documentStart || token == .documentEnd
    if ends then
      return (.empty, content)
    else
      node? true false steps content
  else
    node? true false steps reader

end Reader

/-- The tree of a text, which may hold one document at most. -/
def document? (content : String) : Option (Option Tree) := do
  let tokens ← tokens? (← glyphs? content)
  if tokens.isEmpty then
    return none
  else
    let (tree, reader) ← Reader.document? { tokens }
    if reader.tokens.all fun token => token == .documentEnd then return some tree else none

end SlashCommand.Yaml
