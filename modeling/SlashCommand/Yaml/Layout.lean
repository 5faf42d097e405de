import SlashCommand.Yaml.BlockScalar
import SlashCommand.Yaml.FlowScalar
import SlashCommand.Yaml.Property

/-!
# Layout

The tokens of a document follow from its text and from its layout.  Blocks start
and end with the indentation of their lines; whether a scalar is a key shows only at
the colon behind it, which must stand on the same line and not far away.
-/

namespace SlashCommand.Yaml

/-- What turns out to stand in front of a token. -/
inductive Opening where
  | nothing
  /-- The token starts a key. -/
  | key
  /-- The token starts the first key of a block mapping. -/
  | mapping
deriving DecidableEq

def Opening.tokens : Opening → List Token
  | .nothing => []
  | .key => [.key]
  | .mapping => [.blockMappingStart, .key]

/-- A node that may turn out to be a key. -/
structure Candidate where
  /-- The place of its first token among the tokens. -/
  slot : Nat
  /-- It stands where only a key may stand. -/
  required : Bool
  start : Glyph

structure Layout where
  tokens : Array (Opening × Token) := #[]
  /-- The least column inside the innermost block, zero outside of all blocks. -/
  floor : Nat := 0
  /-- The same of the blocks around it, the innermost first. -/
  outer : List Nat := []
  /-- The candidate of the innermost collection. -/
  candidate : Option Candidate := none
  /-- The candidates of the collections around it, one for every flow collection. -/
  enclosing : List (Option Candidate) := []
  /-- A key may start here. -/
  keyAllowed : Bool := true

namespace Layout

/-- The reader is within a flow collection, where the indentation has no meaning. -/
def inFlow (layout : Layout) : Bool :=
  !layout.enclosing.isEmpty

def emit (layout : Layout) (token : Token) : Layout :=
  { layout with tokens := layout.tokens.push (.nothing, token) }

def allowKey (layout : Layout) (allowed : Bool) : Layout :=
  { layout with keyAllowed := allowed }

/-- Opens a block at a column, if that is inside the innermost block. -/
def openBlock (layout : Layout) (column : Nat) : Layout :=
  { layout with floor := column + 1, outer := layout.floor :: layout.outer }

/-- A block that starts at the column would be a new one. -/
def startsBlock (layout : Layout) (column : Nat) : Bool :=
  !layout.inFlow && layout.floor ≤ column

/-- Opens a block at a column with a token, unless the innermost block starts
there. -/
def enter (layout : Layout) (column : Nat) (token : Token) : Layout :=
  if layout.startsBlock column then (layout.emit token).openBlock column else layout

/-- Ends the blocks, given those around the innermost one, down to one with a
floor. -/
def leaveFrom (layout : Layout) (floor : Nat) : List Nat → Layout
  | [] => layout
  | next :: others =>
      if floor < layout.floor then
        leaveFrom { layout.emit .blockEnd with floor := next, outer := others } floor others
      else
        layout

/-- Ends the blocks that start right of a column; the columns count from one, so
that zero ends all blocks. -/
def leave (layout : Layout) (floor : Nat) : Layout :=
  if layout.inFlow then layout else layout.leaveFrom floor layout.outer

/-! ## Keys -/

/-- Gives up the candidate, unless it is required. -/
def dropCandidate (layout : Layout) : Option Layout :=
  if layout.candidate.any Candidate.required then
    none
  else
    some { layout with candidate := none }

/-- Makes the next token a candidate, if a key is allowed there. -/
def addCandidate (layout : Layout) (start : Glyph) : Option Layout :=
  if layout.keyAllowed then do
    let cleared ← layout.dropCandidate
    let required := !layout.inFlow && layout.floor == start.column + 1
    return { cleared with candidate := some ⟨layout.tokens.size, required, start⟩ }
  else
    some layout

/-- The most octets a key may have. -/
def maxKeyLength : Nat :=
  1024

/-- The candidate at a later place: it expires at the end of its line or when it gets
too long, which is an error if it is required. -/
def expire? (here : Glyph) : Option Candidate → Option (Option Candidate)
  | none => some none
  | some candidate =>
      if candidate.start.line < here.line ∨
          candidate.start.index + maxKeyLength < here.index then
        if candidate.required then none else some none
      else
        some (some candidate)

def expireAll (layout : Layout) (here : Glyph) : Option Layout := do
  let candidate ← expire? here layout.candidate
  let enclosing ← layout.enclosing.mapM (expire? here)
  return { layout with candidate, enclosing }

def openFlow (layout : Layout) (start : Glyph) (token : Token) : Option Layout := do
  let saved ← layout.addCandidate start
  let entered :=
    { saved with candidate := none, enclosing := saved.candidate :: saved.enclosing }
  return (entered.emit token).allowKey true

def closeFlow (layout : Layout) (token : Token) : Option Layout := do
  let cleared ← layout.dropCandidate
  let left :=
    match cleared.enclosing with
    | [] => cleared
    | candidate :: others => { cleared with candidate := candidate, enclosing := others }
  return (left.emit token).allowKey false

def separate (layout : Layout) : Option Layout := do
  return ((← layout.dropCandidate).emit .separator).allowKey true

def readEntry (layout : Layout) (column : Nat) : Option Layout := do
  if !layout.inFlow && !layout.keyAllowed then
    none
  let entered := layout.enter column .blockSequenceStart
  return ((← entered.dropCandidate).emit .entry).allowKey true

def readKey (layout : Layout) (column : Nat) : Option Layout := do
  if !layout.inFlow && !layout.keyAllowed then
    none
  let entered := layout.enter column .blockMappingStart
  return ((← entered.dropCandidate).emit .key).allowKey (!layout.inFlow)

/-- Turns a candidate into a key, the first one of a block mapping if it is inside
the innermost block. -/
def resolve (layout : Layout) (candidate : Candidate) : Layout :=
  let column := candidate.start.column
  let starts := layout.startsBlock column
  let opening : Opening := if starts then .mapping else .key
  let opened := if starts then layout.openBlock column else layout
  { opened with
    tokens := layout.tokens.modify candidate.slot fun token => (opening, token.2)
    candidate := none }

/-- Reads the colon in front of a value.  Without a candidate it follows a key behind
a question mark, or no key at all. -/
def readValue (layout : Layout) (column : Nat) : Option Layout :=
  match layout.candidate with
  | some candidate => some (((layout.resolve candidate).emit .value).allowKey false)
  | none =>
      if layout.inFlow then
        some ((layout.emit .value).allowKey false)
      else if layout.keyAllowed then
        some (((layout.enter column .blockMappingStart).emit .value).allowKey true)
      else
        none

def readMark (layout : Layout) (token : Token) : Option Layout := do
  return ((← (layout.leave 0).dropCandidate).emit token).allowKey false

/-! ## Reading -/

/-- The layout where the next token starts, and the text from there on.  Tabs may
stand between tokens only where no key is allowed; a byte order mark may start any line,
and a comment may follow any token. -/
def skip (layout : Layout) (inComment : Bool) : List Glyph → Layout × List Glyph
  | [] => (layout, [])
  | glyph :: rest =>
      if isBreak glyph.char then
        skip (layout.allowKey (layout.keyAllowed || !layout.inFlow)) false rest
      else if inComment then
        skip layout true rest
      else if glyph.char == ' ' || (glyph.char == '\uFEFF' && glyph.column == 0) ||
          (glyph.char == '\t' && (layout.inFlow || !layout.keyAllowed)) then
        skip layout false rest
      else if glyph.char == '#' then
        skip layout true rest
      else
        (layout, glyph :: rest)

/-- Appends a node that may be a key, given its token and what follows it. -/
def readNode (layout : Layout) (start : Glyph) (node : Option (Token × List Glyph)) :
    Option (Layout × List Glyph) := do
  let saved ← layout.addCandidate start
  let (token, rest) ← node
  return ((saved.emit token).allowKey false, rest)

/-- The characters that cannot start a plain scalar, or only before a character that
is no blank: the indicators, and the tab where it is not skipped. -/
def indicators : List Char :=
  "-?:,[]#&*!|>'\"%@`\t".toList ++ ['\x7b', '\x7d']

def startsPlain (layout : Layout) (c : Char) (rest : List Glyph) : Bool :=
  !indicators.contains c || (c == '-' && !startsWith rest [' ', '\t']) ||
    (!layout.inFlow && (c == '?' || c == ':') && !endsWord rest)

def readPlain (layout : Layout) (start : Glyph) (rest : List Glyph) :
    Option (Layout × List Glyph) := do
  let saved ← layout.addCandidate start
  let scalar ← plain? layout.inFlow layout.floor (start :: rest)
  let token : Token := .scalar true (String.ofList scalar.text)
  return ((saved.emit token).allowKey scalar.endsLine, scalar.rest)

def readBlock (layout : Layout) (literal : Bool) (rest : List Glyph) :
    Option (Layout × List Glyph) := do
  let cleared ← layout.dropCandidate
  let (text, behind) ← block? literal layout.floor rest
  return ((cleared.emit (.scalar false (String.ofList text))).allowKey true, behind)

/-- A change of the layout by an indicator of one character. -/
def followedBy (rest : List Glyph) (layout : Option Layout) : Option (Layout × List Glyph) :=
  layout.map fun next => (next, rest)

def read (layout : Layout) (start : Glyph) (rest : List Glyph) : Option (Layout × List Glyph) :=
  let text := start :: rest
  let quoted (double : Bool) : Option (Token × List Glyph) :=
    (quoted? double rest).map fun (content, behind) =>
      (.scalar false (String.ofList content), behind)
  if start.column == 0 && start.char == '%' then do
    let cleared ← (layout.leave 0).dropCandidate
    let (token, behind) ← directive? rest
    return ((cleared.emit token).allowKey false, behind)
  else if startsMark '-' text then
    followedBy (rest.drop 2) (layout.readMark .documentStart)
  else if startsMark '.' text then
    followedBy (rest.drop 2) (layout.readMark .documentEnd)
  else if start.char == '[' then
    followedBy rest (layout.openFlow start .flowSequenceStart)
  else if start.char == '\x7b' then
    followedBy rest (layout.openFlow start .flowMappingStart)
  else if start.char == ']' then
    followedBy rest (layout.closeFlow .flowSequenceEnd)
  else if start.char == '\x7d' then
    followedBy rest (layout.closeFlow .flowMappingEnd)
  else if start.char == ',' then
    followedBy rest layout.separate
  else if start.char == '-' && endsWord rest then
    followedBy rest (layout.readEntry start.column)
  else if start.char == '?' && (layout.inFlow || endsWord rest) then
    followedBy rest (layout.readKey start.column)
  else if start.char == ':' && (layout.inFlow || endsWord rest) then
    followedBy rest (layout.readValue start.column)
  else if start.char == '*' then
    layout.readNode start ((anchorName? rest).map fun (name, behind) => (.alias name, behind))
  else if start.char == '&' then
    layout.readNode start ((anchorName? rest).map fun (name, behind) => (.anchor name, behind))
  else if start.char == '!' then
    layout.readNode start (tag? layout.inFlow rest)
  else if start.char == '|' && !layout.inFlow then
    layout.readBlock true rest
  else if start.char == '>' && !layout.inFlow then
    layout.readBlock false rest
  else if start.char == '\'' then
    layout.readNode start (quoted false)
  else if start.char == '"' then
    layout.readNode start (quoted true)
  else if layout.startsPlain start.char rest then
    layout.readPlain start rest
  else
    none

def finish (layout : Layout) : Option Layout :=
  (layout.leave 0).dropCandidate

/-- The layout at the end of a text.  Every token takes at least one character, so as
many steps as there are characters suffice. -/
def readAll : Nat → Layout → List Glyph → Option Layout
  | steps, layout, text =>
      match layout.skip false text, steps with
      | (last, []), _ => last.finish
      | (_, _ :: _), 0 => none
      | (next, start :: rest), steps + 1 => do
          let current ← next.expireAll start
          let (after, behind) ← (current.leave (start.column + 1)).read start rest
          readAll steps after behind

end Layout

def tokens? (text : List Glyph) : Option (List Token) := do
  let layout ← Layout.readAll text.length {} text
  return layout.tokens.toList.flatMap fun (opening, token) => opening.tokens ++ [token]

end SlashCommand.Yaml
