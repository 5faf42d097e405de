import SlashCommand.Json
import SlashCommand.Text.Split

/-!
# JSON text

A document is written either compactly, without any blank, or with one item a
line, indented by two spaces a level.  Only the quotation mark, the backslash and
the control characters are escaped.
-/

namespace SlashCommand.Json

/-! ## Texts -/

def hexDigit (digit : Nat) : Char :=
  if digit < 10 then Char.ofNat (48 + digit) else Char.ofNat (87 + digit)

def escapeChar (c : Char) : List Char :=
  match c with
  | '"' => ['\\', '"']
  | '\\' => ['\\', '\\']
  | '\x08' => ['\\', 'b']
  | '\x0c' => ['\\', 'f']
  | '\n' => ['\\', 'n']
  | '\r' => ['\\', 'r']
  | '\t' => ['\\', 't']
  | other =>
      if other.toNat < 0x20 then
        ['\\', 'u', '0', '0', hexDigit (other.toNat / 16), hexDigit (other.toNat % 16)]
      else
        [other]

def quote (value : String) : String :=
  String.ofList ('"' :: value.toList.flatMap escapeChar ++ ['"'])

/-! ## Documents -/

/-- A sequence of written items between its brackets, on one line or with one
item a line at the given depth. -/
def enclose (opening closing : String) (depth : Option Nat) (items : List String) : String :=
  if items.isEmpty then
    opening ++ closing
  else
    match depth with
    | none => opening ++ Text.join "," items ++ closing
    | some level =>
        let indent (level : Nat) := "\n" ++ String.ofList (List.replicate (2 * level) ' ')
        opening ++ indent (level + 1) ++ Text.join ("," ++ indent (level + 1)) items ++
          indent level ++ closing

def fieldMark (depth : Option Nat) : String :=
  if depth.isSome then ": " else ":"

mutual

/-- A document as text, compact without a depth and indented from a depth on. -/
def render (depth : Option Nat) : Json → String
  | .null => "null"
  | .bool value => if value then "true" else "false"
  | .integer value => toString value
  | .float value => Decimal.Layout.json.text value
  | .text value => quote value
  | .list items => enclose "[" "]" depth (renderItems (depth.map (· + 1)) items)
  | .object fields => enclose "\x7b" "\x7d" depth (renderFields (depth.map (· + 1)) fields)

def renderItems (depth : Option Nat) : List Json → List String
  | [] => []
  | item :: rest => render depth item :: renderItems depth rest

def renderFields (depth : Option Nat) : List (String × Json) → List String
  | [] => []
  | (name, value) :: rest =>
      (quote name ++ fieldMark depth ++ render depth value) :: renderFields depth rest

end

/-- A document on one line. -/
def compact (document : Json) : String :=
  render none document

/-- A document with one item a line. -/
def pretty (document : Json) : String :=
  render (some 0) document

end SlashCommand.Json
