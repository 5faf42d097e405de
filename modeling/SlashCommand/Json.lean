import SlashCommand.Decimal.Layout

/-!
# JSON documents

A JSON document as a tree.  Whole-number literals and literals with a fraction
or an exponent are kept apart, and the fields of an object stay in the order in
which they are given.
-/

namespace SlashCommand

inductive Json where
  | null
  | bool (value : Bool)
  | integer (value : Int)
  | float (value : Float)
  | text (value : String)
  | list (items : List Json)
  | object (fields : List (String × Json))

namespace Json

instance : Inhabited Json :=
  ⟨.null⟩

/-- The document of a number: JSON has none for infinities and for what is no
number, and writes null for them. -/
def ofFloat (value : Float) : Json :=
  if value.isFinite then .float value else .null

def ofTexts (items : List String) : Json :=
  .list (items.map .text)

def ofOption (write : α → Json) : Option α → Json
  | none => .null
  | some value => write value

/-- The last field of an object with a given name. -/
def field? (document : Json) (name : String) : Option Json :=
  match document with
  | .object fields => (fields.reverse.find? fun field => field.1 == name).map Prod.snd
  | _ => none

end Json

end SlashCommand
