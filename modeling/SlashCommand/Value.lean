import SlashCommand.Decimal.Layout
import SlashCommand.Decimal.Literal
import SlashCommand.Json

/-!
# Argument values

The value a command receives for one of its parameters.  Platforms deliver typed
values; a text message only ever yields texts, lists of texts, and the values its
words denote.  The readings of a value as another type accept whatever denotes
one: a whole number may come as text, a number may be whole.
-/

namespace SlashCommand

inductive Value where
  | bool (value : Bool)
  | integer (value : Int64)
  | number (value : Float)
  | text (value : String)
  | list (items : List String)

namespace Value

/-- The text of a value.  The items of a list stand one blank apart. -/
def display : Value → String
  | .bool value => if value then "true" else "false"
  | .integer value => toString value.toInt
  | .number value => Decimal.Layout.plain.text value
  | .text value => value
  | .list items => Text.join " " items

/-! ## Readings -/

def text? : Value → Option String
  | .text value => some value
  | _ => none

/-- The whole number a value denotes.  A floating-point number without a fraction
denotes the nearest whole number of 64 bits. -/
def integer? : Value → Option Int64
  | .integer value => some value
  | .number value => if value.isFinite && value.floor == value then some value.toInt64 else none
  | .text value => Decimal.word? value.toList
  | _ => none

def number? : Value → Option Float
  | .integer value => some value.toFloat
  | .number value => some value
  | .text value => Decimal.float? value.toList
  | _ => none

def bool? : Value → Option Bool
  | .bool value => some value
  | .text "true" => some true
  | .text "false" => some false
  | _ => none

def list? : Value → Option (List String)
  | .list items => some items
  | _ => none

/-! ## JSON form -/

/-- The document of a value.  Nothing marks its type but its own form. -/
def toJson : Value → Json
  | .bool value => .bool value
  | .integer value => .integer value.toInt
  | .number value => .ofFloat value
  | .text value => .text value
  | .list items => .ofTexts items

def textOfJson? : Json → Option String
  | .text value => some value
  | _ => none

/-- The value a document denotes, if it denotes one: a list must hold texts only,
and a whole number beyond 64 bits becomes the nearest floating-point number. -/
def ofJson? : Json → Option Value
  | .bool value => some (.bool value)
  | .integer value =>
      if Decimal.fitsWord value then
        some (.integer (Int64.ofInt value))
      else
        let magnitude := Decimal.nearest value.natAbs 0
        some (.number (if value < 0 then -magnitude else magnitude))
  | .float value => some (.number value)
  | .text value => some (.text value)
  | .list items => (items.mapM textOfJson?).map .list
  | .null => none
  | .object _ => none

end Value

end SlashCommand
