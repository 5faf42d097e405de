/-!
# Tokens of a document

The tokens of a YAML document: indicators, scalars and their properties, and the
starts and ends of blocks, which are not written but follow from the indentation.
-/

namespace SlashCommand.Yaml

inductive Token where
  | version
  /-- The directive that gives tags with a handle a common beginning. -/
  | shorthand (handle beginning : String)
  | documentStart
  | documentEnd
  | blockSequenceStart
  | blockMappingStart
  | blockEnd
  | flowSequenceStart
  | flowSequenceEnd
  | flowMappingStart
  | flowMappingEnd
  /-- The dash in front of an item of a block sequence. -/
  | entry
  /-- The comma between items of a flow collection. -/
  | separator
  | key
  | value
  | alias (name : String)
  | anchor (name : String)
  | tag (handle suffix : String)
  /-- A scalar, and whether it is plain, that is written without quotation marks. -/
  | scalar (plain : Bool) (text : String)
deriving DecidableEq

def Token.isDirective : Token → Bool
  | .version => true
  | .shorthand _ _ => true
  | _ => false

end SlashCommand.Yaml
