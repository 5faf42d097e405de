import SlashCommand.Text.Digit
import SlashCommand.Yaml.Glyph
import SlashCommand.Yaml.Token

/-!
# Anchors, tags and directives

The properties a node may have in front of it, a name to refer to it by and a tag
that states its type, and the directives in front of a document.
-/

namespace SlashCommand.Yaml

/-- The name at the start of a text, possibly empty, and what follows it. -/
def takeName (text : List Glyph) : List Char × List Glyph :=
  let isName (glyph : Glyph) := isWordChar glyph.char
  (chars (text.takeWhile isName), text.dropWhile isName)

def anchorName? (text : List Glyph) : Option (String × List Glyph) :=
  let (name, behind) := takeName text
  let ends := endsWord behind || startsWith behind "?:,]\x7d%@`".toList
  if name.isEmpty || !ends then none else some (String.ofList name, behind)

/-! ## Tags -/

/-- The characters of a tag without the flow indicators. -/
def isTagChar (c : Char) : Bool :=
  isWordChar c || ";/?:@&=+$.%!~*'()".toList.contains c

/-- The octets a text stands for, where a percent sign and two hexadecimal digits
stand for one. -/
def octets? : List Char → Option (List UInt8)
  | [] => some []
  | '%' :: high :: low :: rest =>
      match Text.hexDigit? high, Text.hexDigit? low, octets? rest with
      | some first, some second, some others => some ((16 * first + second).toUInt8 :: others)
      | _, _, _ => none
  | c :: rest =>
      if c = '%' then none else (octets? rest).map fun others => c.toNat.toUInt8 :: others

/-- The text of a part of a tag.  Flow indicators other than braces may stand in a
part between angle brackets. -/
def takeTag? (bracketed : Bool) (text : List Glyph) : Option (String × List Glyph) :=
  let isPart (glyph : Glyph) :=
    isTagChar glyph.char || (bracketed && [',', '[', ']'].contains glyph.char)
  match octets? (chars (text.takeWhile isPart)) with
  | none => none
  | some octets =>
      (String.fromUTF8? ⟨octets.toArray⟩).map fun part => (part, text.dropWhile isPart)

/-- The handle and the suffix of a tag, given what follows its exclamation mark.  A
tag without a handle of its own has the handle `!`; the tag `!` alone has none. -/
def tagParts? (text : List Glyph) : Option (String × String × List Glyph) :=
  if startsWith text ['<'] then do
    let (tag, behind) ← takeTag? true (text.drop 1)
    if tag.isEmpty || !startsWith behind ['>'] then
      none
    else
      return ("", tag, behind.drop 1)
  else do
    let (name, behind) := takeName text
    if startsWith behind ['!'] then
      let (suffix, rest) ← takeTag? false (behind.drop 1)
      if suffix.isEmpty then
        none
      else
        return ("!" ++ String.ofList name ++ "!", suffix, rest)
    else
      let (ending, rest) ← takeTag? false behind
      let suffix := String.ofList name ++ ending
      if suffix.isEmpty then
        return ("", "!", rest)
      else
        return ("!", suffix, rest)

def tag? (inFlow : Bool) (text : List Glyph) : Option (Token × List Glyph) := do
  let (handle, suffix, behind) ← tagParts? text
  if endsWord behind || (inFlow && startsWith behind [',']) then
    return (.tag handle suffix, behind)
  else
    none

/-! ## Directives -/

def versionNumber? (text : List Glyph) : Option (Nat × List Glyph) :=
  let isDigit (glyph : Glyph) := glyph.char.isDigit
  let digits := chars (text.takeWhile isDigit)
  if digits.isEmpty || 9 < digits.length then
    none
  else
    some (digits.foldl (fun number digit => 10 * number + (digit.toNat - 48)) 0,
      text.dropWhile isDigit)

/-- The version of the language, which must be 1.1 or 1.2. -/
def version? (text : List Glyph) : Option (Token × List Glyph) := do
  let (major, behind) ← versionNumber? text
  if startsWith behind ['.'] then
    let (minor, rest) ← versionNumber? (behind.drop 1)
    if major = 1 ∧ (minor = 1 ∨ minor = 2) then
      return (.version, rest)
    else
      none
  else
    none

def handle? (text : List Glyph) : Option (String × List Glyph) :=
  let (name, behind) := takeName text
  if startsWith behind ['!'] then
    some ("!" ++ String.ofList name ++ "!", behind.drop 1)
  else if name.isEmpty then
    some ("!", behind)
  else
    none

def shorthand? (text : List Glyph) : Option (Token × List Glyph) := do
  if !startsWith text ['!'] then
    none
  let (handle, behind) ← handle? (text.drop 1)
  if !startsWith behind [' ', '\t'] then
    none
  let (beginning, rest) ← takeTag? true (skipBlanks behind)
  if beginning.isEmpty || !endsWord rest then
    none
  else
    return (.shorthand handle beginning, rest)

def directive? (text : List Glyph) : Option (Token × List Glyph) := do
  let (name, behind) := takeName text
  if !endsWord behind then
    none
  let (token, rest) ←
    if name = "YAML".toList then
      version? (skipBlanks behind)
    else if name = "TAG".toList then
      shorthand? (skipBlanks behind)
    else
      none
  return (token, ← skipLine? rest)

end SlashCommand.Yaml
