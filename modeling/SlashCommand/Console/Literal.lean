import SlashCommand.Console.Node
import SlashCommand.Decimal.Literal
import SlashCommand.Text.Digit

/-!
# Literals

How the value of an environment variable is written: a truth value, a number, a
text with or without quotation marks, a list such as `[a, b]` or a mapping such as
`{key = a}`.
-/

namespace SlashCommand.Console.Literal

/-- The blanks between literals, those of ASCII. -/
def isSpace (c : Char) : Bool :=
  c == ' ' || c == '\t' || c == '\n' || c == '\r' || c == '\x0c'

/-- The characters that end a text without quotation marks. -/
def isMark (c : Char) : Bool :=
  c == ',' || c == '\x7b' || c == '\x7d' || c == '[' || c == ']'

def skipSpace (text : List Char) : List Char :=
  text.dropWhile isSpace

/-! ## Quoted texts -/

/-- The text up to the closing quotation mark, which has no backslash in front of it,
and what follows it. -/
def quotation? : List Char → Option (List Char × List Char)
  | [] => none
  | '"' :: rest => some ([], rest)
  | '\\' :: c :: rest =>
      (quotation? rest).map fun (content, behind) => ('\\' :: c :: content, behind)
  | c :: rest => (quotation? rest).map fun (content, behind) => (c :: content, behind)

/-- The character whose number is given by as many hexadecimal digits, and what
follows them. -/
def codePoint? (count : Nat) (text : List Char) : Option (Char × List Char) :=
  if text.length < count then
    none
  else
    ((Text.number? 16 (text.take count)).bind Text.charOf?).map fun c => (c, text.drop count)

/-- The character an escape sequence stands for, given what follows its backslash, and
what follows the sequence. -/
def escape? : List Char → Option (Char × List Char)
  | '"' :: rest => some ('"', rest)
  | '\\' :: rest => some ('\\', rest)
  | 'b' :: rest => some ('\x08', rest)
  | 'f' :: rest => some ('\x0c', rest)
  | 'n' :: rest => some ('\n', rest)
  | 'r' :: rest => some ('\r', rest)
  | 't' :: rest => some ('\t', rest)
  | 'u' :: rest => codePoint? 4 rest
  | 'U' :: rest => codePoint? 8 rest
  | _ => none

theorem length_le_of_codePoint? {count : Nat} {text behind : List Char} {c : Char}
    (h : codePoint? count text = some (c, behind)) : behind.length ≤ text.length := by
  simp only [codePoint?] at h
  split at h
  next => simp at h
  next =>
      obtain ⟨point, _, heq⟩ := Option.map_eq_some_iff.1 h
      obtain ⟨_, rfl⟩ := Prod.mk.inj heq
      simp

theorem length_le_of_escape? {text behind : List Char} {c : Char}
    (h : escape? text = some (c, behind)) : behind.length ≤ text.length := by
  unfold escape? at h
  split at h
  case h_8 rest => exact Nat.le_succ_of_le (length_le_of_codePoint? h)
  case h_9 rest => exact Nat.le_succ_of_le (length_le_of_codePoint? h)
  case h_10 => simp at h
  all_goals
    obtain ⟨_, rfl⟩ := Prod.mk.inj (Option.some.inj h)
    simp

/-- A character may stand for itself between quotation marks, which controls other than
the tab may not. -/
def isQuotable (c : Char) : Bool :=
  c == '\t' || (0x20 ≤ c.toNat && c.toNat != 0x7F)

def readEscapes? (text : List Char) : Option (List Char) :=
  match text with
  | [] => some []
  | c :: rest =>
      if c = '\\' then
        match h : escape? rest with
        | none => none
        | some (character, behind) =>
            have := length_le_of_escape? h
            (readEscapes? behind).map (character :: ·)
      else if isQuotable c then
        (readEscapes? rest).map (c :: ·)
      else
        none
termination_by text.length

/-- As much of a text as a number of octets holds, unless a character straddles their
end. -/
def takeOctets? : Nat → List Char → Option (List Char)
  | _, [] => some []
  | 0, _ :: _ => some []
  | octets + 1, c :: rest =>
      if octets + 1 < c.utf8Size then
        none
      else
        (takeOctets? (octets + 1 - c.utf8Size) rest).map (c :: ·)

/-- The content of a quoted text.  In front of the first escape sequence, if there is
one, as many octets are kept as there are characters, which are all of them in ASCII. -/
def unescape? (text : List Char) : Option (List Char) := do
  let plain := text.takeWhile fun c => c != '\\'
  let escaped := text.dropWhile fun c => c != '\\'
  if !plain.all isQuotable then
    none
  let kept ← if escaped.isEmpty then some plain else takeOctets? plain.length plain
  return kept ++ (← readEscapes? escaped)

def quoted? (text : List Char) : Option (String × List Char) := do
  let (content, behind) ← quotation? text
  return (String.ofList (← unescape? content), behind)

/-- A whole number between the least signed and the greatest unsigned number of 64
bits. -/
def isWhole (text : List Char) : Bool :=
  (Decimal.integer? text).any fun number => -Int.pow 2 63 ≤ number && number < Int.pow 2 64

/-- A number, which is whole or has a point. -/
def isNumber (text : List Char) : Bool :=
  isWhole text || (text.contains '.' && (Decimal.float? text).isSome)

/-- The value of a text without quotation marks, which blanks may surround. -/
def bare (text : List Char) : Node :=
  let word := Text.trim text
  if isNumber word then .number else .text (String.ofList word)

def isKeyChar (c : Char) : Bool :=
  c.isAlphanum || c == '_' || c == '-'

/-- A key of a mapping, which blanks may surround, and what follows it. -/
def key? (text : List Char) : Option (String × List Char) := do
  match skipSpace text with
  | '"' :: rest =>
      let (key, behind) ← quoted? rest
      return (key, skipSpace behind)
  | start =>
      let key := start.takeWhile isKeyChar
      if key.isEmpty then
        none
      else
        return (String.ofList key, skipSpace (start.dropWhile isKeyChar))

/-! ## Values -/

mutual

/-- The value at the start of a text, which blanks may surround, and what follows it.
Values are nested as deep at most as there are steps. -/
def value? : Nat → List Char → Option (Node × List Char)
  | 0, _ => none
  | steps + 1, text => do
      let start := skipSpace text
      let (node, behind) ←
        match Text.afterStart? "true".toList start, Text.afterStart? "false".toList start with
        | some rest, _ => some (.bool true, rest)
        | none, some rest => some (.bool false, rest)
        | none, none =>
            match start with
            | '\x7b' :: rest =>
                (fields? steps rest).map fun (fields, behind) => (.ofFields fields, behind)
            | '[' :: rest =>
                (items? steps rest).map fun (items, behind) => (.sequence items, behind)
            | '"' :: rest =>
                (quoted? rest).map fun (content, behind) => (.text content, behind)
            | '\'' :: rest =>
                match rest with
                | c :: '\'' :: behind => some (.text c.toString, behind)
                | _ => none
            | _ =>
                let isBare (c : Char) := !isMark c
                some (bare (start.takeWhile isBare), start.dropWhile isBare)
      return (node, skipSpace behind)

/-- The values of a list, given what follows its opening bracket, and what follows the
closing one.  A comma may follow the last value. -/
def items? : Nat → List Char → Option (List Node × List Char)
  | 0, _ => none
  | _ + 1, ']' :: rest => some ([], rest)
  | steps + 1, text => do
      let (item, behind) ← value? steps text
      match behind with
      | ',' :: rest =>
          let (items, others) ← items? steps rest
          return (item :: items, others)
      | ']' :: rest => return ([item], rest)
      | _ => none

/-- The fields of a mapping, given what follows its opening brace, and what follows the
closing one.  A comma may follow the last field. -/
def fields? : Nat → List Char → Option (List (String × Node) × List Char)
  | 0, _ => none
  | _ + 1, '\x7d' :: rest => some ([], rest)
  | steps + 1, text => do
      let (key, afterKey) ← key? text
      match afterKey with
      | '=' :: start =>
          let (node, behind) ← value? steps start
          match behind with
          | ',' :: rest =>
              let (fields, others) ← fields? steps rest
              return ((key, node) :: fields, others)
          | '\x7d' :: rest => return ([(key, node)], rest)
          | _ => none
      | _ => none

end

/-- The value of a text: the literal that it is, or else the text itself.  Two steps
are taken for every character at most. -/
def value (text : String) : Node :=
  match value? (2 * text.length + 2) text.toList with
  | some (node, []) => node
  | _ => .text text

end SlashCommand.Console.Literal
