/-!
# Blank characters

Text is handled as a list of characters.  A character is blank when it has the
Unicode property `White_Space`; trimming removes blank characters from the ends
of a text and nothing else.
-/

namespace SlashCommand.Text

/-- The characters of the property `White_Space`: the controls from tab to
carriage return, next line, and the spaces and separators of every width.  The
zero-width space and the byte order mark are not among them. -/
def isBlank (c : Char) : Bool :=
  let point := c.toNat
  (9 ≤ point && point ≤ 13) || point == 0x20 || point == 0x85 || point == 0xA0 ||
    point == 0x1680 || (0x2000 ≤ point && point ≤ 0x200A) || point == 0x2028 ||
    point == 0x2029 || point == 0x202F || point == 0x205F || point == 0x3000

def trimStart (text : List Char) : List Char :=
  text.dropWhile isBlank

def trimEnd (text : List Char) : List Char :=
  (text.reverse.dropWhile isBlank).reverse

def trim (text : List Char) : List Char :=
  trimEnd (trimStart text)

/-- A text is void when it holds nothing but blank characters. -/
def isVoid (text : String) : Bool :=
  text.toList.all isBlank

/-- A single word is a non-empty text without blank characters. -/
def isWord (text : String) : Bool :=
  !text.isEmpty && !text.toList.any isBlank

/-- A description that is void counts as none. -/
def unlessVoid (text : Option String) : Option String :=
  text.filter fun content => !isVoid content

end SlashCommand.Text
