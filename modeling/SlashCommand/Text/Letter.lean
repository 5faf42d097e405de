/-!
# Letters without case

Keywords are compared without regard to case.  Every keyword is plain ASCII, so
only the characters whose case mapping stays within ASCII can ever spell one;
all other characters are left as they are and match nothing.
-/

namespace SlashCommand.Text

/-- The lower-case form of a character that lowers to an ASCII letter: the
capital letters and the kelvin sign. -/
def lowerLetter (c : Char) : Char :=
  if c = '\u212A' then 'k' else c.toLower

/-- The upper-case form of a character that rises to ASCII letters: the small
letters, dotless `ı`, long `ſ`, sharp `ß` and the Latin ligatures, which rise to
two or three letters. -/
def upperLetters (c : Char) : List Char :=
  match c with
  | 'ı' => ['I']
  | 'ſ' => ['S']
  | 'ß' => ['S', 'S']
  | 'ﬀ' => ['F', 'F']
  | 'ﬁ' => ['F', 'I']
  | 'ﬂ' => ['F', 'L']
  | 'ﬃ' => ['F', 'F', 'I']
  | 'ﬄ' => ['F', 'F', 'L']
  | 'ﬅ' => ['S', 'T']
  | 'ﬆ' => ['S', 'T']
  | other => [other.toUpper]

def lower (text : List Char) : List Char :=
  text.map lowerLetter

def upper (text : List Char) : List Char :=
  text.flatMap upperLetters

end SlashCommand.Text
