import SlashCommand.Text.Blank

/-!
# Cutting and joining text

Cutting a text at the characters of a class, at the first of them, or at its
blank runs, and joining texts with a separator.
-/

namespace SlashCommand.Text

/-! ## Cutting -/

/-- The pieces between the characters of a class, empty pieces included.  There
is one piece more than there are such characters. -/
def splitAtEach (isCut : Char → Bool) : List Char → List (List Char)
  | [] => [[]]
  | c :: rest =>
      if isCut c then
        [] :: splitAtEach isCut rest
      else
        match splitAtEach isCut rest with
        | [] => [[c]]
        | piece :: pieces => (c :: piece) :: pieces

def splitAtFirst? (isCut : Char → Bool) (text : List Char) :
    Option (List Char × List Char) :=
  match text.dropWhile fun c => !isCut c with
  | [] => none
  | _ :: rest => some (text.takeWhile fun c => !isCut c, rest)

/-- The words of a text: its maximal runs of characters that are not blank. -/
def words (text : List Char) : List (List Char) :=
  (splitAtEach isBlank text).filter fun piece => !piece.isEmpty

/-- What follows a given beginning of a text. -/
def afterStart? : List Char → List Char → Option (List Char)
  | [], text => some text
  | _ :: _, [] => none
  | c :: start, d :: text => if c = d then afterStart? start text else none

def beforeEnd? (ending text : List Char) : Option (List Char) :=
  (afterStart? ending.reverse text.reverse).map List.reverse

/-! ## Joining -/

def join (separator : String) : List String → String
  | [] => ""
  | [text] => text
  | text :: rest => text ++ separator ++ join separator rest

theorem afterStart?_append (start rest : List Char) :
    afterStart? start (start ++ rest) = some rest := by
  induction start with
  | nil => rfl
  | cons c start ih => simp [afterStart?, ih]

theorem eq_append_of_afterStart? {start text rest : List Char}
    (h : afterStart? start text = some rest) : text = start ++ rest := by
  induction start generalizing text with
  | nil =>
      simp only [afterStart?, Option.some.injEq] at h
      simp [h]
  | cons c start ih =>
      cases text with
      | nil => simp [afterStart?] at h
      | cons d text =>
          simp only [afterStart?] at h
          split at h
          next heq => simp [heq, ih h]
          next => simp at h

theorem beforeEnd?_eq_some_iff {ending text rest : List Char} :
    beforeEnd? ending text = some rest ↔ text = rest ++ ending := by
  rw [beforeEnd?, Option.map_eq_some_iff]
  constructor
  · rintro ⟨reversed, hafter, rfl⟩
    have hsplit := eq_append_of_afterStart? hafter
    have := congrArg List.reverse hsplit
    simpa using this
  · rintro rfl
    exact ⟨rest.reverse, by rw [List.reverse_append]; exact afterStart?_append _ _, by simp⟩

end SlashCommand.Text
