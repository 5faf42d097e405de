import SlashCommand.Command.Builder
import SlashCommand.Proofs.Outcome

/-!
# How declarations start

A declaration starts with a name that is a word, or with a text whose first fragment names the
command and whose other fragments are added one after the other.
-/

namespace SlashCommand

open Declaration

variable {α : Type}

theorem Declaration.isWord_of_checkWord {name : String} (h : checkWord name = .ok ()) :
    Text.isWord name = true := by
  unfold checkWord at h
  split at h
  next hname => exact hname
  next => cases h

/-- A named draft has a name and perhaps a description, and nothing else. -/
theorem Draft.named_ok {name : String} {description : Option String} {draft : Draft α}
    (h : Draft.named name description = .ok draft) :
    Text.isWord name = true ∧
      draft = { name := name, description := Text.unlessVoid description } := by
  unfold Draft.named at h
  split at h
  next => cases h
  next hword =>
      cases h
      exact ⟨isWord_of_checkWord hword, rfl⟩

/-- Choices of a payload are recorded alike, whether they are listed beside it or not. -/
theorem Draft.withSource_fragmentSource (draft : Draft α) (key : ScopeKey) (argument : Argument)
    (fragment : Fragment) :
    draft.withSource key argument fragment.choices (fragmentSource fragment) =
      draft.withSource key argument fragment.choices .payload := by
  unfold withSource fragmentSource
  cases fragment.choices <;> rfl

theorem Draft.addParameter_fragmentSource (draft : Draft α) (scope : Option String)
    (fragment : Fragment) (description : Option String) (options : ArgumentOptions) :
    draft.addParameter scope fragment description (fragmentSource fragment) options =
      draft.addParameter scope fragment description .payload options := by
  simp only [addParameter, withSource_fragmentSource]

/-- An accepted declaration text names a draft and adds its other fragments to it. -/
theorem Builder.ofDeclaration_cases {text : String} {builder : Builder α}
    (h : ofDeclaration text = .ok builder) :
    ∃ root rest draft filled, fragments .command text = .ok (root :: rest) ∧
      root.argument.isCommand = true ∧
      Draft.named root.argument.name (some root.argument.description) = .ok draft ∧
      rest.foldlM Draft.addFragment (draft, none) = .ok filled ∧ builder = .drafting filled.1 := by
  unfold ofDeclaration at h
  split at h
  next => cases h
  next => cases h
  next root rest hfragments =>
      split at h
      next hcommand =>
          obtain ⟨draft, hdraft, h⟩ := ok_of_bind_eq_ok h
          obtain ⟨filled, hfilled, h⟩ := ok_of_bind_eq_ok h
          cases h
          exact ⟨root, rest, draft, filled, hfragments, hcommand, hdraft, hfilled, rfl⟩
      next => cases h

end SlashCommand
