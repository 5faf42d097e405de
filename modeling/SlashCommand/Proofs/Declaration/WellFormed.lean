import SlashCommand.Proofs.Declaration.Fragment

/-!
# Fragments are well formed

Whatever text a fragment is read from, the parts of what it declares fit together: its name is
one word, its description and its choices come back from a payload, and its marks go with its
kind.
-/

namespace SlashCommand.Declaration

/-! ## Well-formed fragments -/

/-- A positional parameter has no token, and no colon in its name. -/
structure PositionalMarks (argument : Argument) : Prop where
  token : argument.token = none
  untyped : ':' ∉ argument.name.toList

/-- A flag is an optional text with a token: a word that starts with a dash and holds something
else. -/
structure FlagMarks (argument : Argument) : Prop where
  optional : argument.optional = true
  variadic : argument.variadic = false
  datatype : argument.datatype = .string
  undotted : ¬ dots <:+ argument.name.toList
  token : ∃ token, argument.token = some token ∧ token.toList.head? = some '-' ∧
    (∃ c ∈ token.toList, c ≠ '-') ∧ ∀ c ∈ token.toList, Text.isBlank c = false

/-- A command is neither optional nor variadic and has no choices. -/
structure CommandMarks (argument : Argument) (choices : Option (List String)) : Prop where
  optional : argument.optional = false
  variadic : argument.variadic = false
  choices : choices = none

/-- What a fragment declares fits together. -/
structure Fragment.WellFormed (fragment : Fragment) : Prop where
  named : fragment.argument.name.toList ≠ []
  name : ∀ c ∈ fragment.argument.name.toList, Text.isBlank c = false ∧ c ≠ '+'
  description : fragment.argument.description = Payload.blankDescription ∨
    fragment.argument.description.toList ≠ [] ∧
      Payload.Carried fragment.argument.description.toList
  choices : ∀ listed ∈ fragment.choices, ∀ choice ∈ listed,
    choice.toList ≠ [] ∧ Text.Tight choice.toList ∧ '|' ∉ choice.toList
  positional : fragment.argument.kind = .positional → PositionalMarks fragment.argument
  flag : fragment.argument.kind = .flag → FlagMarks fragment.argument
  command : ∀ role, fragment.argument.kind = .command role →
    CommandMarks fragment.argument fragment.choices

/-! ## What is read -/

/-- The description of a parameter is blank, or a text that comes back from a payload. -/
theorem description_argumentOf (content : List Char) (kind : ArgumentKind) (name : String) :
    let description := (argumentOf (Payload.read content) kind name).description
    description = Payload.blankDescription ∨
      description.toList ≠ [] ∧ Payload.Carried description.toList := by
  simp only [argumentOf]
  cases hread : (Payload.read content).description with
  | none => exact Or.inl rfl
  | some text =>
      obtain ⟨hcarried, hvoid, _⟩ := Payload.description_carried hread
      refine Or.inr ⟨fun hnil => ?_, hcarried⟩
      rw [Option.getD_some] at hnil
      rw [Text.isVoid, hnil] at hvoid
      cases hvoid

theorem choices_read {content : List Char} {listed : List String}
    (h : (Payload.read content).choices = some listed) :
    ∀ choice ∈ listed, choice.toList ≠ [] ∧ Text.Tight choice.toList ∧ '|' ∉ choice.toList :=
  fun _ hchoice =>
    have hcarried := (Payload.choices_carried h hchoice).1
    ⟨hcarried.nonempty, hcarried.tight, hcarried.noBar⟩

/-- A word of the head is a name. -/
theorem name_read {piece : String} {content name : List Char}
    (hname : ∀ c ∈ name, c ∈ (Payload.read content).head.toList)
    (hcheck : checkName piece name = .ok ()) :
    name ≠ [] ∧ ∀ c ∈ name, Text.isBlank c = false ∧ c ≠ '+' := by
  obtain ⟨hne, hword⟩ := ok_of_checkName hcheck
  exact ⟨hne, fun c hc => ⟨hword c hc, Payload.ne_plus_of_mem_head (hname c hc)⟩⟩

theorem wellFormed_of_positional {position : Nat} {piece : String} {closing : Char}
    {optional : Bool} {rest : List Char} {argument : Argument} {choices : Option (List String)}
    (h : positional piece closing optional rest = .ok (argument, choices)) :
    Fragment.WellFormed ⟨position, piece, argument, choices⟩ := by
  obtain ⟨content, name, datatype, _, hname, hcheck, rfl, rfl⟩ := positional_ok h
  have hfrom : ∀ c ∈ name, c ∈ (Payload.read (stripDots content).1).head.toList :=
    fun c hc => stripDots_subset _ c (ok_of_typedName hname c hc).1
  obtain ⟨hne, hword⟩ := name_read hfrom hcheck
  exact
    { named := by simpa [argumentOf] using hne
      name := by simpa [argumentOf] using hword
      description := description_argumentOf _ .positional (String.ofList name)
      choices := fun listed hlisted => choices_read hlisted
      positional := fun _ =>
        { token := rfl
          untyped := by
            simp only [argumentOf, String.toList_ofList]
            exact fun hcolon => (ok_of_typedName hname ':' hcolon).2 rfl }
      flag := fun hkind => by cases hkind
      command := fun _ hkind => by cases hkind }

theorem wellFormed_of_flag {position : Nat} {piece : String} {rest : List Char}
    {argument : Argument} {choices : Option (List String)}
    (h : flag piece rest = .ok (argument, choices)) :
    Fragment.WellFormed ⟨position, piece, argument, choices⟩ := by
  obtain ⟨content, token, name, hrest, hdash, hwords, hcheck, hmarked, hdots, rfl, rfl⟩ := flag_ok h
  obtain ⟨htoken, hfrom⟩ := ok_of_flagWords hwords
  obtain ⟨hne, hword⟩ := name_read hfrom hcheck
  -- The dash behind the bracket is still the first character of the head.
  have hstart := dash_of_flagWords (head_dash hrest (by decide) hdash) hwords
  have hmore : ∃ c ∈ token, c ≠ '-' := by
    by_contra hnone
    push Not at hnone
    exact hmarked (List.dropWhile_eq_nil_iff.mpr fun c hc => by simpa using hnone c hc)
  exact
    { named := by simpa [argumentOf] using hne
      name := by simpa [argumentOf] using hword
      description := description_argumentOf _ .flag (String.ofList name)
      choices := fun listed hlisted => choices_read hlisted
      positional := fun hkind => by cases hkind
      flag := fun _ =>
        { optional := rfl
          variadic := rfl
          datatype := rfl
          undotted := by simpa [argumentOf] using hdots
          token := by
            refine ⟨String.ofList token, rfl, ?_⟩
            rw [String.toList_ofList]
            exact ⟨hstart, hmore, fun c hc => (htoken c hc).2⟩ }
      command := fun _ hkind => by cases hkind }

theorem wellFormed_of_bareword {grammar : Grammar} {position : Nat} {piece : String}
    {argument : Argument} (h : bareword grammar position piece = .ok argument) :
    Fragment.WellFormed ⟨position, piece, argument, none⟩ := by
  obtain ⟨hcheck, role, _, rfl⟩ := bareword_ok h
  obtain ⟨hne, hword⟩ := name_read (fun c hc => hc) hcheck
  exact
    { named := hne
      name := hword
      description := description_argumentOf _ (.command role) _
      choices := fun listed hlisted => by cases hlisted
      positional := fun hkind => by cases hkind
      flag := fun hkind => by cases hkind
      command := fun _ _ => ⟨rfl, rfl, rfl⟩ }

/-- Every fragment that is read from a text is well formed. -/
theorem Fragment.wellFormed_of_parse {grammar : Grammar} {position : Nat} {piece : String}
    {fragment : Fragment} (h : Fragment.parse grammar position piece = .ok fragment) :
    fragment.WellFormed := by
  obtain ⟨⟨argument, choices⟩, hdeclared, rfl⟩ := ok_of_map_eq_ok h
  unfold declared at hdeclared
  split at hdeclared
  next => cases hdeclared
  next => exact wellFormed_of_positional hdeclared
  next => exact wellFormed_of_positional hdeclared
  next => exact wellFormed_of_flag hdeclared
  next =>
      obtain ⟨found, hbareword, hfound⟩ := ok_of_map_eq_ok hdeclared
      cases hfound
      exact wellFormed_of_bareword hbareword

/-- A flag with a bracket in its name.  No declaration text has this piece. -/
def strayPiece : String :=
  "(-f+force>;  Do it (now); a | b+| )"

theorem strayPiece_wellFormed :
    (pieces strayPiece).toOption = none ∧
      ∃ fragment, Fragment.parse .command 1 strayPiece = .ok fragment ∧
        fragment.argument.name = "force>" ∧ fragment.argument.token = some "-f" ∧
        fragment.choices = some ["a", "b"] ∧ fragment.WellFormed := by
  obtain ⟨fragment, hread, hname, htoken, hchoices⟩ :
      ∃ fragment, Fragment.parse .command 1 strayPiece = .ok fragment ∧
        fragment.argument.name = "force>" ∧ fragment.argument.token = some "-f" ∧
        fragment.choices = some ["a", "b"] := ⟨_, rfl, rfl, rfl, rfl⟩
  exact ⟨rfl, fragment, hread, hname, htoken, hchoices, Fragment.wellFormed_of_parse hread⟩

end SlashCommand.Declaration
