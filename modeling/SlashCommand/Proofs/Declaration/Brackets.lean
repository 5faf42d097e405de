import SlashCommand.Proofs.Declaration.Fragment

/-!
# Brackets are balanced once only

The scanner yields a piece only with its brackets in order, so the reader of a fragment,
which looks for the closing bracket again, always finds it.  What else may be wrong with
a piece concerns its words.  With that the main statement about splitting a declaration
is complete: `pieces_accepts_layouts`.
-/

namespace SlashCommand.Declaration

/-- A bracket that is never closed, or closed without being opened. -/
def Cause.Unbalanced (cause : Cause) : Prop :=
  ∃ closing, cause = .missingClosing closing ∨ cause = .strayClosing closing

/-! ## Faults of the words -/

theorem checkName_balanced {piece : String} {name : List Char} {fault : Malformed}
    (h : checkName piece name = .error fault) : ¬ fault.cause.Unbalanced := by
  unfold checkName at h
  split at h
  next =>
      cases h
      simp [Cause.Unbalanced]
  next =>
      split at h
      next =>
          cases h
          simp [Cause.Unbalanced]
      next => cases h

theorem typedName_balanced {piece : String} {head : List Char} {fault : Malformed}
    (h : typedName piece head = .error fault) : ¬ fault.cause.Unbalanced := by
  unfold typedName at h
  split at h
  next => cases h
  next =>
      split at h
      next => cases h
      next =>
          cases h
          simp [Cause.Unbalanced]

theorem flagWords_balanced {piece : String} {head : List Char} {fault : Malformed}
    (h : flagWords piece head = .error fault) : ¬ fault.cause.Unbalanced := by
  unfold flagWords at h
  split at h
  next => cases h
  next => cases h
  next => cases h
  next =>
      cases h
      simp [Cause.Unbalanced]

/-! ## Faults of a piece -/

/-- In a piece the bracket at the start is closed at the end. -/
theorem inner_ne_error {piece : String} {opening closing : Char} {rest : List Char}
    {fault : Malformed} (hpiece : IsPiece piece.toList)
    (hbracket : closingFor? opening = some closing) (hlist : piece.toList = opening :: rest) :
    inner piece closing rest ≠ .error fault := by
  rw [hlist] at hpiece
  cases hpiece with
  | bareword hne hplain =>
      exact absurd ⟨hne, hplain⟩ (not_isBareword_of_closingFor? hbracket rest)
  | bracketed hclosed _ =>
      obtain rfl : _ = closing := Option.some.inj (hclosed.symm.trans hbracket)
      simp [inner]

theorem positional_balanced {piece : String} {opening closing : Char} {optional : Bool}
    {rest : List Char} {fault : Malformed} (hpiece : IsPiece piece.toList)
    (hbracket : closingFor? opening = some closing) (hlist : piece.toList = opening :: rest)
    (h : positional piece closing optional rest = .error fault) : ¬ fault.cause.Unbalanced := by
  unfold positional at h
  rcases error_of_bind_eq_error h with hinner | ⟨content, _, h⟩
  · exact absurd hinner (inner_ne_error hpiece hbracket hlist)
  rcases error_of_bind_eq_error h with hname | ⟨⟨name, datatype⟩, _, h⟩
  · exact typedName_balanced hname
  rcases error_of_bind_eq_error h with hcheck | ⟨_, _, h⟩
  · exact checkName_balanced hcheck
  cases h

theorem flag_balanced {piece : String} {rest : List Char} {fault : Malformed}
    (hpiece : IsPiece piece.toList) (hlist : piece.toList = '(' :: rest)
    (h : flag piece rest = .error fault) : ¬ fault.cause.Unbalanced := by
  unfold flag at h
  split at h
  next =>
      cases h
      simp [Cause.Unbalanced]
  next =>
      rcases error_of_bind_eq_error h with hinner | ⟨content, _, h⟩
      · exact absurd hinner (inner_ne_error hpiece rfl hlist)
      rcases error_of_bind_eq_error h with hwords | ⟨⟨token, name⟩, _, h⟩
      · exact flagWords_balanced hwords
      rcases error_of_bind_eq_error h with hcheck | ⟨_, _, h⟩
      · exact checkName_balanced hcheck
      by_cases hmarked : (withoutDashes token).isEmpty = true
      · rw [if_pos hmarked] at h
        cases h
        simp [Cause.Unbalanced]
      rw [if_neg hmarked] at h
      by_cases hdots : (Text.beforeEnd? dots name).isSome = true
      · simp only [hdots, if_true] at h
        cases h
        simp [Cause.Unbalanced]
      · simp only [hdots] at h
        cases h

theorem bareword_balanced {grammar : Grammar} {position : Nat} {piece : String}
    {fault : Malformed} (hplain : ∀ c ∈ piece.toList, isBracket c = false)
    (h : bareword grammar position piece = .error fault) : ¬ fault.cause.Unbalanced := by
  unfold bareword at h
  split at h
  next closing hclosing =>
      have hfound := List.find?_some hclosing
      rw [(isBracket_eq_false_iff.mp (hplain closing (List.mem_of_find?_eq_some hclosing))).2]
        at hfound
      cases hfound
  next =>
      split at h
      next =>
          cases h
          simp [Cause.Unbalanced]
      next =>
          rcases error_of_bind_eq_error h with hcheck | ⟨_, _, h⟩
          · exact checkName_balanced hcheck
          · cases h

/-- A piece is refused for its words only. -/
theorem Fragment.parse_balanced {grammar : Grammar} {position : Nat} {piece : String}
    {fault : Malformed} (hpiece : IsPiece piece.toList)
    (h : Fragment.parse grammar position piece = .error fault) : ¬ fault.cause.Unbalanced := by
  have hdeclared := error_of_map_eq_error h
  unfold declared at hdeclared
  split at hdeclared
  next =>
      cases hdeclared
      simp [Cause.Unbalanced]
  next hlist => exact positional_balanced hpiece rfl hlist hdeclared
  next hlist => exact positional_balanced hpiece rfl hlist hdeclared
  next hlist => exact flag_balanced hpiece hlist hdeclared
  next hangle hsquare hround =>
      exact bareword_balanced (hpiece.noBracket hangle hsquare hround)
        (error_of_map_eq_error hdeclared)

/-! ## Splitting a declaration -/

/-- A text is split exactly if it has a layout, which is the only one, and then into its
pieces; any other text is refused.  The pieces joined by single blanks are split into
themselves, and none of them is refused for its brackets. -/
theorem pieces_accepts_layouts (text : String) :
    (∀ texts, pieces text = .ok texts ↔ ∃ layout : Layout text, layout.pieces = texts) ∧
    (∀ layout layout' : Layout text, layout = layout') ∧
    (IsEmpty (Layout text) → ∃ fault, pieces text = .error fault) ∧
    ∀ texts, pieces text = .ok texts →
      pieces (Text.join " " texts) = .ok texts ∧
      ∀ piece ∈ texts, ∀ grammar position fault,
        Fragment.parse grammar position piece = .error fault → ¬ fault.cause.Unbalanced := by
  refine ⟨fun texts => pieces_eq_ok_iff, Layout.eq, pieces_eq_error_iff.mpr,
    fun texts htexts => ?_⟩
  have hpieces := isPiece_of_mem_pieces htexts
  refine ⟨pieces_join hpieces, fun piece hpiece grammar position fault hfault => ?_⟩
  exact Fragment.parse_balanced (hpieces piece hpiece) hfault

/-- Two words between brackets are one piece that touches the bareword in front of it; it is
refused, but not for its brackets. -/
theorem touching_errand_split :
    pieces "add<milk bread> (-f)" = .ok ["add", "<milk bread>", "(-f)"] ∧
      pieces (Text.join " " ["add", "<milk bread>", "(-f)"]) =
        .ok ["add", "<milk bread>", "(-f)"] ∧
      Fragment.parse .command 1 "<milk bread>" =
        .error ⟨"<milk bread>", .blankInName "milk bread"⟩ ∧
      ¬ (Cause.blankInName "milk bread").Unbalanced := by
  have hpieces : pieces "add<milk bread> (-f)" = .ok ["add", "<milk bread>", "(-f)"] := by
    decide
  have hfault : Fragment.parse .command 1 "<milk bread>" =
      .error ⟨"<milk bread>", .blankInName "milk bread"⟩ := rfl
  obtain ⟨_, _, _, hagain⟩ := pieces_accepts_layouts "add<milk bread> (-f)"
  obtain ⟨hjoined, hbalanced⟩ := hagain _ hpieces
  exact ⟨hpieces, hjoined, hfault, hbalanced "<milk bread>" (by decide) _ _ _ hfault⟩

end SlashCommand.Declaration
