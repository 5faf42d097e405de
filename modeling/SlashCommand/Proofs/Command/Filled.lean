import SlashCommand.Proofs.Builder.Transcript
import SlashCommand.Proofs.Command.RoundTrip

/-!
# Commands that declaration texts declare

What a declaration text declares, another one can hold: its descriptions and choices are
plain, its parameters have no bounds, and those of the command itself stand in front of
the subcommands, as they are written.
-/

namespace SlashCommand

open Declaration

variable {α : Type}

/-! ## Texts that were read -/

theorem plain_of_carried {text : String} (h : Payload.Carried text.toList)
    (hbracket : ∀ c ∈ text.toList, isBracket c = false) : Plain text where
  trimmed := h.tight.trim_eq
  noPlus := h.noPlus
  noBracket := hbracket
  unparted := Payload.unparted_iff.mp h.unparted

theorem isBracket_plusToBlank {c : Char} (h : isBracket c = false) :
    isBracket (Payload.plusToBlank c) = false := by
  unfold Payload.plusToBlank
  split
  · decide
  · exact h

/-- What is read from a text without brackets holds none. -/
theorem noBracket_of_read {content text : List Char} (h : ∀ c ∈ content, isBracket c = false)
    (hread : ∀ c ∈ text, c ∈ content.map Payload.plusToBlank) :
    ∀ c ∈ text, isBracket c = false := by
  intro c hc
  obtain ⟨d, hd, rfl⟩ := List.mem_map.mp (hread c hc)
  exact isBracket_plusToBlank (h d hd)

theorem plain_fillerDescription : Plain fillerDescription :=
  plain_of_noSemicolon (by decide)

namespace Declaration

theorem Fragment.kept_description (fragment : Fragment) :
    fragment.kept.description =
      (Text.unlessVoid (some fragment.argument.description)).getD fillerDescription := by
  unfold kept
  split <;> rfl

/-- A description that was read is kept, and the filler stands in for a missing one. -/
theorem getD_unlessVoid_read (content : List Char) :
    (Text.unlessVoid
      (some ((Payload.read content).description.getD Payload.blankDescription))).getD
        fillerDescription = (Payload.read content).description.getD fillerDescription := by
  cases hdescription : (Payload.read content).description with
  | none =>
      have hblank : Text.unlessVoid (some Payload.blankDescription) = none := by decide
      simp only [Option.getD_none, hblank]
  | some description =>
      have hvoid := (Payload.description_carried hdescription).2.1
      simp only [Option.getD_some, Text.unlessVoid_of_not_void hvoid]

theorem ReadFrom.kept_description {content : List Char} {fragment : Fragment}
    (h : ReadFrom content fragment.argument fragment.choices) :
    fragment.kept.description = (Payload.read content).description.getD fillerDescription := by
  rw [fragment.kept_description, h.description, getD_unlessVoid_read]

namespace Fragment.IsRead

variable {grammar : Grammar} {fragment : Fragment} (h : fragment.IsRead grammar)

include h

theorem kept_plain : Plain fragment.kept.description := by
  obtain ⟨content, hcontent⟩ := readFrom_of_declared h.piece h.declared
  rw [hcontent.kept_description]
  cases hdescription : (Payload.read content).description with
  | none => exact plain_fillerDescription
  | some description =>
      obtain ⟨hcarried, _, hchars⟩ := Payload.description_carried hdescription
      exact plain_of_carried hcarried (noBracket_of_read hcontent.noBracket hchars)

theorem choices_plain : ∀ listed ∈ fragment.choices, ∀ choice ∈ listed, PlainChoice choice := by
  obtain ⟨content, hcontent⟩ := readFrom_of_declared h.piece h.declared
  intro listed hlisted choice hchoice
  rcases hcontent.choices with hnone | hread
  · rw [hnone] at hlisted
    cases hlisted
  · obtain ⟨hcarried, hchars⟩ := Payload.choices_carried (hread ▸ hlisted) hchoice
    exact
      { plain_of_carried hcarried.toCarried (noBracket_of_read hcontent.noBracket hchars) with
        nonempty := by simpa [String.toList_eq_nil_iff] using hcarried.nonempty
        noBar := hcarried.noBar }

theorem kept_bounds : fragment.kept.min = none ∧ fragment.kept.max = none := by
  obtain ⟨content, hcontent⟩ := readFrom_of_declared h.piece h.declared
  unfold Fragment.kept
  split
  · exact ⟨rfl, rfl⟩
  · exact hcontent.bounds

/-- A bareword has no blanks but those its plus signs stand for. -/
theorem kept_bareword (hcommand : fragment.argument.isCommand = true) :
    PlainBareword fragment.kept.name fragment.kept.description := by
  obtain ⟨hbracket, _, hread⟩ := bareword_of_declared h.piece h.declared hcommand
  have hword := h.piece.word hbracket
  obtain ⟨_, role, _, hargument⟩ := bareword_ok hread
  have hname := h.isName
  refine ⟨?_, ?_, h.kept_plain, ?_⟩
  · rw [fragment.kept_name]
    exact fun hplus => (hname.plain _ hplus).2.1 rfl
  · rw [fragment.kept_name]
    exact fun c hc => (hname.plain c hc).2.2
  · have hdescribed : fragment.kept.description =
        (Payload.read fragment.source.toList).description.getD fillerDescription := by
      rw [fragment.kept_description, hargument]
      exact getD_unlessVoid_read fragment.source.toList
    rw [hdescribed]
    cases hdescription : (Payload.read fragment.source.toList).description with
    | none =>
        have hfiller : fillerDescription.toList.any
            (fun c => Text.isBlank c && c != ' ') = false := by decide
        intro c hc hblank
        simpa [hblank] using Text.forall_of_any_eq_false hfiller c hc
    | some description =>
        intro c hc hblank
        obtain ⟨d, hd, rfl⟩ :=
          List.mem_map.mp ((Payload.description_carried hdescription).2.2 c hc)
        unfold Payload.plusToBlank at hblank ⊢
        split
        next => rfl
        next hplus =>
            rw [if_neg hplus, hword d hd] at hblank
            cases hblank

end Fragment.IsRead

end Declaration

/-! ## Rows of a declaration -/

theorem mem_transcript {scope : Option String} {fragments : List Fragment} {row : Row}
    (h : row ∈ transcript scope fragments) :
    ∃ fragment ∈ fragments, ∃ own, fragment.row own = row := by
  induction fragments generalizing scope with
  | nil => cases h
  | cons fragment rest ih =>
      rcases List.mem_cons.mp h with rfl | hmem
      · exact ⟨fragment, List.mem_cons_self, scope, rfl⟩
      · obtain ⟨other, hother, own, hrow⟩ := ih hmem
        exact ⟨other, List.mem_cons_of_mem fragment hother, own, hrow⟩

/-- Every argument of the command itself has a row. -/
theorem rowOf_mem_rowsOf (choices : Dict ScopeKey (List String)) {arguments : List Argument}
    {argument : Argument} (hmem : argument ∈ arguments) :
    rowOf choices none argument ∈ rowsOf choices arguments :=
  List.mem_flatMap.mpr ⟨argument, hmem, List.mem_cons_self⟩

/-- Every parameter has a row in its scope. -/
theorem rowOf_mem_of_parametersIn (choices : Dict ScopeKey (List String))
    {arguments : List Argument} {scope : Option String} {parameter : Argument}
    (hmem : parameter ∈ parametersIn arguments scope) :
    rowOf choices scope parameter ∈ rowsOf choices arguments := by
  cases scope with
  | none => exact rowOf_mem_rowsOf choices (mem_parametersIn_none.mp hmem).1
  | some name =>
      obtain ⟨subcommand, hin, hsub, hown⟩ := mem_parametersIn_some.mp hmem
      rw [← (isSubcommand_iff.mp hsub).2]
      exact List.mem_flatMap.mpr
        ⟨subcommand, hin, List.mem_cons_of_mem _ (List.mem_map_of_mem hown)⟩

namespace Draft.FilledBy

variable {draft : Draft α} {root : Fragment} {rest : List Fragment}

/-- Every row of a filled draft is the row of a fragment. -/
theorem row_of_mem (h : draft.FilledBy root rest) {row : Row} (hmem : row ∈ draft.rows) :
    ∃ fragment ∈ rest, ∃ own, fragment.row own = row :=
  mem_transcript (h.rows ▸ hmem)

/-- Every parameter of a filled draft is what a fragment adds, with the choices it
records. -/
theorem fragment_of_parameter (h : draft.FilledBy root rest) (hwell : draft.WellFormed)
    {scope : Option String} {parameter : Argument}
    (hmem : parameter ∈ parametersIn draft.arguments scope) :
    ∃ fragment ∈ rest, fragment.kept = parameter ∧
      fragment.recorded = draft.choices.get? ⟨scope, parameter.name⟩ := by
  obtain ⟨fragment, hfragment, own, hrow⟩ :=
    h.row_of_mem (rowOf_mem_of_parametersIn draft.choices hmem)
  have hleaf := (hwell.consistent.kept_of_mem hmem).form.leaf
  rw [Fragment.row, rowOf, Argument.bare_of_leaf hleaf, Row.mk.injEq] at hrow
  exact ⟨fragment, hfragment, hrow.2.1, hrow.2.2⟩

/-- Every subcommand of a filled draft is what a bareword adds, but for its parameters. -/
theorem fragment_of_subcommand (h : draft.FilledBy root rest) {subcommand : Argument}
    (hmem : subcommand ∈ draft.arguments) :
    ∃ fragment ∈ rest, fragment.kept = subcommand.bare := by
  obtain ⟨fragment, hfragment, own, hrow⟩ := h.row_of_mem (rowOf_mem_rowsOf draft.choices hmem)
  rw [Fragment.row, rowOf, Row.mk.injEq] at hrow
  exact ⟨fragment, hfragment, hrow.2.1⟩

variable (hread : ∀ fragment ∈ root :: rest, fragment.IsRead .command)
  (hcommand : root.argument.isCommand = true)

theorem freeze_description (h : draft.FilledBy root rest) :
    draft.freeze.description = root.kept.description := by
  have hchat : draft.type.isContextMenu = false := by
    rw [h.type]
    rfl
  simp [Draft.freeze, hchat, h.description, root.kept_description]

include hread hcommand

/-- A declaration text has a place for all texts of a command another one declares. -/
theorem held (h : draft.FilledBy root rest) (hwell : draft.WellFormed) :
    draft.freeze.Held where
  typed := h.type
  bareword := by
    have hroot := (hread root List.mem_cons_self).kept_bareword hcommand
    rw [root.kept_name, ← h.name, ← h.freeze_description] at hroot
    exact hroot
  subcommands := by
    intro subcommand hmem
    obtain ⟨hin, hsub⟩ := List.mem_filter.mp hmem
    obtain ⟨fragment, hfragment, hkept⟩ := h.fragment_of_subcommand hin
    have hbareword := (hread fragment (List.mem_cons_of_mem root hfragment)).kept_bareword
      (by rw [← fragment.kept_isCommand, hkept]; exact hsub)
    rw [hkept] at hbareword
    exact hbareword
  positionals := by
    intro scope argument hmem hflag
    obtain ⟨fragment, hfragment, hkept, hrecorded⟩ := h.fragment_of_parameter hwell hmem
    have hfragmentRead := hread fragment (List.mem_cons_of_mem root hfragment)
    refine ⟨hkept ▸ hfragmentRead.kept_plain, fun listed hlisted => ?_⟩
    rw [← hkept, fragment.kept_isFlag] at hflag
    have hchoices : fragment.choices = draft.choices.get? ⟨scope, argument.name⟩ := by
      rw [← hrecorded, Fragment.recorded, hflag]
      rfl
    exact hfragmentRead.choices_plain listed (hchoices ▸ hlisted)
  flags := by
    intro scope argument hmem _
    obtain ⟨fragment, hfragment, hkept, _⟩ := h.fragment_of_parameter hwell hmem
    exact hkept ▸ (hread fragment (List.mem_cons_of_mem root hfragment)).kept_plain

omit hcommand in
/-- No parameter of a filled draft has bounds. -/
theorem unbounded_eq (h : draft.FilledBy root rest) (hwell : draft.WellFormed) :
    ∀ argument ∈ draft.arguments, argument.unbounded = argument := by
  intro argument hmem
  obtain ⟨fragment, hfragment, hkept⟩ := h.fragment_of_subcommand hmem
  have hbounds := (hread fragment (List.mem_cons_of_mem root hfragment)).kept_bounds
  rw [hkept] at hbounds
  have hown : argument.subarguments.map (fun own => { own with min := none, max := none }) =
      argument.subarguments := by
    refine (List.map_congr_left fun own hin => ?_).trans (List.map_id _)
    have hsub : argument.isCommand = true := by
      rcases hwell.consistent.members argument hmem with hparameter | hsubcommand
      · rw [hparameter.form.leaf] at hin
        cases hin
      · exact hsubcommand.isCommand
    obtain ⟨other, hother, hsame, _⟩ := h.fragment_of_parameter hwell
      (mem_parametersIn_some.mpr ⟨argument, hmem, isSubcommand_iff.mpr ⟨hsub, rfl⟩, hin⟩)
    have hnone := (hread other (List.mem_cons_of_mem root hother)).kept_bounds
    rw [hsame] at hnone
    obtain ⟨hmin, hmax⟩ := hnone
    cases own
    cases hmin
    cases hmax
    rfl
  obtain ⟨hmin, hmax⟩ := hbounds
  unfold Argument.unbounded
  rw [hown]
  cases argument
  cases hmin
  cases hmax
  rfl

omit hread hcommand in
/-- The parameters of a filled draft stand as they are written. -/
theorem writtenOrder_eq (h : draft.FilledBy root rest) :
    draft.freeze.writtenOrder = draft.arguments := by
  obtain ⟨scope, hstaged⟩ := h.staged
  obtain ⟨own, subcommands, hsplit, hown, hcommands, _⟩ := hstaged.split
  have hleft : own.filter (fun argument => !argument.isCommand) = own :=
    List.filter_eq_self.mpr fun argument hmem => by simp [hown argument hmem]
  have hright : subcommands.filter (fun argument => !argument.isCommand) = [] :=
    List.filter_eq_nil_iff.mpr fun argument hmem => by simp [hcommands argument hmem]
  have hnone : own.filter Argument.isCommand = [] :=
    List.filter_eq_nil_iff.mpr fun argument hmem => by simp [hown argument hmem]
  have hall : subcommands.filter Argument.isCommand = subcommands :=
    List.filter_eq_self.mpr hcommands
  simp only [Command.writtenOrder, Command.subcommands, Draft.freeze, hsplit, List.filter_append,
    hleft, hright, hnone, hall, List.append_nil, List.nil_append]

end Draft.FilledBy

end SlashCommand
