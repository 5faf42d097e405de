import SlashCommand.Proofs.Command.Filled

/-!
# Canonical form of declaration texts

The written form of a command that a declaration text declares is read back as the same
command exactly when none of its texts is written as a mark: dots at the end of the last
text of a parameter, or of the name of a text parameter, are taken for those of a variadic
one, and a semicolon at the end of a flag token for the end of a section.
-/

namespace SlashCommand

open Declaration

variable {α : Type}

/-- The written form of a command is read back as a command with the same name,
description, parameters and choices. -/
def Command.ReadBack (command : Command α) : Prop :=
  ∃ (builder : Builder α) (rebuilt : Command α),
    Builder.ofDeclaration command.write = .ok builder ∧ builder.build.2 = .ok rebuilt ∧
      rebuilt.name = command.name ∧ rebuilt.description = command.description ∧
      rebuilt.arguments = command.arguments ∧ rebuilt.choices = command.choices

/-! ## What marks make of a piece -/

/-- What stands in front of the dots of a plain text can be written as well. -/
theorem front_of_plain {text : String} (h : Plain text) {front : List Char}
    (hfront : front ++ dots = text.toList) : Payload.Unparted front ∧ '+' ∉ front := by
  refine ⟨Payload.unparted_iff.mpr fun hin => h.unparted ?_, fun hplus => h.noPlus ?_⟩
  · exact hin.trans (hfront ▸ (List.prefix_append front dots).isInfix)
  · exact hfront ▸ List.mem_append_left dots hplus

theorem map_append_dots (text : List Char) :
    (text ++ dots).map Payload.blankToPlus = text.map Payload.blankToPlus ++ dots := by
  simp [dots, Payload.blankToPlus]

/-- The text between the brackets of a positional parameter. -/
def writtenPayload (argument : Argument) (choices : Option (List String)) : List Char :=
  (Payload.write ⟨Command.positionalHead argument, some argument.description, choices⟩).toList

section Positional

variable {argument : Argument} (hform : argument.PositionalForm)
  (hvoid : Text.isVoid argument.description = false)

include hform hvoid

/-- A description that ends with dots is read without them. -/
theorem read_dotted_description (hheld : HeldPositional argument none)
    (hdots : dots <:+ argument.description.toList) :
    (Payload.read (stripDots (writtenPayload argument none)).1).description.getD
      fillerDescription ≠ argument.description := by
  obtain ⟨front, hfront⟩ := hdots
  obtain ⟨hunparted, hplus⟩ := front_of_plain hheld.described hfront
  have hcontent : writtenPayload argument none =
      ((Command.positionalHead argument).toList ++ Payload.sectionMark ++ front).map
        Payload.blankToPlus ++ dots := by
    rw [writtenPayload, Payload.write_described hvoid, ← hfront, ← List.append_assoc,
      map_append_dots]
  rw [hcontent, stripDots_append_dots,
    Payload.read_two_sections (positionalHead_carried hform) hunparted hplus]
  dsimp only
  unfold Payload.describedBy
  split
  next =>
      -- the filler is no text with dots at its end
      intro hfiller
      have hnone : ¬ dots <:+ fillerDescription.toList := by decide
      refine hnone ?_
      rw [Option.getD_none] at hfiller
      rw [hfiller, ← hfront]
      exact List.suffix_append front dots
  next =>
      intro hsame
      refine trim_ne_append_dots front ?_
      rw [hfront, ← hsame, Option.getD_some, String.toList_ofList]

/-- A last choice that ends with dots is read without them. -/
theorem read_dotted_choices {listed : List String} {last : String}
    (hheld : HeldPositional argument (some listed)) (hlast : listed.getLast? = some last)
    (hdots : dots <:+ last.toList) :
    (Payload.read (stripDots (writtenPayload argument (some listed))).1).choices ≠
      some listed := by
  obtain ⟨front, hfront⟩ := hdots
  obtain ⟨others, rfl⟩ := List.getLast?_eq_some_iff.mp hlast
  have hplain := hheld.listed _ rfl
  obtain ⟨hunparted, hplus⟩ := front_of_plain (hplain last (by simp)).toPlain hfront
  have hends : last = String.ofList (front ++ dots) := by rw [hfront, String.ofList_toList]
  have hcontent : writtenPayload argument (some (others ++ [last])) =
      ((Command.positionalHead argument).toList ++ Payload.sectionMark ++
        (argument.description.toList ++ Payload.sectionMark ++
          (Text.join "|" (others ++ [String.ofList front])).toList)).map
            Payload.blankToPlus ++ dots := by
    rw [writtenPayload, Payload.write_choices hvoid, hends, Text.join_append_last,
      ← map_append_dots]
    simp only [List.append_assoc]
  have hothers : ∀ other ∈ others, PlainChoice other :=
    fun other hmem => hplain other (List.mem_append_left _ hmem)
  have hjoined : ∀ text ∈ others ++ [String.ofList front],
      Payload.Unparted text.toList ∧ '+' ∉ text.toList ∧ '|' ∉ text.toList := by
    intro text hmem
    rcases List.mem_append.mp hmem with hold | hnew
    · have hother := hothers text hold
      exact ⟨hother.carried.unparted, hother.noPlus, hother.noBar⟩
    · rw [List.mem_singleton.mp hnew, String.toList_ofList]
      exact ⟨hunparted, hplus, fun hbar =>
        (hplain last (by simp)).noBar (hfront ▸ List.mem_append_left dots hbar)⟩
  rw [hcontent, stripDots_append_dots,
    Payload.read_three_sections (positionalHead_carried hform) hheld.described.carried hvoid
      (Payload.unparted_join fun text hmem => (hjoined text hmem).1)
      (Payload.noPlus_join fun text hmem => (hjoined text hmem).2.1)]
  dsimp only
  rw [Payload.choicesOf_join_of_noBar (by simp) fun text hmem => (hjoined text hmem).2.2,
    List.map_append, Payload.chosen_append,
    Payload.chosen_of_carried fun other hmem => (hothers other hmem).carriedChoice]
  intro hsame
  have hchosen : Payload.chosen [front] = [last] := by simpa using hsame
  have hmem : last ∈ Payload.chosen [front] := hchosen ▸ List.mem_singleton_self last
  obtain ⟨text, htext, htrimmed, _⟩ := Payload.mem_chosen hmem
  rw [List.mem_singleton.mp htext, ← hfront] at htrimmed
  exact trim_ne_append_dots front htrimmed.symm

/-- What is read from the piece of a positional parameter is the parameter only if none of
its texts is written as the dots of a variadic one. -/
theorem unmarked_of_positional {choices : Option (List String)}
    (hheld : HeldPositional argument choices) {piece : String} {closing : Char}
    {optional : Bool} {read : Argument}
    (h : positional piece closing optional (writtenPayload argument choices ++ [closing]) =
      .ok (read, choices))
    (hvariadic : read.variadic = argument.variadic)
    (hdescription : (Text.unlessVoid (some read.description)).getD fillerDescription =
      argument.description) :
    UnmarkedPositional argument choices := by
  obtain ⟨content, name, datatype, hcontent, _, _, rfl, hchoices⟩ := positional_ok h
  obtain ⟨rfl, _⟩ := List.append_inj' hcontent rfl
  have hdescribed := hdescription
  simp only [argumentOf] at hdescribed hvariadic
  rw [getD_unlessVoid_read] at hdescribed
  have hending : ∀ text ∈ lastText argument.description choices, ¬ dots <:+ text.toList := by
    intro text htext hdots
    cases choices with
    | none =>
        cases htext
        exact read_dotted_description hform hvoid hheld hdots hdescribed
    | some listed => exact read_dotted_choices hform hvoid hheld htext hdots hchoices.symm
  refine ⟨fun hstring hsingle hdots => ?_, hending⟩
  have hstripped : stripDots (writtenPayload argument choices) =
      (writtenPayload argument choices, false) := stripDots_payload hvoid hheld hending
  have hread : Payload.read (writtenPayload argument choices) =
      ⟨Command.positionalHead argument, some argument.description, choices⟩ :=
    Payload.read_write (positionalHead_carried hform) hheld.described.carried hvoid
      fun listed hlisted choice hchoice =>
        (hheld.listed listed hlisted choice hchoice).carriedChoice
  have hhead : (Command.positionalHead argument).toList = argument.name.toList := by
    simp [positionalHead_toList, typedHead, hstring, hsingle]
  obtain ⟨front, hfront⟩ := hdots
  rw [hstripped] at hvariadic
  simp only [hread, hhead, ← hfront, stripDots_append_dots, hsingle, Bool.or_true] at hvariadic
  cases hvariadic

end Positional

/-- The written form of a flag holds its head in front of the first mark. -/
theorem plusToBlank_flagPiece {argument : Argument} (hform : argument.FlagForm) {token : String}
    (hisToken : IsFlagToken token.toList) (hvoid : Text.isVoid argument.description = false)
    (hplain : Plain argument.description) :
    (Payload.write ⟨flagHead token argument, some argument.description, none⟩).toList.map
        Payload.plusToBlank =
      (flagHead token argument).toList ++ (Payload.sectionMark ++ argument.description.toList) := by
  have hplus : '+' ∉ (flagHead token argument).toList ++ Payload.sectionMark ++
      argument.description.toList := by
    simp [flagHead_noPlus hform hisToken, Payload.sectionMark_noPlus, hplain.noPlus]
  rw [Payload.write_described hvoid, Payload.map_plusToBlank_blankToPlus hplus, List.append_assoc]

/-! ## Pieces of the written form -/

/-- The piece that a row is written as. -/
def Command.rowPiece (command : Command α) (row : Row) : String :=
  if row.argument.isCommand then
    namePiece row.argument.name row.argument.description
  else
    command.argumentPiece row.scope row.argument

theorem rowPiece_parameter (command : Command α) (scope : Option String) {argument : Argument}
    (hkept : argument.Kept) (choices : Option (List String)) :
    command.rowPiece ⟨scope, argument.bare, choices⟩ = command.argumentPiece scope argument := by
  rw [Command.rowPiece, Argument.bare_of_leaf hkept.form.leaf, if_neg (by simp [hkept.isCommand])]

/-- A subcommand with its parameters is written as its rows are. -/
theorem subcommandPieces_eq_rows (command : Command α) {subcommand : Argument}
    (hform : subcommand.SubcommandForm) :
    command.subcommandPieces subcommand =
      (rowsOf command.choices [subcommand]).map command.rowPiece := by
  have hname : command.rowPiece (rowOf command.choices none subcommand) =
      Command.namePiece subcommand.name subcommand.description := if_pos hform.isCommand
  simp only [rowsOf, List.flatMap_singleton, List.map_cons, List.map_map, hname,
    Command.subcommandPieces, List.cons_inj_right]
  exact List.map_congr_left fun own hown =>
    (rowPiece_parameter command _ (hform.own own hown) _).symm

/-- A parameter of the command itself is written as its row is. -/
theorem argumentPiece_eq_rows (command : Command α) {argument : Argument}
    (hkept : argument.Kept) :
    [command.argumentPiece none argument] =
      (rowsOf command.choices [argument]).map command.rowPiece := by
  simp only [rowsOf, List.flatMap_singleton, hkept.form.leaf, List.map_nil, List.map_cons]
  exact congrArg (fun text => [text]) (rowPiece_parameter command none hkept _).symm

/-- The pieces behind the name are those of the rows in the order of writing. -/
theorem parameterPieces_eq_rows {command : Command α} (hwell : command.WellFormed) :
    command.parameterPieces =
      (rowsOf command.choices command.writtenOrder).map command.rowPiece := by
  have heach : ∀ arguments : List Argument,
      (rowsOf command.choices arguments).map command.rowPiece =
        arguments.flatMap fun argument =>
          (rowsOf command.choices [argument]).map command.rowPiece := by
    intro arguments
    simp [rowsOf, List.map_flatMap]
  rw [Command.writtenOrder, rowsOf_append, List.map_append, Command.parameterPieces, heach, heach]
  congr 1
  · rw [← List.flatMap_pure_eq_map]
    exact List.flatMap_congr fun argument (hmem : argument ∈ parametersIn command.arguments none) =>
      argumentPiece_eq_rows command (hwell.consistent.kept_of_mem hmem)
  · exact List.flatMap_congr fun subcommand hmem =>
      subcommandPieces_eq_rows command (hwell.subcommandForm hmem)

/-- Where pieces are those of the rows they add, each row is what its piece adds. -/
theorem fragment_of_row {pieceOf : Row → String} {scope : Option String}
    {fragments : List Fragment}
    (h : fragments.map Fragment.source = (transcript scope fragments).map pieceOf) {row : Row}
    (hmem : row ∈ transcript scope fragments) :
    ∃ fragment ∈ fragments, fragment.source = pieceOf row ∧ ∃ own, fragment.row own = row := by
  induction fragments generalizing scope with
  | nil => cases hmem
  | cons fragment rest ih =>
      simp only [transcript, List.map_cons, List.cons.injEq] at h
      rcases List.mem_cons.mp hmem with rfl | hlater
      · exact ⟨fragment, List.mem_cons_self, h.1, scope, rfl⟩
      · obtain ⟨other, hother, hsource, hrow⟩ := ih h.2 hlater
        exact ⟨other, List.mem_cons_of_mem fragment hother, hsource, hrow⟩

/-- The parameters of a command that is read back are what their pieces declare. -/
theorem fragment_of_readBack {command : Command α} (hwell : command.WellFormed)
    (hheld : command.Held) (horder : command.writtenOrder = command.arguments)
    (h : command.ReadBack) {scope : Option String} {argument : Argument}
    (hmem : argument ∈ parametersIn command.arguments scope) :
    ∃ fragment : Fragment, fragment.IsRead .command ∧
      fragment.source = command.argumentPiece scope argument ∧ fragment.kept = argument ∧
      fragment.recorded = command.choices.get? ⟨scope, argument.name⟩ := by
  obtain ⟨builder, rebuilt, hrebuilt, hbuild, _, _, harguments, hchoices⟩ := h
  obtain ⟨root, rest, draft, hfragments, _, rfl, hfilled⟩ := Builder.ofDeclaration_ok hrebuilt
  cases hbuild
  have hrows : rowsOf command.choices command.arguments = transcript none rest := by
    rw [← hfilled.rows, Draft.rows, ← harguments, ← hchoices]
    rfl
  have hsources : rest.map Fragment.source =
      (transcript none rest).map command.rowPiece := by
    have hpieces := parameterPieces_eq_rows hwell
    rw [horder, hrows] at hpieces
    have hall := sources_of_fragments (pieces_write hwell hheld) hfragments
    rw [List.map_cons, List.cons.injEq] at hall
    rw [← hpieces, hall.2]
  have hkept := hwell.consistent.kept_of_mem hmem
  have hrow := rowOf_mem_of_parametersIn command.choices hmem
  rw [hrows] at hrow
  obtain ⟨fragment, hfragment, hsource, own, hadds⟩ := fragment_of_row hsources hrow
  rw [rowOf, rowPiece_parameter command scope hkept] at hsource
  rw [Fragment.row, rowOf, Argument.bare_of_leaf hkept.form.leaf, Row.mk.injEq] at hadds
  have hread := isRead_of_mem_fragments hfragments fragment (List.mem_cons_of_mem root hfragment)
  exact ⟨fragment, hread, hsource, hadds.2.1, hadds.2.2⟩

/-- Only commands without hidden marks are read back. -/
theorem unmarked_of_readBack {command : Command α} (hwell : command.WellFormed)
    (hheld : command.Held) (horder : command.writtenOrder = command.arguments)
    (h : command.ReadBack) : command.Unmarked where
  positionals := by
    intro scope argument hmem hflag
    have hkept := hwell.consistent.kept_of_mem hmem
    obtain ⟨fragment, hread, hsource, hsame, hrecorded⟩ :=
      fragment_of_readBack hwell hheld horder h hmem
    have hparameter : fragment.argument.isCommand = false := by
      rw [← fragment.kept_isCommand, hsame, hkept.isCommand]
    have hchoices : fragment.choices = command.choices.get? ⟨scope, argument.name⟩ := by
      rw [← hrecorded, Fragment.recorded, ← fragment.kept_isFlag, hsame, hflag]
      rfl
    rw [Fragment.kept_of_parameter hparameter] at hsame
    cases hkept.form with
    | flag form =>
        rw [form.isFlag] at hflag
        cases hflag
    | positional form =>
        have hdeclared := hread.declared
        rw [hsource, declared_of_brackets (argumentPiece_positional_toList form command scope),
          hchoices] at hdeclared
        exact unmarked_of_positional form hkept.described
          (hheld.positionals scope argument hmem hflag) hdeclared (by rw [← hsame])
          (by rw [← hsame])
  flags := by
    intro scope argument hmem hflag
    have hkept := hwell.consistent.kept_of_mem hmem
    obtain ⟨fragment, hread, hsource, hsame, _⟩ :=
      fragment_of_readBack hwell hheld horder h hmem
    have hparameter : fragment.argument.isCommand = false := by
      rw [← fragment.kept_isCommand, hsame, hkept.isCommand]
    rw [Fragment.kept_of_parameter hparameter] at hsame
    cases hkept.form with
    | positional form =>
        rw [form.isFlag] at hflag
        cases hflag
    | flag form =>
        obtain ⟨token, htoken, hisToken⟩ := form.token
        have hdeclared := hread.declared
        rw [hsource, declared_of_round (argumentPiece_flag_toList form htoken command scope)]
          at hdeclared
        have hcontent := plusToBlank_flagPiece form hisToken hkept.described
          (hheld.flags scope argument hmem hflag)
        exact unmarked_of_flag htoken hisToken hcontent hdeclared (by rw [← hsame])

/-! ## Canonical form -/

/-- A command that a declaration text declares is read back from its written form exactly
when none of its texts is written as a mark. -/
theorem Builder.readBack_iff_unmarked {text : String} {builder : Builder α}
    (h : Builder.ofDeclaration text = .ok builder) {command : Command α}
    (hbuild : builder.build.2 = .ok command) : command.ReadBack ↔ command.Unmarked := by
  have hbuilderWell := WellFormed.ofDeclaration h
  obtain ⟨root, rest, draft, hfragments, hcommand, rfl, hfilled⟩ := Builder.ofDeclaration_ok h
  cases hbuild
  have hdraft : draft.WellFormed := hbuilderWell
  have hwell := hdraft.freeze
  have hread := isRead_of_mem_fragments hfragments
  have hheld := hfilled.held hread hcommand hdraft
  have horder : draft.freeze.writtenOrder = draft.freeze.arguments := hfilled.writtenOrder_eq
  constructor
  · exact unmarked_of_readBack hwell hheld horder
  · intro hunmarked
    obtain ⟨copy, hcopy, hcopied⟩ := ofDeclaration_write_copied hwell hheld hunmarked
    obtain ⟨hname, hdescription, hchoices, harguments⟩ := hcopied.freeze hwell
    refine ⟨.drafting copy, copy.freeze, hcopy, rfl, hname, hdescription, ?_, hchoices⟩
    rw [harguments, horder]
    exact (List.map_congr_left (hfilled.unbounded_eq hread hdraft)).trans (List.map_id _)

/-- A word to say, one of two. -/
def wordParameter : Argument :=
  { kind := .positional
    name := "word"
    description := "Any word"
    optional := false
    variadic := false
    datatype := .string
    token := none
    min := none
    max := none
    subarguments := [] }

/-- A command to say one of the given words. -/
def saying (listed : List String) : Command Unit :=
  { name := "say"
    description := fillerDescription
    arguments := [wordParameter]
    type := .chatInput
    choices := Dict.empty.insert (.top "word") listed
    autocomplete := ∅
    defaults := ∅
    requires := ∅
    channels := ∅
    guilds := ∅
    action := Action.silent }

theorem saying_scopes {listed : List String} : ∀ scope,
    ∀ argument ∈ parametersIn (saying listed).arguments scope,
      scope = none ∧ argument = wordParameter := by
  intro scope argument hmem
  cases scope with
  | none => exact ⟨rfl, List.mem_singleton.mp hmem⟩
  | some name =>
      obtain ⟨subcommand, hin, hsub, _⟩ := mem_parametersIn_some.mp hmem
      rw [List.mem_singleton.mp hin] at hsub
      cases hsub

theorem saying_unmarked : (saying ["Hm", "Ah"]).Unmarked where
  positionals := by
    intro scope argument hmem _
    obtain ⟨rfl, rfl⟩ := saying_scopes scope argument hmem
    have hchoices : (saying ["Hm", "Ah"]).choices.get? ⟨none, wordParameter.name⟩ =
        some ["Hm", "Ah"] := Dict.get?_insert_self _ _ _
    rw [hchoices]
    refine ⟨fun _ _ => by decide, fun text htext => ?_⟩
    have hlast : "Ah" = text := Option.some.inj htext
    rw [← hlast]
    decide
  flags := by
    intro scope argument hmem hflag
    obtain ⟨rfl, rfl⟩ := saying_scopes scope argument hmem
    cases hflag

theorem saying_readBack :
    ∃ builder, Builder.ofDeclaration "say <word; Any word; Hm|Ah>" = .ok builder ∧
      builder.build.2 = .ok (saying ["Hm", "Ah"]) ∧ (saying ["Hm", "Ah"]).Unmarked ∧
        (saying ["Hm", "Ah"]).ReadBack := by
  have hread : ∃ builder, Builder.ofDeclaration "say <word; Any word; Hm|Ah>" = .ok builder ∧
      builder.build.2 = .ok (saying ["Hm", "Ah"]) := ⟨_, rfl, rfl⟩
  obtain ⟨builder, hbuilder, hbuild⟩ := hread
  exact ⟨builder, hbuilder, hbuild, saying_unmarked,
    (Builder.readBack_iff_unmarked hbuilder hbuild).mpr saying_unmarked⟩

/-- The dots of the last choice are read as those of a variadic parameter. -/
theorem saying_dotted_not_readBack :
    ∃ builder, Builder.ofDeclaration "say <word; Any word; Hm...|>" = .ok builder ∧
      builder.build.2 = .ok (saying ["Hm..."]) ∧ ¬ (saying ["Hm..."]).ReadBack := by
  refine ⟨_, rfl, rfl, ?_⟩
  rintro ⟨builder, rebuilt, hrebuilt, hbuild, _, _, harguments, _⟩
  have hread : Builder.ofDeclaration (saying ["Hm..."]).write =
      .ok (.drafting
        { name := "say"
          description := some fillerDescription
          arguments := [{ wordParameter with variadic := true }]
          choices := Dict.empty.insert (.top "word") ["Hm"] : Draft Unit }) := rfl
  rw [hread] at hrebuilt
  cases hrebuilt
  cases hbuild
  have hvariadic := congrArg (List.map Argument.variadic) harguments
  cases hvariadic

end SlashCommand
