import SlashCommand.Proofs.Builder.Stepwise
import SlashCommand.Proofs.Dict

/-!
# The transcript of a declaration text

A declaration text fills a draft row by row: every fragment behind the name adds one row,
a parameter in its scope with its choices or a subcommand without parameters as yet, and
no row changes again.  So the rows of the draft are the transcript of the fragments.
-/

namespace SlashCommand

open Declaration

variable {α : Type}

/-! ## Rows -/

/-- A parameter in its scope with its choices, or a subcommand without its parameters. -/
structure Row where
  scope : Option String
  argument : Argument
  choices : Option (List String)

/-- An argument without parameters of its own. -/
def Argument.bare (argument : Argument) : Argument :=
  { argument with subarguments := [] }

theorem Argument.bare_of_leaf {argument : Argument} (h : argument.subarguments = []) :
    argument.bare = argument := by
  cases argument
  cases h
  rfl

/-- The row of an argument in a scope. -/
def rowOf (choices : Dict ScopeKey (List String)) (scope : Option String)
    (argument : Argument) : Row :=
  ⟨scope, argument.bare, choices.get? ⟨scope, argument.name⟩⟩

/-- The rows of arguments, each of them in front of its own parameters. -/
def rowsOf (choices : Dict ScopeKey (List String)) (arguments : List Argument) : List Row :=
  arguments.flatMap fun argument =>
    rowOf choices none argument :: argument.subarguments.map (rowOf choices (some argument.name))

theorem rowsOf_append (choices : Dict ScopeKey (List String)) (first second : List Argument) :
    rowsOf choices (first ++ second) = rowsOf choices first ++ rowsOf choices second :=
  List.flatMap_append

/-- Rows depend on the choices of their own keys only. -/
theorem rowsOf_congr {choices other : Dict ScopeKey (List String)} {arguments : List Argument}
    (htop : ∀ argument ∈ arguments,
      choices.get? ⟨none, argument.name⟩ = other.get? ⟨none, argument.name⟩)
    (hown : ∀ argument ∈ arguments, ∀ own ∈ argument.subarguments,
      choices.get? ⟨some argument.name, own.name⟩ = other.get? ⟨some argument.name, own.name⟩) :
    rowsOf choices arguments = rowsOf other arguments := by
  refine List.flatMap_congr fun argument hmem => ?_
  rw [rowOf, htop argument hmem, ← rowOf, List.cons_inj_right]
  refine List.map_congr_left fun own hin => ?_
  rw [rowOf, hown argument hmem own hin, ← rowOf]

/-! ## What a fragment adds -/

namespace Declaration

/-- The parameter or the subcommand that a fragment adds. -/
def Fragment.kept (fragment : Fragment) : Argument :=
  let description :=
    (Text.unlessVoid (some fragment.argument.description)).getD fillerDescription
  if fragment.argument.isCommand then
    Argument.subcommand fragment.argument.name description
  else
    { fragment.argument with description := description }

/-- The choices a fragment records: its own, or the token of a flag. -/
def Fragment.recorded (fragment : Fragment) : Option (List String) :=
  if fragment.argument.isFlag then some [fragment.argument.token.getD ""] else fragment.choices

/-- The row a fragment adds, given the subcommand opened last. -/
def Fragment.row (scope : Option String) (fragment : Fragment) : Row :=
  ⟨if fragment.argument.isCommand then none else scope, fragment.kept, fragment.recorded⟩

/-- The rows that fragments add. -/
def transcript (scope : Option String) : List Fragment → List Row
  | [] => []
  | fragment :: rest => fragment.row scope :: transcript (scopeAfter scope fragment) rest

theorem Fragment.kept_of_parameter {fragment : Fragment}
    (hcommand : fragment.argument.isCommand = false) :
    fragment.kept =
      { fragment.argument with
        description :=
          (Text.unlessVoid (some fragment.argument.description)).getD fillerDescription } := by
  rw [kept, hcommand]
  rfl

@[simp]
theorem Fragment.kept_name (fragment : Fragment) : fragment.kept.name = fragment.argument.name := by
  unfold kept
  split <;> rfl

@[simp]
theorem Fragment.kept_isCommand (fragment : Fragment) :
    fragment.kept.isCommand = fragment.argument.isCommand := by
  unfold kept
  split
  next hcommand =>
      rw [hcommand]
      rfl
  next => rfl

@[simp]
theorem Fragment.kept_isFlag (fragment : Fragment) :
    fragment.kept.isFlag = fragment.argument.isFlag := by
  unfold kept
  split
  next hcommand =>
      unfold Argument.isCommand at hcommand
      split at hcommand
      next hkind =>
          rw [Argument.isFlag, Argument.isFlag, hkind]
          rfl
      next => cases hcommand
  next => rfl

/-- What a fragment adds has no parameters of its own as yet. -/
theorem Fragment.IsRead.kept_leaf {grammar : Grammar} {fragment : Fragment}
    (h : fragment.IsRead grammar) : fragment.kept.subarguments = [] := by
  unfold Fragment.kept
  rcases h.formed with hparameter | hbareword
  · simp [hparameter.isCommand, hparameter.leaf]
  · simp [hbareword.isCommand, Argument.subcommand]

/-- A bareword records no choices. -/
theorem Fragment.IsRead.recorded_bareword {grammar : Grammar} {fragment : Fragment}
    (h : fragment.IsRead grammar) (hcommand : fragment.argument.isCommand = true) :
    fragment.recorded = none := by
  obtain ⟨_, hnone, _⟩ := bareword_of_declared h.piece h.declared hcommand
  obtain ⟨role, hkind⟩ := (h.formed.bareword hcommand).kind
  simp [Fragment.recorded, Argument.isFlag, hkind, hnone]

/-- What a fragment adds has the row of the fragment once its choices are recorded. -/
theorem Fragment.IsRead.rowOf_kept {grammar : Grammar} {fragment : Fragment}
    (h : fragment.IsRead grammar) {scope own : Option String}
    (hown : (if fragment.argument.isCommand then none else scope) = own)
    {choices : Dict ScopeKey (List String)}
    (hchoices : choices.get? ⟨own, fragment.argument.name⟩ = fragment.recorded) :
    rowOf choices own fragment.kept = fragment.row scope := by
  rw [rowOf, Argument.bare_of_leaf h.kept_leaf, Fragment.kept_name, hchoices, Fragment.row, hown]

/-- A new argument at the end adds its row, as long as the other rows keep their choices. -/
theorem Fragment.IsRead.rowsOf_append_kept {grammar : Grammar} {fragment : Fragment}
    (h : fragment.IsRead grammar) (choices : Dict ScopeKey (List String))
    (arguments : List Argument) :
    rowsOf choices (arguments ++ [fragment.kept]) =
      rowsOf choices arguments ++ [rowOf choices none fragment.kept] := by
  rw [rowsOf_append]
  simp [rowsOf, h.kept_leaf]

end Declaration

namespace Draft

/-- A draft with what a fragment adds. -/
def taking (draft : Draft α) (scope : Option String) (fragment : Fragment) : Draft α :=
  if fragment.argument.isCommand then
    { draft with
      arguments := draft.arguments ++ [fragment.kept]
      subcommands := draft.subcommands.insert fragment.argument.name draft.arguments.length }
  else
    place
      { draft with
        choices :=
          draft.choices.insertSome ⟨scope, fragment.argument.name⟩ fragment.recorded }
      fragment.kept scope

/-- A flag that brings choices along is refused. -/
theorem payload_of_withSource_ok {draft next : Draft α} {key : ScopeKey} {argument : Argument}
    {payload : Option (List String)}
    (h : draft.withSource key argument payload .payload = .ok next)
    (hflag : argument.isFlag = true) : payload = none := by
  cases payload with
  | none => rfl
  | some listed =>
      rw [withSource, hflag, if_pos rfl] at h
      cases h

/-- What a fragment does to a draft all of whose subcommands are declared. -/
theorem addFragment_ok {draft : Draft α} {scope : Option String} {fragment : Fragment}
    {next : Draft α × Option String} (himplicit : draft.implicit = [])
    (h : addFragment (draft, scope) fragment = .ok next) :
    next = (draft.taking scope fragment, scopeAfter scope fragment) ∧
      ∀ own ∈ draft.inScope (if fragment.argument.isCommand then none else scope),
        own.name ≠ fragment.argument.name := by
  unfold addFragment at h
  unfold taking scopeAfter Fragment.kept
  cases hcommand : fragment.argument.isCommand with
  | true =>
      simp only [hcommand, if_true] at h ⊢
      obtain ⟨declared, hdeclared, rfl⟩ := ok_of_map_eq_ok h
      cases declares_of_declareSubcommand hdeclared with
      | settled _ hcontains =>
          rw [himplicit] at hcontains
          cases hcontains
      | anew _ hfresh =>
          refine ⟨rfl, ?_⟩
          simpa [hasArgument, inScope] using hfresh
  | false =>
      simp only [hcommand, Bool.false_eq_true, if_false, addParameter_fragmentSource] at h ⊢
      obtain ⟨added, hadded, rfl⟩ := ok_of_map_eq_ok h
      unfold addParameter at hadded
      dsimp only at hadded
      split at hadded
      next => cases hadded
      next hfresh =>
          obtain ⟨argument, hbounded, hadded⟩ := ok_of_bind_eq_ok hadded
          obtain ⟨sourced, hsourced, hadded⟩ := ok_of_bind_eq_ok hadded
          cases hbounded
          cases hadded
          rw [withSource_payload _ _ (payload_of_withSource_ok hsourced)] at hsourced
          cases hsourced
          refine ⟨rfl, ?_⟩
          simpa using hfresh

/-! ## One row more -/

/-- The rows of a draft. -/
def rows (draft : Draft α) : List Row :=
  rowsOf draft.choices draft.arguments

/-- A draft as declaration texts fill it: every subcommand is declared, the parameters of
the command itself come first, and the subcommand opened last is the last argument. -/
structure Staged (draft : Draft α) (scope : Option String) : Prop where
  implicit : draft.implicit = []
  split : ∃ own subcommands, draft.arguments = own ++ subcommands ∧
    (∀ argument ∈ own, argument.isCommand = false) ∧
      (∀ argument ∈ subcommands, argument.isCommand = true) ∧
        subcommands.getLast?.map Argument.name = scope

theorem staged_empty {draft : Draft α} (himplicit : draft.implicit = [])
    (harguments : draft.arguments = []) : draft.Staged none :=
  ⟨himplicit, [], [], harguments, by simp, by simp, rfl⟩

/-- While no subcommand is open there is none. -/
theorem Staged.own {draft : Draft α} (h : draft.Staged none) :
    ∀ argument ∈ draft.arguments, argument.isCommand = false := by
  obtain ⟨own, subcommands, hsplit, hown, _, hlast⟩ := h.split
  have hnil : subcommands = [] := by simpa using hlast
  rw [hsplit, hnil, List.append_nil]
  exact hown

/-- The subcommand opened last stands behind arguments with other names. -/
theorem Staged.last {draft : Draft α} {name : String} (h : draft.Staged (some name))
    (hdistinct : (draft.arguments.map Argument.name).Nodup) :
    ∃ own others last, draft.arguments = (own ++ others) ++ [last] ∧
      (∀ argument ∈ own, argument.isCommand = false) ∧
      (∀ argument ∈ others, argument.isCommand = true) ∧
      last.isCommand = true ∧ last.name = name ∧
      ∀ argument ∈ own ++ others, argument.name ≠ last.name := by
  obtain ⟨own, subcommands, hsplit, hown, hcommands, hlast⟩ := h.split
  obtain ⟨last, hat, hname⟩ := Option.map_eq_some_iff.mp hlast
  obtain ⟨others, rfl⟩ := List.getLast?_eq_some_iff.mp hat
  rw [← List.append_assoc] at hsplit
  refine ⟨own, others, last, hsplit, hown,
    fun argument hmem => hcommands argument (List.mem_append_left _ hmem),
    hcommands last (by simp), hname, ?_⟩
  rw [hsplit, List.map_append, List.nodup_append] at hdistinct
  intro argument hmem
  exact hdistinct.2.2 _ (List.mem_map_of_mem hmem) _ (by simp)

/-- A fragment leaves a draft that declaration texts fill. -/
theorem Staged.taking {draft : Draft α} {scope : Option String} (h : draft.Staged scope)
    (hdistinct : (draft.arguments.map Argument.name).Nodup) (fragment : Fragment) :
    (draft.taking scope fragment).Staged (scopeAfter scope fragment) := by
  unfold Draft.taking scopeAfter
  cases hcommand : fragment.argument.isCommand with
  | true =>
      obtain ⟨own, subcommands, hsplit, hown, hcommands, _⟩ := h.split
      refine ⟨h.implicit, own, subcommands ++ [fragment.kept], ?_, hown, ?_, by simp⟩
      · simp [hsplit]
      · intro argument hmem
        rcases List.mem_append.mp hmem with hold | hnew
        · exact hcommands argument hold
        · rw [List.mem_singleton.mp hnew, Fragment.kept_isCommand, hcommand]
  | false =>
      simp only [Bool.false_eq_true, if_false]
      cases scope with
      | none =>
          refine ⟨h.implicit, draft.arguments ++ [fragment.kept], [], ?_, ?_, by simp, rfl⟩
          · simp [place]
          · intro argument hmem
            rcases List.mem_append.mp hmem with hold | hnew
            · exact h.own argument hold
            · rw [List.mem_singleton.mp hnew, Fragment.kept_isCommand, hcommand]
      | some name =>
          obtain ⟨own, others, last, hsplit, hown, hothers, hlast, rfl, hbefore⟩ :=
            h.last hdistinct
          refine ⟨h.implicit, own,
            others ++ [{ last with subarguments := last.subarguments ++ [fragment.kept] }],
            ?_, hown, ?_, by simp⟩
          · rw [← List.append_assoc]
            exact place_last hsplit hlast hbefore fragment.kept
          · intro argument hmem
            rcases List.mem_append.mp hmem with hold | hnew
            · exact hothers argument hold
            · rw [List.mem_singleton.mp hnew]
              exact hlast

section

variable {draft : Draft α} {fragment : Fragment} (hread : fragment.IsRead .command)
  (hcommand : fragment.argument.isCommand = false)

include hcommand in
theorem taking_choices (draft : Draft α) (scope : Option String) :
    (draft.taking scope fragment).choices =
      draft.choices.insertSome ⟨scope, fragment.argument.name⟩ fragment.recorded := by
  simp only [taking, hcommand, Bool.false_eq_true, if_false, place_choices]

include hcommand in
/-- The rows of other keys keep their choices. -/
theorem taking_choices_of_ne (draft : Draft α) {scope : Option String} {key : ScopeKey}
    (hne : (⟨scope, fragment.argument.name⟩ : ScopeKey) ≠ key) :
    (draft.taking scope fragment).choices.get? key = draft.choices.get? key := by
  rw [taking_choices hcommand]
  exact Dict.get?_insertSome_of_ne draft.choices hne fragment.recorded

include hread hcommand

/-- The parameter of a fragment whose name is new has the row of the fragment. -/
theorem rowOf_taking {scope : Option String} (hwell : draft.WellFormed)
    (hfresh : ∀ own ∈ parametersIn draft.arguments scope, own.name ≠ fragment.argument.name) :
    rowOf (draft.taking scope fragment).choices scope fragment.kept = fragment.row scope := by
  have hkeyed : Keyed draft.choices draft.arguments := hwell.consistent.choicesKeyed
  refine hread.rowOf_kept (by simp [hcommand]) ?_
  rw [taking_choices hcommand]
  exact Dict.get?_insertSome_self (hkeyed.unrecorded hfresh) fragment.recorded

/-- A parameter of the command itself adds its row. -/
theorem rows_taking_own (hwell : draft.WellFormed)
    (hfresh : ∀ own ∈ draft.arguments, own.name ≠ fragment.argument.name) :
    (draft.taking none fragment).rows = draft.rows ++ [fragment.row none] := by
  have harguments : (draft.taking none fragment).arguments =
      draft.arguments ++ [fragment.kept] := by
    simp only [taking, hcommand, Bool.false_eq_true, if_false, place]
  rw [rows, harguments, hread.rowsOf_append_kept, rowOf_taking hread hcommand hwell
    fun own hmem => hfresh own (mem_parametersIn_none.mp hmem).1, rows]
  congr 1
  refine rowsOf_congr (fun argument hmem => ?_) fun argument _ own _ => ?_
  · exact taking_choices_of_ne hcommand draft (by simpa using (hfresh argument hmem).symm)
  · exact taking_choices_of_ne hcommand draft (by simp)

/-- A parameter of the subcommand opened last adds its row. -/
theorem Staged.rows_taking_sub {name : String} (h : draft.Staged (some name))
    (hwell : draft.WellFormed)
    (hfresh : ∀ own ∈ parametersIn draft.arguments (some name),
      own.name ≠ fragment.argument.name) :
    (draft.taking (some name) fragment).rows = draft.rows ++ [fragment.row (some name)] := by
  obtain ⟨own, others, last, hsplit, _, _, hlast, rfl, hbefore⟩ :=
    h.last hwell.consistent.distinct
  have harguments : (draft.taking (some last.name) fragment).arguments =
      (own ++ others) ++ [{ last with subarguments := last.subarguments ++ [fragment.kept] }] := by
    simp only [Draft.taking, hcommand, Bool.false_eq_true, if_false]
    exact place_last hsplit hlast hbefore fragment.kept
  have hscope : parametersIn draft.arguments (some last.name) = last.subarguments := by
    rw [hsplit]
    exact parametersIn_append_own hlast hbefore
  have hother := fun key (hne : (⟨some last.name, fragment.argument.name⟩ : ScopeKey) ≠ key) =>
    taking_choices_of_ne hcommand draft hne
  have hrow := rowOf_taking hread hcommand hwell hfresh
  rw [hscope] at hfresh
  have hbefores : rowsOf (draft.taking (some last.name) fragment).choices (own ++ others) =
      rowsOf draft.choices (own ++ others) := by
    refine rowsOf_congr (fun argument _ => hother _ (by simp)) fun argument hmem _ _ =>
      hother _ ?_
    simpa using fun heq => absurd heq.symm (hbefore argument hmem)
  have hlasts : rowsOf (draft.taking (some last.name) fragment).choices [last] =
      rowsOf draft.choices [last] := by
    refine rowsOf_congr (fun argument _ => hother _ (by simp)) fun argument hmem old hold =>
      hother _ ?_
    rw [List.mem_singleton.mp hmem] at hold ⊢
    simpa using (hfresh old hold).symm
  rw [rows, harguments, rows, hsplit, rowsOf_append _ (own ++ others),
    rowsOf_append _ (own ++ others), hbefores, ← hlasts, ← hrow]
  simp [rowsOf, rowOf, Argument.bare]

end

/-- A fragment adds its row. -/
theorem Staged.rows_taking {draft : Draft α} {scope : Option String} (h : draft.Staged scope)
    (hwell : draft.WellFormed) {fragment : Fragment} (hread : fragment.IsRead .command)
    (hfresh : ∀ own ∈ draft.inScope (if fragment.argument.isCommand then none else scope),
      own.name ≠ fragment.argument.name) :
    (draft.taking scope fragment).rows = draft.rows ++ [fragment.row scope] := by
  cases hcommand : fragment.argument.isCommand with
  | true =>
      have hkeyed : Keyed draft.choices draft.arguments := hwell.consistent.choicesKeyed
      simp only [hcommand, if_true] at hfresh
      have hnew : ∀ own ∈ parametersIn draft.arguments none, own.name ≠ fragment.kept.name :=
        fun own hmem => fragment.kept_name ▸ hfresh own (mem_parametersIn_none.mp hmem).1
      have hnone : draft.choices.get? ⟨none, fragment.argument.name⟩ = fragment.recorded :=
        (fragment.kept_name ▸ hkeyed.unrecorded hnew).trans (hread.recorded_bareword hcommand).symm
      have hrow : rowOf draft.choices none fragment.kept = fragment.row scope :=
        hread.rowOf_kept (by simp [hcommand]) hnone
      simp only [rows, Draft.taking, hcommand, if_true]
      rw [hread.rowsOf_append_kept, hrow]
  | false =>
      simp only [hcommand, Bool.false_eq_true, if_false] at hfresh
      cases scope with
      | none => exact rows_taking_own hread hcommand hwell hfresh
      | some name => exact h.rows_taking_sub hread hcommand hwell hfresh

/-! ## All fragments -/

@[simp]
theorem taking_name (draft : Draft α) (scope : Option String) (fragment : Fragment) :
    (draft.taking scope fragment).name = draft.name := by
  unfold taking
  split
  · rfl
  · cases scope <;> rfl

@[simp]
theorem taking_description (draft : Draft α) (scope : Option String) (fragment : Fragment) :
    (draft.taking scope fragment).description = draft.description := by
  unfold taking
  split
  · rfl
  · cases scope <;> rfl

@[simp]
theorem taking_type (draft : Draft α) (scope : Option String) (fragment : Fragment) :
    (draft.taking scope fragment).type = draft.type := by
  unfold taking
  split
  · rfl
  · cases scope <;> rfl

/-- A draft is filled by the fragments behind the name of a declaration. -/
structure FilledBy (draft : Draft α) (root : Fragment) (rest : List Fragment) : Prop where
  name : draft.name = root.argument.name
  description : draft.description = Text.unlessVoid (some root.argument.description)
  type : draft.type = .chatInput
  staged : ∃ scope, draft.Staged scope
  rows : draft.rows = transcript none rest

/-- Fragments add their rows to a draft and change nothing else.  The induction is on the
fragments; the draft stays well formed and staged all along. -/
theorem rows_of_foldlM {rest : List Fragment} (hread : ∀ fragment ∈ rest, fragment.IsRead .command)
    {draft : Draft α} {scope : Option String} (hprogress : Progress (draft, scope))
    (hstaged : draft.Staged scope) {filled : Draft α × Option String}
    (h : rest.foldlM addFragment (draft, scope) = .ok filled) :
    filled.1.name = draft.name ∧ filled.1.description = draft.description ∧
      filled.1.type = draft.type ∧ filled.1.Staged filled.2 ∧
        filled.1.rows = draft.rows ++ transcript scope rest := by
  induction rest generalizing draft scope with
  | nil =>
      cases h
      exact ⟨rfl, rfl, rfl, hstaged, (List.append_nil _).symm⟩
  | cons fragment rest ih =>
      have hfragment := hread fragment List.mem_cons_self
      rw [List.foldlM_cons] at h
      obtain ⟨between, hbetween, h⟩ := ok_of_bind_eq_ok h
      have hnext := hprogress.addFragment hfragment.formed hbetween
      obtain ⟨rfl, hfresh⟩ := addFragment_ok hstaged.implicit hbetween
      obtain ⟨hname, hdescription, htype, hfilled, hrows⟩ :=
        ih (fun other hother => hread other (List.mem_cons_of_mem fragment hother)) hnext
          (hstaged.taking hprogress.1.consistent.distinct fragment) h
      refine ⟨by simpa using hname, by simpa using hdescription, by simpa using htype, hfilled, ?_⟩
      rw [hrows, hstaged.rows_taking hprogress.1 hfragment hfresh, List.append_assoc]
      rfl

end Draft

namespace Builder

/-- An accepted declaration text fills a draft with its fragments. -/
theorem ofDeclaration_ok {text : String} {builder : Builder α}
    (h : ofDeclaration text = .ok builder) :
    ∃ root rest draft, fragments .command text = .ok (root :: rest) ∧
      root.argument.isCommand = true ∧ builder = .drafting draft ∧ draft.FilledBy root rest := by
  obtain ⟨root, rest, start, filled, hfragments, hcommand, hstart, hfilled, rfl⟩ :=
    ofDeclaration_cases h
  have hread := isRead_of_mem_fragments hfragments
  have hprogress : Draft.Progress (start, none) :=
    ⟨.named hstart, fun name hname => by cases hname⟩
  obtain ⟨_, rfl⟩ := Draft.named_ok hstart
  obtain ⟨hname, hdescription, htype, hstaged, hrows⟩ := Draft.rows_of_foldlM
    (fun other hother => hread other (List.mem_cons_of_mem root hother)) hprogress
    (Draft.staged_empty rfl rfl) hfilled
  exact ⟨root, rest, filled.1, hfragments, hcommand, rfl,
    ⟨hname, hdescription, htype, ⟨filled.2, hstaged⟩, hrows⟩⟩

end Builder

end SlashCommand
