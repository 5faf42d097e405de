import SlashCommand.Proofs.Builder.Reachable

/-!
# A declaration text as a chain of calls

The declaration text of a whole command builds what single calls build one after the
other: one that names the command, and one for each fragment behind the name.  A
parameter is declared there by its own piece, behind the name of the subcommand opened
last.  Both ways are refused at the same fragment, with the same error.
-/

namespace SlashCommand

open Declaration

variable {α : Type}

/-! ## The calls of a declaration -/

/-- The piece of a parameter, behind the name of its subcommand. -/
def scopedPiece : Option String → String → String
  | none, piece => piece
  | some name, piece => name ++ " " ++ piece

/-- The call for a fragment: a bareword declares a subcommand, and every other fragment a
parameter of the subcommand opened last. -/
def fragmentCall (scope : Option String) (fragment : Fragment) : Call α :=
  if fragment.argument.isCommand then
    .addSubcommand fragment.argument.name (some fragment.argument.description)
  else
    .addArgument (scopedPiece scope fragment.source) none .payload {}

/-- The subcommand opened last, once a fragment is declared. -/
def scopeAfter (scope : Option String) (fragment : Fragment) : Option String :=
  if fragment.argument.isCommand then some fragment.argument.name else scope

/-- The calls for fragments, one for each. -/
def fragmentCalls (scope : Option String) : List Fragment → List (Call α)
  | [] => []
  | fragment :: rest =>
      fragmentCall scope fragment :: fragmentCalls (scopeAfter scope fragment) rest

/-- The calls that declare a command fragment by fragment. -/
def declarationCalls (root : Fragment) (rest : List Fragment) : List (Call α) :=
  .setCommand root.argument.name (some root.argument.description) :: fragmentCalls none rest

/-! ## The declaration of one parameter -/

namespace Declaration

/-- A name that is mentioned in front of a parameter. -/
def mentionOf (name : String) : Fragment :=
  { position := 0
    source := name
    argument := argumentOf ⟨name, none, none⟩ (.command .sub) name
    choices := none }

theorem parse_mention {name : String} (h : IsName name.toList) :
    Fragment.parse .parameter 0 name = .ok (mentionOf name) :=
  Fragment.parse_name h rfl

/-- The piece of a parameter declares it in whatever grammar and place. -/
theorem Fragment.IsRead.parse_parameter {fragment : Fragment} (h : fragment.IsRead .command)
    (hparameter : fragment.argument.isCommand = false) (position : Nat) :
    Fragment.parse .parameter position fragment.source =
      .ok { fragment with position := position } := by
  rw [Fragment.parse, declared_parameter h.declared hparameter]
  rfl

/-- A piece by itself declares the parameter under no subcommand. -/
theorem Parameter.parse_own {fragment : Fragment} (h : fragment.IsRead .command)
    (hparameter : fragment.argument.isCommand = false) :
    Parameter.parse fragment.source = .ok ⟨none, { fragment with position := 0 }⟩ := by
  have hpieces : pieces (Text.join " " [fragment.source]) = .ok [fragment.source] :=
    pieces_join (by simpa using h.piece)
  rw [Text.join] at hpieces
  have hfragments : fragments .parameter fragment.source =
      .ok [{ fragment with position := 0 }] := by
    rw [fragments, hpieces, ok_bind, Fragment.parseFrom, h.parse_parameter hparameter]
    rfl
  rw [Parameter.parse, hfragments, ok_bind]
  simp only [List.filter_cons, List.filter_nil, hparameter]
  rfl

/-- A piece behind a name declares the parameter under the subcommand of that name. -/
theorem Parameter.parse_mentioned {fragment : Fragment} (h : fragment.IsRead .command)
    (hparameter : fragment.argument.isCommand = false) {name : String}
    (hname : IsName name.toList) :
    Parameter.parse (name ++ " " ++ fragment.source) =
      .ok ⟨some (mentionOf name), { fragment with position := 1 }⟩ := by
  have hpieces : pieces (Text.join " " [name, fragment.source]) =
      .ok [name, fragment.source] :=
    pieces_join (by simpa using ⟨hname.isPiece, h.piece⟩)
  rw [Text.join_cons_cons, Text.join] at hpieces
  have hcommand : (mentionOf name).argument.isCommand = true := rfl
  have hfragments : fragments .parameter (name ++ " " ++ fragment.source) =
      .ok [mentionOf name, { fragment with position := 1 }] := by
    rw [fragments, hpieces, ok_bind, Fragment.parseFrom, parse_mention hname, ok_bind,
      Fragment.parseFrom, h.parse_parameter hparameter]
    rfl
  rw [Parameter.parse, hfragments, ok_bind]
  simp only [List.filter_cons, List.filter_nil, hparameter, hcommand]
  rfl

end Declaration

/-! ## One call for one fragment -/

namespace Draft

/-- The draft a call leads to, or the error it is refused with. -/
def led : Draft α × Except BuildError Unit → Except BuildError (Draft α)
  | (next, .ok ()) => .ok next
  | (_, .error error) => .error error

@[simp]
theorem led_settle (draft : Draft α) (step : Except BuildError (Draft α)) :
    led (draft.settle step) = step := by
  cases step <;> rfl

/-- Mentioning a subcommand that is there, without a description, changes nothing. -/
theorem mentionSubcommand_undescribed_of_mem {draft : Draft α} {name : String}
    (h : draft.hasSubcommand name = true) : draft.mentionSubcommand name none = .ok draft := by
  unfold mentionSubcommand describeSubcommand
  rw [if_pos h]
  split <;> rfl

/-- Declaring the parameter of a fragment by its piece adds it to the scope. -/
theorem led_addArgument {draft : Draft α} {scope : Option String}
    (hscope : ∀ name ∈ scope, draft.hasSubcommand name = true ∧ IsName name.toList)
    {fragment : Fragment} (hread : fragment.IsRead .command)
    (hparameter : fragment.argument.isCommand = false) :
    led (draft.addArgument (scopedPiece scope fragment.source) none .payload {}) =
      draft.addParameter scope fragment none .payload {} := by
  cases scope with
  | none =>
      simp only [scopedPiece, addArgument, Parameter.parse_own hread hparameter, led_settle]
      rfl
  | some name =>
      obtain ⟨hsubcommand, hname⟩ := hscope name rfl
      have hblank : Text.unlessVoid (some (mentionOf name).argument.description) = none :=
        show Text.unlessVoid (some Payload.blankDescription) = none by decide
      have hmention : draft.mentionSubcommand (mentionOf name).argument.name none = .ok draft :=
        mentionSubcommand_undescribed_of_mem hsubcommand
      have hsame : draft.addParameter (some (mentionOf name).argument.name)
          { fragment with position := 1 } none .payload {} =
            draft.addParameter (some name) fragment none .payload {} := rfl
      simp only [scopedPiece, addArgument, Parameter.parse_mentioned hread hparameter hname,
        hblank, hmention, hsame]
      cases draft.addParameter (some name) fragment none .payload {} <;> rfl

/-- Declaring the subcommand of a bareword by its name is what the bareword does. -/
theorem led_addSubcommand (draft : Draft α) {name : String} (hname : IsName name.toList)
    (description : String) :
    led (Builder.callDraft draft (.addSubcommand name (some description))) =
      draft.declareSubcommand name (Text.unlessVoid (some description)) := by
  simp only [Builder.callDraft, checkWord, hname.isWord, if_true, led_settle]

/-- A fragment does to a draft what its call does. -/
theorem addFragment_eq_led {draft : Draft α} {scope : Option String}
    (hscope : ∀ name ∈ scope, draft.hasSubcommand name = true ∧ IsName name.toList)
    {fragment : Fragment} (hread : fragment.IsRead .command) :
    addFragment (draft, scope) fragment =
      (led (Builder.callDraft draft (fragmentCall scope fragment))).map fun next =>
        (next, scopeAfter scope fragment) := by
  unfold addFragment fragmentCall scopeAfter
  cases hcommand : fragment.argument.isCommand with
  | true =>
      simp only [hcommand, if_true, led_addSubcommand draft hread.isName]
  | false =>
      simp only [hcommand, Bool.false_eq_true, if_false, Builder.callDraft,
        led_addArgument hscope hread hcommand, addParameter_fragmentSource]

end Draft

namespace Builder

theorem calls_drafting (draft : Draft α) (call : Call α) (rest : List (Call α)) :
    calls (.drafting draft) (call :: rest) =
      Draft.led (callDraft draft call) >>= fun next => calls (.drafting next) rest := by
  rw [calls, Builder.call]
  rcases callDraft draft call with ⟨next, _ | _⟩ <;> rfl

/-- Calls can be made in two parts. -/
theorem calls_append (builder : Builder α) (first second : List (Call α)) :
    builder.calls (first ++ second) = builder.calls first >>= fun between => between.calls second := by
  induction first generalizing builder with
  | nil => rfl
  | cons next rest ih =>
      rw [List.cons_append, calls, calls]
      split
      · exact ih _
      · rfl

theorem calls_cons_ok {builder last : Builder α} {next : Call α} {rest : List (Call α)}
    (h : builder.calls (next :: rest) = .ok last) :
    (builder.call next).2 = .ok () ∧ (builder.call next).1.calls rest = .ok last := by
  rw [calls] at h
  split at h
  next hnext =>
      rw [hnext]
      exact ⟨rfl, h⟩
  next => cases h

/-! ## All fragments -/

/-- Fragments are added to a draft as their calls are made.  The induction is on the
fragments; the subcommand opened last stays declared all along. -/
theorem calls_fragmentCalls {draft : Draft α} {scope : Option String} {rest : List Fragment}
    (hread : ∀ fragment ∈ rest, fragment.IsRead .command)
    (hprogress : Draft.Progress (draft, scope)) (hscope : ∀ name ∈ scope, IsName name.toList) :
    calls (.drafting draft) (fragmentCalls scope rest) =
      (rest.foldlM Draft.addFragment (draft, scope)).map fun filled => .drafting filled.1 := by
  induction rest generalizing draft scope with
  | nil => rfl
  | cons fragment rest ih =>
      have hfragment := hread fragment List.mem_cons_self
      have hothers := fun other hother => hread other (List.mem_cons_of_mem fragment hother)
      have hstep := Draft.addFragment_eq_led
        (fun name hname => ⟨hprogress.2 name hname, hscope name hname⟩) hfragment
      rw [fragmentCalls, calls_drafting, List.foldlM_cons, hstep]
      cases hled : Draft.led (callDraft draft (fragmentCall scope fragment)) with
      | error error => rfl
      | ok next =>
          rw [hled] at hstep
          refine ih hothers (hprogress.addFragment hfragment.formed hstep) fun name hname => ?_
          unfold scopeAfter at hname
          split at hname
          · cases hname
            exact hfragment.isName
          · exact hscope name hname

/-- The declaration text of a command builds what the calls for its fragments build, and is
refused with the error of the first of these calls that is refused. -/
theorem ofDeclaration_eq_calls {text : String} {root : Fragment} {rest : List Fragment}
    (hfragments : fragments .command text = .ok (root :: rest))
    (hroot : root.argument.isCommand = true) :
    (ofDeclaration text : Except BuildError (Builder α)) =
      calls .unnamed (declarationCalls root rest) := by
  have hread := isRead_of_mem_fragments hfragments
  have hothers := fun other hother => hread other (List.mem_cons_of_mem root hother)
  rw [declarationCalls, calls, Builder.call, callUnnamed]
  simp only [ofDeclaration, hfragments, hroot, if_true]
  cases hnamed : Draft.named root.argument.name (some root.argument.description) with
  | error error => rfl
  | ok draft =>
      have hprogress : Draft.Progress ((draft, none) : Draft α × Option String) :=
        ⟨.named hnamed, fun name hname => by cases hname⟩
      simp only [ok_bind]
      rw [calls_fragmentCalls hothers hprogress fun name hname => by cases hname]
      cases rest.foldlM Draft.addFragment (draft, none) <;> rfl

/-- A note, and a subcommand with an item. -/
def errandText : String :=
  "todo [note] add;+Adds+one <item>"

/-- The note is declared by itself, the item behind the name of its subcommand. -/
def errandCalls : List (Call Unit) :=
  [.setCommand "todo" (some " "),
    .addArgument "[note]" none .payload {},
    .addSubcommand "add" (some "Adds one"),
    .addArgument "add <item>" none .payload {}]

theorem ofDeclaration_errandText :
    ∃ root rest, fragments .command errandText = .ok (root :: rest) ∧
      root.argument.isCommand = true ∧ declarationCalls root rest = errandCalls ∧
        ofDeclaration errandText = calls .unnamed errandCalls := by
  have hread : ∃ root rest, fragments .command errandText = .ok (root :: rest) ∧
      root.argument.isCommand = true ∧ declarationCalls root rest = errandCalls :=
    ⟨_, _, rfl, rfl, rfl⟩
  obtain ⟨root, rest, hfragments, hroot, hcalls⟩ := hread
  exact ⟨root, rest, hfragments, hroot, hcalls, hcalls ▸ ofDeclaration_eq_calls hfragments hroot⟩

end Builder

end SlashCommand
