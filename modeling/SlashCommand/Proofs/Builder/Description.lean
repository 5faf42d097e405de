import SlashCommand.Proofs.Builder.Reflection
import SlashCommand.Proofs.Builder.Stepwise

/-!
# Where the description of a subcommand comes from

A subcommand is brought about by the first parameter that mentions it, or declared by a
call of its own.  Until it is declared, the latest description that a parameter gives it
counts; its declaration settles the description for good, and happens once at most.  What
a draft does to a name depends on the standing of that name only, and a run of calls takes
the standing along.
-/

namespace SlashCommand

open Declaration

variable {α : Type}

/-! ## What calls say about a name -/

/-- What a call says about a subcommand.  A void description is none. -/
inductive Remark where
  /-- A call of its own declares the subcommand. -/
  | declares (given : Option String)
  /-- The declaration of a parameter mentions the subcommand. -/
  | mentions (given : Option String)

/-- What a call says about the subcommand with a name, if it says anything. -/
def Call.remark? (name : String) : Call α → Option Remark
  | .addSubcommand own description =>
      if own = name then some (.declares (Text.unlessVoid description)) else none
  | .addArgument declaration _ _ _ => do
      let parameter ← (Parameter.parse declaration).toOption
      let mention ← parameter.subcommand
      if mention.argument.name = name then
        some (.mentions (Text.unlessVoid (some mention.argument.description)))
      else
        none
  | _ => none

theorem Call.remark?_addSubcommand (name : String) (description : Option String) :
    Call.remark? name (.addSubcommand name description : Call α) =
      some (.declares (Text.unlessVoid description)) :=
  if_pos rfl

/-- A call declares the subcommand with a name. -/
def Call.declares (name : String) : Call α → Bool
  | .addSubcommand own _ => own == name
  | _ => false

/-- A step declares the subcommand with a name. -/
def Step.declares (name : String) : Step α → Bool
  | .call next => next.declares name
  | .build => false

theorem Call.declares_iff {name : String} {call : Call α} :
    call.declares name = true ↔ ∃ given, call.remark? name = some (.declares given) := by
  cases call with
  | addSubcommand own description =>
      by_cases hown : own = name <;> simp [declares, remark?, hown]
  | addArgument declaration description source options =>
      constructor
      · intro hdeclares
        cases hdeclares
      · rintro ⟨given, hremark⟩
        obtain ⟨parameter, _, hremark⟩ := Option.bind_eq_some_iff.mp hremark
        obtain ⟨mention, _, hremark⟩ := Option.bind_eq_some_iff.mp hremark
        split at hremark <;> cases hremark
  | _ => simp [declares, remark?]

/-- The description that the declaration of a parameter gives to the subcommand with a
name. -/
def Call.wording? (name : String) (call : Call α) : Option String :=
  match call.remark? name with
  | some (.mentions given) => given
  | _ => none

/-- The latest description that parameters give to the subcommand with a name. -/
def lastWording (name : String) (run : List (Call α)) : Option String :=
  (run.filterMap (Call.wording? name)).getLast?

/-! ## The standing of a name -/

/-- The standing of a name among the subcommands, with the description. -/
inductive Standing where
  | absent
  /-- Parameters brought the subcommand about, and nothing declared it yet. -/
  | implied (text : String)
  | declared (text : String)

namespace Standing

def text? : Standing → Option String
  | absent => none
  | implied text => some text
  | declared text => some text

def isImplied : Standing → Bool
  | implied _ => true
  | _ => false

def isDeclared : Standing → Bool
  | declared _ => true
  | _ => false

/-- The standing with another description, if one is given. -/
def told (given : Option String) : Standing → Standing
  | absent => absent
  | implied text => implied (given.getD text)
  | declared text => declared (given.getD text)

/-- The standing after a remark.  What is declared stays as it is. -/
def hear : Standing → Remark → Standing
  | absent, .declares given => declared (given.getD fillerDescription)
  | absent, .mentions given => implied (given.getD fillerDescription)
  | implied text, .declares given => declared (given.getD text)
  | implied text, .mentions given => implied (given.getD text)
  | declared text, _ => declared text

/-- The standing after an accepted call, given what it says. -/
def after (standing : Standing) (remark? : Option Remark) : Standing :=
  remark?.elim standing standing.hear

@[simp]
theorem declared_after (text : String) (remark? : Option Remark) :
    (declared text).after remark? = declared text := by
  cases remark? <;> rfl

@[simp]
theorem isSome_text?_told (given : Option String) (standing : Standing) :
    (standing.told given).text?.isSome = standing.text?.isSome := by
  cases standing <;> rfl

@[simp]
theorem isImplied_told (given : Option String) (standing : Standing) :
    (standing.told given).isImplied = standing.isImplied := by
  cases standing <;> rfl

@[simp]
theorem isDeclared_told (given : Option String) (standing : Standing) :
    (standing.told given).isDeclared = standing.isDeclared := by
  cases standing <;> rfl

/-- A declaration settles the description: the one it gives, or the one there is. -/
theorem hear_declares {standing : Standing} (h : standing.isDeclared = false)
    (given : Option String) :
    standing.hear (.declares given) =
      declared (given.getD (standing.text?.getD fillerDescription)) := by
  cases standing with
  | declared text => cases h
  | _ => rfl

theorem text?_hear_mentions {standing : Standing} (h : standing.isDeclared = false)
    (given : Option String) :
    (standing.hear (.mentions given)).text? =
      some (given.getD (standing.text?.getD fillerDescription)) := by
  cases standing with
  | declared text => cases h
  | _ => rfl

theorem text?_told (given : Option String) (standing : Standing) :
    (standing.told given).text? = standing.text?.map given.getD := by
  cases standing <;> rfl

theorem told_none (standing : Standing) : standing.told none = standing := by
  cases standing <;> rfl

end Standing

namespace Draft

/-- A name has a standing in a draft. -/
structure Stands (draft : Draft α) (name : String) (standing : Standing) : Prop where
  there : draft.hasSubcommand name = standing.text?.isSome
  /-- A name that is declared is taken from the implicit ones, so it must not be there twice. -/
  implicit : draft.implicit.count name = standing.isImplied.toNat
  described : ∀ subcommand ∈ draft.arguments, isSubcommand name subcommand = true →
    standing.text? = some subcommand.description

namespace Stands

variable {draft next : Draft α} {name own : String} {standing : Standing}
  {given : Option String}

/-! ## Steps that leave the standing alone -/

theorem of_same (h : draft.Stands name standing)
    (hthere : next.hasSubcommand name = draft.hasSubcommand name)
    (himplicit : next.implicit.count name = draft.implicit.count name)
    (hdescribed : ∀ subcommand ∈ next.arguments, isSubcommand name subcommand = true →
      ∃ old ∈ draft.arguments,
        isSubcommand name old = true ∧ old.description = subcommand.description) :
    next.Stands name standing where
  there := hthere.trans h.there
  implicit := himplicit.trans h.implicit
  described := by
    intro subcommand hmem hsub
    obtain ⟨old, hold, hnamed, hsame⟩ := hdescribed subcommand hmem hsub
    rw [h.described old hold hnamed, hsame]

/-- Only arguments, the index and the implicit subcommands decide. -/
theorem of_eq (h : draft.Stands name standing) (harguments : next.arguments = draft.arguments)
    (hindex : next.subcommands = draft.subcommands) (himplicit : next.implicit = draft.implicit) :
    next.Stands name standing := by
  refine h.of_same ?_ (by rw [himplicit]) fun subcommand hmem hsub => ?_
  · rw [hasSubcommand, hindex]
    rfl
  · exact ⟨subcommand, harguments ▸ hmem, hsub, rfl⟩

theorem exists_of_mem_changed {change : Argument → Argument} (hchange : KeepsSubcommand change)
    {arguments : List Argument} {subcommand : Argument}
    (hmem : subcommand ∈ arguments.map (changed own change))
    (hsub : isSubcommand name subcommand = true) :
    ∃ old ∈ arguments, isSubcommand name old = true ∧ changed own change old = subcommand := by
  obtain ⟨old, hold, rfl⟩ := List.mem_map.mp hmem
  exact ⟨old, hold, (isSubcommand_changed hchange name old).symm.trans hsub, rfl⟩

theorem place (h : draft.Stands name standing) {argument : Argument}
    (hcommand : argument.isCommand = false) (scope : Option String) :
    (draft.place argument scope).Stands name standing := by
  refine h.of_same (hasSubcommand_place draft argument scope name) ?_ ?_
  · cases scope <;> rfl
  · intro subcommand hmem hsub
    cases scope with
    | none =>
        rcases List.mem_append.mp hmem with hold | hnew
        · exact ⟨subcommand, hold, hsub, rfl⟩
        · rw [List.mem_singleton.mp hnew, isSubcommand_of_not_command hcommand] at hsub
          cases hsub
    | some owner =>
        obtain ⟨old, hold, hnamed, rfl⟩ :=
          exists_of_mem_changed (keepsSubcommand_own argument) hmem hsub
        refine ⟨old, hold, hnamed, ?_⟩
        unfold changed
        split <;> rfl

/-- A parameter that is added gives no description. -/
theorem addParameter (h : draft.Stands name standing) {scope : Option String}
    {fragment : Fragment} {description : Option String} {source : ChoiceSource α}
    {options : ArgumentOptions} (hform : fragment.argument.ParameterForm)
    (hnext : draft.addParameter scope fragment description source options = .ok next) :
    next.Stands name standing := by
  obtain ⟨argument, hadds⟩ := adds_of_addParameter hnext
  have hadmits := hadds.admits hform
  obtain ⟨between, hrecords, rfl⟩ := hadmits.recorded
  have hbetween := h.of_eq hrecords.arguments hrecords.subcommands hrecords.implicit
  exact hbetween.place hadmits.kept.isCommand scope

/-! ## Descriptions -/

theorem describe_self (h : draft.Stands name standing) (given : Option String) :
    (draft.describeSubcommand name given).Stands name (standing.told given) := by
  cases given with
  | none => rwa [Standing.told_none]
  | some text =>
      have hchange := keepsSubcommand_describe text
      refine ⟨?_, ?_, ?_⟩
      · rw [hasSubcommand_describeSubcommand, Standing.isSome_text?_told]
        exact h.there
      · rw [Standing.isImplied_told]
        exact h.implicit
      · intro subcommand hmem hsub
        obtain ⟨old, hold, hnamed, rfl⟩ := exists_of_mem_changed hchange hmem hsub
        rw [Standing.text?_told, h.described old hold hnamed, changed_of_subcommand hnamed]
        rfl

theorem describe_other (h : draft.Stands name standing) (hne : own ≠ name)
    (given : Option String) : (draft.describeSubcommand own given).Stands name standing := by
  cases given with
  | none => exact h
  | some text =>
      have hchange := keepsSubcommand_describe text
      refine h.of_same (hasSubcommand_describeSubcommand draft own name (some text)) rfl ?_
      intro subcommand hmem hsub
      obtain ⟨old, hold, hnamed, rfl⟩ := exists_of_mem_changed hchange hmem hsub
      refine ⟨old, hold, hnamed, ?_⟩
      have hother : isSubcommand own old = false := by
        simp [isSubcommand, (isSubcommand_iff.mp hnamed).2, hne.symm]
      rw [changed_of_not_subcommand hother]

/-! ## New subcommands -/

/-- A new subcommand has its description from the start. -/
theorem append_self (hfresh : draft.hasArgument name = false) (given : Option String)
    (htext : standing.text? = some (given.getD fillerDescription))
    (himplicit : draft.implicit.count name = standing.isImplied.toNat) :
    (draft.appendSubcommand name given).Stands name standing where
  there := by rw [hasSubcommand_appendSubcommand_self, htext, Option.isSome_some]
  implicit := himplicit
  described := by
    intro subcommand hmem hsub
    rcases List.mem_append.mp hmem with hold | hnew
    · -- no older argument has the name
      have hname := List.any_eq_false.mp hfresh subcommand hold
      exact absurd (beq_iff_eq.mpr (isSubcommand_iff.mp hsub).2) hname
    · rw [List.mem_singleton.mp hnew]
      exact htext

theorem append_other (h : draft.Stands name standing) (hne : own ≠ name)
    (given : Option String) : (draft.appendSubcommand own given).Stands name standing := by
  refine h.of_same ?_ rfl fun subcommand hmem hsub => ?_
  · simp [appendSubcommand, hasSubcommand, Dict.contains, Dict.get?_insert_of_ne _ hne]
  · rcases List.mem_append.mp hmem with hold | hnew
    · exact ⟨subcommand, hold, hsub, rfl⟩
    · rw [List.mem_singleton.mp hnew] at hsub
      exact absurd (isSubcommand_iff.mp hsub).2 hne

/-! ## Declaring and mentioning -/

theorem isImplied_eq_contains (h : draft.Stands name standing) :
    standing.isImplied = draft.implicit.contains name := by
  rw [Bool.eq_iff_iff, List.contains_iff_mem, ← List.count_pos_iff, h.implicit]
  cases standing.isImplied <;> simp

theorem eq_absent (h : draft.Stands name standing) (hsub : draft.hasSubcommand name = false) :
    standing = .absent := by
  have hthere := h.there.symm.trans hsub
  cases standing with
  | absent => rfl
  | _ => cases hthere

theorem eq_implied (h : draft.Stands name standing)
    (himplicit : draft.implicit.contains name = true) : ∃ text, standing = .implied text := by
  have himplied := h.isImplied_eq_contains.trans himplicit
  cases standing with
  | implied text => exact ⟨text, rfl⟩
  | _ => cases himplied

theorem eq_declared (h : draft.Stands name standing) (hsub : draft.hasSubcommand name = true)
    (himplicit : draft.implicit.contains name = false) : ∃ text, standing = .declared text := by
  have hthere := h.there.symm.trans hsub
  have himplied := h.isImplied_eq_contains.trans himplicit
  cases standing with
  | absent => cases hthere
  | implied text => cases himplied
  | declared text => exact ⟨text, rfl⟩

/-- A declaration that is accepted is the first one of its name. -/
theorem declare_self (h : draft.Stands name standing)
    (hnext : draft.declareSubcommand name given = .ok next) :
    standing.isDeclared = false ∧ next.Stands name (standing.hear (.declares given)) := by
  cases declares_of_declareSubcommand hnext with
  | settled hsub himplicit =>
      obtain ⟨text, rfl⟩ := h.eq_implied himplicit
      -- one entry is erased, so none may be left
      have hcount : (draft.implicit.erase name).count name = 0 := by
        rw [List.count_erase_self, h.implicit]
        rfl
      have herased : Stands { draft with implicit := draft.implicit.erase name } name
          (.declared text) :=
        { there := h.there, implicit := hcount, described := h.described }
      exact ⟨rfl, herased.describe_self given⟩
  | anew hsub hfresh =>
      obtain rfl := h.eq_absent hsub
      exact ⟨rfl, append_self hfresh given rfl h.implicit⟩

theorem declare_other (h : draft.Stands name standing) (hne : own ≠ name)
    (hnext : draft.declareSubcommand own given = .ok next) : next.Stands name standing := by
  cases declares_of_declareSubcommand hnext with
  | settled =>
      refine describe_other ?_ hne given
      exact
        { there := h.there
          implicit := (List.count_erase_of_ne hne.symm).trans h.implicit
          described := h.described }
  | anew => exact h.append_other hne given

/-- A mention brings a subcommand about, or gives an implicit one its description. -/
theorem mention_self (h : draft.Stands name standing)
    (hnext : draft.mentionSubcommand name given = .ok next) :
    next.Stands name (standing.hear (.mentions given)) := by
  cases mentions_of_mentionSubcommand hnext with
  | described hsub himplicit =>
      obtain ⟨text, rfl⟩ := h.eq_implied himplicit
      exact h.describe_self given
  | ignored hsub himplicit =>
      obtain ⟨text, rfl⟩ := h.eq_declared hsub himplicit
      exact h
  | anew hsub hfresh =>
      obtain rfl := h.eq_absent hsub
      have hnew : hasArgument { draft with implicit := name :: draft.implicit } name = false :=
        hfresh
      refine append_self hnew given rfl ?_
      rw [List.count_cons_self, h.implicit]
      rfl

theorem mention_other (h : draft.Stands name standing) (hne : own ≠ name)
    (hnext : draft.mentionSubcommand own given = .ok next) : next.Stands name standing := by
  cases mentions_of_mentionSubcommand hnext with
  | described => exact h.describe_other hne given
  | ignored => exact h
  | anew =>
      refine append_other ?_ hne given
      exact
        { there := h.there
          implicit := (List.count_cons_of_ne hne).trans h.implicit
          described := h.described }

/-! ## Calls -/

/-- An accepted parameter declaration tells the standing what it mentions. -/
theorem addArgument (h : draft.Stands name standing) {declaration : String}
    {description : Option String} {source : ChoiceSource α} {options : ArgumentOptions}
    (haccepted : (draft.addArgument declaration description source options).2 = .ok ()) :
    (draft.addArgument declaration description source options).1.Stands name
      (standing.after (Call.remark? name
        (.addArgument declaration description source options : Call α))) := by
  obtain ⟨parameter, hparse, htook⟩ := took_of_addArgument haccepted
  obtain ⟨hform, _⟩ := Parameter.parse_formed hparse
  simp only [Call.remark?, hparse, Except.toOption, Option.bind_eq_bind, Option.bind_some]
  cases htook with
  | own hnext => exact h.addParameter hform hnext
  | @mentioned mention fragment between hmentioned hnext =>
      refine addParameter ?_ hform hnext
      by_cases hown : mention.argument.name = name
      · subst hown
        rw [Option.bind_some, if_pos rfl]
        exact h.mention_self hmentioned
      · rw [Option.bind_some, if_neg hown]
        exact h.mention_other hown hmentioned

/-- An accepted call leaves the standing that it tells.  A name that it declares was not
declared before. -/
theorem accepted (h : draft.Stands name standing) {call : Call α}
    (haccepted : (Builder.callDraft draft call).2 = .ok ()) :
    (Builder.callDraft draft call).1.Stands name (standing.after (call.remark? name)) ∧
      (call.declares name = true → standing.isDeclared = false) := by
  cases call with
  | setCommand _ _ => cases haccepted
  | setDescription description =>
      refine ⟨?_, fun hdeclares => by cases hdeclares⟩
      simp only [Builder.callDraft, describe]
      split <;> exact h.of_eq rfl rfl rfl
  | addSubcommand own description =>
      simp only [Builder.callDraft] at haccepted ⊢
      split at haccepted
      next => cases haccepted
      next =>
          have hnext := settle_ok haccepted
          by_cases hown : own = name
          · subst hown
            rw [Call.remark?_addSubcommand]
            obtain ⟨hfirst, hstands⟩ := h.declare_self hnext
            exact ⟨hstands, fun _ => hfirst⟩
          · have hsilent : Call.remark? name (.addSubcommand own description : Call α) = none :=
              if_neg hown
            rw [hsilent]
            refine ⟨h.declare_other hown hnext, fun hdeclares => ?_⟩
            exact absurd (beq_iff_eq.mp hdeclares) hown
  | addArgument declaration description source options =>
      exact ⟨h.addArgument haccepted, fun hdeclares => by cases hdeclares⟩
  | addRequirement token =>
      refine ⟨?_, fun hdeclares => by cases hdeclares⟩
      simp only [Builder.callDraft, addRequirement]
      split <;> exact h.of_eq rfl rfl rfl
  | setAction action =>
      refine ⟨?_, fun hdeclares => by cases hdeclares⟩
      simp only [Builder.callDraft, setAction]
      split <;> exact h.of_eq rfl rfl rfl
  | setType _ => exact ⟨h.of_eq rfl rfl rfl, fun hdeclares => by cases hdeclares⟩
  | addChannel _ => exact ⟨h.of_eq rfl rfl rfl, fun hdeclares => by cases hdeclares⟩
  | addGuild _ => exact ⟨h.of_eq rfl rfl rfl, fun hdeclares => by cases hdeclares⟩

/-- A refused call may reword an implicit subcommand, but it declares nothing. -/
theorem refused (h : draft.Stands name standing) {call : Call α} {fault : BuildError}
    (hrefused : (Builder.callDraft draft call).2 = .error fault) :
    ∃ given, (Builder.callDraft draft call).1.Stands name (standing.told given) := by
  rw [callDraft_error hrefused, reworded]
  split
  next => exact ⟨none, by rwa [Standing.told_none]⟩
  next own text _ =>
      by_cases hown : own = name
      · subst hown
        exact ⟨some text, h.describe_self (some text)⟩
      · refine ⟨none, ?_⟩
        rw [Standing.told_none]
        exact h.describe_other hown (some text)

/-- A named command has no subcommands. -/
theorem named {own : String} {description : Option String}
    (h : Draft.named own description = .ok draft) : draft.Stands name .absent := by
  obtain ⟨_, rfl⟩ := Draft.named_ok h
  exact ⟨rfl, rfl, fun _ hmem => by cases hmem⟩

end Stands

end Draft

/-! ## Runs -/

/-- The standing that a name has after accepted calls. -/
def Standing.through (name : String) (run : List (Call α)) (standing : Standing) : Standing :=
  run.foldl (fun standing call => standing.after (call.remark? name)) standing

/-- The standing that a name has when a command was declared by accepted calls. -/
def heard (name : String) (run : List (Call α)) : Standing :=
  Standing.absent.through name run

/-- Only a declaration makes a name declared. -/
theorem Standing.isDeclared_after (name : String) (call : Call α) (standing : Standing) :
    (standing.after (call.remark? name)).isDeclared =
      (standing.isDeclared || call.declares name) := by
  rw [Bool.eq_iff_iff, Bool.or_eq_true, Call.declares_iff]
  cases call.remark? name with
  | none => simp [after]
  | some remark => cases remark <;> cases standing <;> simp [after, hear, isDeclared]

theorem Standing.through_declared (name : String) (run : List (Call α)) (text : String) :
    (declared text).through name run = declared text := by
  induction run with
  | nil => rfl
  | cons call rest ih =>
      rw [through, List.foldl_cons, declared_after]
      exact ih

theorem heard_append_singleton (name : String) (run : List (Call α)) (call : Call α) :
    heard name (run ++ [call]) = (heard name run).after (call.remark? name) := by
  rw [heard, Standing.through, List.foldl_append]
  rfl

theorem lastWording_append_singleton (name : String) (run : List (Call α)) (call : Call α) :
    lastWording name (run ++ [call]) = (call.wording? name).or (lastWording name run) := by
  rw [lastWording, List.filterMap_append, List.getLast?_append]
  cases hwording : call.wording? name <;> simp [hwording, lastWording]

theorem isDeclared_heard (name : String) (run : List (Call α)) :
    (heard name run).isDeclared = run.any (Call.declares name) := by
  induction run using List.reverseRecOn with
  | nil => rfl
  | append_singleton run call ih =>
      rw [heard_append_singleton, Standing.isDeclared_after, ih, List.any_append,
        List.any_cons, List.any_nil, Bool.or_false]

/-- Until it is declared, a subcommand has the latest description that parameters gave it. -/
theorem text?_heard {name : String} {run : List (Call α)}
    (h : (heard name run).isDeclared = false) :
    (heard name run).text?.getD fillerDescription =
      (lastWording name run).getD fillerDescription := by
  induction run using List.reverseRecOn with
  | nil => rfl
  | append_singleton run call ih =>
      rw [heard_append_singleton, Standing.isDeclared_after, Bool.or_eq_false_iff] at h
      rw [heard_append_singleton, lastWording_append_singleton, Call.wording?]
      have hbefore := ih h.1
      cases hremark : call.remark? name with
      | none => exact hbefore
      | some remark =>
          cases remark with
          | declares given =>
              -- after a declaration the name would be declared
              rw [Call.declares_iff.mpr ⟨given, hremark⟩] at h
              cases h.2
          | mentions given =>
              rw [Standing.after, Option.elim_some, Standing.text?_hear_mentions h.1, hbefore]
              cases given <;> rfl

namespace Builder

/-- A name has a standing in a builder.  What is built tells descriptions only. -/
def Stands (builder : Builder α) (name : String) (standing : Standing) : Prop :=
  match builder with
  | .unnamed => standing = .absent
  | .drafting draft => draft.Stands name standing
  | .built command => ∀ subcommand ∈ command.arguments,
      Draft.isSubcommand name subcommand = true → standing.text? = some subcommand.description

variable {builder last : Builder α} {name : String} {standing : Standing}

/-- An accepted call takes the standing along. -/
theorem Stands.call (h : builder.Stands name standing) {next : Call α}
    (haccepted : (builder.call next).2 = .ok ()) :
    (builder.call next).1.Stands name (standing.after (next.remark? name)) ∧
      (next.declares name = true → standing.isDeclared = false) := by
  cases builder with
  | unnamed =>
      cases next with
      | setCommand own description =>
          have habsent : standing = .absent := h
          subst habsent
          simp only [Builder.call, callUnnamed] at haccepted ⊢
          cases hnamed : Draft.named own description with
          | error fault =>
              rw [hnamed] at haccepted
              cases haccepted
          | ok draft => exact ⟨Draft.Stands.named hnamed, fun _ => rfl⟩
      | _ => cases haccepted
  | drafting draft => exact Draft.Stands.accepted h haccepted
  | built command => cases haccepted

/-- A run of accepted calls takes the standing along. -/
theorem Stands.calls (h : builder.Stands name standing) {run : List (Call α)}
    (hrun : builder.calls run = .ok last) : last.Stands name (standing.through name run) := by
  induction run generalizing builder standing with
  | nil =>
      cases hrun
      exact h
  | cons next rest ih =>
      obtain ⟨haccepted, hrest⟩ := calls_cons_ok hrun
      exact ih (h.call haccepted).1 hrest

/-- Building keeps the descriptions. -/
theorem Stands.described (h : builder.Stands name standing) {command : Command α}
    (hbuild : builder.build.2 = .ok command) {subcommand : Argument}
    (hmem : subcommand ∈ command.subcommands) (hname : subcommand.name = name) :
    standing.text? = some subcommand.description := by
  obtain ⟨hin, hcommand⟩ := List.mem_filter.mp hmem
  have hsub := isSubcommand_iff.mpr ⟨hcommand, hname⟩
  cases builder with
  | unnamed => cases hbuild
  | drafting draft =>
      cases hbuild
      exact Draft.Stands.described h subcommand hin hsub
  | built given =>
      cases hbuild
      exact h subcommand hin hsub

theorem Stands.build (h : builder.Stands name standing) :
    builder.build.1.Stands name standing := by
  cases builder with
  | unnamed => exact h
  | drafting draft => exact Draft.Stands.described h
  | built command => exact h

/-- A refused call may change the description, but nothing else. -/
theorem Stands.refused (h : builder.Stands name standing) {call : Call α} {fault : BuildError}
    (hrefused : (builder.call call).2 = .error fault) :
    ∃ given, (builder.call call).1.Stands name (standing.told given) := by
  cases builder with
  | drafting draft => exact Draft.Stands.refused h hrefused
  | _ =>
      refine ⟨none, ?_⟩
      rw [call_error hrefused, Standing.told_none]
      exact h

/-- A step leaves a standing, refused or not.  It declares a name only once. -/
theorem Stands.step (h : builder.Stands name standing) (next : Step α) :
    ∃ later, (builder.step next).1.Stands name later ∧
      ((builder.step next).2.isOk && next.declares name).toNat + standing.isDeclared.toNat ≤
        later.isDeclared.toNat := by
  cases next with
  | build => exact ⟨standing, h.build, by simp [Step.declares]⟩
  | call next =>
      cases houtcome : (builder.call next).2 with
      | ok =>
          obtain ⟨hnext, hfirst⟩ := h.call houtcome
          refine ⟨_, hnext, ?_⟩
          rw [Standing.isDeclared_after]
          cases hdeclares : next.declares name with
          | true =>
              rw [hfirst hdeclares]
              simpa [Step.declares, hdeclares] using Bool.toNat_le _
          | false => simp [Step.declares, hdeclares]
      | error fault =>
          obtain ⟨given, hnext⟩ := h.refused houtcome
          refine ⟨_, hnext, ?_⟩
          rw [Standing.isDeclared_told]
          simp [Builder.step, houtcome, Except.map, Except.isOk, Except.toBool]

end Builder

/-! ## Where descriptions come from -/

/-- The description of a subcommand that a run of accepted calls declares. -/
theorem description_of_declared {before after : List (Call α)} {builder : Builder α}
    {command : Command α} {subcommand : Argument} {given : Option String}
    (hrun : Builder.unnamed.calls
      (before ++ .addSubcommand subcommand.name given :: after) = .ok builder)
    (hbuild : builder.build.2 = .ok command) (hmem : subcommand ∈ command.subcommands) :
    subcommand.description = (Text.unlessVoid given).getD
      ((lastWording subcommand.name before).getD fillerDescription) := by
  rw [Builder.calls_append] at hrun
  obtain ⟨between, hbefore, hrun⟩ := ok_of_bind_eq_ok hrun
  obtain ⟨haccepted, hafter⟩ := Builder.calls_cons_ok hrun
  have hstart : (Builder.unnamed : Builder α).Stands subcommand.name .absent := rfl
  have hstands : between.Stands subcommand.name (heard subcommand.name before) :=
    hstart.calls hbefore
  obtain ⟨hdeclared, hfirst⟩ := hstands.call haccepted
  have hnot := hfirst (beq_self_eq_true _)
  rw [Call.remark?_addSubcommand, Standing.after, Option.elim_some,
    Standing.hear_declares hnot, text?_heard hnot] at hdeclared
  have hlast := hdeclared.calls hafter
  rw [Standing.through_declared] at hlast
  exact (Option.some.inj (hlast.described hbuild hmem rfl)).symm

/-- The description of a subcommand that only parameters mention. -/
theorem description_of_mentioned {run : List (Call α)} {builder : Builder α}
    {command : Command α} {subcommand : Argument} (hrun : Builder.unnamed.calls run = .ok builder)
    (hbuild : builder.build.2 = .ok command) (hmem : subcommand ∈ command.subcommands)
    (hnone : ∀ given, Call.addSubcommand subcommand.name given ∉ run) :
    subcommand.description = (lastWording subcommand.name run).getD fillerDescription := by
  have hstart : (Builder.unnamed : Builder α).Stands subcommand.name .absent := rfl
  have hlast : builder.Stands subcommand.name (heard subcommand.name run) := hstart.calls hrun
  have hnot : (heard subcommand.name run).isDeclared = false := by
    rw [isDeclared_heard, List.any_eq_false]
    intro call hcall hdeclares
    cases call with
    | addSubcommand own given =>
        rw [beq_iff_eq.mp hdeclares] at hcall
        exact hnone given hcall
    | _ => cases hdeclares
  rw [← text?_heard hnot, hlast.described hbuild hmem rfl]
  rfl

/-- The description of a subcommand is the one that its declaration gives.  Where that gives
none it is the latest one that the declarations of parameters gave before, and where nothing
declares the subcommand it is the latest one that they give at all; if there is none either,
it is the filler.  No subcommand is declared twice, whatever else is done or refused. -/
theorem subcommand_described :
    (∀ (run : List (Call α)) builder command,
      Builder.unnamed.calls run = .ok builder → builder.build.2 = .ok command →
      ∀ subcommand ∈ command.subcommands,
        (∀ text, .addSubcommand subcommand.name (some text) ∈ run → Text.isVoid text = false →
          subcommand.description = text) ∧
        (∀ before given after, run = before ++ .addSubcommand subcommand.name given :: after →
          (∀ text ∈ given, Text.isVoid text = true) →
            subcommand.description =
              (lastWording subcommand.name before).getD fillerDescription) ∧
        ((∀ given, .addSubcommand subcommand.name given ∉ run) →
          subcommand.description = (lastWording subcommand.name run).getD fillerDescription)) ∧
    ∀ (steps : List (Step α)) name,
      ((Builder.unnamed : Builder α).record steps).countAccepted (Step.declares name) ≤ 1 := by
  constructor
  · intro run builder command hrun hbuild subcommand hmem
    refine ⟨fun text htext hvoid => ?_, fun before given after hsplit hvoid => ?_,
      fun hnone => description_of_mentioned hrun hbuild hmem hnone⟩
    · obtain ⟨before, after, rfl⟩ := List.append_of_mem htext
      rw [description_of_declared hrun hbuild hmem, Text.unlessVoid_of_not_void hvoid,
        Option.getD_some]
    · subst hsplit
      have hnothing : Text.unlessVoid given = none :=
        Option.filter_eq_none_iff.mpr fun text htext => by simp [hvoid text htext]
      rw [description_of_declared hrun hbuild hmem, hnothing, Option.getD_none]
  · intro steps name
    have hstart : (Builder.unnamed : Builder α).Stands name .absent := rfl
    refine @Builder.countAccepted_add_le α (Step.declares name)
      (fun builder declared => ∃ standing, builder.Stands name standing ∧
        standing.isDeclared = declared) ?_ .unnamed false ⟨.absent, hstart, rfl⟩ steps
    rintro builder next _ ⟨standing, hstands, rfl⟩
    obtain ⟨later, hlater, hcount⟩ := hstands.step next
    exact ⟨_, ⟨later, hlater, rfl⟩, hcount⟩

/-- Calls that mention and declare subcommands in different orders. -/
def pantryCalls : List (Call Unit) :=
  [.setCommand "pantry" none,
    .addArgument "add;+First <item>" none .payload {},
    .addSubcommand "add" (some " "),
    .addArgument "add;+Later [size]" none .payload {},
    .addArgument "drop;+Once <item>" none .payload {},
    .addArgument "drop;+Twice [size]" none .payload {},
    .addSubcommand "list" (some "Everything"),
    .addArgument "list;+None [size]" none .payload {}]

/-- A void declaration keeps what was said before it, a full one settles what is said, and
what is mentioned only has the latest description.  The list is not declared again. -/
theorem pantry_described :
    (∃ builder command, Builder.unnamed.calls pantryCalls = .ok builder ∧
      builder.build.2 = .ok command ∧
      command.subcommands.map Argument.name = ["add", "drop", "list"] ∧
      ∀ subcommand ∈ command.subcommands,
        (subcommand.name = "add" → subcommand.description = "First") ∧
        (subcommand.name = "drop" → subcommand.description = "Twice") ∧
        (subcommand.name = "list" → subcommand.description = "Everything")) ∧
    ((Builder.unnamed : Builder Unit).record
      ((pantryCalls ++ [Call.addSubcommand "list" none]).map Step.call)).countAccepted
        (Step.declares "list") ≤ 1 := by
  obtain ⟨builder, hrun⟩ : ∃ builder, Builder.unnamed.calls pantryCalls = .ok builder := ⟨_, rfl⟩
  obtain ⟨command, hbuild⟩ : ∃ command, builder.build.2 = .ok command := by
    cases hrun
    exact ⟨_, rfl⟩
  have hnames : command.subcommands.map Argument.name = ["add", "drop", "list"] := by
    cases hrun
    cases hbuild
    rfl
  refine ⟨⟨builder, command, hrun, hbuild, hnames, fun subcommand hmem => ?_⟩,
    subcommand_described.2 _ _⟩
  obtain ⟨hfull, hvoid, hnone⟩ := subcommand_described.1 _ _ _ hrun hbuild subcommand hmem
  refine ⟨fun hname => ?_, fun hname => ?_, fun hname => ?_⟩
  · rw [hname] at hvoid
    have hbefore := hvoid (pantryCalls.take 2) (some " ") (pantryCalls.drop 3) rfl (by decide)
    exact hbefore.trans (by decide)
  · rw [hname] at hnone
    exact (hnone (by simp [pantryCalls])).trans (by decide)
  · rw [hname] at hfull
    exact hfull "Everything" (by simp [pantryCalls]) (by decide)

end SlashCommand
