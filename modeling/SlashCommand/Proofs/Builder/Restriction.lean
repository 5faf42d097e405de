import SlashCommand.Proofs.Builder.Reachable
import SlashCommand.Proofs.Builder.Stages
import SlashCommand.Proofs.Dict

/-!
# Restrictions

What a command requires and the channels and guilds it is restricted to are three sets beside
the rest of a draft.  The calls that restrict a command touch these sets only, every other call
leaves them alone and asks nothing about them, and a set does not know in which order or how
often its elements came.  So restrictions can be declared anywhere between naming and building
a command.  The requirements themselves are known permissions and roles with a name.
-/

namespace SlashCommand

variable {α : Type}

/-! ## Requirements of a token -/

namespace Requirement

/-- What a requirement may hold: a permission is a known one, and a role has a name. -/
def WellFormed : Requirement → Prop
  | permission name => name ∈ knownPermissions
  | role name => Text.isVoid name = false

theorem permissionNamed?_eq_some_iff {text : List Char} {name : String} :
    permissionNamed? text = some name ↔
      name = String.ofList (Text.upper text) ∧ name ∈ knownPermissions := by
  unfold permissionNamed?
  dsimp only
  split
  next hknown =>
      rw [List.contains_iff_mem] at hknown
      constructor
      · rintro ⟨⟩
        exact ⟨rfl, hknown⟩
      · rintro ⟨rfl, _⟩
        rfl
  next hunknown =>
      rw [List.contains_iff_mem] at hunknown
      constructor
      · rintro ⟨⟩
      · rintro ⟨rfl, hknown⟩
        exact absurd hknown hunknown

/-- A role is named by what ends a trimmed token, so its name does not end with a blank. -/
theorem wellFormed_of_roleNamed? {name : List Char} {requirement : Requirement}
    (hending : ∀ c ∈ name.getLast?, Text.isBlank c = false)
    (h : roleNamed? name = some requirement) : requirement.WellFormed := by
  unfold roleNamed? at h
  split at h
  next => cases h
  next hnonempty =>
      cases h
      have hne : name ≠ [] := by simpa using hnonempty
      have hlast := hending (name.getLast hne) (List.getLast?_eq_some_getLast hne)
      refine List.all_eq_false.mpr ⟨name.getLast hne, ?_, by simp [hlast]⟩
      rw [String.toList_ofList]
      exact List.getLast_mem hne

/-- A token stands for a known permission or for a role with a name, if for anything. -/
theorem wellFormed_of_ofToken? {token : String} {requirement : Requirement}
    (h : ofToken? token = some requirement) : requirement.WellFormed := by
  have hending := (Text.tight_trim token.toList).ending
  unfold ofToken? at h
  split at h
  next name hat =>
      rw [hat] at hending
      refine wellFormed_of_roleNamed? (fun c hc => hending c ?_) h
      rw [List.getLast?_cons, Option.mem_def.mp hc]
      rfl
  next =>
      split at h
      next known hknown =>
          cases h
          exact (permissionNamed?_eq_some_iff.mp hknown).2
      next => exact wellFormed_of_roleNamed? hending h

/-- The tokens of a permission are its name in any case, without an at sign in front. -/
theorem ofToken?_eq_permission_iff {token name : String} :
    ofToken? token = some (permission name) ↔
      (Text.trim token.toList).head? ≠ some '@' ∧
        name = String.ofList (Text.upper (Text.trim token.toList)) ∧ name ∈ knownPermissions := by
  have hrole : ∀ text, roleNamed? text ≠ some (permission name) := by
    intro text
    unfold roleNamed?
    split <;> simp
  unfold ofToken?
  split
  next rest hat => simp [hrole, hat]
  next hplain =>
      have hstart : (Text.trim token.toList).head? ≠ some '@' := by
        intro hat
        obtain ⟨rest, hrest⟩ := List.head?_eq_some_iff.mp hat
        exact hplain rest hrest
      rw [← permissionNamed?_eq_some_iff]
      cases hnamed : permissionNamed? (Text.trim token.toList) with
      | none => simp [hrole]
      | some known => simp [hstart]

end Requirement

/-! ## Restrictions and other calls -/

/-- A restriction as it is declared. -/
inductive Restriction where
  | requirement (token : String)
  | channel (id : String)
  | guild (id : String)
deriving DecidableEq

namespace Call

/-- The restriction that a call declares. -/
def restriction? : Call α → Option Restriction
  | addRequirement token => some (.requirement token)
  | addChannel id => some (.channel id)
  | addGuild id => some (.guild id)
  | _ => none

/-- A call declares something else. -/
def isOther (call : Call α) : Bool :=
  call.restriction?.isNone

/-- The calls apart from those that declare restrictions. -/
def others (calls : List (Call α)) : List (Call α) :=
  calls.filter isOther

/-- The restrictions that calls declare, in order. -/
def restrictions (calls : List (Call α)) : List Restriction :=
  calls.filterMap restriction?

theorem others_cons_restriction {next : Call α} {restriction : Restriction}
    (h : next.restriction? = some restriction) (rest : List (Call α)) :
    others (next :: rest) = others rest ∧
      restrictions (next :: rest) = restriction :: restrictions rest := by
  simp [others, restrictions, isOther, h]

theorem others_cons_other {next : Call α} (h : next.restriction? = none) (rest : List (Call α)) :
    others (next :: rest) = next :: others rest ∧
      restrictions (next :: rest) = restrictions rest := by
  simp [others, restrictions, isOther, h]

theorem restriction?_of_mem_others {calls : List (Call α)} {next : Call α}
    (h : next ∈ others calls) : next.restriction? = none := by
  simpa [isOther] using (List.mem_filter.mp h).2

end Call

/-! ## The three sets -/

/-- The restrictions of a command as they are kept. -/
structure Restrictions where
  requires : OrderedSet Requirement
  channels : OrderedSet String
  guilds : OrderedSet String

namespace Restrictions

/-- One restriction more.  A token that stands for nothing restricts nothing. -/
def tightened (limits : Restrictions) : Restriction → Restrictions
  | .requirement token =>
      match Requirement.ofToken? token with
      | none => limits
      | some requirement => { limits with requires := limits.requires.add requirement }
  | .channel id => { limits with channels := limits.channels.add id }
  | .guild id => { limits with guilds := limits.guilds.add id }

/-- The three sets after a row of restrictions: each has what it had and what was declared. -/
structure Collected (limits : Restrictions) (declared : List Restriction)
    (collected : Restrictions) : Prop where
  requires : ∀ requirement, requirement ∈ collected.requires.toList ↔
    (∃ token, .requirement token ∈ declared ∧ Requirement.ofToken? token = some requirement) ∨
      requirement ∈ limits.requires.toList
  channels : ∀ id, id ∈ collected.channels.toList ↔
    .channel id ∈ declared ∨ id ∈ limits.channels.toList
  guilds : ∀ id, id ∈ collected.guilds.toList ↔
    .guild id ∈ declared ∨ id ∈ limits.guilds.toList

/-- One restriction is added to the set it is about. -/
theorem collected_tightened (limits : Restrictions) (restriction : Restriction) :
    limits.Collected [restriction] (limits.tightened restriction) := by
  cases restriction with
  | requirement token =>
      cases htoken : Requirement.ofToken? token with
      | none => constructor <;> simp [tightened, htoken]
      | some found =>
          constructor <;> simp [tightened, htoken, OrderedSet.mem_toList_add, eq_comm]
  | channel id => constructor <;> simp [tightened, OrderedSet.mem_toList_add]
  | guild id => constructor <;> simp [tightened, OrderedSet.mem_toList_add]

theorem Collected.trans {limits between last : Restrictions} {first second : List Restriction}
    (hfirst : limits.Collected first between) (hsecond : between.Collected second last) :
    limits.Collected (first ++ second) last where
  requires := fun requirement => by
    rw [hsecond.requires, hfirst.requires]
    simp only [List.mem_append, or_and_right, exists_or, or_assoc]
    exact or_left_comm
  channels := fun id => by
    rw [hsecond.channels, hfirst.channels, List.mem_append, or_assoc]
    exact or_left_comm
  guilds := fun id => by
    rw [hsecond.guilds, hfirst.guilds, List.mem_append, or_assoc]
    exact or_left_comm

/-- Restrictions that are declared one after the other are collected. -/
theorem collected_foldl (limits : Restrictions) (declared : List Restriction) :
    limits.Collected declared (declared.foldl tightened limits) := by
  induction declared generalizing limits with
  | nil => constructor <;> simp
  | cons restriction rest ih =>
      exact (collected_tightened limits restriction).trans (ih (limits.tightened restriction))

/-- What is collected depends on which restrictions are declared, and on nothing else. -/
theorem Collected.eq {limits first second : Restrictions} {declared other : List Restriction}
    (hfirst : limits.Collected declared first) (hsecond : limits.Collected other second)
    (hsame : ∀ restriction, restriction ∈ declared ↔ restriction ∈ other) : first = second := by
  have hrequires : first.requires = second.requires :=
    OrderedSet.ext_toList fun requirement => by
      simp only [hfirst.requires, hsecond.requires, hsame]
  have hchannels : first.channels = second.channels :=
    OrderedSet.ext_toList fun id => by rw [hfirst.channels, hsecond.channels, hsame]
  have hguilds : first.guilds = second.guilds :=
    OrderedSet.ext_toList fun id => by rw [hfirst.guilds, hsecond.guilds, hsame]
  cases first
  cases second
  cases hrequires
  cases hchannels
  cases hguilds
  rfl

end Restrictions

/-! ## Drafts and their restrictions -/

namespace Draft

/-- The restrictions of a draft. -/
def restrictions (draft : Draft α) : Restrictions :=
  ⟨draft.requires, draft.channels, draft.guilds⟩

/-- A draft with other restrictions. -/
def restrictedTo (draft : Draft α) (limits : Restrictions) : Draft α :=
  { draft with
    requires := limits.requires
    channels := limits.channels
    guilds := limits.guilds }

@[simp]
theorem restrictions_restrictedTo (draft : Draft α) (limits : Restrictions) :
    (draft.restrictedTo limits).restrictions = limits :=
  rfl

@[simp]
theorem restrictedTo_restrictions (draft : Draft α) :
    draft.restrictedTo draft.restrictions = draft :=
  rfl

@[simp]
theorem restrictedTo_restrictedTo (draft : Draft α) (limits other : Restrictions) :
    (draft.restrictedTo limits).restrictedTo other = draft.restrictedTo other :=
  rfl

/-- Drafts with one head have the same restrictions. -/
theorem restrictions_of_head {draft next : Draft α} (h : next.head = draft.head) :
    next.restrictions = draft.restrictions := by
  have hrestrictions := congrArg Draft.restrictions h
  exact hrestrictions

/-! ### No declaration asks about restrictions -/

variable (draft : Draft α) (limits : Restrictions)

theorem describeSubcommand_restrictedTo (name : String) (description : Option String) :
    (draft.restrictedTo limits).describeSubcommand name description =
      (draft.describeSubcommand name description).restrictedTo limits := by
  cases description <;> rfl

theorem declareSubcommand_restrictedTo (name : String) (description : Option String) :
    (draft.restrictedTo limits).declareSubcommand name description =
      (draft.declareSubcommand name description).map fun next => next.restrictedTo limits := by
  have hsubcommand : (draft.restrictedTo limits).hasSubcommand name = draft.hasSubcommand name :=
    rfl
  have hargument : (draft.restrictedTo limits).hasArgument name = draft.hasArgument name := rfl
  have himplicit : (draft.restrictedTo limits).implicit = draft.implicit := rfl
  unfold declareSubcommand
  rw [hsubcommand, hargument, himplicit]
  split
  · split
    · exact congrArg Except.ok <| describeSubcommand_restrictedTo
        { draft with implicit := draft.implicit.erase name } limits name description
    · rfl
  · split <;> rfl

theorem mentionSubcommand_restrictedTo (name : String) (description : Option String) :
    (draft.restrictedTo limits).mentionSubcommand name description =
      (draft.mentionSubcommand name description).map fun next => next.restrictedTo limits := by
  have hsubcommand : (draft.restrictedTo limits).hasSubcommand name = draft.hasSubcommand name :=
    rfl
  have hargument : (draft.restrictedTo limits).hasArgument name = draft.hasArgument name := rfl
  have himplicit : (draft.restrictedTo limits).implicit = draft.implicit := rfl
  unfold mentionSubcommand
  rw [hsubcommand, hargument, himplicit]
  split
  · split
    · exact congrArg Except.ok (describeSubcommand_restrictedTo draft limits name description)
    · rfl
  · split <;> rfl

theorem discardSubcommand_restrictedTo (name : String) :
    (draft.restrictedTo limits).discardSubcommand name =
      (draft.discardSubcommand name).restrictedTo limits := by
  have hindex : (draft.restrictedTo limits).subcommandIndex? name = draft.subcommandIndex? name :=
    rfl
  unfold discardSubcommand
  rw [hindex]
  split <;> rfl

theorem withSource_restrictedTo (key : ScopeKey) (argument : Argument)
    (payload : Option (List String)) (source : ChoiceSource α) :
    (draft.restrictedTo limits).withSource key argument payload source =
      (draft.withSource key argument payload source).map fun next => next.restrictedTo limits := by
  unfold withSource
  split
  · cases source <;> cases payload <;> rfl
  · cases source <;> cases payload <;> rfl

theorem withDefault_restrictedTo (key : ScopeKey) (argument : Argument) (value : Option Value) :
    (draft.restrictedTo limits).withDefault key argument value =
      (draft.withDefault key argument value).restrictedTo limits := by
  cases value with
  | none => rfl
  | some given =>
      simp only [withDefault]
      split <;> rfl

theorem place_restrictedTo (argument : Argument) (scope : Option String) :
    (draft.restrictedTo limits).place argument scope =
      (draft.place argument scope).restrictedTo limits := by
  cases scope <;> rfl

theorem addParameter_restrictedTo (scope : Option String) (fragment : Declaration.Fragment)
    (description : Option String) (source : ChoiceSource α) (options : ArgumentOptions) :
    (draft.restrictedTo limits).addParameter scope fragment description source options =
      (draft.addParameter scope fragment description source options).map fun next =>
        next.restrictedTo limits := by
  have hscope : (draft.restrictedTo limits).inScope scope = draft.inScope scope := by
    cases scope <;> rfl
  simp only [addParameter, hscope, withSource_restrictedTo]
  split
  · rfl
  · cases bounded ⟨scope, fragment.argument.name⟩ options _ with
    | error fault => rfl
    | ok argument =>
        simp only [ok_bind]
        cases draft.withSource ⟨scope, fragment.argument.name⟩ argument fragment.choices source with
        | error fault => rfl
        | ok sourced =>
            simp only [map_ok, ok_bind, withDefault_restrictedTo, place_restrictedTo]
            rfl

/-- The outcome of a step stays the same, and what it leaves behind has other restrictions. -/
theorem settle_restrictedTo {step other : Except BuildError (Draft α)}
    (h : other = step.map fun next => next.restrictedTo limits) :
    (draft.restrictedTo limits).settle other =
      ((draft.settle step).1.restrictedTo limits, (draft.settle step).2) := by
  subst h
  cases step <;> rfl

theorem addArgument_restrictedTo (declaration : String) (description : Option String)
    (source : ChoiceSource α) (options : ArgumentOptions) :
    (draft.restrictedTo limits).addArgument declaration description source options =
      ((draft.addArgument declaration description source options).1.restrictedTo limits,
        (draft.addArgument declaration description source options).2) := by
  unfold addArgument
  cases Declaration.Parameter.parse declaration with
  | error fault => rfl
  | ok parameter =>
      obtain ⟨mention?, fragment⟩ := parameter
      cases mention? with
      | none => exact settle_restrictedTo draft limits (addParameter_restrictedTo ..)
      | some mention =>
          have hsubcommand : (draft.restrictedTo limits).hasSubcommand mention.argument.name =
              draft.hasSubcommand mention.argument.name := rfl
          simp only [hsubcommand, mentionSubcommand_restrictedTo]
          cases draft.mentionSubcommand mention.argument.name
              (Text.unlessVoid (some mention.argument.description)) with
          | error fault => rfl
          | ok mentioned =>
              simp only [map_ok, addParameter_restrictedTo]
              cases mentioned.addParameter (some mention.argument.name) fragment description
                  source options with
              | ok added => rfl
              | error fault =>
                  simp only [Except.map, discardSubcommand_restrictedTo]
                  split <;> rfl

/-- A call that declares no restriction is answered alike whatever the restrictions are, and
leaves them alone. -/
theorem callDraft_restrictedTo {next : Call α} (h : next.restriction? = none) :
    Builder.callDraft (draft.restrictedTo limits) next =
      ((Builder.callDraft draft next).1.restrictedTo limits,
        (Builder.callDraft draft next).2) := by
  cases next with
  | setCommand name description => rfl
  | setDescription description =>
      refine settle_restrictedTo draft limits ?_
      have hheld : (draft.restrictedTo limits).description = draft.description := rfl
      unfold describe
      rw [hheld]
      split <;> rfl
  | setType type => rfl
  | addSubcommand name description =>
      simp only [Builder.callDraft]
      split
      · rfl
      · exact settle_restrictedTo draft limits (declareSubcommand_restrictedTo ..)
  | addArgument declaration description source options =>
      exact addArgument_restrictedTo draft limits declaration description source options
  | setAction action =>
      refine settle_restrictedTo draft limits ?_
      have hheld : (draft.restrictedTo limits).action = draft.action := rfl
      unfold setAction
      rw [hheld]
      split <;> rfl
  | addRequirement token => cases h
  | addChannel id => cases h
  | addGuild id => cases h

/-- A call that declares another thing leaves the restrictions alone. -/
theorem restrictions_callDraft {next : Call α} (h : next.restriction? = none) :
    (Builder.callDraft draft next).1.restrictions = draft.restrictions := by
  have hsame := callDraft_restrictedTo draft draft.restrictions h
  rw [restrictedTo_restrictions] at hsame
  rw [hsame, restrictions_restrictedTo]

/-- A call that declares a restriction is accepted and touches the restrictions only. -/
theorem callDraft_restriction {next : Call α} {restriction : Restriction}
    (h : next.restriction? = some restriction) :
    Builder.callDraft draft next =
      (draft.restrictedTo (draft.restrictions.tightened restriction), .ok ()) := by
  cases next with
  | addRequirement token =>
      cases h
      simp only [Builder.callDraft, addRequirement, Restrictions.tightened]
      cases Requirement.ofToken? token <;> rfl
  | addChannel id =>
      cases h
      rfl
  | addGuild id =>
      cases h
      rfl
  | _ => cases h

/-! ### Runs of calls -/

/-- The draft that calls lead to, refused ones included. -/
def through (draft : Draft α) : List (Call α) → Draft α
  | [] => draft
  | next :: rest => (Builder.callDraft draft next).1.through rest

/-- Calls that declare no restriction lead to the same draft but for the restrictions. -/
theorem through_restrictedTo {calls : List (Call α)}
    (h : ∀ next ∈ calls, next.restriction? = none) :
    (draft.restrictedTo limits).through calls = (draft.through calls).restrictedTo limits := by
  induction calls generalizing draft with
  | nil => rfl
  | cons next rest ih =>
      rw [through, callDraft_restrictedTo draft limits (h next List.mem_cons_self)]
      exact ih (Builder.callDraft draft next).1 fun other hother =>
        h other (List.mem_cons_of_mem next hother)

/-- Calls lead to the draft that the other calls lead to, with the restrictions collected. -/
theorem through_eq (calls : List (Call α)) :
    draft.through calls = (draft.through (Call.others calls)).restrictedTo
      ((Call.restrictions calls).foldl Restrictions.tightened draft.restrictions) := by
  induction calls generalizing draft with
  | nil => rfl
  | cons next rest ih =>
      cases hnext : next.restriction? with
      | none =>
          obtain ⟨hothers, hrestrictions⟩ := Call.others_cons_other hnext rest
          rw [through, ih, hothers, hrestrictions, through, restrictions_callDraft draft hnext]
      | some restriction =>
          obtain ⟨hothers, hrestrictions⟩ := Call.others_cons_restriction hnext rest
          rw [through, callDraft_restriction draft hnext, ih, hothers, hrestrictions,
            List.foldl_cons,
            through_restrictedTo draft _ fun _ => Call.restriction?_of_mem_others,
            restrictedTo_restrictedTo, restrictions_restrictedTo]

end Draft

/-! ## Records of calls -/

/-- The part of a record that is not about restrictions. -/
def Record.others (record : Record α) : Record α :=
  record.filter fun entry =>
    match entry.1 with
    | .call call => call.isOther
    | .build => true

namespace Builder

variable (draft : Draft α)

theorem after_calls (calls : List (Call α)) :
    (drafting draft).after (calls.map .call) = .drafting (draft.through calls) := by
  induction calls generalizing draft with
  | nil => rfl
  | cons next rest ih => exact ih (callDraft draft next).1

/-- Calls that declare no restriction are answered alike whatever the restrictions are. -/
theorem record_restrictedTo (limits : Restrictions) {calls : List (Call α)}
    (h : ∀ next ∈ calls, next.restriction? = none) :
    (drafting (draft.restrictedTo limits)).record (calls.map .call) =
      (drafting draft).record (calls.map .call) := by
  induction calls generalizing draft with
  | nil => rfl
  | cons next rest ih =>
      have hnext := Draft.callDraft_restrictedTo draft limits (h next List.mem_cons_self)
      have hrest := ih (callDraft draft next).1 fun other hother =>
        h other (List.mem_cons_of_mem next hother)
      simp only [List.map_cons, record, step, call, hnext, hrest]

/-- The other calls are answered as they are among themselves. -/
theorem others_record (calls : List (Call α)) :
    ((drafting draft).record (calls.map .call)).others =
      (drafting draft).record ((Call.others calls).map .call) := by
  induction calls generalizing draft with
  | nil => rfl
  | cons next rest ih =>
      have hstep : ((drafting draft).step (.call next)).1 =
          .drafting (callDraft draft next).1 := rfl
      simp only [Record.others] at ih ⊢
      cases hnext : next.restriction? with
      | none =>
          have hother : next.isOther = true := by simp [Call.isOther, hnext]
          rw [(Call.others_cons_other hnext rest).1]
          simp only [List.map_cons, record, hstep, List.filter_cons, hother, if_true, ih]
      | some restriction =>
          have hother : next.isOther = false := by simp [Call.isOther, hnext]
          rw [(Call.others_cons_restriction hnext rest).1]
          simp only [List.map_cons, record, hstep, List.filter_cons, hother, Bool.false_eq_true,
            if_false, ih]
          rw [Draft.callDraft_restriction draft hnext]
          exact record_restrictedTo draft _ fun _ => Call.restriction?_of_mem_others

end Builder

/-! ## Declared commands -/

theorem Builder.Reachable.after {builder : Builder α} (h : builder.Reachable)
    (steps : List (Step α)) : (builder.after steps).Reachable := by
  induction steps generalizing builder with
  | nil => exact h
  | cons next rest ih =>
      cases next with
      | call next => exact ih (h.call next)
      | build => exact ih h.build

/-- The restrictions of a command. -/
def Command.restrictions (command : Command α) : Restrictions :=
  ⟨command.requires, command.channels, command.guilds⟩

namespace Draft

/-- The fragments of a declaration text declare no restriction. -/
theorem restrictions_foldlM {fragments : List Declaration.Fragment}
    {progress last : Draft α × Option String}
    (h : fragments.foldlM addFragment progress = .ok last) :
    last.1.restrictions = progress.1.restrictions := by
  induction fragments generalizing progress with
  | nil =>
      cases h
      rfl
  | cons fragment rest ih =>
      rw [List.foldlM_cons] at h
      obtain ⟨between, hbetween, hrest⟩ := ok_of_bind_eq_ok h
      rw [ih hrest]
      unfold addFragment at hbetween
      dsimp only at hbetween
      split at hbetween
      · obtain ⟨declared, hdeclared, rfl⟩ := ok_of_map_eq_ok hbetween
        exact restrictions_of_head (head_declareSubcommand hdeclared)
      · obtain ⟨added, hadded, rfl⟩ := ok_of_map_eq_ok hbetween
        exact restrictions_of_head (head_addParameter hadded)

end Draft

namespace Builder

/-- What a builder requires so far. -/
def requires : Builder α → OrderedSet Requirement
  | .unnamed => ∅
  | .drafting draft => draft.requires
  | .built command => command.requires

theorem requires_ofDeclaration {text : String} {builder : Builder α}
    (h : ofDeclaration text = .ok builder) : builder.requires = ∅ := by
  obtain ⟨root, rest, draft, filled, _, _, hdraft, hfilled, rfl⟩ := ofDeclaration_cases h
  obtain ⟨_, rfl⟩ := Draft.named_ok hdraft
  exact congrArg Restrictions.requires (Draft.restrictions_foldlM hfilled)

/-- A call requires what its token stands for, if it declares a requirement. -/
theorem mem_requires_call {builder : Builder α} {next : Call α} {requirement : Requirement}
    (h : requirement ∈ (builder.call next).1.requires.toList) :
    (∃ token, Requirement.ofToken? token = some requirement) ∨
      requirement ∈ builder.requires.toList := by
  cases builder with
  | built command => exact Or.inr h
  | unnamed =>
      cases next with
      | setCommand name description =>
          simp only [call, callUnnamed] at h
          split at h
          next draft hdraft =>
              obtain ⟨_, rfl⟩ := Draft.named_ok hdraft
              exact Or.inr h
          next => exact Or.inr h
      | _ => exact Or.inr h
  | drafting draft =>
      cases hnext : next.restriction? with
      | none =>
          have hsame : (callDraft draft next).1.requires = draft.requires :=
            congrArg Restrictions.requires (Draft.restrictions_callDraft draft hnext)
          have hmem : requirement ∈ (callDraft draft next).1.requires.toList := h
          rw [hsame] at hmem
          exact Or.inr hmem
      | some restriction =>
          simp only [call, Draft.callDraft_restriction draft hnext] at h
          have hcollected := Restrictions.collected_tightened draft.restrictions restriction
          rcases (hcollected.requires requirement).mp h with ⟨token, _, htoken⟩ | hheld
          · exact Or.inl ⟨token, htoken⟩
          · exact Or.inr hheld

/-- A reachable builder requires known permissions and roles with a name. -/
theorem Reachable.requires_wellFormed {builder : Builder α} (h : builder.Reachable) :
    ∀ requirement ∈ builder.requires.toList, requirement.WellFormed := by
  induction h with
  | unnamed => exact fun requirement hmem => by cases hmem
  | ofDeclaration hread =>
      rw [requires_ofDeclaration hread]
      exact fun requirement hmem => by cases hmem
  | call _ next ih =>
      intro requirement hmem
      rcases mem_requires_call hmem with ⟨token, htoken⟩ | hheld
      · exact Requirement.wellFormed_of_ofToken? htoken
      · exact ih requirement hheld
  | @build builder _ ih => cases builder <;> exact ih

end Builder

theorem Command.Declared.requires_wellFormed {command : Command α} (h : command.Declared) :
    ∀ requirement ∈ command.requires.toList, requirement.WellFormed := by
  obtain ⟨builder, hreachable, hbuild⟩ := h
  have hrequires : builder.requires = command.requires := by
    cases builder <;> cases hbuild <;> rfl
  exact hrequires ▸ hreachable.requires_wellFormed

/-! ## Order and repetition -/

/-- Two rows of calls declare the same restrictions, at whatever places and however often, and
make the same other calls in the same order. -/
structure Call.Rearranged (first second : List (Call α)) : Prop where
  others : others first = others second
  restrictions : ∀ restriction,
    restriction ∈ Call.restrictions first ↔ restriction ∈ Call.restrictions second

/-- Between naming and building a command it does not matter where, in which order and how often
restrictions are declared: all other calls are answered alike and the same command is built.  A
built command has the restrictions that were declared and no others; what it requires are known
permissions and roles with a name, and no token behind an at sign stands for a permission. -/
theorem restrictions_are_sets :
    (∀ (draft : Draft α) (first second : List (Call α)), Call.Rearranged first second →
      ((Builder.drafting draft).record (first.map .call)).others =
          ((Builder.drafting draft).record (second.map .call)).others ∧
        ((Builder.drafting draft).after (first.map .call)).build.2 =
          ((Builder.drafting draft).after (second.map .call)).build.2) ∧
      (∀ (draft : Draft α) (calls : List (Call α)) command,
        ((Builder.drafting draft).after (calls.map .call)).build.2 = .ok command →
          draft.restrictions.Collected (Call.restrictions calls) command.restrictions) ∧
      (∀ command : Command α, command.Declared →
        ∀ requirement ∈ command.requires.toList, requirement.WellFormed) ∧
      ∀ token, (Text.trim token.toList).head? = some '@' →
        ∀ name, Requirement.ofToken? token ≠ some (.permission name) := by
  refine ⟨fun draft first second hsame => ⟨?_, ?_⟩, fun draft calls command hbuild => ?_,
    fun command hdeclared => hdeclared.requires_wellFormed, fun token hat name hnamed => ?_⟩
  · rw [Builder.others_record, Builder.others_record, hsame.others]
  · have hlimits :=
      (Restrictions.collected_foldl draft.restrictions (Call.restrictions first)).eq
        (Restrictions.collected_foldl draft.restrictions (Call.restrictions second))
        hsame.restrictions
    rw [Builder.after_calls, Builder.after_calls, Draft.through_eq draft first,
      Draft.through_eq draft second, hlimits, hsame.others]
  · rw [Builder.after_calls, Draft.through_eq] at hbuild
    cases hbuild
    exact Restrictions.collected_foldl draft.restrictions (Call.restrictions calls)
  · exact (Requirement.ofToken?_eq_permission_iff.mp hnamed).1 hat

/-- A ban of one member, declared with its restrictions first.  The second member is refused. -/
def banCalls : List (Call Unit) :=
  [.addRequirement " ban_members ", .addRequirement "@Administrator", .addChannel "lobby",
    .addArgument "<who>" none .payload {},
    .addArgument "<who>" none .payload {}]

/-- The same declarations with the restrictions between them, one of them twice. -/
def scatteredBanCalls : List (Call Unit) :=
  [.addArgument "<who>" none .payload {},
    .addChannel "lobby", .addRequirement "@Administrator",
    .addArgument "<who>" none .payload {},
    .addRequirement " ban_members ", .addChannel "lobby"]

theorem ban_rearranged_calls : Call.Rearranged banCalls scatteredBanCalls := by
  have hfirst : Call.restrictions banCalls =
      [.requirement " ban_members ", .requirement "@Administrator", .channel "lobby"] := rfl
  have hsecond : Call.restrictions scatteredBanCalls =
      [.channel "lobby", .requirement "@Administrator", .requirement " ban_members ",
        .channel "lobby"] := rfl
  refine ⟨rfl, fun restriction => ?_⟩
  rw [hfirst, hsecond]
  grind

/-- Both ways answer the other calls alike and build the same command, which has the two
requirements and the channel. -/
theorem ban_restricted :
    let start : Builder Unit := .drafting { name := "ban" }
    Call.Rearranged banCalls scatteredBanCalls ∧
      (start.record (banCalls.map .call)).others =
        (start.record (scatteredBanCalls.map .call)).others ∧
      (start.after (banCalls.map .call)).build.2 =
        (start.after (scatteredBanCalls.map .call)).build.2 ∧
      ∃ command : Command Unit, command.Declared ∧
        (start.after (banCalls.map .call)).build.2 = .ok command ∧
        Restrictions.Collected ⟨∅, ∅, ∅⟩ (Call.restrictions banCalls) command.restrictions ∧
        command.requires.toList = [.permission "BAN_MEMBERS", .role "Administrator"] ∧
        (∀ requirement ∈ command.requires.toList, requirement.WellFormed) ∧
        (Text.trim "@Administrator".toList).head? = some '@' ∧
        Requirement.ofToken? "@Administrator" ≠ some (.permission "ADMINISTRATOR") := by
  intro start
  obtain ⟨hunordered, hcollected, hwell, hat⟩ := @restrictions_are_sets Unit
  obtain ⟨hrecord, hsame⟩ := hunordered _ _ _ ban_rearranged_calls
  have hnamed : start.Reachable := Builder.Reachable.unnamed.call (.setCommand "ban" none)
  obtain ⟨command, hbuild, hrequires⟩ : ∃ command,
      (start.after (banCalls.map .call)).build.2 = .ok command ∧
        command.requires.toList = [.permission "BAN_MEMBERS", .role "Administrator"] := by
    rw [Builder.after_calls]
    exact ⟨_, rfl, by decide⟩
  have hdeclared : command.Declared := ⟨_, hnamed.after (banCalls.map .call), hbuild⟩
  have hstart : (Text.trim "@Administrator".toList).head? = some '@' := by decide
  exact ⟨ban_rearranged_calls, hrecord, hsame, command, hdeclared, hbuild,
    hcollected _ _ _ hbuild, hrequires, hwell _ hdeclared, hstart, hat _ hstart _⟩

end SlashCommand
