import SlashCommand.Proofs.Builder.Scope
import SlashCommand.Proofs.Dict

/-!
# The index of subcommands

A draft keeps the place of each subcommand beside its arguments.  The index is kept in
step with them: a new subcommand is entered with the place it gets, and nothing that
happens afterwards moves an argument.
-/

namespace SlashCommand

/-! ## Places -/

/-- The subcommand with a name stands at a place among the arguments. -/
def StandsAt (arguments : List Argument) (name : String) (place : Nat) : Prop :=
  ∃ subcommand, arguments[place]? = some subcommand ∧
    Draft.isSubcommand name subcommand = true

theorem StandsAt.any {arguments : List Argument} {name : String} {place : Nat}
    (h : StandsAt arguments name place) :
    arguments.any (Draft.isSubcommand name) = true := by
  obtain ⟨subcommand, hat, hsub⟩ := h
  exact List.any_eq_true.mpr ⟨subcommand, List.mem_of_getElem? hat, hsub⟩

/-- An argument at the end keeps the places of the others and takes the next one. -/
theorem standsAt_append_singleton {arguments : List Argument} {last : Argument} {name : String}
    {place : Nat} :
    StandsAt (arguments ++ [last]) name place ↔
      StandsAt arguments name place ∨
        place = arguments.length ∧ Draft.isSubcommand name last = true := by
  unfold StandsAt
  rcases Nat.lt_trichotomy place arguments.length with hbefore | rfl | hafter
  · rw [List.getElem?_append_left hbefore]
    simp [Nat.ne_of_lt hbefore]
  · simp
  · rw [List.getElem?_eq_none (by simpa [Nat.succ_le_iff] using hafter),
      List.getElem?_eq_none hafter.le]
    simp [Nat.ne_of_gt hafter]

/-- A change of subcommands moves none. -/
theorem standsAt_changed {change : Argument → Argument} (hchange : KeepsSubcommand change)
    (name own : String) (arguments : List Argument) (place : Nat) :
    StandsAt (arguments.map (Draft.changed name change)) own place ↔
      StandsAt arguments own place := by
  simp [StandsAt, Draft.isSubcommand_changed hchange]

namespace Draft

variable {α : Type} {draft : Draft α}

/-! ## The index -/

/-- The index has the place of every subcommand, and nothing else. -/
def Indexed (draft : Draft α) : Prop :=
  ∀ name place, draft.subcommandIndex? name = some place ↔
    StandsAt draft.arguments name place

/-- The subcommands that an index in step knows are those among the arguments. -/
theorem Indexed.hasSubcommand_eq (h : draft.Indexed) (name : String) :
    draft.hasSubcommand name = draft.arguments.any (isSubcommand name) := by
  rw [Bool.eq_iff_iff]
  constructor
  · intro hsome
    obtain ⟨place, hplace⟩ := Option.isSome_iff_exists.mp hsome
    exact ((h name place).mp hplace).any
  · intro hany
    obtain ⟨subcommand, hmem, hsub⟩ := List.any_eq_true.mp hany
    obtain ⟨place, hat⟩ := List.mem_iff_getElem?.mp hmem
    exact Option.isSome_iff_exists.mpr ⟨place, (h name place).mpr ⟨subcommand, hat, hsub⟩⟩

theorem Indexed.hasSubcommand_eq_false (h : draft.Indexed) {name : String}
    (hfresh : draft.hasArgument name = false) : draft.hasSubcommand name = false := by
  rw [h.hasSubcommand_eq]
  simp only [hasArgument, List.any_eq_false, beq_iff_eq] at hfresh ⊢
  exact fun argument hmem hsub => hfresh argument hmem (isSubcommand_iff.mp hsub).2

/-- The index stays in step when neither it nor the arguments change. -/
theorem Indexed.of_same {other : Draft α} (h : draft.Indexed)
    (harguments : other.arguments = draft.arguments)
    (hindex : other.subcommands = draft.subcommands) : other.Indexed := by
  intro name place
  rw [harguments, subcommandIndex?, hindex]
  exact h name place

theorem indexed_of_empty (harguments : draft.arguments = []) (hindex : draft.subcommands = ∅) :
    draft.Indexed := by
  intro name place
  simp [subcommandIndex?, hindex, StandsAt, harguments, Dict.get?, EmptyCollection.emptyCollection,
    Dict.empty]

theorem Indexed.changeSubcommand (h : draft.Indexed) {change : Argument → Argument}
    (hchange : KeepsSubcommand change) (name : String) :
    (draft.changeSubcommand name change).Indexed :=
  fun own place => (h own place).trans (standsAt_changed hchange name own _ place).symm

theorem Indexed.describeSubcommand (h : draft.Indexed) (name : String)
    (description : Option String) : (draft.describeSubcommand name description).Indexed := by
  cases description with
  | none => exact h
  | some text => exact h.changeSubcommand (keepsSubcommand_describe text) name

/-- A parameter at the end of its scope moves no subcommand. -/
theorem Indexed.place (h : draft.Indexed) {argument : Argument}
    (hcommand : argument.isCommand = false) (scope : Option String) :
    (draft.place argument scope).Indexed := by
  cases scope with
  | none =>
      intro name place
      refine (h name place).trans ?_
      simp [Draft.place, standsAt_append_singleton, isSubcommand_of_not_command hcommand]
  | some name => exact h.changeSubcommand (keepsSubcommand_own argument) name

/-- A subcommand with a new name is entered with the place it gets. -/
theorem Indexed.appendSubcommand (h : draft.Indexed) {name : String}
    (hfresh : draft.hasArgument name = false) (description : Option String) :
    (draft.appendSubcommand name description).Indexed := by
  intro own place
  simp only [Draft.appendSubcommand, subcommandIndex?, standsAt_append_singleton]
  by_cases hown : name = own
  · subst hown
    have hnone : ¬ StandsAt draft.arguments name place := by
      intro hstands
      have hsub := h.hasSubcommand_eq_false hfresh
      rw [h.hasSubcommand_eq, hstands.any] at hsub
      cases hsub
    have hself : isSubcommand name
        (Argument.subcommand name (description.getD fillerDescription)) = true :=
      isSubcommand_iff.mpr ⟨rfl, rfl⟩
    rw [Dict.get?_insert_self]
    simp [hnone, hself, eq_comm]
  · rw [Dict.get?_insert_of_ne _ hown]
    have hother : isSubcommand own
        (Argument.subcommand name (description.getD fillerDescription)) = false := by
      simp [isSubcommand, Argument.subcommand, hown]
    simpa [hother, subcommandIndex?] using h own place

/-! ## Access through the index -/

/-- A subcommand is changed at its place. -/
theorem Indexed.changeSubcommand_eq_modify (h : draft.Indexed) {name : String} {place : Nat}
    (hplace : draft.subcommandIndex? name = some place) (change : Argument → Argument) :
    (draft.changeSubcommand name change).arguments = draft.arguments.modify place change := by
  rw [changeSubcommand_arguments]
  refine List.ext_getElem? fun other => ?_
  rw [List.getElem?_map, List.getElem?_modify]
  cases hat : draft.arguments[other]? with
  | none => simp
  | some argument =>
      -- the index decides which argument the name is that of
      have hnamed : isSubcommand name argument = true ↔ place = other := by
        constructor
        · intro hsub
          have hother := (h name other).mpr ⟨argument, hat, hsub⟩
          exact Option.some.inj (hplace.symm.trans hother)
        · rintro rfl
          obtain ⟨subcommand, hsubcommand, hsub⟩ := (h name place).mp hplace
          rw [hat] at hsubcommand
          exact Option.some.inj hsubcommand ▸ hsub
      by_cases hsame : place = other
      · simp [hsame, changed_of_subcommand (hnamed.mpr hsame)]
      · have hnot : isSubcommand name argument = false :=
          Bool.eq_false_iff.mpr fun hsub => hsame (hnamed.mp hsub)
        simp [hsame, changed_of_not_subcommand hnot]

/-- The scope of a subcommand is what the argument at its place owns. -/
theorem Indexed.inScope_eq (h : draft.Indexed)
    (hdistinct : (draft.arguments.map Argument.name).Nodup) {name : String} {place : Nat}
    (hplace : draft.subcommandIndex? name = some place) :
    ∃ subcommand, draft.arguments[place]? = some subcommand ∧
      draft.inScope (some name) = subcommand.subarguments := by
  obtain ⟨subcommand, hat, hsub⟩ := (h name place).mp hplace
  refine ⟨subcommand, hat, ?_⟩
  rw [inScope, filter_isSubcommand hdistinct (List.mem_of_getElem? hat) hsub]
  simp

/-! ## Subcommands that stay -/

theorem hasSubcommand_describeSubcommand (draft : Draft α) (name own : String)
    (description : Option String) :
    (draft.describeSubcommand name description).hasSubcommand own = draft.hasSubcommand own := by
  cases description with
  | none => rfl
  | some text => rfl

theorem hasSubcommand_place (draft : Draft α) (argument : Argument) (scope : Option String)
    (name : String) :
    (draft.place argument scope).hasSubcommand name = draft.hasSubcommand name := by
  cases scope with
  | none => rfl
  | some own => rfl

theorem hasSubcommand_appendSubcommand_self (draft : Draft α) (name : String)
    (description : Option String) :
    (draft.appendSubcommand name description).hasSubcommand name = true := by
  simp [appendSubcommand, hasSubcommand, Dict.contains, Dict.get?_insert_self]

/-- A new subcommand takes no other away. -/
theorem hasSubcommand_appendSubcommand {name own : String} (description : Option String)
    (h : draft.hasSubcommand own = true) :
    (draft.appendSubcommand name description).hasSubcommand own = true := by
  by_cases hown : name = own
  · exact hown ▸ hasSubcommand_appendSubcommand_self draft name description
  · simpa [Draft.appendSubcommand, hasSubcommand, Dict.contains,
      Dict.get?_insert_of_ne _ hown] using h

/-- A declared subcommand is there. -/
theorem hasSubcommand_of_declareSubcommand {next : Draft α} {name : String}
    {description : Option String}
    (h : draft.declareSubcommand name description = .ok next) :
    next.hasSubcommand name = true := by
  cases declares_of_declareSubcommand h with
  | settled hsub himplicit =>
      rw [hasSubcommand_describeSubcommand]
      exact hsub
  | anew => exact hasSubcommand_appendSubcommand_self draft name description

end Draft

end SlashCommand
