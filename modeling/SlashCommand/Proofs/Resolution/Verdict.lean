import SlashCommand.Proofs.Resolution.Offered

/-!
# When an invocation is refused

A command that holds a parameter without a name refuses every invocation.  Any other
command refuses an invocation only if it looks for a subcommand that is not declared,
which only the options of a typed command do.  Everything else resolves, whatever the
invocation says or lacks.
-/

namespace SlashCommand

variable {α : Type}

namespace Command

/-! ## The two reasons -/

/-- The command holds the argument, itself or in one of its subcommands. -/
def Holds (command : Command α) (argument : Argument) : Prop :=
  argument ∈ command.arguments ∨ ∃ owner ∈ command.arguments, argument ∈ owner.subarguments

/-- The command holds an argument whose name is nothing but blanks. -/
def Unnamed (command : Command α) : Prop :=
  ∃ argument, command.Holds argument ∧ Text.isVoid argument.name = true

/-- The invocation looks for a subcommand of this name, and the command declares none. -/
structure Misses (command : Command α) (invocation : Invocation) (name : String) : Prop where
  typed : command.type.isContextMenu = false
  textless : invocation.raw = none
  named : invocation.subcommand = some name
  undeclared : ∀ argument ∈ command.arguments, argument.isCommand = true → argument.name ≠ name

/-- The verdict on an invocation, reasons to refuse it in the order in which they count. -/
inductive Verdict (command : Command α) (invocation : Invocation) :
    Except ResolutionError Resolution → Prop where
  | unnamed (h : command.Unnamed) :
      Verdict command invocation (.error (.unnamedArgument command.name))
  | missed {name : String} (hnames : ¬command.Unnamed) (h : command.Misses invocation name) :
      Verdict command invocation (.error (.unknownSubcommand name))
  | resolved (resolution : Resolution) (hnames : ¬command.Unnamed)
      (h : ∀ name, ¬command.Misses invocation name) :
      Verdict command invocation (.ok resolution)

/-! ## Reaching the verdict -/

variable {command : Command α} {invocation : Invocation}

theorem hasUnnamed_iff : command.hasUnnamed = true ↔ command.Unnamed := by
  rw [hasUnnamed, List.any_eq_true]
  constructor
  · rintro ⟨argument, hmem, hvoid⟩
    obtain ⟨owner, howner, hown⟩ := List.mem_flatMap.mp hmem
    rcases List.mem_cons.mp hown with rfl | hinner
    · exact ⟨argument, Or.inl howner, hvoid⟩
    · exact ⟨argument, Or.inr ⟨owner, howner, hinner⟩, hvoid⟩
  · rintro ⟨argument, howner | ⟨owner, howner, hinner⟩, hvoid⟩
    · exact ⟨argument, List.mem_flatMap.mpr ⟨argument, howner, List.mem_cons_self⟩, hvoid⟩
    · exact ⟨argument, List.mem_flatMap.mpr ⟨owner, howner, List.mem_cons_of_mem _ hinner⟩, hvoid⟩

/-- A subcommand is not found if no argument is a subcommand of its name. -/
theorem subcommand?_eq_none_iff {name : String} :
    command.subcommand? name = none ↔
      ∀ argument ∈ command.arguments, argument.isCommand = true → argument.name ≠ name := by
  constructor
  · rintro hnone argument hmem hcommand rfl
    have hfound := isSome_subcommand? hmem hcommand
    rw [hnone] at hfound
    cases hfound
  · intro h
    cases hfound : command.subcommand? name with
    | none => rfl
    | some subcommand =>
        obtain ⟨hmem, hcommand, hname⟩ := mem_of_subcommand? hfound
        exact absurd hname (h subcommand hmem hcommand)

theorem verdict_resolveOptions (hnames : ¬command.Unnamed)
    (htyped : command.type.isContextMenu = false) (hraw : invocation.raw = none) :
    Verdict command invocation (command.resolveOptions invocation) := by
  unfold resolveOptions
  split
  next hnamed =>
      refine .resolved _ hnames fun name hmisses => ?_
      cases hnamed.symm.trans hmisses.named
  next name hnamed =>
      split
      next hnone =>
          exact .missed hnames ⟨htyped, hraw, hnamed, subcommand?_eq_none_iff.mp hnone⟩
      next hfound =>
          refine .resolved _ hnames fun other hmisses => ?_
          cases hnamed.symm.trans hmisses.named
          cases hfound.symm.trans (subcommand?_eq_none_iff.mpr hmisses.undeclared)

/-- Every invocation meets its verdict. -/
theorem verdict_resolve (command : Command α) (invocation : Invocation) :
    Verdict command invocation (command.resolve invocation) := by
  by_cases hnames : command.Unnamed
  · rw [resolve, if_pos (hasUnnamed_iff.mpr hnames)]
    exact .unnamed hnames
  · rw [resolve, if_neg (mt hasUnnamed_iff.mp hnames)]
    cases htyped : command.type.isContextMenu with
    | true =>
        refine .resolved _ hnames fun name hmisses => ?_
        cases htyped.symm.trans hmisses.typed
    | false =>
        cases hraw : invocation.raw with
        | some raw =>
            refine .resolved _ hnames fun name hmisses => ?_
            cases hraw.symm.trans hmisses.textless
        | none => exact verdict_resolveOptions hnames htyped hraw

/-- Every argument of a declared command has a name. -/
theorem Declared.not_unnamed (h : command.Declared) : ¬command.Unnamed := by
  rw [← hasUnnamed_iff, h.wellFormed.hasUnnamed]
  exact Bool.false_ne_true

/-! ## Refusals -/

/-- A command that holds an unnamed argument refuses everything for that reason.  Any
other one refuses exactly the invocations that look for an undeclared subcommand, for
that reason, and resolves all the others.  Declared commands hold no unnamed argument. -/
theorem resolve_refuses_iff (command : Command α) :
    (∀ invocation,
      (∀ name, command.resolve invocation = .error (.unnamedArgument name) ↔
        name = command.name ∧ command.Unnamed) ∧
      (∀ name, command.resolve invocation = .error (.unknownSubcommand name) ↔
        ¬command.Unnamed ∧ command.Misses invocation name) ∧
      ((∃ resolution, command.resolve invocation = .ok resolution) ↔
        ¬command.Unnamed ∧ ∀ name, ¬command.Misses invocation name)) ∧
    (command.Declared → ∀ invocation name,
      command.resolve invocation ≠ .error (.unnamedArgument name)) := by
  constructor
  · intro invocation
    generalize hresult : command.resolve invocation = result
    have hverdict := hresult ▸ verdict_resolve command invocation
    cases hverdict with
    | unnamed h => simp [h, eq_comm]
    | @missed missing hnames h =>
        have hsame : ∀ name, command.Misses invocation name → missing = name :=
          fun name hmisses => Option.some.inj (h.named.symm.trans hmisses.named)
        refine ⟨fun name => by simp [hnames], fun name => ?_, ?_⟩
        · constructor
          · intro hrefused
            cases hrefused
            exact ⟨hnames, h⟩
          · rintro ⟨_, hmisses⟩
            rw [hsame name hmisses]
        · simp only [reduceCtorEq, exists_false, hnames, not_false_eq_true, true_and, false_iff]
          intro hnone
          exact hnone missing h
    | resolved resolution hnames h => simp [hnames, h]
  · intro hdeclared invocation name hrefused
    have hverdict := verdict_resolve command invocation
    rw [hrefused] at hverdict
    cases hverdict with
    | unnamed h => exact hdeclared.not_unnamed h

/-- A context menu that holds an argument without a name. -/
def nameless : Command Unit :=
  { errand with
    name := "menu"
    type := .user
    arguments := [{ addDish with subarguments := [requiredText " \u3000"] }] }

/-- The menu refuses what it is opened on.  The order refuses a subcommand it does not
declare unless the invocation has a message. -/
theorem nameless_order_refusals :
    nameless.resolve (.plain "menu" "42") = .error (.unnamedArgument "menu") ∧
      order.resolve { Invocation.plain "order" "42" with subcommand := some "drop" } =
        .error (.unknownSubcommand "drop") ∧
      (∃ resolution, order.resolve
        { Invocation.plain "order" "42" with subcommand := some "drop", raw := some "" } =
          .ok resolution) ∧
      order.resolve (.plain "order" "42") ≠ .error (.unnamedArgument "order") := by
  have hmisses : order.Misses
      { Invocation.plain "order" "42" with subcommand := some "drop" } "drop" :=
    ⟨rfl, rfl, rfl, by decide⟩
  have hnames : ¬order.Unnamed := order_declared.not_unnamed
  refine ⟨?_, ?_, ?_, ?_⟩
  · refine (((resolve_refuses_iff nameless).1 _).1 _).mpr ⟨rfl, ?_⟩
    exact ⟨requiredText " \u3000", Or.inr ⟨_, List.mem_singleton_self _, List.mem_singleton_self _⟩,
      by decide⟩
  · exact (((resolve_refuses_iff order).1 _).2.1 _).mpr ⟨hnames, hmisses⟩
  · refine ((resolve_refuses_iff order).1 _).2.2.mpr ⟨hnames, fun name hmisses => ?_⟩
    cases hmisses.textless
  · exact (resolve_refuses_iff order).2 order_declared _ _

end Command

end SlashCommand
