import SlashCommand.Proofs.Builder.WellFormed
import SlashCommand.Proofs.Message.Extraction
import SlashCommand.Resolution.Resolve

/-!
# Handing out tokens

Every parameter gets one entry, in the order of the parameters.  A flag leaves the
tokens as they are and gets the value it took; a parameter that is no flag takes the
next token, or all of them if it is variadic.
-/

namespace SlashCommand

variable {α : Type}

/-! ## Entries -/

namespace Entry

variable (command : Command α) (scope : Option String) (argument : Argument)
  (given : Option Value)

variable {argument}

theorem isFlag_ofArgument (hkept : argument.Kept) :
    (ofArgument command scope argument given).isFlag = argument.isFlag := by
  cases hflag : argument.isFlag with
  | false => simp [ofArgument, Entry.isFlag, hflag]
  | true =>
      obtain ⟨token, htoken⟩ := hkept.form.isFlag_iff.mp hflag
      simp [ofArgument, Entry.isFlag, hflag, htoken]

/-- No default stands in for a flag. -/
theorem ofArgument_value_of_isFlag (hflag : argument.isFlag = true) :
    (ofArgument command scope argument given).value = given := by
  simp [ofArgument, fallback?, hflag]

end Entry

namespace Resolution

/-- The first flag of a name in a scope. -/
def flagIn? (resolution : Resolution) (scope : Option String) (name : String) : Option Entry :=
  resolution.flags.find? fun entry => entry.name == name && entry.subcommand == scope

/-- A flag is found by its name and scope when no other entry has them. -/
theorem flagIn?_ofEntries {entries : List Entry} {entry : Entry} {scope : Option String}
    {name : String} (hname : entry.name = name) (hscope : entry.subcommand = scope)
    (hmem : entry ∈ entries) (hflag : entry.isFlag = true)
    (hsole : ∀ other ∈ entries, other.name = name → other.subcommand = scope → other = entry)
    (active : Option String) :
    (ofEntries entries active).flagIn? scope name = some entry := by
  have hflags : entry ∈ entries.filter Entry.isFlag := List.mem_filter.mpr ⟨hmem, hflag⟩
  cases hfound : (ofEntries entries active).flagIn? scope name with
  | none =>
      have hnone := List.find?_eq_none.mp hfound entry hflags
      simp [hname, hscope] at hnone
  | some other =>
      have hother : other ∈ entries := (List.mem_filter.mp (List.mem_of_find?_eq_some hfound)).1
      have hsame := List.find?_some hfound
      simp only [Bool.and_eq_true, beq_iff_eq] at hsame
      rw [hsole other hother hsame.1 hsame.2]

end Resolution

namespace Message

variable (command : Command α) (occurrences : List (String × String)) (scope : Option String)

/-! ## Steps -/

theorem handOut_cons_of_isFlag {argument : Argument} (hflag : argument.isFlag = true)
    (rest : List Argument) (left : List Token) :
    handOut command occurrences scope (argument :: rest) left =
      (Entry.ofArgument command scope argument (flagValue? occurrences argument) ::
          (handOut command occurrences scope rest left).1,
        (handOut command occurrences scope rest left).2) := by
  simp only [handOut, hflag, if_true]

theorem handOut_cons_of_not_isFlag {argument : Argument} (hflag : argument.isFlag = false)
    (rest : List Argument) (left : List Token) :
    handOut command occurrences scope (argument :: rest) left =
      (Entry.ofArgument command scope argument (take argument left).1 ::
          (handOut command occurrences scope rest (take argument left).2).1,
        (handOut command occurrences scope rest (take argument left).2).2) := by
  simp [handOut, hflag]

theorem take_left_of_single {argument : Argument} (h : argument.variadic = false)
    (left : List Token) : (take argument left).2 = left.drop 1 := by
  cases left with
  | nil => simp [take, h]
  | cons token rest => simp [take, h]

theorem take_left_of_variadic {argument : Argument} (h : argument.variadic = true)
    (left : List Token) : (take argument left).2 = [] := by
  simp [take, h]

/-! ## The tokens left -/

/-- None of the parameters takes all tokens that are left. -/
def Single (arguments : List Argument) : Prop :=
  ∀ argument ∈ arguments, argument.isFlag = false → argument.variadic = false

/-- The number of tokens that parameters take, each its own. -/
def demand (arguments : List Argument) : Nat :=
  arguments.countP fun argument => !argument.isFlag

theorem handOut_left_of_single {arguments : List Argument} (h : Single arguments)
    (left : List Token) :
    (handOut command occurrences scope arguments left).2 = left.drop (demand arguments) := by
  induction arguments generalizing left with
  | nil => rfl
  | cons argument rest ih =>
      have hrest : Single rest := fun other hother => h other (List.mem_cons_of_mem _ hother)
      cases hflag : argument.isFlag with
      | true =>
          rw [handOut_cons_of_isFlag command occurrences scope hflag, ih hrest, demand, demand,
            List.countP_cons_of_neg (by simp [hflag])]
      | false =>
          have hsingle := h argument List.mem_cons_self hflag
          rw [handOut_cons_of_not_isFlag command occurrences scope hflag, ih hrest,
            take_left_of_single hsingle, List.drop_drop, demand, demand,
            List.countP_cons_of_pos (by simp [hflag]), Nat.add_comm]

theorem handOut_left_nil (arguments : List Argument) :
    (handOut command occurrences scope arguments []).2 = [] := by
  induction arguments with
  | nil => rfl
  | cons argument rest ih =>
      cases hflag : argument.isFlag with
      | true =>
          rw [handOut_cons_of_isFlag command occurrences scope hflag]
          exact ih
      | false =>
          rw [handOut_cons_of_not_isFlag command occurrences scope hflag]
          cases hvariadic : argument.variadic with
          | true =>
              rw [take_left_of_variadic hvariadic]
              exact ih
          | false =>
              rw [take_left_of_single hvariadic]
              exact ih

/-- A variadic parameter leaves no token. -/
theorem single_of_handOut_left {arguments : List Argument} {left : List Token}
    (h : (handOut command occurrences scope arguments left).2 ≠ []) : Single arguments := by
  induction arguments generalizing left with
  | nil =>
      intro argument hmem
      cases hmem
  | cons argument rest ih =>
      cases hflag : argument.isFlag with
      | true =>
          rw [handOut_cons_of_isFlag command occurrences scope hflag] at h
          intro other hother hparameter
          rcases List.mem_cons.mp hother with rfl | hrest
          · rw [hflag] at hparameter
            cases hparameter
          · exact ih h other hrest hparameter
      | false =>
          rw [handOut_cons_of_not_isFlag command occurrences scope hflag] at h
          cases hvariadic : argument.variadic with
          | true =>
              rw [take_left_of_variadic hvariadic] at h
              exact absurd (handOut_left_nil command occurrences scope rest) h
          | false =>
              intro other hother hparameter
              rcases List.mem_cons.mp hother with rfl | hrest
              · exact hvariadic
              · exact ih h other hrest hparameter

/-! ## The entries made -/

/-- A flag gets the value it took. -/
theorem mem_handOut_of_isFlag {arguments : List Argument} {flag : Argument}
    (hmem : flag ∈ arguments) (hflag : flag.isFlag = true) (left : List Token) :
    Entry.ofArgument command scope flag (flagValue? occurrences flag) ∈
      (handOut command occurrences scope arguments left).1 := by
  induction arguments generalizing left with
  | nil => cases hmem
  | cons argument rest ih =>
      rcases List.mem_cons.mp hmem with rfl | hrest
      · rw [handOut_cons_of_isFlag command occurrences scope hflag]
        exact List.mem_cons_self
      · exact List.mem_cons_of_mem _ (ih hrest _)

/-- Every entry is that of a parameter, and that of a flag holds the value it took. -/
theorem exists_of_mem_handOut {arguments : List Argument} {left : List Token} {entry : Entry}
    (hmem : entry ∈ (handOut command occurrences scope arguments left).1) :
    ∃ argument ∈ arguments, ∃ given,
      entry = Entry.ofArgument command scope argument given ∧
        (argument.isFlag = true → given = flagValue? occurrences argument) := by
  induction arguments generalizing left with
  | nil => cases hmem
  | cons argument rest ih =>
      have hsplit : ∃ given after,
          (entry = Entry.ofArgument command scope argument given ∨
            entry ∈ (handOut command occurrences scope rest after).1) ∧
            (argument.isFlag = true → given = flagValue? occurrences argument) := by
        cases hflag : argument.isFlag with
        | true =>
            rw [handOut_cons_of_isFlag command occurrences scope hflag] at hmem
            exact ⟨_, left, List.mem_cons.mp hmem, fun _ => rfl⟩
        | false =>
            rw [handOut_cons_of_not_isFlag command occurrences scope hflag] at hmem
            exact ⟨_, _, List.mem_cons.mp hmem, fun htrue => by cases htrue⟩
      obtain ⟨given, after, hentry, hgiven⟩ := hsplit
      rcases hentry with heq | hrest
      · exact ⟨argument, List.mem_cons_self, given, heq, hgiven⟩
      · obtain ⟨other, hother, hmade⟩ := ih hrest
        exact ⟨other, List.mem_cons_of_mem argument hother, hmade⟩

end Message

end SlashCommand
