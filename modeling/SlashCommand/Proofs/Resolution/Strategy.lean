import SlashCommand.Proofs.Builder.Reachable
import SlashCommand.Resolution.Resolve

/-!
# How an invocation is resolved

Every parameter of a declared command has a name, so a typed command resolves every
message, and the options of an invocation whenever it declares their subcommand.
-/

namespace SlashCommand

variable {α : Type}

namespace Command

variable {command : Command α}

/-- The name of a parameter and that of a subcommand are single words. -/
theorem WellFormed.isWord_of_mem (h : command.WellFormed) {argument : Argument}
    (hmem : argument ∈ command.arguments) : Text.isWord argument.name = true := by
  rcases h.consistent.members argument hmem with hkept | hsubcommand
  · exact hkept.form.isWord
  · exact hsubcommand.name

theorem WellFormed.hasUnnamed (h : command.WellFormed) : command.hasUnnamed = false := by
  apply List.any_eq_false.mpr
  intro argument hmem
  obtain ⟨owner, howner, hown⟩ := List.mem_flatMap.mp hmem
  have hword : Text.isWord argument.name = true := by
    rcases List.mem_cons.mp hown with rfl | hinner
    · exact h.isWord_of_mem howner
    · rcases h.consistent.members owner howner with hkept | hsubcommand
      · rw [hkept.form.leaf] at hinner
        cases hinner
      · exact (hsubcommand.own argument hinner).form.isWord
  rw [Text.not_void_of_isWord hword]
  exact Bool.false_ne_true

/-- A typed command resolves every message. -/
theorem WellFormed.resolve_raw (h : command.WellFormed) (htype : command.type = .chatInput)
    {invocation : Invocation} {raw : String} (hraw : invocation.raw = some raw) :
    command.resolve invocation = .ok (Message.resolve command raw) := by
  rw [resolve, h.hasUnnamed, htype, hraw]
  rfl

/-- A typed command resolves the options of every invocation without a message. -/
theorem WellFormed.resolve_options (h : command.WellFormed) (htype : command.type = .chatInput)
    {invocation : Invocation} (hraw : invocation.raw = none) :
    command.resolve invocation = command.resolveOptions invocation := by
  rw [resolve, h.hasUnnamed, htype, hraw]
  rfl

end Command

end SlashCommand
