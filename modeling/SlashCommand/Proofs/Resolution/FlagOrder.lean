import SlashCommand.Proofs.Resolution.FlagValue

/-!
# Flags in any order

A flag of the command itself may be moved in a message, together with the value behind it:
across parameters, across the name of a subcommand, into its parameters.  The flags are
taken out first, so nothing is left of the place at which the two stood.
-/

namespace SlashCommand.Message

variable {α : Type}

/-! ## The same values -/

/-- Two rows of occurrences give every flag the same value. -/
def SameValues (first second : List (String × String)) : Prop :=
  ∀ flag, valueOf? first flag = valueOf? second flag

theorem SameValues.append {first second : List (String × String)} (h : SameValues first second)
    (later : List (String × String)) : SameValues (first ++ later) (second ++ later) := by
  intro flag
  rw [valueOf?_append, valueOf?_append, h flag]

/-- Tokens are handed out alike when every flag has the same value. -/
theorem handOut_congr (command : Command α) {first second : List (String × String)}
    (h : SameValues first second) : handOut command first = handOut command second := by
  funext scope arguments
  induction arguments with
  | nil => rfl
  | cons argument rest ih =>
      funext left
      have hvalue : flagValue? first argument = flagValue? second argument := by
        rw [flagValue?, flagValue?, funext h]
      simp only [handOut, hvalue, ih]

/-- A message is resolved by the tokens that are left without the flags of the command itself
and by the values these took. -/
theorem resolveTokens_congr {command : Command α} {first second : List Token}
    (hpositional : (ownExtraction command first).positional =
      (ownExtraction command second).positional)
    (hvalues : SameValues (ownExtraction command first).occurrences
      (ownExtraction command second).occurrences) :
    resolveTokens command first = resolveTokens command second := by
  unfold ownExtraction at hpositional hvalues
  unfold resolveTokens
  simp only [hpositional, handOut_congr command hvalues,
    fun later => handOut_congr command (hvalues.append later)]

/-! ## A flag with its value -/

section Inserted

variable {flags known : List String} {flag : String} {value : Token} {before after : List Token}

/-- A flag is extracted with the value behind it, and what stands around the two as if they
were not there. -/
theorem extract_inserted (hknown : flags ⊆ known) (hflag : flag ∈ flags)
    (hvalue : value.isAmong known = false) :
    extract flags known (before ++ ⟨flag, false⟩ :: value :: after) =
      (extract flags known before).append ((extract flags known after).meet flag value.text) := by
  rw [extract_append (parted_of_isAmong (Token.isAmong_plain.mpr (hknown hflag))),
    extract_cons_of_isAmong (Token.isAmong_plain.mpr hflag), untaken_cons_of_not_isAmong hvalue,
    adjacent_cons_of_not_isAmong hvalue]

/-- One more occurrence of a flag leaves the values of the others as they are. -/
theorem valueOf?_inserted_of_ne {other : String} (h : other ≠ flag)
    (earlier later : List (String × String)) (given : String) :
    valueOf? (earlier ++ (flag, given) :: later) other = valueOf? (earlier ++ later) other := by
  have hsingle : valueOf? [(flag, given)] other = none := by
    apply valueOf?_eq_none
    intro found hmem
    exact h (Prod.mk.inj (List.mem_singleton.mp hmem)).1
  rw [List.append_cons, valueOf?_append, valueOf?_append, hsingle, Option.none_or,
    valueOf?_append]

/-- Wherever a flag that stands nowhere else is put with its value, the same tokens are left,
the flag has this value, and the others have the values they have without the two. -/
theorem extract_inserted_values (hknown : flags ⊆ known) (hflag : flag ∈ flags)
    (hvalue : value.isAmong known = false) (hsole : ⟨flag, false⟩ ∉ before ++ after)
    (hbefore : ∀ last ∈ before.getLast?, last.isAmong flags = false) :
    (extract flags known (before ++ ⟨flag, false⟩ :: value :: after)).positional =
        (extract flags known (before ++ after)).positional ∧
      ∀ other,
        valueOf? (extract flags known (before ++ ⟨flag, false⟩ :: value :: after)).occurrences
            other =
          if other = flag then some value.text
          else valueOf? (extract flags known (before ++ after)).occurrences other := by
  have hparted : Parted flags known before after := by
    intro last hlast hamong
    rw [hbefore last hlast] at hamong
    cases hamong
  rw [extract_inserted hknown hflag hvalue, extract_append hparted]
  refine ⟨rfl, fun other => ?_⟩
  by_cases hother : other = flag
  · subst hother
    rw [if_pos rfl]
    apply valueOf?_append_cons
    intro given hmem
    exact hsole (List.mem_append_right before (mem_of_mem_occurrences hmem).2)
  · rw [if_neg hother]
    exact valueOf?_inserted_of_ne hother _ _ value.text

end Inserted

/-! ## Moving a flag -/

/-- A flag of the command itself that stands once in a message may be moved with the value
behind it: the message resolves alike wherever the two stand, except right behind another
flag of the command itself. -/
theorem resolve_moved_flag {command : Command α} {raw moved flag : String} {value : Token}
    {before after before' after' : List Token} (hflag : flag ∈ flagTokens command.arguments)
    (hvalue : value.isAmong (flagTokens command.flags) = false)
    (hraw : tokens raw = before ++ ⟨flag, false⟩ :: value :: after)
    (hmoved : tokens moved = before' ++ ⟨flag, false⟩ :: value :: after')
    (hothers : before' ++ after' = before ++ after) (hsole : ⟨flag, false⟩ ∉ before ++ after)
    (hbefore : ∀ last ∈ before.getLast?, last.isAmong (flagTokens command.arguments) = false)
    (hbefore' : ∀ last ∈ before'.getLast?,
      last.isAmong (flagTokens command.arguments) = false) :
    resolve command moved = resolve command raw := by
  have hknown := flagTokens_own_subset command
  obtain ⟨hpositional, hvalues⟩ := extract_inserted_values hknown hflag hvalue hsole hbefore
  obtain ⟨hpositional', hvalues'⟩ :=
    extract_inserted_values hknown hflag hvalue (hothers ▸ hsole) hbefore'
  rw [resolve, resolve, hraw, hmoved]
  apply resolveTokens_congr
  · exact hpositional'.trans (hothers ▸ hpositional.symm)
  · intro other
    exact (hvalues' other).trans (hothers ▸ (hvalues other).symm)

/-- The flag and its value in front of the name of the subcommand, and behind the value of
its flag. -/
theorem listing_verbose_moved :
    "-v" ∈ flagTokens listing.arguments ∧
      Token.isAmong ⟨"yes", false⟩ (flagTokens listing.flags) = false ∧
      tokens "-v yes list -a milk" = [] ++ ⟨"-v", false⟩ :: ⟨"yes", false⟩ ::
        [⟨"list", false⟩, ⟨"-a", false⟩, ⟨"milk", false⟩] ∧
      tokens "list -a milk -v yes" = [⟨"list", false⟩, ⟨"-a", false⟩, ⟨"milk", false⟩] ++
        ⟨"-v", false⟩ :: ⟨"yes", false⟩ :: [] ∧
      ⟨"-v", false⟩ ∉ [⟨"list", false⟩, ⟨"-a", false⟩, (⟨"milk", false⟩ : Token)] ∧
      Token.isAmong ⟨"milk", false⟩ (flagTokens listing.arguments) = false ∧
      resolve listing "list -a milk -v yes" = resolve listing "-v yes list -a milk" := by
  have hraw : tokens "-v yes list -a milk" = [] ++ ⟨"-v", false⟩ :: ⟨"yes", false⟩ ::
      [⟨"list", false⟩, ⟨"-a", false⟩, ⟨"milk", false⟩] := rfl
  have hmoved : tokens "list -a milk -v yes" =
      [⟨"list", false⟩, ⟨"-a", false⟩, ⟨"milk", false⟩] ++
        ⟨"-v", false⟩ :: ⟨"yes", false⟩ :: [] := rfl
  refine ⟨by decide, by decide, hraw, hmoved, by decide, by decide, ?_⟩
  exact resolve_moved_flag (by decide) (by decide) hraw hmoved rfl (by decide) (by decide)
    (by decide)

end SlashCommand.Message
