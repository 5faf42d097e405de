import SlashCommand.Proofs.Resolution.Alike
import SlashCommand.Proofs.Resolution.Filling
import SlashCommand.Proofs.Resolution.Strategy

/-!
# Saying a filling in a message

The message in which a filling is said resolves to the values of the filling: quoted texts
spell no flag and name no subcommand, so every parameter takes its own text and every chosen
flag the one behind it.
-/

namespace SlashCommand

open Message

variable {α : Type}

namespace Filling

variable {filling : Filling} {command : Command α} {scope : Option String}

/-! ## Tokens -/

theorem writable_quotes (hfits : filling.Fits command scope) {parameters : List Argument}
    (hvisible : parameters ⊆ command.visible scope) :
    ∀ token ∈ filling.quotes parameters, token.Writable := by
  intro token hmem
  obtain ⟨parameter, hparameter, rfl⟩ := List.mem_map.mp hmem
  obtain ⟨hgiven, hflag⟩ := List.mem_filter.mp hparameter
  exact .quoted (hfits.texts parameter (hvisible hgiven) (by simp [gives, hflag]))

theorem writable_pairs (hwell : command.WellFormed) (hexpressible : command.Expressible scope)
    (hfits : filling.Fits command scope) :
    ∀ token ∈ filling.pairs filling.chosen, token.Writable := by
  intro token hmem
  obtain ⟨flag, hchosen, htoken⟩ := mem_pairs hmem
  obtain ⟨hvisible, hflag⟩ := hfits.chosen flag hchosen
  rcases htoken with rfl | rfl
  · obtain ⟨token, htoken, hword⟩ := (hwell.kept_of_visible hvisible).form.token_isWord hflag
    rw [htoken, Option.getD_some]
    apply Token.Writable.bare hword
    exact hexpressible.tokensBare token (mem_flagTokens.mpr ⟨flag, hvisible, hflag, htoken⟩)
  · exact .quoted (hfits.texts flag hvisible
      ((gives_iff hexpressible hfits hvisible hflag).mpr hchosen))

/-- The name of a subcommand is a bare word. -/
theorem writable_name (hwell : command.WellFormed) {name : String}
    (hexpressible : command.Expressible (some name)) : Token.Writable ⟨name, false⟩ := by
  obtain ⟨subcommand, hnamed⟩ := hexpressible.declared name rfl
  obtain ⟨hdeclared, _, hname⟩ := Command.mem_of_subcommand? hnamed
  have hword := hwell.isWord_of_mem hdeclared
  rw [hname] at hword
  exact .bare hword (hexpressible.bare name rfl).1

/-- A message can hold every token of a filling. -/
theorem writable_row (hwell : command.WellFormed) (hexpressible : command.Expressible scope)
    (hfits : filling.Fits command scope) :
    ∀ token ∈ filling.row command scope, token.Writable := by
  have hleading := writable_quotes hfits (command.leading_subset_visible scope)
  have htrailing := writable_quotes hfits (command.trailing_subset_visible scope)
  have hinner := writable_quotes hfits (List.subset_append_right _ (command.inner scope))
  have hpairs := writable_pairs hwell hexpressible hfits
  cases scope with
  | none =>
      intro token hmem
      rcases List.mem_append.mp hmem with hplaced | hflags
      · rcases List.mem_append.mp hplaced with hfirst | hlast
        · exact hleading token hfirst
        · exact htrailing token hlast
      · exact hpairs token hflags
  | some name =>
      intro token hmem
      rcases List.mem_append.mp hmem with hfirst | hrest
      · exact hleading token hfirst
      · rcases List.mem_cons.mp hrest with rfl | hrest
        · exact writable_name hwell hexpressible
        · rcases List.mem_append.mp hrest with hplaced | hflags
          · rcases List.mem_append.mp hplaced with hown | hlast
            · exact hinner token hown
            · exact htrailing token hlast
          · exact hpairs token hflags

/-! ## Handing out quoted texts -/

/-- Parameters take their texts when these stand first, and flags the values they have. -/
theorem handOut_quotes {parameters : List Argument} {occurrences : List (String × String)}
    (htextual : ∀ parameter ∈ parameters, parameter.isFlag = false →
      parameter.variadic = false ∧ parameter.datatype ∈ DataType.textual)
    (hflags : ∀ flag ∈ parameters, flag.isFlag = true →
      flagValue? occurrences flag = filling.value? flag)
    (own : Option String) (left : List Token) :
    handOut command occurrences own parameters (filling.quotes parameters ++ left) =
      (parameters.map (filling.entryOf command own), left) := by
  induction parameters with
  | nil => rfl
  | cons parameter rest ih =>
      have hrest := ih (fun other hother => htextual other (List.mem_cons_of_mem _ hother))
        fun other hother => hflags other (List.mem_cons_of_mem _ hother)
      cases hflag : parameter.isFlag with
      | true =>
          have hquotes : filling.quotes (parameter :: rest) = filling.quotes rest := by
            rw [quotes, List.filter_cons_of_neg (by simp [hflag])]
            rfl
          rw [hquotes, handOut_cons_of_isFlag command occurrences own hflag, hrest,
            hflags parameter List.mem_cons_self hflag]
          rfl
      | false =>
          obtain ⟨hsingle, hdatatype⟩ := htextual parameter List.mem_cons_self hflag
          have hquotes : filling.quotes (parameter :: rest) =
              filling.quote parameter :: filling.quotes rest := by
            rw [quotes, List.filter_cons_of_pos (by simp [hflag])]
            rfl
          have htaken : take parameter
              (filling.quote parameter :: (filling.quotes rest ++ left)) =
                (filling.value? parameter, filling.quotes rest ++ left) := by
            simp only [take, hsingle, Bool.false_eq_true, if_false]
            rw [valueOf_of_textual hdatatype, value?_of_not_isFlag hflag]
            rfl
          rw [hquotes, List.cons_append, handOut_cons_of_not_isFlag command occurrences own hflag,
            htaken, hrest]
          rfl

/-! ## The values of flags -/

/-- What the flags of the command itself take in the message of a filling. -/
def ownOccurrences (filling : Filling) (command : Command α) : List (String × String) :=
  (filling.chosen.filter (spelled (flagTokens command.arguments))).map filling.pair

/-- The chosen flags that are no flags of the command itself. -/
def others (filling : Filling) (command : Command α) : List Argument :=
  filling.chosen.filter fun flag => !spelled (flagTokens command.arguments) flag

/-- What the flags of a subcommand take in the message of a filling. -/
def innerOccurrences (filling : Filling) (command : Command α) (subcommand : Argument) :
    List (String × String) :=
  ((filling.others command).filter (spelled (flagTokens subcommand.subarguments))).map
    filling.pair

theorem mem_ownOccurrences {entry : String × String}
    (h : entry ∈ filling.ownOccurrences command) :
    ∃ flag ∈ filling.chosen, filling.pair flag = entry := by
  obtain ⟨flag, hflag, hpair⟩ := List.mem_map.mp h
  exact ⟨flag, (List.mem_filter.mp hflag).1, hpair⟩

theorem mem_innerOccurrences {subcommand : Argument} {entry : String × String}
    (h : entry ∈ filling.innerOccurrences command subcommand) :
    ∃ flag ∈ filling.chosen, filling.pair flag = entry := by
  obtain ⟨flag, hflag, hpair⟩ := List.mem_map.mp h
  exact ⟨flag, (List.mem_filter.mp (List.mem_filter.mp hflag).1).1, hpair⟩

/-- A chosen flag that is none of the command itself is one of the subcommand. -/
theorem mem_inner_of_mem_others (hwell : command.WellFormed)
    (hfits : filling.Fits command scope) {flag : Argument}
    (hmem : flag ∈ filling.others command) : flag ∈ command.inner scope := by
  obtain ⟨hchosen, hnotOwn⟩ := List.mem_filter.mp hmem
  obtain ⟨hvisible, hflag⟩ := hfits.chosen flag hchosen
  rcases List.mem_append.mp hvisible with hown | hinner
  · have hspelled := spelled_of_mem (hwell.kept_of_visible hvisible)
      (mem_parametersIn_none.mp hown).1 hflag
    rw [hspelled] at hnotOwn
    cases hnotOwn
  · exact hinner

/-- A flag of the command itself takes its value with the first extraction. -/
theorem flagValue?_ownOccurrences (hwell : command.WellFormed)
    (hexpressible : command.Expressible scope) (hfits : filling.Fits command scope)
    {flag : Argument} (hmem : flag ∈ parametersIn command.arguments none)
    (hflag : flag.isFlag = true) :
    flagValue? (filling.ownOccurrences command) flag = filling.value? flag := by
  have hvisible : flag ∈ command.visible scope := List.mem_append_left _ hmem
  apply flagValue?_eq_value? hwell hexpressible hfits
    (fun entry hentry => mem_ownOccurrences hentry) hvisible hflag
  intro hchosen
  apply List.mem_map_of_mem
  exact List.mem_filter.mpr ⟨hchosen,
    spelled_of_mem (hwell.kept_of_visible hvisible) (mem_parametersIn_none.mp hmem).1 hflag⟩

/-- Every flag in the scope of a subcommand takes its value with the two extractions. -/
theorem flagValue?_append_innerOccurrences (hwell : command.WellFormed) {name : String}
    (hexpressible : command.Expressible (some name)) (hfits : filling.Fits command (some name))
    {subcommand : Argument} (hinner : command.inner (some name) = subcommand.subarguments)
    {flag : Argument} (hvisible : flag ∈ command.visible (some name))
    (hflag : flag.isFlag = true) :
    flagValue? (filling.ownOccurrences command ++ filling.innerOccurrences command subcommand)
      flag = filling.value? flag := by
  have hkept := hwell.kept_of_visible hvisible
  apply flagValue?_eq_value? hwell hexpressible hfits ?_ hvisible hflag
  · intro hchosen
    cases hspelled : spelled (flagTokens command.arguments) flag with
    | true =>
        apply List.mem_append_left
        exact List.mem_map_of_mem (List.mem_filter.mpr ⟨hchosen, hspelled⟩)
    | false =>
        have hother : flag ∈ filling.others command :=
          List.mem_filter.mpr ⟨hchosen, by simp [hspelled]⟩
        have hown := mem_inner_of_mem_others hwell hfits hother
        rw [hinner] at hown
        apply List.mem_append_right
        apply List.mem_map_of_mem
        exact List.mem_filter.mpr ⟨hother, spelled_of_mem hkept hown hflag⟩
  · intro entry hentry
    rcases List.mem_append.mp hentry with htop | hown
    · exact mem_ownOccurrences htop
    · exact mem_innerOccurrences hown

/-! ## The parts of a message -/

theorem not_isAmong_quotes_append (filling : Filling) (first second : List Argument)
    (flags : List String) :
    ∀ token ∈ filling.quotes first ++ filling.quotes second, token.isAmong flags = false := by
  intro token hmem
  rcases List.mem_append.mp hmem with hfirst | hsecond
  · exact not_isAmong_of_mem_quotes hfirst flags
  · exact not_isAmong_of_mem_quotes hsecond flags

/-- The leading parameters take their texts. -/
theorem leadingPart_eq (hwell : command.WellFormed) (hexpressible : command.Expressible scope)
    (hfits : filling.Fits command scope) {tokens left : List Token}
    (hown : ownExtraction command tokens =
      ⟨filling.quotes command.leading ++ left, filling.ownOccurrences command⟩) :
    leadingPart command tokens = (command.leading.map (filling.entryOf command none), left) := by
  rw [leadingPart, hown]
  apply handOut_quotes
  · intro parameter hmem
    exact hexpressible.textual parameter (command.leading_subset_visible scope hmem)
  · intro flag hmem
    exact flagValue?_ownOccurrences hwell hexpressible hfits (Command.mem_of_mem_leading hmem)

/-- The trailing parameters take their texts. -/
theorem handOut_trailing (hexpressible : command.Expressible scope)
    {occurrences : List (String × String)}
    (hflags : ∀ flag ∈ command.visible scope, flag.isFlag = true →
      flagValue? occurrences flag = filling.value? flag) :
    handOut command occurrences none command.trailing (filling.quotes command.trailing) =
      (command.trailing.map (filling.entryOf command none), []) := by
  have hvisible := command.trailing_subset_visible scope
  rw [← List.append_nil (filling.quotes command.trailing)]
  apply handOut_quotes
  · intro parameter hmem
    exact hexpressible.textual parameter (hvisible hmem)
  · intro flag hmem
    exact hflags flag (hvisible hmem)

/-! ## Outside of subcommands -/

theorem ownExtraction_row_none (hwell : command.WellFormed) (hfits : filling.Fits command none) :
    ownExtraction command (filling.row command none) =
      ⟨filling.quotes command.leading ++ filling.quotes command.trailing,
        filling.ownOccurrences command⟩ := by
  have hothers : filling.others command = [] := by
    apply List.eq_nil_iff_forall_not_mem.mpr
    intro flag hmem
    cases mem_inner_of_mem_others hwell hfits hmem
  rw [ownExtraction, row, extract_append_pairs (not_isAmong_quotes_append filling _ _ _),
    ← others, hothers]
  exact congrArg (Extraction.mk · _) (List.append_nil _)

/-- Quoted texts name no subcommand. -/
theorem activated?_quotes (command : Command α) (filling : Filling)
    (parameters : List Argument) : activated? command (filling.quotes parameters) = none := by
  cases hquotes : filling.quotes parameters with
  | nil => rfl
  | cons token rest =>
      have hmem : token ∈ filling.quotes parameters := by
        rw [hquotes]
        exact List.mem_cons_self
      obtain ⟨parameter, _, rfl⟩ := List.mem_map.mp hmem
      rfl

/-- What is said outside of subcommands resolves to the values of the filling. -/
theorem resolveTokens_row_none (hwell : command.WellFormed)
    (hexpressible : command.Expressible none) (hfits : filling.Fits command none) :
    resolveTokens command (filling.row command none) =
      Resolution.ofEntries (filling.entries command none) none := by
  have hown := ownExtraction_row_none hwell hfits
  have hleading := leadingPart_eq hwell hexpressible hfits hown
  have hflags : ∀ flag ∈ command.visible none, flag.isFlag = true →
      flagValue? (filling.ownOccurrences command) flag = filling.value? flag := by
    intro flag hmem
    rcases List.mem_append.mp hmem with htop | hinner
    · exact flagValue?_ownOccurrences hwell hexpressible hfits htop
    · cases hinner
  have hinactive : activated? command (leadingPart command (filling.row command none)).2 =
      none := by
    rw [hleading]
    exact activated?_quotes command filling command.trailing
  rw [resolveTokens_of_inactive hinactive, hleading, hown, handOut_trailing hexpressible hflags,
    ← List.map_append, Command.leading_append_trailing, entries]
  exact congrArg (Resolution.ofEntries · none) (List.append_nil _).symm

/-! ## In a subcommand -/

/-- The tokens that are left behind the name of a subcommand. -/
def remainder (filling : Filling) (command : Command α) (subcommand : Argument) : List Token :=
  filling.quotes subcommand.subarguments ++ filling.quotes command.trailing ++
    filling.pairs (filling.others command)

variable {name : String} {subcommand : Argument}

theorem ownExtraction_row_some (filling : Filling)
    (hexpressible : command.Expressible (some name))
    (hinner : command.inner (some name) = subcommand.subarguments) :
    ownExtraction command (filling.row command (some name)) =
      ⟨filling.quotes command.leading ++ ⟨name, false⟩ :: filling.remainder command subcommand,
        filling.ownOccurrences command⟩ := by
  have hrow : filling.row command (some name) =
      (filling.quotes command.leading ++ ⟨name, false⟩ ::
        (filling.quotes subcommand.subarguments ++ filling.quotes command.trailing)) ++
          filling.pairs filling.chosen := by
    rw [row, hinner, List.append_assoc (filling.quotes command.leading), List.cons_append]
  have hplain : ∀ token ∈ filling.quotes command.leading ++ ⟨name, false⟩ ::
      (filling.quotes subcommand.subarguments ++ filling.quotes command.trailing),
        token.isAmong (flagTokens command.arguments) = false := by
    intro token hmem
    rcases List.mem_append.mp hmem with hfirst | hrest
    · exact not_isAmong_of_mem_quotes hfirst _
    · rcases List.mem_cons.mp hrest with rfl | hlater
      · exact Token.isAmong_plain_eq_false.mpr (hexpressible.bare name rfl).2
      · exact not_isAmong_quotes_append filling _ _ _ token hlater
  rw [ownExtraction, hrow, extract_append_pairs hplain, List.append_assoc, List.cons_append]
  rfl

theorem innerExtraction_remainder (hwell : command.WellFormed)
    (hfits : filling.Fits command (some name))
    (hinner : command.inner (some name) = subcommand.subarguments) :
    innerExtraction command subcommand (filling.remainder command subcommand) =
      ⟨filling.quotes subcommand.subarguments ++ filling.quotes command.trailing,
        filling.innerOccurrences command subcommand⟩ := by
  have hnone : (filling.others command).filter
      (fun flag => !spelled (flagTokens subcommand.subarguments) flag) = [] := by
    apply List.filter_eq_nil_iff.mpr
    intro flag hother
    obtain ⟨hvisible, hflag⟩ := hfits.chosen flag (List.mem_filter.mp hother).1
    have hown := mem_inner_of_mem_others hwell hfits hother
    rw [hinner] at hown
    simp [spelled_of_mem (hwell.kept_of_visible hvisible) hown hflag]
  rw [innerExtraction, remainder,
    extract_append_pairs (not_isAmong_quotes_append filling _ _ _), hnone]
  exact congrArg (Extraction.mk · _) (List.append_nil _)

/-- The parameters of the subcommand take their texts. -/
theorem innerPart_row (hwell : command.WellFormed)
    (hexpressible : command.Expressible (some name)) (hfits : filling.Fits command (some name))
    (hname : subcommand.name = name)
    (hinner : command.inner (some name) = subcommand.subarguments) :
    innerPart command subcommand (filling.row command (some name))
        (filling.remainder command subcommand) =
      (subcommand.subarguments.map (filling.entryOf command (some name)),
        filling.quotes command.trailing) := by
  rw [innerPart, occurrencesIn, ownExtraction_row_some filling hexpressible hinner,
    innerExtraction_remainder hwell hfits hinner, hname]
  apply handOut_quotes
  · intro parameter hmem
    exact hexpressible.textual parameter (List.mem_append_right _ (hinner ▸ hmem))
  · intro flag hmem
    exact flagValue?_append_innerOccurrences hwell hexpressible hfits hinner
      (List.mem_append_right _ (hinner ▸ hmem))

/-- What is said in a subcommand resolves to the values of the filling. -/
theorem resolveTokens_row_some (hwell : command.WellFormed)
    (hexpressible : command.Expressible (some name)) (hfits : filling.Fits command (some name)) :
    (resolveTokens command (filling.row command (some name))).Alike
      (Resolution.ofEntries (filling.entries command (some name)) (some name)) := by
  obtain ⟨subcommand, hnamed⟩ := hexpressible.declared name rfl
  have hname := (Command.mem_of_subcommand? hnamed).2.2
  have hinner : command.inner (some name) = subcommand.subarguments :=
    hwell.parametersIn_subcommand hnamed
  have hown := ownExtraction_row_some filling hexpressible hinner
  have hleading := leadingPart_eq hwell hexpressible hfits hown
  have htrailing := handOut_trailing hexpressible fun flag =>
    flagValue?_append_innerOccurrences hwell hexpressible hfits hinner
  rw [resolveTokens_of_active (congrArg Prod.snd hleading) hnamed,
    innerPart_row hwell hexpressible hfits hname hinner, occurrencesIn, hown,
    innerExtraction_remainder hwell hfits hinner, htrailing, hleading, hname, entries, hinner,
    ← Command.leading_append_trailing, List.map_append]
  apply Resolution.alike_ofEntries
  simp only [List.append_assoc]
  exact List.perm_append_comm.append_left _

/-- The message in which a filling is said resolves to its values. -/
theorem resolve_message (hwell : command.WellFormed) (hexpressible : command.Expressible scope)
    (hfits : filling.Fits command scope) :
    (Message.resolve command (filling.message command scope)).Alike
      (Resolution.ofEntries (filling.entries command scope) scope) := by
  rw [Message.resolve, message, tokens_join (writable_row hwell hexpressible hfits)]
  cases scope with
  | none =>
      rw [resolveTokens_row_none hwell hexpressible hfits]
      exact Resolution.alike_ofEntries (List.Perm.refl _) none
  | some name => exact resolveTokens_row_some hwell hexpressible hfits

end Filling

end SlashCommand
