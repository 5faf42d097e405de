import Mathlib.Data.List.Nodup
import SlashCommand.Proofs.Message.Written
import SlashCommand.Proofs.Resolution.Activation

/-!
# Filling in a command

A filling gives a text for every parameter in a scope and chooses some of the flags.  It
can be said in a message, with every text in quotation marks, or handed over as named
options.
-/

namespace SlashCommand

open Message

variable {α : Type}

/-! ## What can be filled in -/

/-- The datatypes whose values a message holds as they are. -/
def DataType.textual : List DataType :=
  [.string, .user, .channel, .role, .mention]

/-- The parameters of the subcommand a scope names, none outside of subcommands. -/
def Command.inner (command : Command α) : Option String → List Argument
  | none => []
  | some name => parametersIn command.arguments (some name)

/-- The parameters in a scope and those of the command itself. -/
def Command.visible (command : Command α) (scope : Option String) : List Argument :=
  parametersIn command.arguments none ++ command.inner scope

theorem Command.inner_subset (command : Command α) (scope : Option String) :
    command.inner scope ⊆ parametersIn command.arguments scope := by
  intro parameter hmem
  cases scope with
  | none => cases hmem
  | some name => exact hmem

theorem Command.leading_subset_visible (command : Command α) (scope : Option String) :
    command.leading ⊆ command.visible scope := by
  intro parameter hmem
  exact List.mem_append_left _ (Command.mem_of_mem_leading hmem)

theorem Command.trailing_subset_visible (command : Command α) (scope : Option String) :
    command.trailing ⊆ command.visible scope := by
  intro parameter hmem
  exact List.mem_append_left _ (Command.mem_of_mem_trailing hmem)

/-- Whatever is filled in for the parameters in a scope can be said in a message. -/
structure Command.Expressible (command : Command α) (scope : Option String) : Prop where
  declared : ∀ name ∈ scope, ∃ subcommand, command.subcommand? name = some subcommand
  bare : ∀ name ∈ scope, openQuote ∉ name.toList ∧ name ∉ flagTokens command.arguments
  names : ((command.visible scope).map Argument.name).Nodup
  uncolonned : ∀ parameter ∈ command.visible scope, ':' ∉ parameter.name.toList
  tokens : (flagTokens (command.visible scope)).Nodup
  tokensBare : ∀ token ∈ flagTokens (command.visible scope), openQuote ∉ token.toList
  textual : ∀ parameter ∈ command.visible scope, parameter.isFlag = false →
    parameter.variadic = false ∧ parameter.datatype ∈ DataType.textual

theorem Message.valueOf_of_textual {datatype : DataType} (h : datatype ∈ DataType.textual)
    (text : String) : valueOf datatype text = .text text := by
  cases datatype <;> first | rfl | simp [DataType.textual] at h

/-! ## Fillings -/

/-- What is filled in for the parameters in a scope. -/
structure Filling where
  /-- The text for the parameter of a name. -/
  text : String → String
  /-- The flags that are given, in the order in which a message has them. -/
  chosen : List Argument

namespace Filling

/-- Flags are given when they are chosen, and every other parameter is. -/
def gives (filling : Filling) (parameter : Argument) : Bool :=
  !parameter.isFlag || filling.chosen.any fun flag => flag.name == parameter.name

/-- The value of a parameter that is given. -/
def value? (filling : Filling) (parameter : Argument) : Option Value :=
  if filling.gives parameter then
    some (.text (filling.text parameter.name))
  else
    none

/-- The text of a parameter as a token of a message. -/
def quote (filling : Filling) (parameter : Argument) : Token :=
  ⟨filling.text parameter.name, true⟩

/-- The quoted texts of the parameters that are no flags. -/
def quotes (filling : Filling) (parameters : List Argument) : List Token :=
  (parameters.filter fun parameter => !parameter.isFlag).map filling.quote

/-- A flag and its text as a message has them. -/
def pair (filling : Filling) (flag : Argument) : String × String :=
  (flag.token.getD "", filling.text flag.name)

/-- A flag is spelled as one of some tokens. -/
def spelled (tokens : List String) (flag : Argument) : Bool :=
  tokens.contains (flag.token.getD "")

/-- The tokens of flags, each with its text in quotation marks behind it. -/
def pairs (filling : Filling) (flags : List Argument) : List Token :=
  flags.flatMap fun flag => [⟨flag.token.getD "", false⟩, filling.quote flag]

/-- The tokens of the message in which a filling is said, in the order of a usage line with
the flags at the end. -/
def row (filling : Filling) (command : Command α) : Option String → List Token
  | none =>
      filling.quotes command.leading ++ filling.quotes command.trailing ++
        filling.pairs filling.chosen
  | some name =>
      filling.quotes command.leading ++ ⟨name, false⟩ ::
        (filling.quotes (command.inner (some name)) ++ filling.quotes command.trailing ++
          filling.pairs filling.chosen)

/-- The message in which a filling is said. -/
def message (filling : Filling) (command : Command α) (scope : Option String) : String :=
  Text.join " " ((filling.row command scope).map Token.written)

/-- The named options in which a filling is handed over. -/
def options (filling : Filling) (command : Command α) (scope : Option String) :
    Dict String Value :=
  Dict.ofList <| (command.visible scope).filterMap fun parameter =>
    (filling.value? parameter).map fun value => (parameter.name, value)

/-- The entry of a parameter for which a filling has a value or none. -/
def entryOf (filling : Filling) (command : Command α) (scope : Option String)
    (parameter : Argument) : Entry :=
  .ofArgument command scope parameter (filling.value? parameter)

/-- The entries of the parameters in a scope and of those of the command itself. -/
def entries (filling : Filling) (command : Command α) (scope : Option String) : List Entry :=
  (parametersIn command.arguments none).map (filling.entryOf command none) ++
    (command.inner scope).map (filling.entryOf command scope)

/-- A filling chooses flags in a scope, and no text closes its own quotation. -/
structure Fits (filling : Filling) (command : Command α) (scope : Option String) : Prop where
  chosen : ∀ flag ∈ filling.chosen, flag ∈ command.visible scope ∧ flag.isFlag = true
  texts : ∀ parameter ∈ command.visible scope, filling.gives parameter = true →
    closeQuote ∉ (filling.text parameter.name).toList

/-! ## Given parameters -/

variable {filling : Filling} {command : Command α} {scope : Option String}

theorem value?_of_not_isFlag {parameter : Argument} (hflag : parameter.isFlag = false) :
    filling.value? parameter = some (.text (filling.text parameter.name)) := by
  simp [value?, gives, hflag]

end Filling

/-- The parameters that can be filled in are kept by builders. -/
theorem Command.WellFormed.kept_of_visible {command : Command α} (h : command.WellFormed)
    {scope : Option String} {parameter : Argument} (hmem : parameter ∈ command.visible scope) :
    parameter.Kept := by
  rcases List.mem_append.mp hmem with hown | hinner
  · exact h.consistent.kept_of_mem hown
  · exact h.consistent.kept_of_mem (command.inner_subset scope hinner)

namespace Command.Expressible

variable {command : Command α} {scope : Option String}

theorem eq_of_name_eq (h : command.Expressible scope) {first second : Argument}
    (hfirst : first ∈ command.visible scope) (hsecond : second ∈ command.visible scope)
    (hname : first.name = second.name) : first = second :=
  List.inj_on_of_nodup_map h.names hfirst hsecond hname

/-- Two flags with one token are the same. -/
theorem eq_of_token_eq (h : command.Expressible scope) {first second : Argument}
    {token : String} (hfirst : first ∈ command.visible scope) (hfirstFlag : first.isFlag = true)
    (hfirstToken : first.token = some token) (hsecond : second ∈ command.visible scope)
    (hsecondFlag : second.isFlag = true) (hsecondToken : second.token = some token) :
    first = second := by
  have hpairwise := h.tokens
  rw [flagTokens, List.Nodup, List.pairwise_filterMap] at hpairwise
  have hsymm : Std.Symm fun one other : Argument =>
      ∀ token, one.token = some token → ∀ token', other.token = some token' → token ≠ token' :=
    ⟨fun one other hdiffer token htoken token' htoken' heq =>
      hdiffer token' htoken' token htoken heq.symm⟩
  by_contra hne
  exact hpairwise.forall (List.mem_filter.mpr ⟨hfirst, hfirstFlag⟩)
    (List.mem_filter.mpr ⟨hsecond, hsecondFlag⟩) hne token hfirstToken token hsecondToken rfl

end Command.Expressible

namespace Filling

variable {filling : Filling} {command : Command α} {scope : Option String}

theorem gives_iff (hexpressible : command.Expressible scope)
    (hfits : filling.Fits command scope) {flag : Argument} (hmem : flag ∈ command.visible scope)
    (hflag : flag.isFlag = true) : filling.gives flag = true ↔ flag ∈ filling.chosen := by
  simp only [gives, hflag, Bool.not_true, Bool.false_or, List.any_eq_true, beq_iff_eq]
  constructor
  · rintro ⟨other, hother, hname⟩
    rw [← hexpressible.eq_of_name_eq (hfits.chosen other hother).1 hmem hname]
    exact hother
  · intro hchosen
    exact ⟨flag, hchosen, rfl⟩

/-- A flag has its value when the occurrences are those of chosen flags and its own is
among them if it is chosen. -/
theorem flagValue?_eq_value? (hwell : command.WellFormed)
    (hexpressible : command.Expressible scope) (hfits : filling.Fits command scope)
    {occurrences : List (String × String)}
    (hsound : ∀ entry ∈ occurrences, ∃ flag ∈ filling.chosen, filling.pair flag = entry)
    {flag : Argument} (hmem : flag ∈ command.visible scope) (hflag : flag.isFlag = true)
    (hcomplete : flag ∈ filling.chosen → filling.pair flag ∈ occurrences) :
    flagValue? occurrences flag = filling.value? flag := by
  obtain ⟨token, htoken⟩ := (hwell.kept_of_visible hmem).form.isFlag_iff.mp hflag
  have hsole : ∀ value, (token, value) ∈ occurrences →
      flag ∈ filling.chosen ∧ value = filling.text flag.name := by
    intro value hoccurs
    obtain ⟨other, hother, hpair⟩ := hsound _ hoccurs
    obtain ⟨hvisible, hkind⟩ := hfits.chosen other hother
    obtain ⟨spelled, hspelled⟩ := (hwell.kept_of_visible hvisible).form.isFlag_iff.mp hkind
    obtain ⟨htokens, hvalue⟩ := Prod.mk.inj hpair
    rw [hspelled, Option.getD_some] at htokens
    cases hexpressible.eq_of_token_eq hvisible hkind (htokens ▸ hspelled) hmem hflag htoken
    exact ⟨hother, hvalue.symm⟩
  rw [flagValue?, htoken, Option.bind_some, value?]
  by_cases hchosen : flag ∈ filling.chosen
  · rw [if_pos ((gives_iff hexpressible hfits hmem hflag).mpr hchosen)]
    have hown := hcomplete hchosen
    rw [pair, htoken, Option.getD_some] at hown
    rw [valueOf?_eq_some hown fun value hoccurs => (hsole value hoccurs).2]
    rfl
  · rw [if_neg fun hgives => hchosen ((gives_iff hexpressible hfits hmem hflag).mp hgives),
      valueOf?_eq_none fun value hoccurs => hchosen (hsole value hoccurs).1]
    rfl

/-! ## Rows of tokens -/

theorem not_isAmong_of_mem_quotes {parameters : List Argument} {token : Token}
    (h : token ∈ filling.quotes parameters) (flags : List String) :
    token.isAmong flags = false := by
  obtain ⟨parameter, _, rfl⟩ := List.mem_map.mp h
  exact Token.isAmong_quoted _ flags

/-- A flag is spelled as one of the flags it is among. -/
theorem spelled_of_mem {arguments : List Argument} {flag : Argument} (hkept : flag.Kept)
    (hmem : flag ∈ arguments) (hflag : flag.isFlag = true) :
    spelled (flagTokens arguments) flag = true := by
  obtain ⟨token, htoken⟩ := hkept.form.isFlag_iff.mp hflag
  rw [spelled, htoken, Option.getD_some]
  exact List.contains_iff_mem.mpr (mem_flagTokens.mpr ⟨flag, hmem, hflag, htoken⟩)

/-- Extracting flags takes out the pairs of these flags. -/
theorem extract_pairs (filling : Filling) (flags known : List String) (given : List Argument) :
    extract flags known (filling.pairs given) =
      ⟨filling.pairs (given.filter fun flag => !spelled flags flag),
        (given.filter (spelled flags)).map filling.pair⟩ := by
  induction given with
  | nil => rfl
  | cons flag rest ih =>
      have hquote : ∀ others, (filling.quote flag).isAmong others = false :=
        Token.isAmong_quoted _
      have hpairs : filling.pairs (flag :: rest) =
          ⟨flag.token.getD "", false⟩ :: filling.quote flag :: filling.pairs rest := rfl
      cases hspelled : spelled flags flag with
      | true =>
          have hmem : flag.token.getD "" ∈ flags := List.contains_iff_mem.mp hspelled
          rw [hpairs, extract_cons_of_isAmong (Token.isAmong_plain.mpr hmem),
            untaken_cons_of_not_isAmong (hquote known),
            adjacent_cons_of_not_isAmong (hquote known), ih,
            List.filter_cons_of_neg (by simp [hspelled]), List.filter_cons_of_pos hspelled]
          rfl
      | false =>
          have hmem : flag.token.getD "" ∉ flags := by
            intro hmem
            rw [spelled, List.contains_iff_mem.mpr hmem] at hspelled
            cases hspelled
          rw [hpairs, extract_cons_of_not_isAmong (Token.isAmong_plain_eq_false.mpr hmem),
            extract_cons_of_not_isAmong (hquote flags), ih,
            List.filter_cons_of_pos (by simp [hspelled]),
            List.filter_cons_of_neg (by simp [hspelled])]
          rfl

/-- Extracting flags from quoted texts with pairs behind them takes out the pairs of these
flags. -/
theorem extract_append_pairs {flags known : List String} {before : List Token}
    (h : ∀ token ∈ before, token.isAmong flags = false) (given : List Argument) :
    extract flags known (before ++ filling.pairs given) =
      ⟨before ++ filling.pairs (given.filter fun flag => !spelled flags flag),
        (given.filter (spelled flags)).map filling.pair⟩ := by
  rw [extract_append_of_not_isAmong h, extract_pairs]

theorem mem_pairs {given : List Argument} {token : Token} (h : token ∈ filling.pairs given) :
    ∃ flag ∈ given, token = ⟨flag.token.getD "", false⟩ ∨ token = filling.quote flag := by
  obtain ⟨flag, hflag, htoken⟩ := List.mem_flatMap.mp h
  refine ⟨flag, hflag, ?_⟩
  rcases List.mem_cons.mp htoken with hplain | hquote
  · exact Or.inl hplain
  · exact Or.inr (List.mem_singleton.mp hquote)

end Filling

end SlashCommand
