import SlashCommand.Proofs.Message.Unclaimed
import SlashCommand.Proofs.Resolution.Activation

/-!
# Positional tokens in order

The parameters of a message that are no flags stand in one row: the leading ones, those of
the active subcommand, the trailing ones.  The tokens that no flag claims stand in another,
without the name of the subcommand.  Each parameter gets the token at its own place, up to
the first variadic one, which gets all tokens from its place on.
-/

namespace SlashCommand

variable {α : Type}

namespace Message

/-! ## Values by place -/

/-- The value of the parameter at a place of a row whose first variadic parameter stands at
`first`. -/
def share (tokens : List Token) (first place : Nat) (parameter : Argument) : Option Value :=
  if place < first then
    tokens[place]?.map fun token => valueOf parameter.datatype token.text
  else if place = first then
    some (.list ((tokens.drop place).map Token.text))
  else if parameter.variadic then
    some (.list [])
  else
    none

/-- The values of a row of parameters that are no flags, each by its place. -/
def shares (parameters : List Argument) (tokens : List Token) : List (Option Value) :=
  parameters.mapIdx (share tokens (parameters.findIdx Argument.variadic))

/-- The tokens that a row of parameters leaves, each taking its own in turn. -/
def leftBehind (parameters : List Argument) (tokens : List Token) : List Token :=
  parameters.foldl (fun left parameter => (take parameter left).2) tokens

/-- Behind a parameter with a token of its own the places start anew. -/
theorem share_succ (tokens : List Token) (first place : Nat) :
    share tokens (first + 1) (place + 1) = share (tokens.drop 1) first place := by
  funext parameter
  simp [share]

/-- Behind the first variadic parameter nothing is left: the others get no token. -/
theorem share_zero_succ (tokens : List Token) (place : Nat) :
    share tokens 0 (place + 1) =
      fun parameter => if parameter.variadic then some (.list []) else none :=
  rfl

theorem mapIdx_const {β γ : Type} (change : β → γ) (items : List β) :
    items.mapIdx (fun _ => change) = items.map change := by
  induction items with
  | nil => rfl
  | cons item rest ih => rw [List.mapIdx_cons, List.map_cons, ih]

/-- Without tokens a variadic parameter still gets a list, an empty one. -/
theorem shares_no_tokens (parameters : List Argument) :
    shares parameters [] =
      parameters.map fun parameter => if parameter.variadic then some (.list []) else none := by
  induction parameters with
  | nil => rfl
  | cons parameter rest ih =>
      rw [shares, List.mapIdx_cons, List.findIdx_cons, List.map_cons]
      cases hvariadic : parameter.variadic with
      | true =>
          simp only [cond_true, share_zero_succ, mapIdx_const]
          rfl
      | false =>
          simp only [cond_false, share_succ, List.drop_nil]
          exact congrArg (none :: ·) ih

/-- The first parameter takes its value, and the others share what it leaves. -/
theorem shares_cons (parameter : Argument) (rest : List Argument) (tokens : List Token) :
    shares (parameter :: rest) tokens =
      (take parameter tokens).1 :: shares rest (take parameter tokens).2 := by
  rw [shares, List.mapIdx_cons, List.findIdx_cons]
  cases hvariadic : parameter.variadic with
  | true =>
      simp only [cond_true, share_zero_succ, mapIdx_const]
      rw [take_left_of_variadic hvariadic, shares_no_tokens]
      simp [share, take, hvariadic]
  | false =>
      simp only [cond_false, share_succ]
      rw [take_left_of_single hvariadic]
      refine congrArg (· :: shares rest (tokens.drop 1)) ?_
      cases tokens with
      | nil => simp [share, take, hvariadic]
      | cons token left => simp [share, take, hvariadic]

/-- A row of parameters behind another shares what that one leaves. -/
theorem shares_append (first second : List Argument) (tokens : List Token) :
    shares (first ++ second) tokens =
      shares first tokens ++ shares second (leftBehind first tokens) := by
  induction first generalizing tokens with
  | nil => rfl
  | cons parameter rest ih =>
      rw [List.cons_append, shares_cons, shares_cons, ih]
      rfl

/-- Parameters that take a token each share the front tokens, whatever follows these, and
leave what follows. -/
theorem shares_front {parameters : List Argument}
    (hsingle : ∀ parameter ∈ parameters, parameter.variadic = false) {tokens : List Token}
    (henough : parameters.length ≤ tokens.length) (behind : List Token) :
    shares parameters (tokens.take parameters.length ++ behind) = shares parameters tokens ∧
      leftBehind parameters (tokens.take parameters.length ++ behind) = behind := by
  induction parameters generalizing tokens with
  | nil => exact ⟨rfl, rfl⟩
  | cons parameter rest ih =>
      cases tokens with
      | nil => simp at henough
      | cons token left =>
          have hfirst := hsingle parameter List.mem_cons_self
          have hrest := fun other hother => hsingle other (List.mem_cons_of_mem parameter hother)
          have hlength : rest.length ≤ left.length := by simpa using henough
          obtain ⟨hshares, hleft⟩ := ih hrest hlength
          rw [List.length_cons, List.take_succ_cons, List.cons_append]
          constructor
          · rw [shares_cons, shares_cons, take_left_of_single hfirst, take_left_of_single hfirst]
            simp only [List.drop_succ_cons, List.drop_zero, hshares]
            simp [take, hfirst]
          · rw [leftBehind, List.foldl_cons, take_left_of_single hfirst]
            exact hleft

/-! ## Looked-up values -/

/-- A parameter in its scope, with the value that was looked up for it. -/
structure Lookup where
  scope : Option String
  parameter : Argument
  given : Option Value

namespace Lookup

/-- The entry of a looked-up value. -/
def entry (command : Command α) (lookup : Lookup) : Entry :=
  .ofArgument command lookup.scope lookup.parameter lookup.given

/-- The parameter of a lookup with its scope. -/
def place (lookup : Lookup) : Option String × Argument :=
  (lookup.scope, lookup.parameter)

end Lookup

/-- The parameters at some places that are no flags. -/
def positionalIn (places : List (Option String × Argument)) : List Argument :=
  (places.map Prod.snd).filter fun parameter => !parameter.isFlag

/-- Entries are made of the parameters at some places, in order, and the values looked up
for those that are no flags are their shares in a row of tokens. -/
def HandsOut (command : Command α) (places : List (Option String × Argument))
    (tokens : List Token) (entries : List Entry) : Prop :=
  ∃ found : List Lookup, entries = found.map (Lookup.entry command) ∧
    found.map Lookup.place = places ∧
    ((found.filter fun lookup => !lookup.parameter.isFlag).map Lookup.given) =
      shares (positionalIn places) tokens

variable {command : Command α} {first second : List (Option String × Argument)}
  {row : List Token} {entries others : List Entry}

theorem positionalIn_append (first second : List (Option String × Argument)) :
    positionalIn (first ++ second) = positionalIn first ++ positionalIn second := by
  simp [positionalIn]

theorem positionalIn_scoped (scope : Option String) (arguments : List Argument) :
    positionalIn (arguments.map fun argument => (scope, argument)) =
      arguments.filter fun argument => !argument.isFlag := by
  simp [positionalIn]

theorem handsOut_nil (command : Command α) (row : List Token) :
    HandsOut command [] row [] :=
  ⟨[], rfl, rfl, rfl⟩

/-- The parameters behind others share what these leave. -/
theorem HandsOut.append (h : HandsOut command first row entries)
    (hbehind : HandsOut command second (leftBehind (positionalIn first) row) others) :
    HandsOut command (first ++ second) row (entries ++ others) := by
  obtain ⟨found, rfl, rfl, hgiven⟩ := h
  obtain ⟨more, rfl, rfl, hmore⟩ := hbehind
  refine ⟨found ++ more, by simp, by simp, ?_⟩
  rw [List.filter_append, List.map_append, hgiven, hmore, positionalIn_append, shares_append]

/-- A flag takes part without a share. -/
theorem HandsOut.cons_flag {scope : Option String} {flag : Argument}
    (h : HandsOut command second row others) (hflag : flag.isFlag = true)
    (given : Option Value) :
    HandsOut command ((scope, flag) :: second) row
      (Entry.ofArgument command scope flag given :: others) := by
  obtain ⟨found, rfl, rfl, hgiven⟩ := h
  refine ⟨⟨scope, flag, given⟩ :: found, rfl, rfl, ?_⟩
  simpa [positionalIn, hflag] using hgiven

/-- A parameter that is no flag takes its value in front of the others. -/
theorem HandsOut.cons_positional {scope : Option String} {parameter : Argument}
    (h : HandsOut command second (take parameter row).2 others)
    (hflag : parameter.isFlag = false) :
    HandsOut command ((scope, parameter) :: second) row
      (Entry.ofArgument command scope parameter (take parameter row).1 :: others) := by
  obtain ⟨found, rfl, rfl, hgiven⟩ := h
  refine ⟨⟨scope, parameter, (take parameter row).1⟩ :: found, rfl, rfl, ?_⟩
  have hplaces : positionalIn ((scope, parameter) :: found.map Lookup.place) =
      parameter :: positionalIn (found.map Lookup.place) := by
    simp [positionalIn, hflag]
  rw [hplaces, shares_cons, ← hgiven]
  simp [hflag]

/-- Handing out gives every parameter its share, and leaves what they leave. -/
theorem handsOut_handOut (command : Command α) (occurrences : List (String × String))
    (scope : Option String) (arguments : List Argument) (left : List Token) :
    HandsOut command (arguments.map fun argument => (scope, argument)) left
        (handOut command occurrences scope arguments left).1 ∧
      (handOut command occurrences scope arguments left).2 =
        leftBehind (arguments.filter fun argument => !argument.isFlag) left := by
  induction arguments generalizing left with
  | nil => exact ⟨handsOut_nil command left, rfl⟩
  | cons argument rest ih =>
      cases hflag : argument.isFlag with
      | true =>
          obtain ⟨hentries, hleft⟩ := ih left
          rw [handOut_cons_of_isFlag command occurrences scope hflag]
          refine ⟨hentries.cons_flag hflag _, ?_⟩
          simpa [hflag] using hleft
      | false =>
          obtain ⟨hentries, hleft⟩ := ih (take argument left).2
          rw [handOut_cons_of_not_isFlag command occurrences scope hflag]
          refine ⟨hentries.cons_positional hflag, ?_⟩
          rw [List.filter_cons_of_pos (by simp [hflag])]
          exact hleft

/-- Parameters that take a token each get the same shares whatever follows their tokens. -/
theorem HandsOut.front (h : HandsOut command first row entries)
    (hsingle : ∀ parameter ∈ positionalIn first, parameter.variadic = false)
    (henough : (positionalIn first).length ≤ row.length) (behind : List Token) :
    HandsOut command first (row.take (positionalIn first).length ++ behind) entries := by
  obtain ⟨found, hentries, hplaces, hgiven⟩ := h
  refine ⟨found, hentries, hplaces, ?_⟩
  rw [hgiven, (shares_front hsingle henough behind).1]

/-! ## The row of tokens -/

/-- The parameters in scope, each with its scope: the leading ones, those of the active
subcommand, the trailing ones. -/
def placesIn (command : Command α) (active : Option Argument) :
    List (Option String × Argument) :=
  command.leading.map (fun argument => (none, argument)) ++
    active.toList.flatMap (fun subcommand =>
      subcommand.subarguments.map fun argument => (some subcommand.name, argument)) ++
    command.trailing.map fun argument => (none, argument)

/-- The tokens that are shared, given those that no flag of the command itself claims: the
name of an active subcommand is left out, and behind it what the flags of the subcommand
claim. -/
def sharedTokens (command : Command α) (spare : List Token) : Option Argument → List Token
  | none => spare
  | some subcommand =>
      spare.take (demand command.leading) ++
        unclaimed (flagTokens subcommand.subarguments) (flagTokens command.flags)
          (spare.drop (demand command.leading + 1))

/-- The token right behind those of the leading parameters names a subcommand: none of the
leading parameters is variadic, and the token is not quoted. -/
structure Names (command : Command α) (spare : List Token) (subcommand : Argument) : Prop where
  single : Single command.leading
  named : ∃ word, spare[demand command.leading]? = some word ∧ word.quoted = false ∧
    command.subcommand? word.text = some subcommand

theorem activated?_eq_some_iff {left : List Token} {subcommand : Argument} :
    activated? command left = some subcommand ↔
      ∃ word, left.head? = some word ∧ word.quoted = false ∧
        command.subcommand? word.text = some subcommand := by
  cases left with
  | nil => simp [activated?]
  | cons word rest => simp [activated?]

/-- What is left behind the leading parameters activates the subcommand it names. -/
theorem activated?_leadingPart_iff {subcommand : Argument} :
    activated? command (leadingPart command row).2 = some subcommand ↔
      Names command (ownExtraction command row).positional subcommand := by
  by_cases hsingle : Single command.leading
  · rw [activated?_eq_some_iff, leadingPart, handOut_left_of_single command _ none hsingle,
      List.head?_drop]
    exact ⟨fun h => ⟨hsingle, h⟩, fun h => h.named⟩
  · have hleft : (leadingPart command row).2 = [] := by
      by_contra hne
      exact hsingle (single_of_handOut_left command _ none hne)
    rw [hleft]
    constructor
    · intro h
      cases h
    · intro h
      exact absurd h.single hsingle

/-! ## Resolutions -/

theorem length_positionalIn_leading (command : Command α) :
    (positionalIn (command.leading.map fun argument => ((none : Option String), argument))).length =
      demand command.leading := by
  rw [positionalIn_scoped, demand, List.countP_eq_length_filter]

/-- Without an active subcommand the leading and the trailing parameters share all tokens
that no flag claims. -/
theorem handsOut_of_inactive (h : activated? command (leadingPart command row).2 = none) :
    ∃ entries, resolveTokens command row = Resolution.ofEntries entries none ∧
      HandsOut command (placesIn command none)
        (sharedTokens command (ownExtraction command row).positional none) entries := by
  obtain ⟨hleading, hleft⟩ := handsOut_handOut command (ownExtraction command row).occurrences
    none command.leading (ownExtraction command row).positional
  refine ⟨_, resolveTokens_of_inactive h, ?_⟩
  have hplaces : placesIn command none =
      command.leading.map (fun argument => (none, argument)) ++
        command.trailing.map fun argument => (none, argument) := by
    simp [placesIn]
  rw [hplaces]
  apply hleading.append
  rw [positionalIn_scoped, ← hleft]
  exact (handsOut_handOut command _ none command.trailing _).1

/-- With an active subcommand its parameters stand between the two, and its name is left
out. -/
theorem handsOut_of_active {left : List Token} {word : Token} {subcommand : Argument}
    (hleft : (leadingPart command row).2 = word :: left)
    (h : activated? command (word :: left) = some subcommand) :
    ∃ entries, resolveTokens command row =
        Resolution.ofEntries entries (some subcommand.name) ∧
      HandsOut command (placesIn command (some subcommand))
        (sharedTokens command (ownExtraction command row).positional (some subcommand))
        entries := by
  obtain ⟨hsingle, -⟩ := activated?_leadingPart_iff.mp (hleft ▸ h)
  have hdrop := hleft
  rw [leadingPart, handOut_left_of_single command _ none hsingle] at hdrop
  have henough : demand command.leading < (ownExtraction command row).positional.length := by
    have hlength := congrArg List.length hdrop
    rw [List.length_drop, List.length_cons] at hlength
    omega
  have hbehind : (ownExtraction command row).positional.drop (demand command.leading + 1) =
      left := by
    rw [← List.drop_drop, hdrop]
    rfl
  have hinner : (innerExtraction command subcommand left).positional =
      unclaimed (flagTokens subcommand.subarguments) (flagTokens command.flags) left :=
    positional_eq_unclaimed (flagTokens_subarguments_subset
      (Command.mem_of_subcommand? (eq_plain_of_activated? h).2).1) left
  refine ⟨_, resolveTokens_of_active hleft h, ?_⟩
  have hplaces : placesIn command (some subcommand) =
      command.leading.map (fun argument => (none, argument)) ++
        (subcommand.subarguments.map (fun argument => (some subcommand.name, argument)) ++
          command.trailing.map fun argument => (none, argument)) := by
    simp [placesIn]
  rw [hplaces, sharedTokens, hbehind, ← hinner, List.append_assoc]
  have hown := handsOut_handOut command (ownExtraction command row).occurrences none
    command.leading (ownExtraction command row).positional
  have hunder := handsOut_handOut command (occurrencesIn command subcommand row left)
    (some subcommand.name) subcommand.subarguments
    (innerExtraction command subcommand left).positional
  have hsingly : ∀ parameter ∈ positionalIn (command.leading.map fun argument =>
      ((none : Option String), argument)), parameter.variadic = false := by
    rw [positionalIn_scoped]
    intro parameter hmem
    obtain ⟨hparameter, hflag⟩ := List.mem_filter.mp hmem
    exact hsingle parameter hparameter (by simpa using hflag)
  rw [← length_positionalIn_leading] at henough ⊢
  apply (hown.1.front hsingly henough.le _).append
  rw [(shares_front hsingly henough.le _).2]
  apply hunder.1.append
  rw [positionalIn_scoped, ← hunder.2]
  exact (handsOut_handOut command _ none command.trailing _).1

/-- The entries of a message are made of the places in scope, whose positional parameters share
the tokens that no flag claims. -/
theorem exists_handsOut (command : Command α) (raw : String) :
    let spare := unclaimed (flagTokens command.arguments) (flagTokens command.flags) (tokens raw)
    ∃ active entries,
      (∀ subcommand, active = some subcommand ↔ Names command spare subcommand) ∧
      resolve command raw = Resolution.ofEntries entries (active.map Argument.name) ∧
      HandsOut command (placesIn command active) (sharedTokens command spare active) entries := by
  intro spare
  have hspare : (ownExtraction command (tokens raw)).positional = spare :=
    positional_eq_unclaimed (flagTokens_own_subset command) (tokens raw)
  refine ⟨activated? command (leadingPart command (tokens raw)).2, ?_⟩
  rw [← hspare]
  cases hactive : activated? command (leadingPart command (tokens raw)).2 with
  | none =>
      obtain ⟨entries, hresolve, hentries⟩ := handsOut_of_inactive hactive
      refine ⟨entries, fun subcommand => ?_, hresolve, hentries⟩
      rw [← hactive]
      exact activated?_leadingPart_iff
  | some subcommand =>
      cases hleft : (leadingPart command (tokens raw)).2 with
      | nil =>
          rw [hleft] at hactive
          cases hactive
      | cons word left =>
          obtain ⟨entries, hresolve, hentries⟩ := handsOut_of_active hleft (hleft ▸ hactive)
          refine ⟨entries, fun other => ?_, hresolve, hentries⟩
          rw [← hactive]
          exact activated?_leadingPart_iff

end Message

end SlashCommand
