import SlashCommand.Proofs.Resolution.HandOut

/-!
# Activating a subcommand

A message activates the subcommand whose name stands, unquoted, right behind the tokens
of the leading parameters.  The flags of the command itself and their values may stand
anywhere between these.
-/

namespace SlashCommand

variable {α : Type}

/-! ## Leading and trailing parameters -/

namespace Command

variable {command : Command α} {parameter : Argument}

theorem mem_of_mem_leading (h : parameter ∈ command.leading) :
    parameter ∈ parametersIn command.arguments none := by
  rw [mem_parametersIn_none]
  constructor
  · exact (List.takeWhile_sublist _).subset h
  · simpa using List.mem_takeWhile_imp h

theorem mem_of_mem_trailing (h : parameter ∈ command.trailing) :
    parameter ∈ parametersIn command.arguments none := by
  obtain ⟨hmem, hcommand⟩ := List.mem_filter.mp h
  rw [mem_parametersIn_none]
  constructor
  · exact (List.dropWhile_sublist _).subset hmem
  · simpa using hcommand

/-- Parameters stand in front of the first subcommand or behind it. -/
theorem takeWhile_append_parametersIn (arguments : List Argument) :
    arguments.takeWhile (fun argument => !argument.isCommand) ++
        parametersIn (arguments.dropWhile fun argument => !argument.isCommand) none =
      parametersIn arguments none := by
  have hfront : (arguments.takeWhile fun argument => !argument.isCommand).filter
      (fun argument => !argument.isCommand) =
        arguments.takeWhile fun argument => !argument.isCommand := by
    rw [List.filter_eq_self]
    intro argument hmem
    have hparameter := List.mem_takeWhile_imp hmem
    exact hparameter
  rw [← hfront, parametersIn, ← List.filter_append, List.takeWhile_append_dropWhile]
  rfl

/-- The parameters of the command itself are the leading and the trailing ones. -/
theorem leading_append_trailing (command : Command α) :
    command.leading ++ command.trailing = parametersIn command.arguments none :=
  takeWhile_append_parametersIn command.arguments

theorem mem_of_subcommand? {name : String} {subcommand : Argument}
    (h : command.subcommand? name = some subcommand) :
    subcommand ∈ command.arguments ∧ subcommand.isCommand = true ∧ subcommand.name = name := by
  have hmem := List.mem_filter.mp (List.mem_of_find?_eq_some h)
  have hname := List.find?_some h
  exact ⟨hmem.1, hmem.2, by simpa using hname⟩

/-- A subcommand that is declared is found by its name. -/
theorem isSome_subcommand? {subcommand : Argument} (hmem : subcommand ∈ command.arguments)
    (hcommand : subcommand.isCommand = true) :
    (command.subcommand? subcommand.name).isSome = true := by
  rw [subcommand?, List.find?_isSome]
  exact ⟨subcommand, List.mem_filter.mpr ⟨hmem, hcommand⟩, beq_self_eq_true _⟩

/-- The parameters of a subcommand are those it owns. -/
theorem WellFormed.parametersIn_subcommand (h : command.WellFormed) {name : String}
    {subcommand : Argument} (hnamed : command.subcommand? name = some subcommand) :
    parametersIn command.arguments (some name) = subcommand.subarguments := by
  obtain ⟨hmem, hcommand, hname⟩ := mem_of_subcommand? hnamed
  rw [parametersIn, filter_isSubcommand h.consistent.distinct hmem
    (isSubcommand_iff.mpr ⟨hcommand, hname⟩), List.flatMap_singleton]

end Command

namespace Message

/-! ## Flag tokens -/

theorem mem_flagTokens {arguments : List Argument} {token : String} :
    token ∈ flagTokens arguments ↔
      ∃ flag ∈ arguments, flag.isFlag = true ∧ flag.token = some token := by
  simp [flagTokens, and_assoc]

/-- The flags of the command itself are known. -/
theorem flagTokens_own_subset (command : Command α) :
    flagTokens command.arguments ⊆ flagTokens command.flags := by
  intro token hmem
  obtain ⟨flag, hflag, hkind, htoken⟩ := mem_flagTokens.mp hmem
  refine mem_flagTokens.mpr ⟨flag, ?_, hkind, htoken⟩
  apply List.mem_filter.mpr
  constructor
  · exact List.mem_flatMap.mpr ⟨flag, hflag, List.mem_cons_self⟩
  · exact hkind

/-- The flags of a subcommand are known. -/
theorem flagTokens_subarguments_subset {command : Command α} {subcommand : Argument}
    (h : subcommand ∈ command.arguments) :
    flagTokens subcommand.subarguments ⊆ flagTokens command.flags := by
  intro token hmem
  obtain ⟨flag, hflag, hkind, htoken⟩ := mem_flagTokens.mp hmem
  refine mem_flagTokens.mpr ⟨flag, ?_, hkind, htoken⟩
  apply List.mem_filter.mpr
  constructor
  · exact List.mem_flatMap.mpr ⟨subcommand, h, List.mem_cons_of_mem subcommand hflag⟩
  · exact hkind

/-! ## The parts of a resolution -/

/-- What extracting the flags of the command itself makes of a message. -/
def ownExtraction (command : Command α) (tokens : List Token) : Extraction :=
  extract (flagTokens command.arguments) (flagTokens command.flags) tokens

/-- What extracting the flags of a subcommand makes of the tokens behind its name. -/
def innerExtraction (command : Command α) (subcommand : Argument) (left : List Token) :
    Extraction :=
  extract (flagTokens subcommand.subarguments) (flagTokens command.flags) left

/-- The entries of the leading parameters, and the tokens left behind them. -/
def leadingPart (command : Command α) (tokens : List Token) : List Entry × List Token :=
  handOut command (ownExtraction command tokens).occurrences none command.leading
    (ownExtraction command tokens).positional

/-- What the flags of the command itself and of a subcommand took. -/
def occurrencesIn (command : Command α) (subcommand : Argument) (tokens left : List Token) :
    List (String × String) :=
  (ownExtraction command tokens).occurrences ++
    (innerExtraction command subcommand left).occurrences

/-- The entries of the parameters of a subcommand, and the tokens left behind them. -/
def innerPart (command : Command α) (subcommand : Argument) (tokens left : List Token) :
    List Entry × List Token :=
  handOut command (occurrencesIn command subcommand tokens left) (some subcommand.name)
    subcommand.subarguments (innerExtraction command subcommand left).positional

/-- The resolution of a message that activates no subcommand. -/
theorem resolveTokens_of_inactive {command : Command α} {tokens : List Token}
    (h : activated? command (leadingPart command tokens).2 = none) :
    resolveTokens command tokens =
      Resolution.ofEntries ((leadingPart command tokens).1 ++
        (handOut command (ownExtraction command tokens).occurrences none command.trailing
          (leadingPart command tokens).2).1) none := by
  unfold resolveTokens
  simp only [leadingPart, ownExtraction] at h ⊢
  rw [h]

/-- The resolution of a message that activates a subcommand. -/
theorem resolveTokens_of_active {command : Command α} {tokens left : List Token}
    {word : Token} {subcommand : Argument}
    (hleft : (leadingPart command tokens).2 = word :: left)
    (h : activated? command (word :: left) = some subcommand) :
    resolveTokens command tokens =
      Resolution.ofEntries ((leadingPart command tokens).1 ++
        (innerPart command subcommand tokens left).1 ++
          (handOut command (occurrencesIn command subcommand tokens left) none command.trailing
            (innerPart command subcommand tokens left).2).1) (some subcommand.name) := by
  unfold resolveTokens
  simp only [leadingPart, ownExtraction, innerPart, occurrencesIn, innerExtraction] at hleft ⊢
  rw [hleft, h]
  rfl

/-! ## The activating word -/

/-- The name of a subcommand behind some tokens activates it: it stands right behind the
tokens of the leading parameters and is neither a flag of the command itself nor the
value of one. -/
structure Activates (command : Command α) (front : List Token) (subcommand : Argument) :
    Prop where
  named : command.subcommand? subcommand.name = some subcommand
  unflagged : subcommand.name ∉ flagTokens command.arguments
  parted : Parted (flagTokens command.arguments) (flagTokens command.flags) front
    [⟨subcommand.name, false⟩]
  single : Single command.leading
  filled : (ownExtraction command front).positional.length = demand command.leading

variable {command : Command α}

/-- The word that names a subcommand is not quoted. -/
theorem eq_plain_of_activated? {word : Token} {left : List Token} {subcommand : Argument}
    (h : activated? command (word :: left) = some subcommand) :
    word = ⟨subcommand.name, false⟩ ∧
      command.subcommand? subcommand.name = some subcommand := by
  obtain ⟨text, quoted⟩ := word
  cases quoted with
  | true => cases h
  | false =>
      have hnamed : command.subcommand? text = some subcommand := h
      have hname := (Command.mem_of_subcommand? hnamed).2.2
      rw [hname]
      exact ⟨rfl, hnamed⟩

theorem ownExtraction_append {before after : List Token}
    (h : Parted (flagTokens command.arguments) (flagTokens command.flags) before after) :
    ownExtraction command (before ++ after) =
      (ownExtraction command before).append (ownExtraction command after) :=
  extract_append h

theorem ownExtraction_cons {token : Token}
    (h : token.isAmong (flagTokens command.arguments) = false) (rest : List Token) :
    ownExtraction command (token :: rest) = (ownExtraction command rest).pass token :=
  extract_cons_of_not_isAmong h rest

/-- Behind the leading parameters stand the activating word and what is left of the
tokens behind it. -/
theorem Activates.left {front : List Token} {subcommand : Argument}
    (h : Activates command front subcommand) (rest : List Token) :
    (leadingPart command (front ++ ⟨subcommand.name, false⟩ :: rest)).2 =
      ⟨subcommand.name, false⟩ :: (ownExtraction command rest).positional := by
  have hparted : Parted (flagTokens command.arguments) (flagTokens command.flags) front
      (⟨subcommand.name, false⟩ :: rest) := h.parted
  rw [leadingPart, handOut_left_of_single command _ none h.single, ownExtraction_append hparted,
    ownExtraction_cons (Token.isAmong_plain_eq_false.mpr h.unflagged), ← h.filled]
  exact List.drop_left

/-- A subcommand that is named behind the leading parameters is activated by a word of
the message. -/
theorem exists_activates {tokens left : List Token} {word : Token} {subcommand : Argument}
    (hleft : (leadingPart command tokens).2 = word :: left)
    (h : activated? command (word :: left) = some subcommand) :
    ∃ front rest, tokens = front ++ ⟨subcommand.name, false⟩ :: rest ∧
      Activates command front subcommand := by
  obtain ⟨rfl, hnamed⟩ := eq_plain_of_activated? h
  have hsingle : Single command.leading := by
    apply single_of_handOut_left command (ownExtraction command tokens).occurrences none
    exact fun hempty => by cases hempty.symm.trans hleft
  rw [leadingPart, handOut_left_of_single command _ none hsingle] at hleft
  have hlength : demand command.leading ≤ (ownExtraction command tokens).positional.length := by
    have hdrop := congrArg List.length hleft
    rw [List.length_drop, List.length_cons] at hdrop
    omega
  have hsplit := List.take_append_drop (demand command.leading)
    (ownExtraction command tokens).positional
  rw [hleft] at hsplit
  obtain ⟨front, rest, htokens, hword, hparted, hfront, _⟩ :=
    cut_of_positional (flagTokens_own_subset command) hsplit.symm
  refine ⟨front, rest, htokens, ?_⟩
  constructor
  · exact hnamed
  · exact Token.isAmong_plain_eq_false.mp hword
  · exact hparted
  · exact hsingle
  · rw [ownExtraction, hfront, List.length_take, Nat.min_eq_left hlength]

/-- Behind the leading parameters no token is left that names a subcommand, or the first one
names it. -/
theorem activated?_cases (command : Command α) (tokens : List Token) :
    activated? command (leadingPart command tokens).2 = none ∨
      ∃ word left subcommand, (leadingPart command tokens).2 = word :: left ∧
        activated? command (word :: left) = some subcommand := by
  cases hleft : (leadingPart command tokens).2 with
  | nil => exact Or.inl rfl
  | cons word left =>
      cases hactive : activated? command (word :: left) with
      | none => exact Or.inl rfl
      | some subcommand => exact Or.inr ⟨word, left, subcommand, rfl, hactive⟩

/-- The subcommand a message resolves to is the one that a word of it activates. -/
theorem subcommand_eq_some_iff {tokens : List Token} {name : String} :
    (resolveTokens command tokens).subcommand = some name ↔
      ∃ front subcommand rest, subcommand.name = name ∧
        tokens = front ++ ⟨name, false⟩ :: rest ∧ Activates command front subcommand := by
  constructor
  · intro hactive
    rcases activated?_cases command tokens with hnone | ⟨word, left, subcommand, hleft, hnamed⟩
    · rw [resolveTokens_of_inactive hnone] at hactive
      cases hactive
    · rw [resolveTokens_of_active hleft hnamed] at hactive
      have hname : subcommand.name = name := Option.some.inj hactive
      obtain ⟨front, rest, htokens, hactivates⟩ := exists_activates hleft hnamed
      exact ⟨front, subcommand, rest, hname, hname ▸ htokens, hactivates⟩
  · rintro ⟨front, subcommand, rest, rfl, rfl, hactivates⟩
    rw [resolveTokens_of_active (hactivates.left rest) hactivates.named]
    rfl

end Message

end SlashCommand
