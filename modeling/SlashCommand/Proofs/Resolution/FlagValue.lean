import Mathlib.Data.List.Nodup
import SlashCommand.Proofs.Resolution.Activation
import SlashCommand.Proofs.Resolution.Strategy

/-!
# The value of a flag

A flag takes the token that stands right behind it in the message, with one exception.
The flags of the command itself are taken out of the message before those of a
subcommand are looked for, so a flag of a subcommand with one of the former behind it
takes the next token that is left when that one and its value are gone.
-/

namespace SlashCommand

variable {α : Type}

namespace Message

/-! ## Where a flag stands -/

/-- A scope is open behind some tokens: that of the command itself always, that of a
subcommand once its name has activated it. -/
def Opened (command : Command α) : Option String → List Token → Prop
  | none, _ => True
  | some name, before => ∃ front subcommand between, subcommand.name = name ∧
      before = front ++ ⟨name, false⟩ :: between ∧ Activates command front subcommand

/-- The last place of a flag in a message: its token, unquoted, where its scope is open,
and `after` are the tokens behind it. -/
structure StandsLast (command : Command α) (tokens : List Token) (scope : Option String)
    (flag : Argument) (token : String) (after : List Token) : Prop where
  member : flag ∈ parametersIn command.arguments scope
  kind : flag.isFlag = true
  spelled : flag.token = some token
  place : ∃ before, tokens = before ++ ⟨token, false⟩ :: after ∧ Opened command scope before
  last : ⟨token, false⟩ ∉ after

/-! ## What a flag takes -/

/-- The value a flag takes where it stands last: from the tokens behind it if the command
itself has a flag of that token, and otherwise from those that are left of them without
the flags of the command itself. -/
def reached (command : Command α) (token : String) (after : List Token) : String :=
  if token ∈ flagTokens command.arguments then
    adjacent (flagTokens command.flags) token after
  else
    adjacent (flagTokens command.flags) token (ownExtraction command after).positional

/-- A flag of the command itself stands between a flag of a subcommand and the token that
this one takes. -/
structure Displaced (command : Command α) (token : String) (after : List Token) : Prop where
  inner : token ∉ flagTokens command.arguments
  parted : ∃ next ∈ after.head?, next.isAmong (flagTokens command.arguments) = true
  taken : ∃ far ∈ (ownExtraction command after).positional.head?,
    far.isAmong (flagTokens command.flags) = false ∧ far.text ≠ token

theorem adjacent_congr {known : List String} {first second : List Token}
    (h : first.head? = second.head?) (flag : String) :
    adjacent known flag first = adjacent known flag second := by
  cases first with
  | nil =>
      cases second with
      | nil => rfl
      | cons other rest => cases h
  | cons token rest =>
      cases second with
      | nil => cases h
      | cons other rest' =>
          cases h
          rfl

/-- A flag takes its own token unless another text than this one follows it. -/
theorem adjacent_eq_self_iff {known : List String} {flag : String} {tokens : List Token} :
    adjacent known flag tokens = flag ↔
      ∀ next ∈ tokens.head?, next.isAmong known = false → next.text = flag := by
  cases tokens with
  | nil =>
      constructor
      · intro _ next hnext
        cases hnext
      · intro _
        rfl
  | cons next rest =>
      cases hnext : next.isAmong known with
      | true =>
          constructor
          · intro _ other hother hunknown
            cases hother
            rw [hnext] at hunknown
            cases hunknown
          · intro _
            exact adjacent_cons_of_isAmong hnext flag rest
      | false =>
          rw [adjacent_cons_of_not_isAmong hnext]
          constructor
          · intro heq other hother _
            cases hother
            exact heq
          · intro h
            exact h next rfl hnext

variable {command : Command α}

/-- A token that spells no flag of the command itself is the first of those that are left. -/
theorem head?_positional {after : List Token}
    (h : ∀ next ∈ after.head?, next.isAmong (flagTokens command.arguments) = false) :
    (ownExtraction command after).positional.head? = after.head? := by
  cases after with
  | nil => rfl
  | cons next rest =>
      rw [ownExtraction_cons (h next rfl)]
      rfl

/-- A flag takes the token right behind it unless it is displaced. -/
theorem reached_eq_adjacent_iff (command : Command α) (token : String) (after : List Token) :
    reached command token after = adjacent (flagTokens command.flags) token after ↔
      ¬ Displaced command token after := by
  by_cases hown : token ∈ flagTokens command.arguments
  · rw [reached, if_pos hown]
    exact ⟨fun _ hdisplaced => hdisplaced.inner hown, fun _ => rfl⟩
  rw [reached, if_neg hown]
  by_cases hparted : ∃ next ∈ after.head?, next.isAmong (flagTokens command.arguments) = true
  · have hself : adjacent (flagTokens command.flags) token after = token := by
      rw [adjacent_eq_self_iff]
      intro next hnext hunknown
      obtain ⟨other, hother, hamong⟩ := hparted
      cases Option.mem_unique hother hnext
      rw [Token.isAmong_mono (flagTokens_own_subset command) hamong] at hunknown
      cases hunknown
    rw [hself, adjacent_eq_self_iff]
    constructor
    · intro h hdisplaced
      obtain ⟨far, hfar, hunknown, hdiffers⟩ := hdisplaced.taken
      exact hdiffers (h far hfar hunknown)
    · intro hplaced far hfar hunknown
      by_contra hdiffers
      exact hplaced ⟨hown, hparted, far, hfar, hunknown, hdiffers⟩
  · have hhead : ∀ next ∈ after.head?, next.isAmong (flagTokens command.arguments) = false := by
      intro next hnext
      exact Bool.eq_false_iff.mpr fun hamong => hparted ⟨next, hnext, hamong⟩
    constructor
    · intro _ hdisplaced
      exact hparted hdisplaced.parted
    · intro _
      exact adjacent_congr (head?_positional hhead) token

/-! ## Looking up occurrences -/

theorem flagValue?_of_token {occurrences : List (String × String)} {flag : Argument}
    {token value : String} (htoken : flag.token = some token)
    (hvalue : valueOf? occurrences token = some value) :
    flagValue? occurrences flag = some (.text value) := by
  rw [flagValue?, htoken, Option.bind_some, hvalue]
  rfl

/-- The tokens that are left for a subcommand spell no flag of the command itself. -/
theorem valueOf?_occurrencesIn_own {subcommand : Argument} {token : String}
    (hown : token ∈ flagTokens command.arguments) (tokens rest : List Token) :
    valueOf? (occurrencesIn command subcommand tokens (ownExtraction command rest).positional)
      token = valueOf? (ownExtraction command tokens).occurrences token := by
  rw [occurrencesIn, valueOf?_append, valueOf?_eq_none, Option.none_or]
  intro value hmem
  have hstands := (mem_of_mem_occurrences hmem).2
  have hnot := not_isAmong_of_mem_positional hstands
  rw [Token.isAmong_plain.mpr hown] at hnot
  cases hnot

/-! ## Finding the entry of a flag -/

/-- A flag of the command itself is found with the value it took, whatever entries of a
subcommand stand between those of the leading and those of the trailing parameters. -/
theorem flagIn?_own (hwell : command.WellFormed) {flag : Argument}
    (hmem : flag ∈ parametersIn command.arguments none) (hflag : flag.isFlag = true)
    {tokens left : List Token} {occurrences : List (String × String)} {middle : List Entry}
    (hmiddle : ∀ entry ∈ middle, entry.subcommand ≠ none)
    (hsame : ∀ other ∈ parametersIn command.arguments none, other.isFlag = true →
      flagValue? occurrences other =
        flagValue? (ownExtraction command tokens).occurrences other)
    (active : Option String) :
    (Resolution.ofEntries ((leadingPart command tokens).1 ++ middle ++
        (handOut command occurrences none command.trailing left).1) active).flagIn? none
          flag.name =
      some (Entry.ofArgument command none flag
        (flagValue? (ownExtraction command tokens).occurrences flag)) := by
  have hkept := hwell.consistent.kept_of_mem hmem
  apply Resolution.flagIn?_ofEntries
  · rfl
  · rfl
  · have hplace := hmem
    rw [← Command.leading_append_trailing] at hplace
    rcases List.mem_append.mp hplace with hleading | htrailing
    · apply List.mem_append_left
      apply List.mem_append_left
      exact mem_handOut_of_isFlag command _ none hleading hflag _
    · apply List.mem_append_right
      rw [← hsame flag hmem hflag]
      exact mem_handOut_of_isFlag command _ none htrailing hflag _
  · rw [Entry.isFlag_ofArgument command none _ hkept]
    exact hflag
  · intro other hother hname hscope
    rcases List.mem_append.mp hother with hfront | htrailing
    · rcases List.mem_append.mp hfront with hleading | hinner
      · obtain ⟨argument, hargument, given, rfl, hgiven⟩ :=
          exists_of_mem_handOut command _ none hleading
        cases hwell.consistent.eq_of_name_eq (Command.mem_of_mem_leading hargument) hmem hname
        rw [hgiven hflag]
      · exact absurd hscope (hmiddle other hinner)
    · obtain ⟨argument, hargument, given, rfl, hgiven⟩ :=
        exists_of_mem_handOut command _ none htrailing
      cases hwell.consistent.eq_of_name_eq (Command.mem_of_mem_trailing hargument) hmem hname
      rw [hgiven hflag, hsame flag hmem hflag]

/-- Every flag of the command itself is found with the value it took. -/
theorem flagIn?_resolveTokens_own (hwell : command.WellFormed) {flag : Argument}
    (hmem : flag ∈ parametersIn command.arguments none) (hflag : flag.isFlag = true)
    (tokens : List Token) :
    (resolveTokens command tokens).flagIn? none flag.name =
      some (Entry.ofArgument command none flag
        (flagValue? (ownExtraction command tokens).occurrences flag)) := by
  rcases activated?_cases command tokens with hnone | ⟨word, left, subcommand, hleft, hactive⟩
  · rw [resolveTokens_of_inactive hnone, ← List.append_nil (leadingPart command tokens).1]
    apply flagIn?_own hwell hmem hflag
    · intro entry hentry
      cases hentry
    · intro other _ _
      rfl
  · obtain ⟨front, rest, htokens, hactivates⟩ := exists_activates hleft hactive
    have hrest := hactivates.left rest
    rw [← htokens, hleft] at hrest
    obtain ⟨-, rfl⟩ := List.cons.inj hrest
    rw [resolveTokens_of_active hleft hactive]
    apply flagIn?_own hwell hmem hflag
    · intro entry hentry
      obtain ⟨argument, _, given, rfl, _⟩ := exists_of_mem_handOut command _ _ hentry
      exact fun hnone => by cases hnone
    · intro other hother hkind
      obtain ⟨token, htoken⟩ :=
        (hwell.consistent.kept_of_mem hother).form.isFlag_iff.mp hkind
      have hown : token ∈ flagTokens command.arguments :=
        mem_flagTokens.mpr ⟨other, (mem_parametersIn_none.mp hother).1, hkind, htoken⟩
      simp only [flagValue?, htoken, Option.bind_some]
      rw [valueOf?_occurrencesIn_own hown]

/-- Every flag of the active subcommand is found with the value it took. -/
theorem flagIn?_resolveTokens_inner (hwell : command.WellFormed) {front rest : List Token}
    {subcommand flag : Argument} (hactivates : Activates command front subcommand)
    (hmem : flag ∈ subcommand.subarguments) (hflag : flag.isFlag = true) :
    (resolveTokens command (front ++ ⟨subcommand.name, false⟩ :: rest)).flagIn?
        (some subcommand.name) flag.name =
      some (Entry.ofArgument command (some subcommand.name) flag
        (flagValue? (occurrencesIn command subcommand
          (front ++ ⟨subcommand.name, false⟩ :: rest)
            (ownExtraction command rest).positional) flag)) := by
  obtain ⟨hsubcommand, hcommand, _⟩ := Command.mem_of_subcommand? hactivates.named
  have hform := hwell.consistent.subcommandForm_of_mem hsubcommand hcommand
  rw [resolveTokens_of_active (hactivates.left rest) hactivates.named]
  apply Resolution.flagIn?_ofEntries
  · rfl
  · rfl
  · apply List.mem_append_left
    apply List.mem_append_right
    exact mem_handOut_of_isFlag command _ _ hmem hflag _
  · rw [Entry.isFlag_ofArgument command _ _ (hform.own flag hmem)]
    exact hflag
  · intro other hother hname hscope
    rcases List.mem_append.mp hother with hfront | htrailing
    · rcases List.mem_append.mp hfront with hleading | hinner
      · obtain ⟨_, _, _, rfl, _⟩ := exists_of_mem_handOut command _ none hleading
        cases hscope
      · obtain ⟨argument, hargument, given, rfl, hgiven⟩ :=
          exists_of_mem_handOut command _ _ hinner
        cases List.inj_on_of_nodup_map hform.distinct hargument hmem hname
        rw [hgiven hflag]
    · obtain ⟨_, _, _, rfl, _⟩ := exists_of_mem_handOut command _ none htrailing
      cases hscope

/-! ## The last place counts -/

/-- The value of a flag of the command itself where it stands last. -/
theorem valueOf?_own {token : String} (hown : token ∈ flagTokens command.arguments)
    {before after : List Token} (hlast : ⟨token, false⟩ ∉ after) :
    valueOf? (ownExtraction command (before ++ ⟨token, false⟩ :: after)).occurrences token =
      some (adjacent (flagTokens command.flags) token after) :=
  valueOf?_extract hown (flagTokens_own_subset command) hlast

/-- The value of a flag of the active subcommand where it stands last. -/
theorem valueOf?_inner {front between after : List Token} {subcommand : Argument}
    {token : String} (hactivates : Activates command front subcommand)
    (hinner : token ∈ flagTokens subcommand.subarguments) (hlast : ⟨token, false⟩ ∉ after) :
    valueOf? (occurrencesIn command subcommand
        (front ++ ⟨subcommand.name, false⟩ :: (between ++ ⟨token, false⟩ :: after))
        (ownExtraction command (between ++ ⟨token, false⟩ :: after)).positional) token =
      some (reached command token after) := by
  have hknown := flagTokens_subarguments_subset
    (Command.mem_of_subcommand? hactivates.named).1
  by_cases hown : token ∈ flagTokens command.arguments
  · have hsplit : front ++ ⟨subcommand.name, false⟩ :: (between ++ ⟨token, false⟩ :: after) =
        (front ++ ⟨subcommand.name, false⟩ :: between) ++ ⟨token, false⟩ :: after := by
      simp
    rw [valueOf?_occurrencesIn_own hown, hsplit, valueOf?_own hown hlast, reached, if_pos hown]
  · have hleft : (ownExtraction command (between ++ ⟨token, false⟩ :: after)).positional =
        (ownExtraction command between).positional ++
          ⟨token, false⟩ :: (ownExtraction command after).positional := by
      rw [ownExtraction_append
        (parted_of_isAmong (Token.isAmong_plain.mpr (hknown hinner))),
        ownExtraction_cons (Token.isAmong_plain_eq_false.mpr hown)]
      rfl
    have hlater : ⟨token, false⟩ ∉ (ownExtraction command after).positional :=
      fun hmem => hlast ((positional_sublist after).subset hmem)
    rw [occurrencesIn, valueOf?_append, innerExtraction, hleft,
      valueOf?_extract hinner hknown hlater, Option.some_or, reached, if_neg hown]

/-- The value of a flag in a scope is the one it reaches where it stands last. -/
theorem value_of_standsLast (hwell : command.WellFormed) {tokens after : List Token}
    {scope : Option String} {flag : Argument} {token : String}
    (h : StandsLast command tokens scope flag token after) :
    ((resolveTokens command tokens).flagIn? scope flag.name).bind Entry.value =
      some (.text (reached command token after)) := by
  obtain ⟨before, rfl, hopened⟩ := h.place
  cases scope with
  | none =>
      have hown : token ∈ flagTokens command.arguments :=
        mem_flagTokens.mpr ⟨flag, (mem_parametersIn_none.mp h.member).1, h.kind, h.spelled⟩
      rw [flagIn?_resolveTokens_own hwell h.member h.kind, Option.bind_some,
        Entry.ofArgument_value_of_isFlag command none _ h.kind,
        flagValue?_of_token h.spelled (valueOf?_own hown h.last), reached, if_pos hown]
  | some name =>
      obtain ⟨front, subcommand, between, rfl, rfl, hactivates⟩ := hopened
      have hmem := h.member
      rw [hwell.parametersIn_subcommand hactivates.named] at hmem
      have hinner : token ∈ flagTokens subcommand.subarguments :=
        mem_flagTokens.mpr ⟨flag, hmem, h.kind, h.spelled⟩
      rw [List.append_assoc, List.cons_append,
        flagIn?_resolveTokens_inner hwell hactivates hmem h.kind, Option.bind_some,
        Entry.ofArgument_value_of_isFlag command _ _ h.kind,
        flagValue?_of_token h.spelled (valueOf?_inner hactivates hinner h.last)]

end Message

/-! ## The value in the message -/

open Message

/-- A flag that stands last somewhere in a message takes the token right behind it, its own
if there is none or a known flag stands there, exactly unless a flag of the command itself
displaces it; then it takes the next token left by the flags of the command itself. -/
theorem Command.flag_value_adjacent_iff {command : Command α} (hdeclared : command.Declared)
    (htype : command.type = .chatInput) {invocation : Invocation} {raw : String}
    (hraw : invocation.raw = some raw) {scope : Option String} {flag : Argument}
    {token : String} {after : List Token}
    (h : StandsLast command (tokens raw) scope flag token after) :
    ∃ resolution, command.resolve invocation = .ok resolution ∧
      (resolution.flagIn? scope flag.name).bind Entry.value =
        some (.text (reached command token after)) ∧
      ((resolution.flagIn? scope flag.name).bind Entry.value =
          some (.text (adjacent (flagTokens command.flags) token after)) ↔
        ¬ Displaced command token after) := by
  have hwell := hdeclared.wellFormed
  have hvalue := value_of_standsLast hwell h
  refine ⟨_, hwell.resolve_raw htype hraw, hvalue, ?_⟩
  rw [← reached_eq_adjacent_iff, Message.resolve, hvalue]
  constructor
  · intro heq
    exact Value.text.inj (Option.some.inj heq)
  · intro heq
    rw [heq]

/-! ## A displaced flag -/

/-- A flag as declarations make it, without a description of its own. -/
def plainFlag (token name : String) : Argument :=
  { kind := .flag
    name := name
    description := fillerDescription
    optional := true
    variadic := false
    datatype := .string
    token := some token
    min := none
    max := none
    subarguments := [] }

/-- A command with a flag of its own and a subcommand with another. -/
def listing : Command Unit :=
  { name := "todo"
    description := fillerDescription
    arguments :=
      [plainFlag "-v" "verbose",
        { Argument.subcommand "list" fillerDescription with
          subarguments := [plainFlag "-a" "all"] }]
    type := .chatInput
    choices := (Dict.empty.insert ⟨none, "verbose"⟩ ["-v"]).insert ⟨some "list", "all"⟩ ["-a"]
    autocomplete := ∅
    defaults := ∅
    requires := ∅
    channels := ∅
    guilds := ∅
    action := Action.silent }

theorem listing_declared : listing.Declared := by
  refine ⟨Builder.run .unnamed
    [.setCommand "todo" none, .addArgument "(-v verbose)" none .payload {},
      .addArgument "list (-a all)" none .payload {}], ?_, rfl⟩
  exact .call (.call (.call .unnamed _) _) _

/-- The message of a user to the command. -/
def said (raw : String) : Invocation :=
  { Invocation.plain "todo" "42" with raw := some raw }

/-- The name of the subcommand is activated at the start of a message. -/
theorem listing_activates : Activates listing []
    { Argument.subcommand "list" fillerDescription with
      subarguments := [plainFlag "-a" "all"] } where
  named := rfl
  unflagged := by decide
  parted := parted_of_not_isAmong (fun _ hmem => by cases hmem)
  single := by
    intro argument hmem hparameter
    cases List.mem_singleton.mp hmem
    cases hparameter
  filled := rfl

theorem listing_standsLast (after : List Token) (hlast : ⟨"-a", false⟩ ∉ after) :
    StandsLast listing (⟨"list", false⟩ :: ⟨"-a", false⟩ :: after) (some "list")
      (plainFlag "-a" "all") "-a" after where
  member := by
    apply mem_parametersIn_some.mpr
    exact ⟨_, List.mem_cons_of_mem _ List.mem_cons_self, rfl, List.mem_cons_self⟩
  kind := rfl
  spelled := rfl
  place := ⟨[⟨"list", false⟩], rfl, [], _, [], rfl, rfl, listing_activates⟩
  last := hlast

/-- The flag takes the text behind it. -/
theorem listing_takes_next :
    listing.Declared ∧ listing.type = .chatInput ∧
      StandsLast listing (tokens "list -a milk") (some "list") (plainFlag "-a" "all") "-a"
        [⟨"milk", false⟩] ∧
      ∃ resolution, listing.resolve (said "list -a milk") = .ok resolution ∧
        (resolution.flagIn? (some "list") "all").bind Entry.value = some (.text "milk") ∧
        ((resolution.flagIn? (some "list") "all").bind Entry.value = some (.text "milk") ↔
          ¬ Displaced listing "-a" [⟨"milk", false⟩]) :=
  have hstands : StandsLast listing (tokens "list -a milk") (some "list")
      (plainFlag "-a" "all") "-a" [⟨"milk", false⟩] :=
    listing_standsLast [⟨"milk", false⟩] (by decide)
  ⟨listing_declared, rfl, hstands, Command.flag_value_adjacent_iff listing_declared rfl rfl hstands⟩

/-- A flag with another known flag right behind it takes a text further on, since the other
one and its value are taken out of the message first. -/
theorem listing_takes_far :
    listing.Declared ∧ listing.type = .chatInput ∧
      StandsLast listing (tokens "list -a -v yes milk") (some "list") (plainFlag "-a" "all") "-a"
        [⟨"-v", false⟩, ⟨"yes", false⟩, ⟨"milk", false⟩] ∧
      adjacent (flagTokens listing.flags) "-a"
        [⟨"-v", false⟩, ⟨"yes", false⟩, ⟨"milk", false⟩] = "-a" ∧
      ∃ resolution, listing.resolve (said "list -a -v yes milk") = .ok resolution ∧
        (resolution.flagIn? (some "list") "all").bind Entry.value ≠ some (.text "-a") := by
  have hstands : StandsLast listing (tokens "list -a -v yes milk") (some "list")
      (plainFlag "-a" "all") "-a" [⟨"-v", false⟩, ⟨"yes", false⟩, ⟨"milk", false⟩] :=
    listing_standsLast _ (by decide)
  have hwell := listing_declared.wellFormed
  refine ⟨listing_declared, rfl, hstands, rfl, _, hwell.resolve_raw rfl rfl, ?_⟩
  have hvalue := value_of_standsLast hwell hstands
  intro heq
  have htaken : "milk" = "-a" := Value.text.inj (Option.some.inj (hvalue.symm.trans heq))
  exact absurd htaken (by decide)

end SlashCommand
