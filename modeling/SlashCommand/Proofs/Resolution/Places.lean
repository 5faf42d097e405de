import Mathlib.Data.List.Nodup
import SlashCommand.Proofs.Resolution.Positional
import SlashCommand.Proofs.Resolution.Strategy

/-!
# The places of a resolution

A place is a parameter with the scope that declares it.  Whatever the strategy, a resolution
is a row of entries, one for each place in effect, parted into arguments and flags.  Named
options are looked up in declaration order; the tokens of a message are handed out with the
parameters of the active subcommand between the leading and the trailing ones.
-/

namespace SlashCommand

open Message

variable {α : Type}

/-! ## Places -/

/-- The key that a place is declared under. -/
def placeKey (place : Option String × Argument) : ScopeKey :=
  ⟨place.1, place.2.name⟩

/-- The key of the parameter that an entry is for. -/
def Entry.key (entry : Entry) : ScopeKey :=
  ⟨entry.subcommand, entry.name⟩

/-- The places that an argument of a command brings into effect: its own, or those of its
parameters if it is the active subcommand. -/
def placesAt (active : Option String) (argument : Argument) : List (Option String × Argument) :=
  if !argument.isCommand then
    [(none, argument)]
  else if active = some argument.name then
    argument.subarguments.map fun own => (some argument.name, own)
  else
    []

/-- The places in effect, in declaration order: the parameters of the command itself and, where
the active subcommand is declared, its parameters. -/
def Command.places (command : Command α) (active : Option String) :
    List (Option String × Argument) :=
  command.arguments.flatMap (placesAt active)

theorem placesAt_of_not_command {argument : Argument} (h : argument.isCommand = false)
    (active : Option String) : placesAt active argument = [(none, argument)] := by
  simp [placesAt, h]

theorem placesAt_of_active {argument : Argument} (h : argument.isCommand = true) :
    placesAt (some argument.name) argument =
      argument.subarguments.map fun own => (some argument.name, own) := by
  simp [placesAt, h]

theorem placesAt_of_inactive {argument : Argument} {active : Option String}
    (h : argument.isCommand = true) (hother : active ≠ some argument.name) :
    placesAt active argument = [] := by
  simp [placesAt, h, hother]

/-- The places of parameters in a scope. -/
def within (scope : Option String) (parameters : List Argument) :
    List (Option String × Argument) :=
  parameters.map fun parameter => (scope, parameter)

theorem within_append (scope : Option String) (first second : List Argument) :
    within scope (first ++ second) = within scope first ++ within scope second :=
  List.map_append

theorem mem_within {scope other : Option String} {parameters : List Argument}
    {parameter : Argument} :
    (other, parameter) ∈ within scope parameters ↔ parameter ∈ parameters ∧ other = scope := by
  simp [within, and_comm, eq_comm]

/-- Arguments without the active subcommand bring into effect the parameters of the command
itself. -/
theorem flatMap_placesAt_of_inactive {arguments : List Argument} {active : Option String}
    (h : ∀ argument ∈ arguments, argument.isCommand = true → active ≠ some argument.name) :
    arguments.flatMap (placesAt active) = within none (parametersIn arguments none) := by
  induction arguments with
  | nil => rfl
  | cons argument rest ih =>
      have hrest := ih fun other hother => h other (List.mem_cons_of_mem argument hother)
      rw [List.flatMap_cons, hrest, parametersIn, parametersIn]
      cases hcommand : argument.isCommand with
      | false =>
          rw [placesAt_of_not_command hcommand, List.filter_cons_of_pos (by simp [hcommand])]
          rfl
      | true =>
          rw [placesAt_of_inactive hcommand (h argument List.mem_cons_self hcommand),
            List.filter_cons_of_neg (by simp [hcommand])]
          rfl

/-- Under a subcommand its parameters come into effect beside those of the command itself, each
where it is declared. -/
theorem flatMap_placesAt_perm (name : String) (arguments : List Argument) :
    (arguments.flatMap (placesAt (some name))).Perm
      (within none (parametersIn arguments none) ++
        within (some name) (parametersIn arguments (some name))) := by
  induction arguments with
  | nil => exact List.Perm.refl []
  | cons argument rest ih =>
      have hscope : ∀ own, parametersIn (argument :: rest) own =
          parametersIn [argument] own ++ parametersIn rest own :=
        parametersIn_append [argument] rest
      rw [List.flatMap_cons, hscope, hscope, within_append, within_append]
      cases hcommand : argument.isCommand with
      | false =>
          have hown : parametersIn [argument] none = [argument] := by
            simp [parametersIn, hcommand]
          have hinner : parametersIn [argument] (some name) = [] := by
            simp [parametersIn, isSubcommand_of_not_command hcommand]
          rw [hown, hinner, placesAt_of_not_command hcommand]
          exact ih.cons _
      | true =>
          have hown : parametersIn [argument] none = [] := by simp [parametersIn, hcommand]
          rw [hown]
          by_cases hname : argument.name = name
          · have hinner : parametersIn [argument] (some name) = argument.subarguments := by
              simp [parametersIn, isSubcommand_iff.mpr ⟨hcommand, hname⟩]
            rw [hinner, ← hname, placesAt_of_active hcommand, hname]
            exact (ih.append_left _).trans (List.perm_append_comm_assoc _ _ _)
          · have hinner : parametersIn [argument] (some name) = [] := by
              simp [parametersIn, Draft.isSubcommand, hname]
            rw [hinner, placesAt_of_inactive hcommand
              fun hactive => hname (Option.some.inj hactive).symm]
            exact ih

/-- Outside of subcommands the parameters of the command itself are in effect. -/
theorem Command.places_none (command : Command α) :
    command.places none = within none (parametersIn command.arguments none) :=
  flatMap_placesAt_of_inactive fun _ _ _ => nofun

/-- A place is in effect exactly when its parameter is declared in its scope and the scope is
that of the command itself or the active one. -/
theorem Command.mem_places {command : Command α} {active scope : Option String}
    {parameter : Argument} :
    (scope, parameter) ∈ command.places active ↔
      parameter ∈ parametersIn command.arguments scope ∧ (scope = none ∨ scope = active) := by
  cases active with
  | none =>
      rw [places_none, mem_within, or_self]
      constructor
      · rintro ⟨hmem, rfl⟩
        exact ⟨hmem, rfl⟩
      · rintro ⟨hmem, rfl⟩
        exact ⟨hmem, rfl⟩
  | some name =>
      rw [places, (flatMap_placesAt_perm name command.arguments).mem_iff, List.mem_append,
        mem_within, mem_within]
      constructor
      · rintro (⟨hmem, rfl⟩ | ⟨hmem, rfl⟩)
        · exact ⟨hmem, Or.inl rfl⟩
        · exact ⟨hmem, Or.inr rfl⟩
      · rintro ⟨hmem, rfl | rfl⟩
        · exact Or.inl ⟨hmem, rfl⟩
        · exact Or.inr ⟨hmem, rfl⟩

/-- The key of a place tells the argument that brings it into effect. -/
theorem name_of_mem_placesAt {active : Option String} {argument : Argument} {key : ScopeKey}
    (h : key ∈ (placesAt active argument).map placeKey) :
    key.subcommand.getD key.name = argument.name := by
  obtain ⟨place, hplace, rfl⟩ := List.mem_map.mp h
  unfold placesAt at hplace
  split at hplace
  next =>
      rw [List.mem_singleton.mp hplace]
      rfl
  next =>
      split at hplace
      next =>
          obtain ⟨own, _, rfl⟩ := List.mem_map.mp hplace
          rfl
      next => cases hplace

namespace Command.WellFormed

variable {command : Command α}

/-- No two places in effect have one key. -/
theorem distinct_places (h : command.WellFormed) (active : Option String) :
    ((command.places active).map placeKey).Nodup := by
  rw [Command.places, List.map_flatMap, List.nodup_flatMap]
  constructor
  · intro argument hmem
    unfold placesAt
    split
    next => exact List.nodup_singleton _
    next hcommand =>
        split
        next =>
            have hform := h.consistent.subcommandForm_of_mem hmem (by simpa using hcommand)
            rw [List.map_map]
            refine List.Nodup.of_map ScopeKey.name ?_
            rw [List.map_map]
            exact hform.distinct
        next => exact List.nodup_nil
  · refine (List.pairwise_map.mp h.consistent.distinct).imp fun hnames key hfirst hsecond => ?_
    exact hnames ((name_of_mem_placesAt hfirst).symm.trans (name_of_mem_placesAt hsecond))

theorem kept_of_place (h : command.WellFormed) {active : Option String}
    {place : Option String × Argument} (hplace : place ∈ command.places active) :
    place.2.Kept :=
  h.consistent.kept_of_mem (Command.mem_places.mp hplace).1

end Command.WellFormed

/-! ## Around the active subcommand -/

/-- A subcommand ends the parameters in front of it. -/
theorem parameters_split (front back : List Argument) {subcommand : Argument}
    (hcommand : subcommand.isCommand = true) :
    (front ++ subcommand :: back).takeWhile (fun argument => !argument.isCommand) =
        front.takeWhile (fun argument => !argument.isCommand) ∧
      (front ++ subcommand :: back).dropWhile (fun argument => !argument.isCommand) =
        front.dropWhile (fun argument => !argument.isCommand) ++ subcommand :: back := by
  induction front with
  | nil => simp [hcommand]
  | cons argument rest ih =>
      obtain ⟨htake, hdrop⟩ := ih
      cases hargument : argument.isCommand with
      | false => simp [hargument, htake, hdrop]
      | true => simp [hargument]

namespace Command

/-- The parameters of the command itself that are declared between its first subcommand and
another one.  In a message they come behind the parameters of that one. -/
def overtaken (command : Command α) (name : String) : List Argument :=
  let front := command.arguments.takeWhile fun argument => !Draft.isSubcommand name argument
  parametersIn (front.dropWhile fun argument => !argument.isCommand) none

theorem placesIn_some (command : Command α) (subcommand : Argument) :
    placesIn command (some subcommand) =
      within none command.leading ++ within (some subcommand.name) subcommand.subarguments ++
        within none command.trailing := by
  simp [placesIn, within]

/-- The parameters of a subcommand stand between those of the command itself that are declared
in front of it, the leading ones and the overtaken ones, and those behind it. -/
theorem WellFormed.places_some {command : Command α} (h : command.WellFormed) {name : String}
    {subcommand : Argument} (hnamed : command.subcommand? name = some subcommand) :
    ∃ behind, command.trailing = command.overtaken name ++ behind ∧
      command.places (some name) =
        within none (command.leading ++ command.overtaken name) ++
          within (some name) subcommand.subarguments ++ within none behind := by
  obtain ⟨hmem, hcommand, rfl⟩ := mem_of_subcommand? hnamed
  have hsub : Draft.isSubcommand subcommand.name subcommand = true :=
    isSubcommand_iff.mpr ⟨hcommand, rfl⟩
  obtain ⟨front, back, harguments, hfront, -, hback⟩ :=
    List.filter_eq_cons_iff.mp (filter_isSubcommand h.consistent.distinct hmem hsub)
  have hinactive : ∀ argument ∈ front ++ back, argument.isCommand = true →
      some subcommand.name ≠ some argument.name := by
    intro argument hin hargument heq
    have hother := isSubcommand_iff.mpr ⟨hargument, (Option.some.inj heq).symm⟩
    rcases List.mem_append.mp hin with hin | hin
    · exact hfront argument hin hother
    · exact List.filter_eq_nil_iff.mp hback argument hin hother
  have hbefore : command.arguments.takeWhile
      (fun argument => !Draft.isSubcommand subcommand.name argument) = front := by
    rw [harguments, List.takeWhile_append_of_pos (by simpa using hfront),
      List.takeWhile_cons_of_neg (by simp [hsub]), List.append_nil]
  obtain ⟨htake, hdrop⟩ := parameters_split front back hcommand
  have hleading : command.leading = front.takeWhile fun argument => !argument.isCommand := by
    rw [leading, harguments, htake]
  have hovertaken : command.overtaken subcommand.name =
      parametersIn (front.dropWhile fun argument => !argument.isCommand) none := by
    rw [overtaken, hbefore]
  have hown : parametersIn front none = command.leading ++ command.overtaken subcommand.name := by
    rw [hleading, hovertaken, takeWhile_append_parametersIn]
  refine ⟨parametersIn back none, ?_, ?_⟩
  · rw [trailing, harguments, hdrop, List.filter_append, hovertaken,
      List.filter_cons_of_neg (by simp [hcommand])]
    rfl
  · rw [places, harguments, List.flatMap_append, List.flatMap_cons, placesAt_of_active hcommand,
      flatMap_placesAt_of_inactive fun argument hin =>
        hinactive argument (List.mem_append_left back hin),
      flatMap_placesAt_of_inactive fun argument hin =>
        hinactive argument (List.mem_append_right front hin), hown, List.append_assoc]
    rfl

/-- The places of a message are those in effect, in another order. -/
theorem WellFormed.placesIn_perm {command : Command α} (h : command.WellFormed)
    {active : Option Argument}
    (hactive : ∀ subcommand ∈ active, command.subcommand? subcommand.name = some subcommand) :
    (placesIn command active).Perm (command.places (active.map Argument.name)) := by
  cases active with
  | none =>
      rw [Option.map_none, places_none, ← leading_append_trailing]
      simp [placesIn, within]
  | some subcommand =>
      have hplaces := flatMap_placesAt_perm subcommand.name command.arguments
      rw [h.parametersIn_subcommand (hactive subcommand rfl), ← leading_append_trailing,
        within_append, List.append_assoc] at hplaces
      rw [placesIn_some, List.append_assoc]
      exact (List.perm_append_comm.append_left _).trans hplaces.symm

theorem WellFormed.kept_of_placesIn {command : Command α} (h : command.WellFormed)
    {active : Option Argument}
    (hactive : ∀ subcommand ∈ active, command.subcommand? subcommand.name = some subcommand)
    {place : Option String × Argument} (hplace : place ∈ placesIn command active) :
    place.2.Kept :=
  h.kept_of_place ((h.placesIn_perm hactive).mem_iff.mp hplace)

end Command

/-! ## Rows of entries -/

/-- A resolution is the row of entries that are looked up for some places, parted into
arguments and flags. -/
def Resolution.Lists (resolution : Resolution) (command : Command α)
    (places : List (Option String × Argument)) : Prop :=
  ∃ found : List Lookup, found.map Lookup.place = places ∧
    resolution = ofEntries (found.map (Lookup.entry command)) resolution.subcommand

/-- The keys of those places whose parameters count, in order. -/
def countedKeys (counts : Argument → Bool) (places : List (Option String × Argument)) :
    List ScopeKey :=
  (places.filter fun place => counts place.2).map placeKey

theorem countedKeys_perm (counts : Argument → Bool) {first second : List (Option String × Argument)}
    (h : first.Perm second) : (countedKeys counts first).Perm (countedKeys counts second) :=
  (h.filter _).map _

/-- Entries are parted as their parameters are. -/
theorem Message.Lookup.filter_entries (command : Command α) {found : List Lookup}
    (hkept : ∀ lookup ∈ found, lookup.parameter.Kept) (counts : Bool → Bool) :
    (found.map (Lookup.entry command)).filter (fun entry => counts entry.isFlag) =
      (found.filter fun lookup => counts lookup.parameter.isFlag).map (Lookup.entry command) := by
  rw [List.filter_map]
  refine congrArg (List.map _) (List.filter_congr fun lookup hmem => ?_)
  have hflag := Entry.isFlag_ofArgument command lookup.scope lookup.given (hkept lookup hmem)
  exact congrArg counts hflag

/-- The keys of the entries that are counted in are those of their places. -/
theorem Message.Lookup.keys_filter_entries (command : Command α) {found : List Lookup}
    (hkept : ∀ place ∈ found.map Lookup.place, place.2.Kept) (counts : Bool → Bool) :
    ((found.map (Lookup.entry command)).filter fun entry => counts entry.isFlag).map Entry.key =
      countedKeys (fun parameter => counts parameter.isFlag) (found.map Lookup.place) := by
  rw [filter_entries command (fun lookup hmem =>
      hkept lookup.place (List.mem_map_of_mem hmem)) counts,
    List.map_map, countedKeys, List.filter_map, List.map_map]
  rfl

namespace Resolution.Lists

variable {command : Command α} {resolution : Resolution}
  {places : List (Option String × Argument)}

/-- The arguments stand in the order of the places that are no flags. -/
theorem keys_args (h : resolution.Lists command places)
    (hkept : ∀ place ∈ places, place.2.Kept) :
    resolution.args.map Entry.key = countedKeys (fun parameter => !parameter.isFlag) places := by
  obtain ⟨found, rfl, hentries⟩ := h
  rw [hentries]
  exact Lookup.keys_filter_entries command hkept (! ·)

/-- The flags stand in the order of the places that are flags. -/
theorem keys_flags (h : resolution.Lists command places)
    (hkept : ∀ place ∈ places, place.2.Kept) :
    resolution.flags.map Entry.key = countedKeys Argument.isFlag places := by
  obtain ⟨found, rfl, hentries⟩ := h
  rw [hentries]
  exact Lookup.keys_filter_entries command hkept id

/-- Every entry is that of a place. -/
theorem exists_of_mem (h : resolution.Lists command places) {entry : Entry}
    (hmem : entry ∈ resolution.args ++ resolution.flags) :
    ∃ lookup : Lookup, lookup.place ∈ places ∧ entry = lookup.entry command := by
  obtain ⟨found, rfl, hentries⟩ := h
  have hrow : entry ∈ found.map (Lookup.entry command) := by
    rw [hentries] at hmem
    rcases List.mem_append.mp hmem with harg | hflag
    · exact (List.mem_filter.mp harg).1
    · exact (List.mem_filter.mp hflag).1
  obtain ⟨lookup, hlookup, rfl⟩ := List.mem_map.mp hrow
  exact ⟨lookup, List.mem_map_of_mem hlookup, rfl⟩

end Resolution.Lists

/-! ## Both strategies -/

theorem Resolution.entriesOf_eq_map (command : Command α) (options : Dict String Value)
    (active : Option String) (argument : Argument) :
    entriesOf command options active argument =
      (placesAt active argument).map fun place => entryOf command options place.1 place.2 := by
  unfold entriesOf placesAt
  split
  next => rfl
  next =>
      split
      next => rw [List.map_map]; rfl
      next => rfl

/-- The entries of named options are those of the places in effect. -/
theorem Resolution.flatMap_entriesOf (command : Command α) (options : Dict String Value)
    (active : Option String) :
    command.arguments.flatMap (entriesOf command options active) =
      (command.places active).map fun place => entryOf command options place.1 place.2 := by
  rw [Command.places, List.map_flatMap]
  exact List.flatMap_congr fun argument _ => entriesOf_eq_map command options active argument

/-- Named options are looked up in declaration order. -/
theorem Resolution.lists_ofOptions (command : Command α) (options : Dict String Value)
    (active : Option String) :
    (ofOptions command options active).Lists command (command.places active) := by
  refine ⟨(command.places active).map fun place =>
    ⟨place.1, place.2, option? options place.1 place.2⟩, ?_, ?_⟩
  · rw [List.map_map]
    exact List.map_id _
  · rw [ofOptions, flatMap_entriesOf, List.map_map]
    rfl

namespace Message

/-- The subcommand that a message activates. -/
def activeIn (command : Command α) (tokens : List Token) : Option Argument :=
  activated? command (leadingPart command tokens).2

theorem subcommand?_of_activeIn {command : Command α} {tokens : List Token}
    {subcommand : Argument} (h : activeIn command tokens = some subcommand) :
    command.subcommand? subcommand.name = some subcommand := by
  obtain ⟨word, hword, _, hnamed⟩ := activated?_eq_some_iff.mp h
  rwa [(Command.mem_of_subcommand? hnamed).2.2]

/-- The tokens of a message are handed out to its places. -/
theorem handsOut_resolveTokens (command : Command α) (tokens : List Token) :
    ∃ entries, resolveTokens command tokens =
        Resolution.ofEntries entries ((activeIn command tokens).map Argument.name) ∧
      HandsOut command (placesIn command (activeIn command tokens))
        (sharedTokens command (ownExtraction command tokens).positional
          (activeIn command tokens)) entries := by
  rcases activated?_cases command tokens with hnone | ⟨word, left, subcommand, hleft, hactive⟩
  · rw [activeIn, hnone]
    exact handsOut_of_inactive hnone
  · rw [activeIn, hleft, hactive]
    exact handsOut_of_active hleft hactive

/-- The entries of a message are those of its places. -/
theorem lists_resolveTokens (command : Command α) (tokens : List Token) :
    (resolveTokens command tokens).Lists command (placesIn command (activeIn command tokens)) := by
  obtain ⟨entries, hresolve, found, rfl, hplaces, _⟩ := handsOut_resolveTokens command tokens
  exact ⟨found, hplaces, by rw [hresolve]; rfl⟩

theorem subcommand_resolveTokens (command : Command α) (tokens : List Token) :
    (resolveTokens command tokens).subcommand =
      (activeIn command tokens).map Argument.name := by
  obtain ⟨entries, hresolve, _⟩ := handsOut_resolveTokens command tokens
  rw [hresolve]
  rfl

end Message

/-- A typed command resolves a message by its tokens and everything else by its options, in a
declared subcommand or in none. -/
theorem Command.resolve_ok {command : Command α} (htype : command.type = .chatInput)
    {invocation : Invocation} {resolution : Resolution}
    (h : command.resolve invocation = .ok resolution) :
    (∃ raw, invocation.raw = some raw ∧ resolution = Message.resolve command raw) ∨
      invocation.raw = none ∧
        resolution = .ofOptions command invocation.options invocation.subcommand ∧
        ∀ name ∈ invocation.subcommand,
          ∃ subcommand, command.subcommand? name = some subcommand := by
  rw [resolve, htype] at h
  split at h
  next => cases h
  next =>
      cases hraw : invocation.raw with
      | some raw =>
          rw [hraw] at h
          exact Or.inl ⟨raw, rfl, (Except.ok.inj h).symm⟩
      | none =>
          rw [hraw] at h
          refine Or.inr ⟨rfl, ?_⟩
          have hoptions : command.resolveOptions invocation = .ok resolution := h
          unfold resolveOptions at hoptions
          split at hoptions
          next hscope =>
              rw [hscope]
              exact ⟨(Except.ok.inj hoptions).symm, fun _ hname => by cases hname⟩
          next name hscope =>
              split at hoptions
              next => cases hoptions
              next subcommand hnamed =>
                  rw [hscope]
                  refine ⟨(Except.ok.inj hoptions).symm, fun other hother => ?_⟩
                  cases hother
                  exact ⟨subcommand, hnamed⟩

end SlashCommand
