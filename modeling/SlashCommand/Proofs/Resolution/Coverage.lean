import SlashCommand.Proofs.Resolution.Offered
import SlashCommand.Proofs.Resolution.Places

/-!
# What a resolution covers

A resolution has exactly one entry for each parameter of the command itself and of the active
subcommand.  Defaults reach the optional positional parameters they are declared for and
nothing else, whatever defaults a command is given.
-/

namespace SlashCommand

open Message

variable {α : Type}

/-! ## Other defaults -/

/-- A command with other defaults. -/
def Command.defaulting (command : Command α) (defaults : Dict ScopeKey Value) : Command α :=
  { command with defaults := defaults }

/-- An entry as it is without a default. -/
def Entry.undefaulted (entry : Entry) : Entry :=
  if entry.defaulted then { entry with value := none, defaulted := false } else entry

/-- A resolution as it is without defaults. -/
def Resolution.undefaulted (resolution : Resolution) : Resolution :=
  { resolution with
    args := resolution.args.map Entry.undefaulted
    flags := resolution.flags.map Entry.undefaulted }

namespace Entry

theorem isFlag_undefaulted (entry : Entry) : entry.undefaulted.isFlag = entry.isFlag := by
  unfold undefaulted
  split <;> rfl

/-- What an invocation gives stays, and nothing stands in for what it does not give. -/
theorem undefaulted_ofArgument (command : Command α) (defaults : Dict ScopeKey Value)
    (scope : Option String) (argument : Argument) (given : Option Value) :
    (ofArgument (command.defaulting defaults) scope argument given).undefaulted =
      ofArgument (command.defaulting ∅) scope argument given := by
  have hnone : fallback? (command.defaulting ∅) scope argument = none := by
    unfold fallback?
    split <;> rfl
  cases given with
  | some value => simp [ofArgument, undefaulted]
  | none =>
      cases hfallback : fallback? (command.defaulting defaults) scope argument with
      | none => simp [ofArgument, undefaulted, hfallback, hnone]
      | some value => simp [ofArgument, undefaulted, hfallback, hnone]

end Entry

theorem Resolution.undefaulted_ofEntries (entries : List Entry) (active : Option String) :
    (ofEntries entries active).undefaulted =
      ofEntries (entries.map Entry.undefaulted) active := by
  have hflag : Entry.isFlag ∘ Entry.undefaulted = Entry.isFlag :=
    funext Entry.isFlag_undefaulted
  have hothers : (fun entry => !Entry.isFlag entry) ∘ Entry.undefaulted =
      fun entry => !Entry.isFlag entry :=
    funext fun entry => congrArg (! ·) entry.isFlag_undefaulted
  simp only [undefaulted, ofEntries, List.filter_map, hflag, hothers]

namespace Message

/-- Tokens are handed out alike whatever the defaults. -/
theorem handOut_undefaulted (command : Command α) (defaults : Dict ScopeKey Value)
    (occurrences : List (String × String)) (scope : Option String) (arguments : List Argument)
    (left : List Token) :
    handOut (command.defaulting ∅) occurrences scope arguments left =
      ((handOut (command.defaulting defaults) occurrences scope arguments left).1.map
          Entry.undefaulted,
        (handOut (command.defaulting defaults) occurrences scope arguments left).2) := by
  induction arguments generalizing left with
  | nil => rfl
  | cons argument rest ih =>
      cases hflag : argument.isFlag with
      | true =>
          simp only [handOut_cons_of_isFlag _ occurrences scope hflag, ih, List.map_cons,
            Entry.undefaulted_ofArgument]
      | false =>
          simp only [handOut_cons_of_not_isFlag _ occurrences scope hflag, ih, List.map_cons,
            Entry.undefaulted_ofArgument]

theorem resolveTokens_undefaulted (command : Command α) (defaults : Dict ScopeKey Value)
    (tokens : List Token) :
    resolveTokens (command.defaulting ∅) tokens =
      (resolveTokens (command.defaulting defaults) tokens).undefaulted := by
  have hleading : leadingPart (command.defaulting ∅) tokens =
      ((leadingPart (command.defaulting defaults) tokens).1.map Entry.undefaulted,
        (leadingPart (command.defaulting defaults) tokens).2) :=
    handOut_undefaulted command defaults _ none command.leading _
  rcases activated?_cases (command.defaulting defaults) tokens with
    hnone | ⟨word, left, subcommand, hleft, hactive⟩
  · have hsame : activated? (command.defaulting ∅)
        (leadingPart (command.defaulting ∅) tokens).2 = none := by
      rw [hleading]
      exact hnone
    rw [resolveTokens_of_inactive hnone, resolveTokens_of_inactive hsame, hleading,
      Resolution.undefaulted_ofEntries, handOut_undefaulted command defaults, List.map_append]
    rfl
  · have hsame : (leadingPart (command.defaulting ∅) tokens).2 = word :: left := by
      rw [hleading]
      exact hleft
    have hnamed : activated? (command.defaulting ∅) (word :: left) = some subcommand := hactive
    have hinner : innerPart (command.defaulting ∅) subcommand tokens left =
        ((innerPart (command.defaulting defaults) subcommand tokens left).1.map
            Entry.undefaulted,
          (innerPart (command.defaulting defaults) subcommand tokens left).2) :=
      handOut_undefaulted command defaults _ _ subcommand.subarguments _
    rw [resolveTokens_of_active hleft hactive, resolveTokens_of_active hsame hnamed, hleading,
      hinner, Resolution.undefaulted_ofEntries, handOut_undefaulted command defaults,
      List.map_append, List.map_append]
    rfl

end Message

/-- Named options are looked up alike whatever the defaults. -/
theorem Resolution.ofOptions_undefaulted (command : Command α) (defaults : Dict ScopeKey Value)
    (options : Dict String Value) (active : Option String) :
    ofOptions (command.defaulting ∅) options active =
      (ofOptions (command.defaulting defaults) options active).undefaulted := by
  rw [ofOptions, ofOptions, undefaulted_ofEntries, flatMap_entriesOf, flatMap_entriesOf,
    List.map_map]
  refine congrArg (ofEntries · active) (List.map_congr_left fun place _ => ?_)
  exact (Entry.undefaulted_ofArgument command defaults _ _ _).symm

/-- A typed command without its defaults resolves what it resolves with them, and lacks only
what they put in. -/
theorem Command.resolve_undefaulted {command : Command α} (htype : command.type = .chatInput)
    (defaults : Dict ScopeKey Value) (invocation : Invocation) :
    (command.defaulting ∅).resolve invocation =
      ((command.defaulting defaults).resolve invocation).map Resolution.undefaulted := by
  have hmenu : ∀ given, (command.defaulting given).type.isContextMenu = false := by
    intro given
    rw [defaulting, htype]
    rfl
  have hunnamed : (command.defaulting ∅).hasUnnamed = (command.defaulting defaults).hasUnnamed :=
    rfl
  unfold resolve
  rw [hmenu, hmenu, hunnamed]
  split
  next => rfl
  next =>
      cases invocation.raw with
      | some raw => exact congrArg Except.ok (resolveTokens_undefaulted command defaults _)
      | none =>
          simp only [resolveOptions, Bool.false_eq_true, if_false]
          cases invocation.subcommand with
          | none =>
              exact congrArg Except.ok (Resolution.ofOptions_undefaulted command defaults _ none)
          | some name =>
              have hnamed : (command.defaulting ∅).subcommand? name =
                  (command.defaulting defaults).subcommand? name := rfl
              simp only [hnamed]
              cases (command.defaulting defaults).subcommand? name with
              | none => rfl
              | some subcommand =>
                  exact congrArg Except.ok
                    (Resolution.ofOptions_undefaulted command defaults _ (some name))

/-! ## Entries -/

/-- An entry is that of a place: it has the name, the scope and, of a flag, the token of the
parameter, and it is marked as defaulted only where an optional positional parameter has the
default that is declared under its own key. -/
structure Entry.Stands (entry : Entry) (defaults : Dict ScopeKey Value)
    (place : Option String × Argument) : Prop where
  key : entry.key = placeKey place
  token : place.2.isFlag = true → ∃ token, place.2.token = some token ∧ entry.flag = some token
  unmarked : place.2.isFlag = false → entry.flag = none
  defaulted : entry.defaulted = true → place.2.kind = .positional ∧ place.2.optional = true ∧
    ∃ value, defaults.get? (placeKey place) = some value ∧ entry.value = some value

/-- Only what is not given is defaulted, and then the fallback is its value. -/
theorem Entry.fallback?_of_defaulted {command : Command α} {scope : Option String}
    {argument : Argument} {given : Option Value}
    (h : (ofArgument command scope argument given).defaulted = true) :
    ∃ value, fallback? command scope argument = some value ∧
      (ofArgument command scope argument given).value = some value := by
  cases given with
  | some value => simp [ofArgument] at h
  | none =>
      obtain ⟨value, hvalue⟩ := Option.isSome_iff_exists.mp h
      exact ⟨value, hvalue, hvalue⟩

/-- A fallback is the declared default of an optional positional parameter. -/
theorem Entry.default_of_fallback? {command : Command α} {scope : Option String}
    {argument : Argument} {value : Value} (hkept : argument.Kept)
    (h : fallback? command scope argument = some value) :
    argument.kind = .positional ∧ argument.optional = true ∧
      command.defaults.get? ⟨scope, argument.name⟩ = some value := by
  unfold fallback? at h
  split at h
  next hoptional =>
      rw [Bool.and_eq_true, Bool.not_eq_true'] at hoptional
      exact ⟨hkept.form.positional_of_not_flag hoptional.2, hoptional.1, h⟩
  next => cases h

theorem Message.Lookup.stands (command : Command α) {lookup : Lookup}
    (hkept : lookup.parameter.Kept) :
    (lookup.entry command).Stands command.defaults lookup.place where
  key := rfl
  token := by
    intro hflag
    obtain ⟨token, htoken⟩ := hkept.form.isFlag_iff.mp hflag
    refine ⟨token, htoken, ?_⟩
    rw [← htoken]
    exact if_pos hflag
  unmarked := by
    intro hflag
    exact if_neg (Bool.eq_false_iff.mp hflag)
  defaulted := by
    intro hdefaulted
    obtain ⟨value, hfallback, hvalue⟩ := Entry.fallback?_of_defaulted hdefaulted
    obtain ⟨hkind, hoptional, hdefault⟩ := Entry.default_of_fallback? hkept hfallback
    exact ⟨hkind, hoptional, value, hdefault, hvalue⟩

/-! ## Coverage -/

/-- A resolution covers the scope of a command: each parameter of the command itself and of the
active subcommand has exactly one entry, among the flags if it is one and else among the
arguments, and there is no other entry. -/
structure Resolution.Covers (resolution : Resolution) (command : Command α) : Prop where
  /-- Only a declared subcommand is active. -/
  active : ∀ name ∈ resolution.subcommand,
    ∃ subcommand, command.subcommand? name = some subcommand
  /-- The parameters in effect have different keys. -/
  distinct : ((command.places resolution.subcommand).map placeKey).Nodup
  args : (resolution.args.map Entry.key).Perm
    (countedKeys (fun parameter => !parameter.isFlag) (command.places resolution.subcommand))
  flags : (resolution.flags.map Entry.key).Perm
    (countedKeys Argument.isFlag (command.places resolution.subcommand))
  entries : ∀ entry ∈ resolution.args ++ resolution.flags,
    ∃ place ∈ command.places resolution.subcommand, entry.Stands command.defaults place

/-- Among entries with different keys each is found by its name and its scope. -/
theorem Entry.find?_of_distinct {entries : List Entry}
    (hdistinct : (entries.map Entry.key).Nodup) {entry : Entry} (hmem : entry ∈ entries) :
    (entries.find? fun other =>
        other.name == entry.name && other.subcommand == entry.subcommand) = some entry := by
  induction entries with
  | nil => cases hmem
  | cons first rest ih =>
      obtain ⟨hfirst, hrest⟩ := List.nodup_cons.mp hdistinct
      rcases List.mem_cons.mp hmem with rfl | hmem
      · exact List.find?_cons_of_pos (by simp)
      · rw [List.find?_cons_of_neg]
        · exact ih hrest hmem
        · intro hsame
          simp only [Bool.and_eq_true, beq_iff_eq] at hsame
          refine hfirst (List.mem_map.mpr ⟨entry, hmem, ?_⟩)
          rw [key, key, hsame.1, hsame.2]

namespace Resolution.Covers

variable {command : Command α} {resolution : Resolution}

theorem distinct_args (h : resolution.Covers command) :
    (resolution.args.map Entry.key).Nodup :=
  h.args.nodup_iff.mpr (h.distinct.sublist ((List.filter_sublist).map placeKey))

theorem distinct_flags (h : resolution.Covers command) :
    (resolution.flags.map Entry.key).Nodup :=
  h.flags.nodup_iff.mpr (h.distinct.sublist ((List.filter_sublist).map placeKey))

end Resolution.Covers

namespace Command

variable {command : Command α}

/-- A row of entries for the places in effect covers the scope. -/
theorem WellFormed.covers_of_lists (h : command.WellFormed) {defaults : Dict ScopeKey Value}
    {resolution : Resolution} {places : List (Option String × Argument)}
    (hlists : resolution.Lists (command.defaulting defaults) places)
    (hperm : places.Perm (command.places resolution.subcommand))
    (hactive : ∀ name ∈ resolution.subcommand,
      ∃ subcommand, command.subcommand? name = some subcommand) :
    resolution.Covers (command.defaulting defaults) := by
  have hkept : ∀ place ∈ places, place.2.Kept :=
    fun place hplace => h.kept_of_place (hperm.mem_iff.mp hplace)
  constructor
  · exact hactive
  · exact h.distinct_places _
  · rw [hlists.keys_args hkept]
    exact countedKeys_perm _ hperm
  · rw [hlists.keys_flags hkept]
    exact countedKeys_perm _ hperm
  · intro entry hmem
    obtain ⟨lookup, hplace, rfl⟩ := hlists.exists_of_mem hmem
    exact ⟨lookup.place, hperm.mem_iff.mp hplace, lookup.stands _ (hkept _ hplace)⟩

/-- A message resolves to the places in effect under the subcommand it activates. -/
theorem WellFormed.covers_resolveTokens (h : command.WellFormed) (defaults : Dict ScopeKey Value)
    (tokens : List Token) :
    (resolveTokens (command.defaulting defaults) tokens).Covers (command.defaulting defaults) := by
  have hnamed : ∀ subcommand ∈ activeIn (command.defaulting defaults) tokens,
      (command.defaulting defaults).subcommand? subcommand.name = some subcommand :=
    fun subcommand hactive => subcommand?_of_activeIn hactive
  refine h.covers_of_lists (lists_resolveTokens _ tokens) ?_ ?_
  · rw [subcommand_resolveTokens]
    exact h.placesIn_perm hnamed
  · rw [subcommand_resolveTokens]
    intro name hname
    obtain ⟨subcommand, hactive, rfl⟩ := Option.map_eq_some_iff.mp hname
    exact ⟨subcommand, hnamed subcommand hactive⟩

theorem WellFormed.covers_resolve (h : command.WellFormed) (htype : command.type = .chatInput)
    (defaults : Dict ScopeKey Value) {invocation : Invocation} {resolution : Resolution}
    (hresolve : (command.defaulting defaults).resolve invocation = .ok resolution) :
    resolution.Covers (command.defaulting defaults) := by
  have hchat : (command.defaulting defaults).type = .chatInput := htype
  rcases resolve_ok hchat hresolve with ⟨raw, -, rfl⟩ | ⟨-, rfl, hnamed⟩
  · exact h.covers_resolveTokens defaults (tokens raw)
  · exact h.covers_of_lists (Resolution.lists_ofOptions _ _ _) (List.Perm.refl _) hnamed

/-- Whatever defaults a declared typed command is given, what it resolves covers its scope.  It
resolves the same without any default, but for the entries that are marked as defaulted, so
no required parameter and no flag ever receives one. -/
theorem resolve_covers (hdeclared : command.Declared) (htype : command.type = .chatInput)
    (defaults : Dict ScopeKey Value) {invocation : Invocation} {resolution : Resolution}
    (h : (command.defaulting defaults).resolve invocation = .ok resolution) :
    resolution.Covers (command.defaulting defaults) ∧
      (command.defaulting ∅).resolve invocation = .ok resolution.undefaulted := by
  refine ⟨hdeclared.wellFormed.covers_resolve htype defaults h, ?_⟩
  rw [resolve_undefaulted htype defaults, h]
  rfl

end Command

/-- Defaults for the size, for the dish, which is required, and for the flag. -/
def pantry : Dict ScopeKey Value :=
  ((Dict.empty.insert ⟨none, "size"⟩ (.text "small")).insert ⟨some "add", "dish"⟩
    (.text "soup")).insert ⟨some "add", "urgent"⟩ (.text "-u")

/-- Of these defaults only the one for the size reaches the order. -/
theorem order_covered :
    order.Declared ∧ order.type = .chatInput ∧
      ∃ resolution,
        (order.defaulting pantry).resolve
          { Invocation.plain "order" "42" with subcommand := some "add" } = .ok resolution ∧
        (resolution.args ++ resolution.flags).map Entry.summary =
          [(none, "size", some (.text "small")), (some "add", "dish", none),
            (some "add", "urgent", none)] ∧
        resolution.Covers (order.defaulting pantry) ∧
        (order.defaulting ∅).resolve
          { Invocation.plain "order" "42" with subcommand := some "add" } =
            .ok resolution.undefaulted :=
  ⟨order_declared, rfl, _, rfl, rfl, Command.resolve_covers order_declared rfl pantry rfl⟩

end SlashCommand
