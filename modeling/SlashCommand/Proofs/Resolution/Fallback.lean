import SlashCommand.Proofs.Resolution.Coverage
import SlashCommand.Proofs.Resolution.FlagValue

/-!
# Falling back to a default

An optional parameter that an invocation holds nothing for falls back to its default, with
one exception.  A variadic parameter that a message leaves no token for gets an empty list, and
its default is passed over.
-/

namespace SlashCommand

open Message

variable {α : Type}

/-! ## No token left -/

namespace Message

/-- Parameters leave no token exactly if one of them takes all, or if there are no more tokens
than parameters. -/
theorem leftBehind_eq_nil_iff {parameters : List Argument} {tokens : List Token} :
    leftBehind parameters tokens = [] ↔
      (∃ parameter ∈ parameters, parameter.variadic = true) ∨
        tokens.length ≤ parameters.length := by
  induction parameters generalizing tokens with
  | nil => simp [leftBehind]
  | cons parameter rest ih =>
      rw [leftBehind, List.foldl_cons, ← leftBehind, ih]
      cases hvariadic : parameter.variadic with
      | true => simp [take_left_of_variadic hvariadic, hvariadic]
      | false =>
          rw [take_left_of_single hvariadic]
          simp [hvariadic]

/-- The row of the parameters that a message hands tokens out to, each with its scope. -/
def rowIn (command : Command α) (active : Option Argument) : List (Option String × Argument) :=
  (placesIn command active).filter fun place => !place.2.isFlag

/-- The tokens that a message hands out. -/
def handedTokens (command : Command α) (raw : String) : List Token :=
  sharedTokens command
    (unclaimed (flagTokens command.arguments) (flagTokens command.flags) (tokens raw))
    (activeIn command (tokens raw))

/-- A message has no token left for a parameter: another one in front of it takes all of them,
or there are no more tokens than parameters in front of it. -/
def Starves (command : Command α) (raw : String) (place : Option String × Argument) : Prop :=
  ∃ front behind, rowIn command (activeIn command (tokens raw)) = front ++ place :: behind ∧
    ((∃ other ∈ front, other.2.variadic = true) ∨
      (handedTokens command raw).length ≤ front.length)

/-- What a parameter takes when no token is left. -/
def unfed (parameter : Argument) : Option Value :=
  if parameter.variadic then some (.list []) else none

theorem take_nil (parameter : Argument) : take parameter [] = (unfed parameter, []) := by
  cases hvariadic : parameter.variadic with
  | true => simp [take, unfed, hvariadic]
  | false => simp [take, unfed, hvariadic]

/-- A parameter that those in front of it leave no token for gets the entry of what it takes
then. -/
theorem HandsOut.mem_unfed {command : Command α} {places : List (Option String × Argument)}
    {row : List Token} {entries : List Entry} (h : HandsOut command places row entries)
    {front behind : List (Option String × Argument)} {scope : Option String}
    {parameter : Argument}
    (hsplit : (places.filter fun place => !place.2.isFlag) =
      front ++ (scope, parameter) :: behind)
    (hempty : leftBehind (front.map Prod.snd) row = []) :
    Entry.ofArgument command scope parameter (unfed parameter) ∈ entries := by
  obtain ⟨found, rfl, rfl, hgiven⟩ := h
  have hpositional : positionalIn (found.map Lookup.place) =
      front.map Prod.snd ++ parameter :: behind.map Prod.snd := by
    have hnames := congrArg (List.map Prod.snd) hsplit
    simpa [positionalIn, List.filter_map, Function.comp_def] using hnames
  have hrow : (found.filter fun lookup => !lookup.parameter.isFlag).map Lookup.place =
      front ++ (scope, parameter) :: behind := by
    rw [← hsplit, List.filter_map]
    rfl
  obtain ⟨served, rest, hfound, hserved, hrest⟩ := List.map_eq_append_iff.mp hrow
  obtain ⟨lookup, others, rfl, hplace, -⟩ := List.map_eq_cons_iff.mp hrest
  have hlookup : lookup ∈ found := by
    apply (List.filter_sublist (p := fun lookup : Lookup => !lookup.parameter.isFlag)).subset
    rw [hfound]
    exact List.mem_append_right served List.mem_cons_self
  have hvalues : served.map Lookup.given ++ lookup.given :: others.map Lookup.given =
      shares (front.map Prod.snd) row ++
        unfed parameter :: shares (behind.map Prod.snd) [] := by
    rw [← List.map_cons, ← List.map_append, ← hfound, hgiven, hpositional, shares_append, hempty,
      shares_cons, take_nil]
  have hlength : (served.map Lookup.given).length = (shares (front.map Prod.snd) row).length := by
    simp [shares, ← hserved]
  have htaken : lookup.given = unfed parameter :=
    (List.cons.inj (List.append_inj hvalues hlength).2).1
  have hentry : lookup.entry command =
      Entry.ofArgument command scope parameter (unfed parameter) := by
    obtain ⟨rfl, rfl⟩ := Prod.mk.inj hplace
    rw [Lookup.entry, htaken]
  rw [← hentry]
  exact List.mem_map_of_mem hlookup

/-- A parameter that a message starves gets the entry of what it takes without a token. -/
theorem mem_args_of_starves {command : Command α} (hwell : command.WellFormed) {raw : String}
    {scope : Option String} {parameter : Argument}
    (hmem : parameter ∈ parametersIn command.arguments scope)
    (h : Starves command raw (scope, parameter)) :
    Entry.ofArgument command scope parameter (unfed parameter) ∈
      (Message.resolve command raw).args := by
  obtain ⟨front, behind, hrow, hleft⟩ := h
  obtain ⟨entries, hresolve, hhands⟩ := handsOut_resolveTokens command (tokens raw)
  rw [ownExtraction, positional_eq_unclaimed (flagTokens_own_subset command)] at hhands
  have hplain : (!parameter.isFlag) = true := by
    have hin : (scope, parameter) ∈ rowIn command (activeIn command (tokens raw)) := by
      rw [hrow]
      exact List.mem_append_right front List.mem_cons_self
    exact (List.mem_filter.mp hin).2
  rw [Message.resolve, hresolve]
  refine List.mem_filter.mpr ⟨hhands.mem_unfed hrow (leftBehind_eq_nil_iff.mpr ?_), ?_⟩
  · rcases hleft with ⟨other, hmem, hvariadic⟩ | hfew
    · exact Or.inl ⟨other.2, List.mem_map_of_mem hmem, hvariadic⟩
    · rw [List.length_map]
      exact Or.inr hfew
  · rw [Entry.isFlag_ofArgument command scope _ (hwell.consistent.kept_of_mem hmem)]
    exact hplain

end Message

/-! ## Named options -/

/-- An option is missing when none has the name of the parameter, alone or behind that of its
subcommand. -/
theorem Resolution.option?_eq_none {options : Dict String Value} {scope : Option String}
    {parameter : Argument} (hname : options.get? parameter.name = none)
    (hkey : ∀ subcommand ∈ scope,
      options.get? (ScopeKey.display ⟨some subcommand, parameter.name⟩) = none) :
    option? options scope parameter = none := by
  cases scope with
  | none => simp [option?, hname]
  | some subcommand => simp [option?, hname, hkey subcommand rfl]

/-- Named options have the entry of each parameter in effect. -/
theorem Resolution.mem_args_ofOptions {command : Command α} (hwell : command.WellFormed)
    {options : Dict String Value} {active scope : Option String} {parameter : Argument}
    (hplace : (scope, parameter) ∈ command.places active) (hplain : parameter.isFlag = false) :
    entryOf command options scope parameter ∈ (ofOptions command options active).args := by
  refine List.mem_filter.mpr ⟨?_, ?_⟩
  · rw [flatMap_entriesOf]
    exact List.mem_map_of_mem (f := fun place => entryOf command options place.1 place.2) hplace
  · rw [entryOf, Entry.isFlag_ofArgument command scope _ (hwell.kept_of_place hplace), hplain]
    rfl

/-! ## Fallbacks -/

/-- The first argument of a name in a scope. -/
def Resolution.argIn? (resolution : Resolution) (scope : Option String) (name : String) :
    Option Entry :=
  resolution.args.find? fun entry => entry.name == name && entry.subcommand == scope

/-- An invocation holds nothing for a parameter: its message has no token left for it, or,
without a message, there is no option of its name, alone or behind that of its subcommand. -/
def Command.Unsupplied (command : Command α) (invocation : Invocation) (scope : Option String)
    (parameter : Argument) : Prop :=
  match invocation.raw with
  | some raw => Starves command raw (scope, parameter)
  | none => invocation.options.get? parameter.name = none ∧
      ∀ subcommand ∈ scope,
        invocation.options.get? (ScopeKey.display ⟨some subcommand, parameter.name⟩) = none

/-- What takes the place of a value that an invocation does not hold: nothing, except the empty
list of a variadic parameter in a message. -/
def Invocation.substitute (invocation : Invocation) (parameter : Argument) : Option Value :=
  if invocation.raw.isSome then unfed parameter else none

namespace Command

variable {command : Command α} {invocation : Invocation} {resolution : Resolution}
  {scope : Option String} {parameter : Argument}

/-- A parameter that an invocation holds nothing for has the entry of what takes its place. -/
theorem WellFormed.mem_args_of_unsupplied (h : command.WellFormed)
    (htype : command.type = .chatInput) (hresolve : command.resolve invocation = .ok resolution)
    (hplace : (scope, parameter) ∈ command.places resolution.subcommand)
    (hplain : parameter.isFlag = false)
    (hunsupplied : command.Unsupplied invocation scope parameter) :
    Entry.ofArgument command scope parameter (invocation.substitute parameter) ∈
      resolution.args := by
  rcases resolve_ok htype hresolve with ⟨raw, hraw, rfl⟩ | ⟨hraw, rfl, -⟩
  · rw [Unsupplied, hraw] at hunsupplied
    rw [Invocation.substitute, hraw]
    exact mem_args_of_starves h (mem_places.mp hplace).1 hunsupplied
  · rw [Unsupplied, hraw] at hunsupplied
    rw [Invocation.substitute, hraw,
      ← Resolution.option?_eq_none hunsupplied.1 hunsupplied.2]
    exact Resolution.mem_args_ofOptions h hplace hplain

/-- A parameter with a default that is in effect, and that an invocation holds nothing for,
resolves to this default and is marked so, exactly unless it is a variadic one in a message.
That one resolves to an empty list, which is not marked as a default. -/
theorem resolve_fallback_iff (hdeclared : command.Declared) (htype : command.type = .chatInput)
    (hresolve : command.resolve invocation = .ok resolution)
    (hplace : (scope, parameter) ∈ command.places resolution.subcommand) {value : Value}
    (hdefault : command.defaults.get? ⟨scope, parameter.name⟩ = some value)
    (hunsupplied : command.Unsupplied invocation scope parameter) :
    ∃ entry, resolution.argIn? scope parameter.name = some entry ∧
      ((entry.value = some value ∧ entry.defaulted = true) ↔
        ¬ (invocation.raw.isSome = true ∧ parameter.variadic = true)) ∧
      (invocation.raw.isSome = true → parameter.variadic = true →
        entry.value = some (.list []) ∧ entry.defaulted = false) := by
  have hwell := hdeclared.wellFormed
  have hfallback : Entry.fallback? command scope parameter = some value :=
    (hwell.fallback?_eq (mem_places.mp hplace).1).trans hdefault
  obtain ⟨hkind, -, -⟩ := Entry.default_of_fallback? (hwell.kept_of_place hplace) hfallback
  have hplain : parameter.isFlag = false := by
    rw [Argument.isFlag, hkind]
    rfl
  have hcovers : resolution.Covers command :=
    hwell.covers_resolve htype command.defaults hresolve
  have hmem := hwell.mem_args_of_unsupplied htype hresolve hplace hplain hunsupplied
  refine ⟨_, Entry.find?_of_distinct hcovers.distinct_args hmem, ?_, ?_⟩
  · cases hraw : invocation.raw.isSome with
    | false => simp [Entry.ofArgument, Invocation.substitute, hraw, hfallback]
    | true =>
        cases hvariadic : parameter.variadic with
        | false => simp [Entry.ofArgument, Invocation.substitute, unfed, hraw, hvariadic, hfallback]
        | true => simp [Entry.ofArgument, Invocation.substitute, unfed, hraw, hvariadic]
  · intro hraw hvariadic
    simp [Entry.ofArgument, Invocation.substitute, unfed, hraw, hvariadic]

end Command

/-- Without a token for the size the order is a large one. -/
theorem order_falls_back :
    order.Declared ∧ order.type = .chatInput ∧
      ∃ resolution entry, order.resolve (said "") = .ok resolution ∧
        (none, { requiredText "size" with optional := true }) ∈
          order.places resolution.subcommand ∧
        order.defaults.get? ⟨none, "size"⟩ = some (.text "large") ∧
        order.Unsupplied (said "") none { requiredText "size" with optional := true } ∧
        resolution.argIn? none "size" = some entry ∧
        entry.value = some (.text "large") ∧ entry.defaulted = true := by
  have hresolve : order.resolve (said "") = .ok (Message.resolve order "") := rfl
  have hplace : (none, { requiredText "size" with optional := true }) ∈
      order.places (Message.resolve order "").subcommand := List.mem_cons_self
  have hdefault : order.defaults.get? ⟨none, "size"⟩ = some (.text "large") := rfl
  have hunsupplied : order.Unsupplied (said "") none
      { requiredText "size" with optional := true } :=
    ⟨[], _, rfl, Or.inr (Nat.le_refl 0)⟩
  obtain ⟨entry, hentry, hiff, -⟩ :=
    Command.resolve_fallback_iff order_declared rfl hresolve hplace hdefault hunsupplied
  obtain ⟨hvalue, hdefaulted⟩ := hiff.mpr fun hvariadic => by cases hvariadic.2
  exact ⟨order_declared, rfl, _, entry, hresolve, hplace, hdefault, hunsupplied, hentry, hvalue,
    hdefaulted⟩

/-! ## A default that is passed over -/

/-- Any number of words, everything unless some are given. -/
def wordsParameter : Argument :=
  { requiredText "words" with
    optional := true
    variadic := true }

/-- A command that takes such words. -/
def search : Command Unit :=
  { errand with
    arguments := [wordsParameter]
    choices := ∅
    defaults := Dict.empty.insert ⟨none, "words"⟩ (.text "everything") }

theorem search_declared : search.Declared := by
  refine ⟨Builder.run .unnamed
    [.setCommand "todo" none,
      .addArgument "[words...]" none .payload { default := some (.text "everything") }], ?_, rfl⟩
  exact .call (.call .unnamed _) _

/-- An empty message passes the default over, which named options fall back to. -/
theorem search_passes_over :
    search.Declared ∧ search.type = .chatInput ∧
      search.defaults.get? ⟨none, "words"⟩ = some (.text "everything") ∧
      search.Unsupplied (said "") none wordsParameter ∧
      ∃ spoken named, search.resolve (said "") = .ok spoken ∧
        (none, wordsParameter) ∈ search.places spoken.subcommand ∧
        (spoken.args.map fun entry => (entry.value, entry.defaulted)) =
          [(some (.list []), false)] ∧
        search.resolve (Invocation.plain "todo" "42") = .ok named ∧
        (named.args.map fun entry => (entry.value, entry.defaulted)) =
          [(some (.text "everything"), true)] :=
  ⟨search_declared, rfl, rfl, ⟨[], [], rfl, Or.inr (Nat.le_refl 0)⟩, _, _, rfl,
    List.mem_cons_self, rfl, rfl, rfl⟩

end SlashCommand
