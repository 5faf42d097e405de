import SlashCommand.Proofs.Resolution.Agreement
import SlashCommand.Proofs.Resolution.Coercion

/-!
# The values of positional parameters

The row of positional parameters is laid beside the row of tokens.  In front of the first
variadic parameter each one has the token at its own place, coerced to its datatype; the variadic
one has the texts of all tokens from its place on, and nothing is left behind it.  An optional
parameter without a value falls back to the default of its scope.
-/

namespace SlashCommand

variable {α : Type}

/-- The entry that records the value of a positional parameter, or its lack of one. -/
inductive Entry.Records (command : Command α) (scope : Option String) (parameter : Argument) :
    Option Value → Entry → Prop where
  | given (value : Value) :
      Records command scope parameter (some value)
        { name := parameter.name
          value := some value
          flag := none
          subcommand := scope
          defaulted := false }
  | fallback {value : Value} (optional : parameter.optional = true)
      (declared : command.defaults.get? ⟨scope, parameter.name⟩ = some value) :
      Records command scope parameter none
        { name := parameter.name
          value := some value
          flag := none
          subcommand := scope
          defaulted := true }
  | absent (undeclared : parameter.optional = true →
      command.defaults.get? ⟨scope, parameter.name⟩ = none) :
      Records command scope parameter none
        { name := parameter.name
          value := none
          flag := none
          subcommand := scope
          defaulted := false }

theorem Entry.records_ofArgument (command : Command α) (scope : Option String)
    {parameter : Argument} (hplain : parameter.isFlag = false) (given : Option Value) :
    Entry.Records command scope parameter given
      (Entry.ofArgument command scope parameter given) := by
  unfold Entry.ofArgument
  cases given with
  | some value =>
      rw [if_neg (by simp [hplain])]
      exact .given value
  | none =>
      cases hfallback : Entry.fallback? command scope parameter with
      | none =>
          simp only [hplain]
          refine .absent fun hoptional => ?_
          rw [← hfallback]
          simp [Entry.fallback?, hoptional, hplain]
      | some value =>
          simp only [hplain]
          have hoptional : parameter.optional = true := by
            by_contra hrequired
            simp [Entry.fallback?, hrequired] at hfallback
          refine .fallback hoptional ?_
          rw [← hfallback]
          simp [Entry.fallback?, hoptional, hplain]

namespace Message

/-- What a row of tokens holds for the positional parameter at a place, where the first variadic
parameter of its row stands at `first`. -/
inductive Due (tokens : List Token) (first place : Nat) (parameter : Argument) :
    Option Value → Prop where
  | own {token : Token} {value : Value} (before : place < first)
      (held : tokens[place]? = some token)
      (coerced : Coerces parameter.datatype token.text value) :
      Due tokens first place parameter (some value)
  | missing (before : place < first) (short : tokens.length ≤ place) :
      Due tokens first place parameter none
  | rest (reached : place = first) :
      Due tokens first place parameter (some (.list ((tokens.drop place).map Token.text)))
  | empty (behind : first < place) (variadic : parameter.variadic = true) :
      Due tokens first place parameter (some (.list []))
  | spent (behind : first < place) (single : parameter.variadic = false) :
      Due tokens first place parameter none

theorem due_share (tokens : List Token) (first place : Nat) (parameter : Argument) :
    Due tokens first place parameter (share tokens first place parameter) := by
  unfold share
  split
  next hbefore =>
      cases htoken : tokens[place]? with
      | none => exact .missing hbefore (List.getElem?_eq_none_iff.mp htoken)
      | some token => exact .own hbefore htoken (valueOf_eq_iff.mp rfl)
  next hbehind =>
      split
      next hreached => exact .rest hreached
      next hpassed =>
          have hfirst : first < place := by omega
          split
          next hvariadic => exact .empty hfirst hvariadic
          next hsingle => exact .spent hfirst (by simpa using hsingle)

/-- The entries of parameters at some places, one for each, in which every positional parameter
has what a row of tokens holds for it. -/
structure DealtOut (command : Command α) (places : List (Option String × Argument))
    (tokens : List Token) (entries : List Entry) : Prop where
  length : entries.length = places.length
  owned : ∀ pair ∈ places.zip entries,
    pair.2.name = pair.1.2.name ∧ pair.2.subcommand = pair.1.1 ∧
      pair.2.flag = if pair.1.2.isFlag then pair.1.2.token else none
  positional : ∀ (place : Nat) (scope : Option String) (parameter : Argument) (entry : Entry),
    ((places.zip entries).filter fun pair => !pair.1.2.isFlag)[place]? =
        some ((scope, parameter), entry) →
      ∃ given,
        Due tokens ((positionalIn places).findIdx Argument.variadic) place parameter given ∧
          Entry.Records command scope parameter given entry

theorem HandsOut.dealtOut {command : Command α} {places : List (Option String × Argument)}
    {row : List Token} {entries : List Entry} (h : HandsOut command places row entries) :
    DealtOut command places row entries := by
  obtain ⟨found, rfl, rfl, hgiven⟩ := h
  have hzip : (found.map Lookup.place).zip (found.map (Lookup.entry command)) =
      found.map fun lookup => (lookup.place, lookup.entry command) := List.zip_map'
  refine ⟨by simp, ?_, ?_⟩
  · rw [hzip]
    intro pair hpair
    obtain ⟨lookup, -, rfl⟩ := List.mem_map.mp hpair
    exact ⟨rfl, rfl, rfl⟩
  · intro place scope parameter entry hentry
    rw [hzip, List.filter_map, List.getElem?_map] at hentry
    obtain ⟨lookup, hlookup, hpair⟩ := Option.map_eq_some_iff.mp hentry
    cases hpair
    have hplain : lookup.parameter.isFlag = false := by
      have hmem := (List.mem_filter.mp (List.mem_of_getElem? hlookup)).2
      simpa [Lookup.place] using hmem
    have hparameter : (positionalIn (found.map Lookup.place))[place]? = some lookup.parameter := by
      rw [positionalIn, List.map_map, List.filter_map, List.getElem?_map]
      exact Option.map_eq_some_iff.mpr ⟨lookup, hlookup, rfl⟩
    have hshare : lookup.given = share row
        ((positionalIn (found.map Lookup.place)).findIdx Argument.variadic) place
          lookup.parameter := by
      have hplace := congrArg (fun values => values[place]?) hgiven
      rw [shares, List.getElem?_mapIdx, hparameter, List.getElem?_map] at hplace
      obtain ⟨other, hother, hsame⟩ := Option.map_eq_some_iff.mp hplace
      cases hother.symm.trans hlookup
      exact hsame
    refine ⟨lookup.given, ?_, Entry.records_ofArgument command _ hplain _⟩
    rw [hshare]
    exact due_share _ _ _ _

/-- The positional tokens of a message are handed out in order.  They are the tokens that no
flag of the command itself claims; a subcommand is active exactly when the one right behind
those of the leading parameters names it, and then that one is left out and so are the
tokens behind it that a flag of the subcommand claims.  The parameters in scope that are no
flags share them: each gets the one at its place, coerced to its datatype, the first
variadic one gets all from its place on, and none is left for those behind it. -/
theorem resolve_handsOut (command : Command α) (raw : String) :
    let spare := unclaimed (flagTokens command.arguments) (flagTokens command.flags) (tokens raw)
    ∃ active entries,
      (∀ subcommand, active = some subcommand ↔ Names command spare subcommand) ∧
      resolve command raw = Resolution.ofEntries entries (active.map Argument.name) ∧
      DealtOut command (placesIn command active) (sharedTokens command spare active) entries := by
  intro spare
  obtain ⟨active, entries, hactive, hresolve, hentries⟩ := exists_handsOut command raw
  exact ⟨active, entries, hactive, hresolve, hentries.dealtOut⟩

end Message

/-! ## A purchase -/

def expressParameter : Argument :=
  { requiredText "express" with datatype := .boolean }

/-- A subcommand with a truth value and a flag. -/
def addPurchase : Argument :=
  { Argument.subcommand "add" fillerDescription with
    subarguments := [expressParameter, urgentFlag] }

def countParameter : Argument :=
  { requiredText "count" with datatype := .integer }

def priceParameter : Argument :=
  { requiredText "price" with
    datatype := .number
    optional := true }

def notesParameter : Argument :=
  { requiredText "notes" with
    optional := true
    variadic := true }

/-- A command with a parameter of every datatype that tokens are coerced to. -/
def purchase : Command Unit :=
  { errand with
    arguments := [countParameter, priceParameter, addPurchase, notesParameter]
    defaults := Dict.empty.insert ⟨none, "price"⟩ (.number 9) }

theorem purchase_dealtOut :
    (∃ entries,
      Message.resolve purchase "7 2.5 add YES -u now milk “two eggs”" =
        Resolution.ofEntries entries (some "add") ∧
      Message.DealtOut purchase
        [(none, countParameter), (none, priceParameter), (some "add", expressParameter),
          (some "add", urgentFlag), (none, notesParameter)]
        [⟨"7", false⟩, ⟨"2.5", false⟩, ⟨"YES", false⟩, ⟨"milk", false⟩, ⟨"two eggs", true⟩]
        entries) ∧
    (Message.resolve purchase "7 2.5 add YES -u now milk “two eggs”").args =
      [⟨"count", some (.integer 7), none, none, false⟩,
        ⟨"price", some (.number 2.5), none, none, false⟩,
        ⟨"express", some (.bool true), none, some "add", false⟩,
        ⟨"notes", some (.list ["milk", "two eggs"]), none, none, false⟩] ∧
    (Message.resolve purchase "many").args =
      [⟨"count", some (.text "many"), none, none, false⟩,
        ⟨"price", some (.number 9), none, none, true⟩,
        ⟨"notes", some (.list []), none, none, false⟩] := by
  refine ⟨?_, rfl, rfl⟩
  obtain ⟨active, entries, hactive, hresolve, hdealt⟩ :=
    Message.resolve_handsOut purchase "7 2.5 add YES -u now milk “two eggs”"
  obtain rfl : active = some addPurchase :=
    (hactive addPurchase).mpr ⟨by unfold Message.Single; decide, _, rfl, rfl, rfl⟩
  exact ⟨entries, hresolve, hdealt⟩

end SlashCommand
