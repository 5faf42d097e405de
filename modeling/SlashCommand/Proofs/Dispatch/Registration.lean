import SlashCommand.Command.Builder
import SlashCommand.Dispatch.Dispatcher
import SlashCommand.Proofs.Dict

/-!
# Suggesters after registrations

A dispatcher registers commands one after the other, and the platform accepts or refuses
each of them.  Under every name the dispatcher knows the command that was accepted last.
Its registry keeps the suggesters of the last accepted command that has any, so the
suggesters of a replaced command live on when the command in its place has none.
-/

namespace SlashCommand

variable {α π : Type}

/-! ## Runs of registrations -/

/-- The commands a platform accepts when they are registered one after the other. -/
def Platform.accepted (platform : Platform π) (state : π) : List (Command α) → List (Command α)
  | [] => []
  | command :: rest =>
      match platform.register command.schema state with
      | (.ok (), after) => command :: platform.accepted after rest
      | (.error _, after) => platform.accepted after rest

/-- Registers commands one after the other.  A refused one leaves the dispatcher as it
was. -/
def Dispatcher.registerEach (dispatcher : Dispatcher α π) (state : π) :
    List (Command α) → Dispatcher α π × π
  | [] => (dispatcher, state)
  | command :: rest =>
      match dispatcher.register command state with
      | (.ok next, after) => next.registerEach after rest
      | (.error _, after) => dispatcher.registerEach after rest

/-- A run publishes the suggesters of the accepted commands and makes these commands
known, in order. -/
theorem Dispatcher.registerEach_eq (dispatcher : Dispatcher α π) (state : π)
    (commands : List (Command α)) :
    (dispatcher.registerEach state commands).1 =
      { dispatcher with
        registry :=
          (dispatcher.platform.accepted state commands).foldl Registry.publish dispatcher.registry
        commands :=
          (dispatcher.platform.accepted state commands).foldl
            (fun known command => known.insert command.name command) dispatcher.commands } := by
  induction commands generalizing dispatcher state with
  | nil => rfl
  | cons command rest ih =>
      simp only [registerEach, register, Platform.accepted]
      rcases dispatcher.platform.register command.schema state with ⟨_ | _, after⟩
      · exact ih dispatcher after
      · exact ih _ after

/-! ## The last command of a name -/

/-- The last command of a list with a name. -/
def lastNamed? (name : String) (commands : List (Command α)) : Option (Command α) :=
  commands.findRev? fun command => command.name == name

/-- The commands that have suggesters. -/
def suggesting (commands : List (Command α)) : List (Command α) :=
  commands.filter fun command => !command.autocomplete.isEmpty

theorem lastNamed?_cons (name : String) (command : Command α) (rest : List (Command α)) :
    lastNamed? name (command :: rest) =
      (lastNamed? name rest).or (if command.name = name then some command else none) := by
  unfold lastNamed?
  rw [List.findRev?]
  cases rest.findRev? fun command => command.name == name with
  | none => simp
  | some latest => simp

/-- After commands are made known in order, the last one of a name is known under it, or else
the one that was known before. -/
theorem get?_foldl_insert_name (known : Dict String (Command α)) (commands : List (Command α))
    (name : String) :
    (commands.foldl (fun known command => known.insert command.name command) known).get? name =
      (lastNamed? name commands).or (known.get? name) := by
  induction commands generalizing known with
  | nil => rfl
  | cons command rest ih =>
      rw [List.foldl_cons, ih, lastNamed?_cons, Option.or_assoc]
      by_cases hname : command.name = name
      · subst hname
        simp [Dict.get?_insert_self]
      · simp [hname, Dict.get?_insert_of_ne]

/-- A dispatcher that knew no command knows under a name the last accepted one. -/
theorem Dispatcher.get?_registerEach (platform : Platform π) (lead : String)
    (registry : Registry α) (state : π) (commands : List (Command α)) (name : String) :
    let fresh : Dispatcher α π := { platform := platform, lead := lead, registry := registry }
    (fresh.registerEach state commands).1.commands.get? name =
      lastNamed? name (platform.accepted state commands) := by
  intro fresh
  have hempty : (∅ : Dict String (Command α)).get? name = none := rfl
  simp only [registerEach_eq, get?_foldl_insert_name, fresh, hempty, Option.or_none]

/-- A name that no command has is the name of none with suggesters. -/
theorem lastNamed?_suggesting_eq_none {name : String} {commands : List (Command α)}
    (h : lastNamed? name commands = none) : lastNamed? name (suggesting commands) = none := by
  unfold lastNamed? at h ⊢
  rw [List.findRev?_eq_find?_reverse, List.find?_eq_none] at h ⊢
  intro command hmem
  refine h command ?_
  rw [List.mem_reverse, suggesting, List.mem_filter] at hmem
  exact List.mem_reverse.mpr hmem.1

/-- The last command of a name is the last one with suggesters if it has any. -/
theorem lastNamed?_suggesting {name : String} {commands : List (Command α)} {latest : Command α}
    (hlatest : lastNamed? name commands = some latest)
    (hany : latest.autocomplete.isEmpty = false) :
    lastNamed? name (suggesting commands) = some latest := by
  induction commands with
  | nil => cases hlatest
  | cons command rest ih =>
      rw [lastNamed?_cons] at hlatest
      rcases Option.or_eq_some_iff.mp hlatest with hrest | ⟨hnone, hself⟩
      · cases hempty : command.autocomplete.isEmpty with
        | true => simpa [suggesting, hempty] using ih hrest
        | false =>
            have hfound := ih hrest
            rw [suggesting] at hfound
            simp [suggesting, hempty, lastNamed?_cons, hfound]
      · split at hself
        next hname =>
            cases hself
            have hothers := lastNamed?_suggesting_eq_none hnone
            rw [suggesting] at hothers
            simp [suggesting, hany, lastNamed?_cons, hothers, hname]
        next => cases hself

/-! ## What the registry holds -/

/-- Publishing a command with suggesters replaces those under its name. -/
theorem Registry.get?_publish (registry : Registry α) (command : Command α) (name : String) :
    (registry.publish command).get? name =
      if command.autocomplete.isEmpty = false ∧ command.name = name then
        some command.autocomplete
      else
        registry.get? name := by
  unfold publish
  cases command.autocomplete.isEmpty with
  | true => simp
  | false =>
      by_cases hname : command.name = name
      · subst hname
        simp [Dict.get?_insert_self]
      · simp [hname, Dict.get?_insert_of_ne]

/-- After commands are published in order, the registry holds under a name the suggesters
of the last one with suggesters, or else what it held before. -/
theorem Registry.get?_foldl_publish (registry : Registry α) (commands : List (Command α))
    (name : String) :
    (commands.foldl Registry.publish registry).get? name =
      ((lastNamed? name (suggesting commands)).map Command.autocomplete).or
        (registry.get? name) := by
  induction commands generalizing registry with
  | nil => rfl
  | cons command rest ih =>
      rw [List.foldl_cons, ih, get?_publish]
      cases hempty : command.autocomplete.isEmpty with
      | true => simp [suggesting, hempty]
      | false =>
          have hsplit : suggesting (command :: rest) = command :: suggesting rest := by
            simp [suggesting, hempty]
          rw [hsplit, lastNamed?_cons]
          by_cases hname : command.name = name <;>
            cases lastNamed? name (suggesting rest) <;> simp [hname]

/-- The last command of a name has no suggesters, but an earlier one has, with one for the
given parameter. -/
def Outlived (name : String) (key : ScopeKey) (commands : List (Command α)) : Prop :=
  (∃ latest, lastNamed? name commands = some latest ∧ latest.autocomplete.isEmpty = true) ∧
    ∃ earlier suggester, lastNamed? name (suggesting commands) = some earlier ∧
      earlier.autocomplete.get? key = some suggester

theorem get?_of_isEmpty {dict : Dict ScopeKey (Suggester α)} (h : dict.isEmpty = true)
    (key : ScopeKey) : dict.get? key = none := by
  rw [Dict.isEmpty, List.isEmpty_iff] at h
  simp [Dict.get?, h]

/-- The suggester of the last command with suggesters is that of the last command, unless
it outlived its command. -/
theorem suggester_eq_iff (name : String) (key : ScopeKey) (commands : List (Command α)) :
    ((lastNamed? name (suggesting commands)).bind fun command => command.autocomplete.get? key) =
        ((lastNamed? name commands).bind fun command => command.autocomplete.get? key) ↔
      ¬ Outlived name key commands := by
  cases hlatest : lastNamed? name commands with
  | none =>
      simp [Outlived, hlatest, lastNamed?_suggesting_eq_none hlatest]
  | some latest =>
      cases hempty : latest.autocomplete.isEmpty with
      | false => simp [Outlived, hlatest, hempty, lastNamed?_suggesting hlatest hempty]
      | true =>
          simp only [Outlived, hlatest, hempty, Option.bind_some, get?_of_isEmpty hempty,
            Option.some.injEq, exists_eq_left', true_and]
          rw [Option.bind_eq_none_iff]
          constructor
          · rintro hnone ⟨earlier, suggester, hearlier, hsuggester⟩
            rw [hnone earlier hearlier] at hsuggester
            cases hsuggester
          · intro hnone earlier hearlier
            refine Option.eq_none_iff_forall_ne_some.mpr fun suggester hsuggester => ?_
            exact hnone ⟨earlier, suggester, hearlier, hsuggester⟩

/-- Under a name and a key, a registry that was empty at first holds the suggester of the
last accepted command with suggesters.  That is the one of the last accepted command,
unless this has no suggesters and replaced a command that had one under the key. -/
theorem Dispatcher.suggester?_registerEach (platform : Platform π) (lead : String)
    (known : Dict String (Command α)) (state : π) (commands : List (Command α)) (name : String)
    (key : ScopeKey) :
    let fresh : Dispatcher α π := { platform := platform, lead := lead, commands := known }
    let accepted := platform.accepted state commands
    let held := (fresh.registerEach state commands).1.registry.suggester? name key
    held = (lastNamed? name (suggesting accepted)).bind (·.autocomplete.get? key) ∧
      (held = (lastNamed? name accepted).bind (·.autocomplete.get? key) ↔
        ¬ Outlived name key accepted) := by
  intro fresh accepted held
  have hheld : held = (lastNamed? name (suggesting accepted)).bind (·.autocomplete.get? key) := by
    have hempty : (∅ : Registry α).get? name = none := rfl
    simp only [held, Dispatcher.registerEach_eq, Registry.suggester?, Registry.get?_foldl_publish,
      fresh, hempty, Option.or_none, Option.bind_map, accepted]
    rfl
  refine ⟨hheld, ?_⟩
  rw [hheld]
  exact suggester_eq_iff name key accepted

/-! ## A suggester that outlives its command -/

/-- A platform that accepts everything. -/
def acceptingPlatform : Platform Unit where
  register := fun _ state => (.ok (), state)
  respond := fun _ _ state => (.ok (), state)
  suggest := fun _ _ state => (.ok (), state)

/-- Suggests the text that was typed. -/
def echoSuggester : Suggester Unit :=
  fun typed _ state => (.ok [typed], state)

/-- The command `todo` with an item whose values come from a source. -/
def itemCommand (source : ChoiceSource Unit) : Except BuildError (Command Unit) := do
  let declared ← Builder.calls .unnamed
    [.setCommand "todo" none, .addArgument "<item>" none source {}]
  declared.build.2

/-- Registered again with an item that has no suggester, the command still has the one of
its first registration. -/
theorem Dispatcher.item_suggester_outlives :
    ∃ suggested plain,
      itemCommand (.dynamic echoSuggester) = .ok suggested ∧ itemCommand .payload = .ok plain ∧
        let fresh : Dispatcher Unit Unit := { platform := acceptingPlatform, lead := "!" }
        let held := (fresh.registerEach () [suggested, plain]).1.registry.suggester? "todo"
          (.top "item")
        let accepted := acceptingPlatform.accepted () [suggested, plain]
        held = some echoSuggester ∧
          (lastNamed? "todo" accepted).bind (·.autocomplete.get? (.top "item")) = none :=
  ⟨_, _, rfl, rfl, rfl, rfl⟩

end SlashCommand
