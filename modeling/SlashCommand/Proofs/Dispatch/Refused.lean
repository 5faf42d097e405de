import SlashCommand.Proofs.Dispatch.Registration

/-!
# Refused registrations

A registration writes to two stores of a dispatcher, its suggesters and its commands.  Done in
place, write by write, it asks the platform before it touches either, so a refused one changes
nothing but the platform.  A history of registrations therefore ends in the very dispatcher in
which its accepted calls alone end, and nothing done with it later can tell the two apart.
-/

namespace SlashCommand.Dispatcher

variable {α π : Type}

/-! ## Registering in place -/

/-- Registers a command in place, on a dispatcher and the state of its platform.  What was
written before a refusal would stay. -/
def enroll (command : Command α) :
    StateM (Dispatcher α π × π) (Except DispatchError Unit) := do
  let (dispatcher, state) ← get
  let (answer, after) := dispatcher.platform.register command.schema state
  set (dispatcher, after)
  if let .error reason := answer then
    return .error (.registrationRefused command.name reason)
  modify fun (dispatcher, state) =>
    ({ dispatcher with registry := dispatcher.registry.publish command }, state)
  modify fun (dispatcher, state) =>
    ({ dispatcher with commands := dispatcher.commands.insert command.name command }, state)
  return .ok ()

/-- A registration in place ends in the registered dispatcher when it is accepted, and in the
dispatcher as it was when it is refused. -/
theorem run_enroll (dispatcher : Dispatcher α π) (command : Command α) (state : π) :
    (enroll command).run (dispatcher, state) =
      match dispatcher.register command state with
      | (.ok next, after) => (.ok (), next, after)
      | (.error error, after) => (.error error, dispatcher, after) := by
  unfold enroll Dispatcher.register
  rcases hanswer : dispatcher.platform.register command.schema state with ⟨_ | _, _⟩
  · simp only [StateT.run_bind, StateT.run_get, StateT.run_set, pure_bind, hanswer]
    rfl
  · simp only [StateT.run_bind, StateT.run_get, StateT.run_set, pure_bind, hanswer]
    rfl

/-! ## Histories -/

/-- Registers commands in place, one after the other, and lists how each call ended. -/
def enrollEach (commands : List (Command α)) :
    StateM (Dispatcher α π × π) (List (Except DispatchError Unit)) :=
  commands.mapM enroll

/-- The commands whose calls ended without an error. -/
def admitted : List (Command α) → List (Except DispatchError Unit) → List (Command α)
  | command :: commands, .ok () :: outcomes => command :: admitted commands outcomes
  | _ :: commands, .error _ :: outcomes => admitted commands outcomes
  | _, _ => []

theorem run_enrollEach_cons (command : Command α) (rest : List (Command α))
    (before : Dispatcher α π × π) :
    (enrollEach (command :: rest)).run before =
      let (outcome, between) := (enroll command).run before
      let (outcomes, after) := (enrollEach rest).run between
      (outcome :: outcomes, after) := by
  simp only [enrollEach, List.mapM_cons, StateT.run_bind]
  rfl

/-- A history in place ends where the run of its registrations ends, and the commands it admits
are the accepted ones. -/
theorem run_enrollEach (dispatcher : Dispatcher α π) (state : π) (commands : List (Command α)) :
    ((enrollEach commands).run (dispatcher, state)).2 = dispatcher.registerEach state commands ∧
      admitted commands ((enrollEach commands).run (dispatcher, state)).1 =
        dispatcher.platform.accepted state commands := by
  induction commands generalizing dispatcher state with
  | nil => exact ⟨rfl, rfl⟩
  | cons command rest ih =>
      -- A refused call leaves the dispatcher for the rest as it was, so only the platform moves on.
      rw [run_enrollEach_cons, run_enroll]
      simp only [registerEach, Dispatcher.register, Platform.accepted]
      rcases dispatcher.platform.register command.schema state with ⟨_ | _, after⟩
      · exact ih dispatcher after
      · obtain ⟨hend, hadmitted⟩ := ih
          { dispatcher with
            registry := dispatcher.registry.publish command
            commands := dispatcher.commands.insert command.name command } after
        exact ⟨hend, congrArg (command :: ·) hadmitted⟩

/-- A history in which no call is refused has all of its commands accepted. -/
theorem accepted_eq_self {dispatcher : Dispatcher α π} {state : π} {commands : List (Command α)}
    (h : ∀ outcome ∈ ((enrollEach commands).run (dispatcher, state)).1, outcome = .ok ()) :
    dispatcher.platform.accepted state commands = commands := by
  induction commands generalizing dispatcher state with
  | nil => rfl
  | cons command rest ih =>
      rw [run_enrollEach_cons, run_enroll] at h
      simp only [Dispatcher.register, Platform.accepted] at h ⊢
      rcases hanswer : dispatcher.platform.register command.schema state with ⟨reason | _, after⟩
      · rw [hanswer] at h
        cases (List.forall_mem_cons.mp h).1
      · rw [hanswer] at h
        have hrest := ih (List.forall_mem_cons.mp h).2
        exact congrArg (command :: ·) hrest

/-! ## No trace -/

/-- A history of registrations with a new dispatcher: how the calls ended, the dispatcher and
the state of its platform. -/
def history (platform : Platform π) (lead : String) (state : π) (commands : List (Command α)) :
    List (Except DispatchError Unit) × Dispatcher α π × π :=
  (enrollEach commands).run ({ platform := platform, lead := lead }, state)

/-- A refused registration leaves no trace: a history ends in the same dispatcher as that of its
admitted commands alone, when none of these is refused the second time.  Under every name the
dispatcher knows the last admitted command. -/
theorem history_admitted {platform : Platform π} {lead : String} {state quiet : π}
    {commands kept : List (Command α)}
    (hkept : admitted commands (history platform lead state commands).1 = kept)
    (hquiet : ∀ outcome ∈ (history platform lead quiet kept).1, outcome = .ok ()) :
    (history platform lead state commands).2.1 = (history platform lead quiet kept).2.1 ∧
      ∀ name, (history platform lead state commands).2.1.commands.get? name =
        lastNamed? name kept := by
  obtain ⟨hend, hadmitted⟩ := run_enrollEach { platform := platform, lead := lead } state commands
  have hagain := (run_enrollEach { platform := platform, lead := lead } quiet kept).1
  have haccepted : platform.accepted state commands = kept := hadmitted.symm.trans hkept
  have hsame : platform.accepted quiet kept = kept := accepted_eq_self hquiet
  unfold history
  rw [hend, hagain]
  constructor
  · rw [registerEach_eq, registerEach_eq, haccepted, hsame]
  · intro name
    rw [← haccepted]
    exact get?_registerEach platform lead ∅ state commands name

/-- A platform that goes by a list of verdicts, and accepts when there are none left. -/
def verdictPlatform : Platform (List Bool) where
  register := fun _ verdicts =>
    (if verdicts.headD true then .ok () else .error "refused", verdicts.tail)
  respond := fun _ _ verdicts => (.ok (), verdicts)
  suggest := fun _ _ verdicts => (.ok (), verdicts)

/-- A refused replacement of a live command leaves that command and its suggester. -/
theorem item_history_admitted :
    ∃ suggested plain,
      itemCommand (.dynamic echoSuggester) = .ok suggested ∧ itemCommand .payload = .ok plain ∧
        admitted [suggested, plain]
            (history verdictPlatform "!" [true, false] [suggested, plain]).1 = [suggested] ∧
        (∀ outcome ∈ (history verdictPlatform "!" [] [suggested]).1, outcome = .ok ()) ∧
        (history verdictPlatform "!" [true, false] [suggested, plain]).2.1 =
          (history verdictPlatform "!" [] [suggested]).2.1 ∧
        ∀ name, (history verdictPlatform "!" [true, false] [suggested, plain]).2.1.commands.get?
          name = lastNamed? name [suggested] := by
  obtain ⟨suggested, hsuggested⟩ : ∃ command, itemCommand (.dynamic echoSuggester) = .ok command :=
    ⟨_, rfl⟩
  obtain ⟨plain, hplain⟩ : ∃ command, itemCommand .payload = .ok command := ⟨_, rfl⟩
  have hkept : admitted [suggested, plain]
      (history verdictPlatform "!" [true, false] [suggested, plain]).1 = [suggested] := rfl
  have hquiet : ∀ outcome ∈ (history verdictPlatform "!" [] [suggested]).1, outcome = .ok () :=
    fun outcome houtcome => List.mem_singleton.mp houtcome
  exact ⟨suggested, plain, hsuggested, hplain, hkept, hquiet, history_admitted hkept hquiet⟩

end SlashCommand.Dispatcher
