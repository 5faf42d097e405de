import SlashCommand.Proofs.Dispatch.Recording
import SlashCommand.Proofs.Dispatch.Registration
import SlashCommand.Proofs.Resolution.Agreement

/-!
# Suggestions for the focused parameter

A request for suggestions names a parameter.  The dispatcher looks its suggester up in the
scope of the active subcommand, and the text typed so far under the bare name.  Named options
resolve more freely: a parameter of the command itself is found while a subcommand is active,
and the option of a parameter may stand under its name behind the subcommand.  A request is
answered by the suggester of the parameter, with the text of its option, exactly where this
makes no difference.
-/

namespace SlashCommand

variable {α π : Type}

/-! ## Parameters in view -/

/-- A parameter can be given while a subcommand is active or none is: it is one of the command
itself or of that subcommand. -/
structure Command.InView (command : Command α) (active scope : Option String)
    (parameter : Argument) : Prop where
  place : scope = none ∨ scope = active
  declared : parameter ∈ parametersIn command.arguments scope

/-- A parameter in view has a suggester, and no other parameter in view has its name. -/
structure Command.Suggests (command : Command α) (active scope : Option String)
    (parameter : Argument) (suggester : Suggester α) : Prop where
  inView : command.InView active scope parameter
  suggester : command.autocomplete.get? ⟨scope, parameter.name⟩ = some suggester
  alone : ∀ own other, command.InView active own other → other.name = parameter.name → own = scope

/-- The text of the option that named options hold for a parameter, empty when there is none. -/
def Resolution.typed (options : Dict String Value) (scope : Option String)
    (parameter : Argument) : String :=
  ((option? options scope parameter).map Value.display).getD ""

/-- A request for suggestions looks past a parameter: it is one of the command itself while a
subcommand is active, or its option stands only behind the subcommand and has a text. -/
inductive Overlooked (options : Dict String Value) (active scope : Option String)
    (parameter : Argument) : Prop where
  | outside (hscope : scope ≠ active)
  | keyed {value : Value} (hbare : options.get? parameter.name = none)
      (hoption : Resolution.option? options scope parameter = some value)
      (htext : value.display ≠ "")

/-- The text under the bare name is that of the option, unless the option stands only behind
the subcommand and has a text. -/
theorem typed_eq_iff (options : Dict String Value) (scope : Option String)
    (parameter : Argument) :
    ((options.get? parameter.name).map Value.display).getD "" =
        Resolution.typed options scope parameter ↔
      ¬ Overlooked options scope scope parameter := by
  cases hbare : options.get? parameter.name with
  | some value =>
      have hsame : Resolution.option? options scope parameter = some value := by
        unfold Resolution.option?
        rw [hbare]
      rw [Resolution.typed, hsame]
      refine iff_of_true rfl ?_
      rintro (hscope | ⟨hmissing, _, _⟩)
      · exact hscope rfl
      · rw [hbare] at hmissing
        cases hmissing
  | none =>
      rw [Resolution.typed]
      cases hoption : Resolution.option? options scope parameter with
      | none =>
          refine iff_of_true rfl ?_
          rintro (hscope | ⟨_, hfound, _⟩)
          · exact hscope rfl
          · rw [hoption] at hfound
            cases hfound
      | some value =>
          simp only [Option.map_none, Option.getD_none, Option.map_some, Option.getD_some]
          constructor
          · rintro hempty (hscope | ⟨_, hfound, htext⟩)
            · exact hscope rfl
            · rw [hoption] at hfound
              cases hfound
              exact htext hempty.symm
          · intro hseen
            exact Classical.byContradiction fun htext =>
              hseen (.keyed hbare hoption (Ne.symm htext))

/-! ## Answered requests -/

/-- The suggestions that are shown: the first ones, and none where the suggester failed. -/
def shownSuggestions (outcome : Except String (List String)) : List String :=
  (outcome.toOption.getD []).take 25

/-- The platform is asked once to show suggestions, and what becomes of that. -/
structure Shown (platform : Platform π) (invocation : Invocation) (suggestions : List String)
    (state : π) (calls : List Platform.Call) (outcome : Except DispatchError (List String))
    (after : π) : Prop where
  once : calls = [.suggest invocation suggestions]
  result : outcome =
    ((platform.suggest invocation suggestions state).1.mapError .sendingRefused).map fun _ =>
      suggestions
  state : after = (platform.suggest invocation suggestions state).2

/-- A request is answered by a suggester: this is run once, with a text, and the platform is
asked once to show its first suggestions. -/
structure Suggested (platform : Platform π) (suggester : Suggester α) (commandName : String)
    (key : ScopeKey) (typed : String) (invocation : Invocation) (world : World α π)
    (outcome : Except DispatchError (List String)) (after : Watched α π) : Prop where
  once : after.uses = [.suggester commandName key typed invocation]
  shared : after.plain.shared = (suggester typed invocation world.shared).2
  shown : Shown platform invocation
    (shownSuggestions (suggester typed invocation world.shared).1) world.platform after.calls
    outcome after.plain.platform

namespace Dispatcher

variable {dispatcher : Dispatcher α π}

/-- The suggester that is looked up answers, with the text under the bare name. -/
theorem suggested_of_suggester? {invocation : Invocation} {focused : String}
    (hfocused : invocation.focused = some focused) {suggester : Suggester α}
    (hfound : dispatcher.registry.suggester? invocation.commandName
      ⟨invocation.subcommand, focused⟩ = some suggester) (world : World α π) :
    let watched := dispatcher.recorded.autocomplete invocation world.watched
    Suggested dispatcher.platform suggester invocation.commandName
      ⟨invocation.subcommand, focused⟩
      (((invocation.options.get? focused).map Value.display).getD "") invocation world watched.1
        watched.2 := by
  have hsuggestions : dispatcher.recorded.suggestionsFor invocation focused (world.shared, []) =
      let typed := ((invocation.options.get? focused).map Value.display).getD ""
      let answer := suggester typed invocation world.shared
      (shownSuggestions answer.1, answer.2,
        [.suggester invocation.commandName ⟨invocation.subcommand, focused⟩ typed
          invocation]) := by
    simp only [suggestionsFor, suggester?_recorded, hfound, Option.map_some,
      Invocation.focusedText?, hfocused, noting]
    rcases suggester (((invocation.options.get? focused).map Value.display).getD "") invocation
      world.shared with ⟨_ | _, after⟩ <;> rfl
  simp only [autocomplete, hfocused, World.watched, hsuggestions]
  exact ⟨rfl, rfl, rfl, rfl, rfl⟩

/-- Without a suggester in the scope of the active subcommand no code of a command is used. -/
theorem unused_of_suggester? {invocation : Invocation} {focused : String}
    (hfocused : invocation.focused = some focused)
    (hmissing : dispatcher.registry.suggester? invocation.commandName
      ⟨invocation.subcommand, focused⟩ = none) (world : World α π) :
    (dispatcher.recorded.autocomplete invocation world.watched).2.uses = [] := by
  have hsuggestions : dispatcher.recorded.suggestionsFor invocation focused (world.shared, []) =
      ([], world.shared, []) := by
    simp only [suggestionsFor, suggester?_recorded, hmissing, Option.map_none]
  simp only [autocomplete, hfocused, World.watched, hsuggestions]
  rfl

/-- A fresh dispatcher knows the suggesters of the command that it has registered. -/
theorem suggester?_register {platform : Platform π} {lead : String} {command : Command α}
    {state : π}
    (h : (({ platform := platform, lead := lead } : Dispatcher α π).register command state).1 =
      .ok dispatcher) :
    dispatcher.platform = platform ∧
      ∀ key, dispatcher.registry.suggester? command.name key = command.autocomplete.get? key := by
  unfold register at h
  split at h
  next => cases h
  next =>
      cases h
      refine ⟨rfl, fun key => ?_⟩
      rw [Registry.suggester?, Registry.get?_publish]
      split
      next => rfl
      next hempty =>
          have hnone : command.autocomplete.isEmpty = true := by simpa using hempty
          rw [get?_of_isEmpty hnone]
          rfl

/-- After a command is registered with a fresh dispatcher, a request for suggestions that names
a parameter with a suggester is answered by this suggester, with the text of the option that
named options hold for the parameter, exactly when the request does not look past it. -/
theorem suggested_iff {command : Command α} (hdeclared : command.Declared)
    {platform : Platform π} {lead : String} {state : π}
    (hregister : (({ platform := platform, lead := lead } : Dispatcher α π).register command
      state).1 = .ok dispatcher)
    {invocation : Invocation} (hname : invocation.commandName = command.name)
    {scope : Option String} {parameter : Argument} {suggester : Suggester α}
    (hsuggests : command.Suggests invocation.subcommand scope parameter suggester)
    (hfocused : invocation.focused = some parameter.name) (world : World α π) :
    let watched := dispatcher.recorded.autocomplete invocation world.watched
    (watched.1, watched.2.plain) = dispatcher.autocomplete invocation world ∧
      (Suggested platform suggester command.name ⟨scope, parameter.name⟩
          (Resolution.typed invocation.options scope parameter) invocation world watched.1
          watched.2 ↔
        ¬ Overlooked invocation.options invocation.subcommand scope parameter) := by
  intro watched
  refine ⟨dispatcher.autocomplete_recorded invocation world.watched, ?_⟩
  obtain ⟨hplatform, hregistry⟩ := suggester?_register hregister
  have hlookup : dispatcher.registry.suggester? invocation.commandName
      ⟨invocation.subcommand, parameter.name⟩ =
        command.autocomplete.get? ⟨invocation.subcommand, parameter.name⟩ := by
    rw [hname, hregistry]
  by_cases hscope : scope = invocation.subcommand
  · subst hscope
    have hanswered := suggested_of_suggester? hfocused (hlookup.trans hsuggests.suggester) world
    rw [hplatform, hname] at hanswered
    rw [← typed_eq_iff]
    constructor
    · intro hsuggested
      have honce := hanswered.once.symm.trans hsuggested.once
      rw [List.singleton_inj, Command.Use.suggester.injEq] at honce
      exact honce.2.2.1
    · intro htyped
      rwa [htyped] at hanswered
  · refine iff_of_false (fun hsuggested => ?_) (not_not_intro (.outside hscope))
    -- In the scope that is looked up, no parameter has the name, so nothing is recorded there.
    have hmissing : command.autocomplete.get? ⟨invocation.subcommand, parameter.name⟩ = none := by
      refine Option.eq_none_iff_forall_ne_some.mpr fun other hother => hscope ?_
      obtain ⟨own, hown, hsame⟩ :=
        hdeclared.wellFormed.consistent.suggestersKeyed _ other hother
      exact (hsuggests.alone _ own ⟨Or.inr rfl, hown⟩ hsame).symm
    have hunused := unused_of_suggester? hfocused (hlookup.trans hmissing) world
    cases hunused.symm.trans hsuggested.once

end Dispatcher

/-! ## A tag and an item -/

/-- A tag of the command itself and an item under a subcommand, both with suggestions. -/
def tagged : Command Unit :=
  { name := "todo"
    description := fillerDescription
    arguments :=
      [requiredText "tag",
        { Argument.subcommand "add" fillerDescription with
          subarguments := [requiredText "item"] }]
    type := .chatInput
    choices := ∅
    autocomplete :=
      (Dict.empty.insert ⟨none, "tag"⟩ echoSuggester).insert ⟨some "add", "item"⟩ echoSuggester
    defaults := ∅
    requires := ∅
    channels := ∅
    guilds := ∅
    action := Action.silent }

theorem tagged_declared : tagged.Declared := by
  refine ⟨Builder.run .unnamed
    [.setCommand "todo" none, .addArgument "<tag>" none (.dynamic echoSuggester) {},
      .addArgument "add <item>" none (.dynamic echoSuggester) {}], ?_, rfl⟩
  exact .call (.call (.call .unnamed _) _) _

theorem tagged_suggests_tag :
    tagged.Suggests (some "add") none (requiredText "tag") echoSuggester where
  inView := ⟨Or.inl rfl, List.mem_singleton_self _⟩
  suggester := rfl
  alone := by
    rintro own other ⟨rfl | rfl, hmem⟩ hname
    · rfl
    · have hnames : ∀ own ∈ parametersIn tagged.arguments (some "add"), own.name ≠ "tag" := by
        decide
      exact absurd hname (hnames other hmem)

theorem tagged_suggests_item :
    tagged.Suggests (some "add") (some "add") (requiredText "item") echoSuggester where
  inView := ⟨Or.inr rfl, List.mem_singleton_self _⟩
  suggester := rfl
  alone := by
    rintro own other ⟨rfl | rfl, hmem⟩ hname
    · have hnames : ∀ own ∈ parametersIn tagged.arguments none, own.name ≠ "item" := by decide
      exact absurd hname (hnames other hmem)
    · rfl

/-- A request for suggestions about a parameter, while something is typed under a name. -/
def addRequest (focused key : String) : Invocation :=
  { Invocation.plain "todo" "42" with
    subcommand := some "add"
    options := Dict.empty.insert key (.text "mi")
    focused := some focused }

/-- The dispatcher that has registered the command. -/
def taggedDispatcher : Dispatcher Unit Unit :=
  { platform := acceptingPlatform
    lead := "!"
    registry := Registry.publish ∅ tagged
    commands := Dict.insert "todo" tagged ∅ }

namespace Dispatcher

theorem register_tagged :
    (({ platform := acceptingPlatform, lead := "!" } : Dispatcher Unit Unit).register tagged ()).1 =
      .ok taggedDispatcher :=
  rfl

/-- While the item is typed under its own name, its suggester answers. -/
theorem item_suggested :
    let invocation := addRequest "item" "item"
    let watched := taggedDispatcher.recorded.autocomplete invocation (World.watched ⟨(), ()⟩)
    Suggested acceptingPlatform echoSuggester "todo" ⟨some "add", "item"⟩ "mi" invocation
      ⟨(), ()⟩ watched.1 watched.2 := by
  have hname : (addRequest "item" "item").commandName = tagged.name := rfl
  have hfocused : (addRequest "item" "item").focused = some (requiredText "item").name := rfl
  refine (suggested_iff tagged_declared register_tagged hname tagged_suggests_item hfocused
    ⟨(), ()⟩).2.mpr ?_
  rintro (hscope | ⟨hbare, _, _⟩)
  · exact hscope rfl
  · cases hbare

/-- While `add` is active, a request for the tag runs no suggester, and one for an item typed
under `add:item` runs its suggester with an empty text. -/
theorem tag_and_item_overlooked :
    tagged.Declared ∧ tagged.type = .chatInput ∧
      (({ platform := acceptingPlatform, lead := "!" } : Dispatcher Unit Unit).register tagged
        ()).1 = .ok taggedDispatcher ∧
      (let invocation := addRequest "tag" "tag"
        let watched := taggedDispatcher.recorded.autocomplete invocation (World.watched ⟨(), ()⟩)
        tagged.Suggests invocation.subcommand none (requiredText "tag") echoSuggester ∧
          watched.2.uses = [] ∧
          ¬ Suggested acceptingPlatform echoSuggester "todo" ⟨none, "tag"⟩
            (Resolution.typed invocation.options none (requiredText "tag")) invocation ⟨(), ()⟩
            watched.1 watched.2) ∧
      (let invocation := addRequest "item" "add:item"
        let watched := taggedDispatcher.recorded.autocomplete invocation (World.watched ⟨(), ()⟩)
        tagged.Suggests invocation.subcommand (some "add") (requiredText "item") echoSuggester ∧
          watched.2.uses = [.suggester "todo" ⟨some "add", "item"⟩ "" invocation] ∧
          Resolution.typed invocation.options (some "add") (requiredText "item") = "mi" ∧
          ¬ Suggested acceptingPlatform echoSuggester "todo" ⟨some "add", "item"⟩ "mi" invocation
            ⟨(), ()⟩ watched.1 watched.2) := by
  refine ⟨tagged_declared, rfl, rfl, ⟨tagged_suggests_tag, rfl, fun hsuggested => ?_⟩,
    tagged_suggests_item, rfl, rfl, fun hsuggested => ?_⟩
  · cases hsuggested.once
  · have honce := List.singleton_inj.mp hsuggested.once
    rw [Command.Use.suggester.injEq] at honce
    exact absurd honce.2.2.1 (by decide)

end Dispatcher

end SlashCommand
