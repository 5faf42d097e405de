import SlashCommand.Proofs.Builder.Reachable
import SlashCommand.Proofs.Builder.Stages
import SlashCommand.Proofs.Command.Offer

/-!
# Schemas reflect their declarations

The schema of a command that calls declare shows what the accepted calls said: an option for
each subcommand that one of them mentions, and one for each parameter, in its scope and in
call order.  An option says what the call of its parameter said, whatever other calls came
before or after.
-/

namespace SlashCommand

open Declaration

variable {α : Type}

/-! ## What calls say -/

/-- The suggester of a parameter whose values are suggested while they are being typed. -/
def ChoiceSource.suggester? : ChoiceSource α → Option (Suggester α)
  | .dynamic suggester => some suggester
  | _ => none

/-- The choices of a positional parameter, given those of its payload. -/
def ChoiceSource.choices (payload : Option (List String)) : ChoiceSource α → List String
  | .literal listed => listed
  | .dynamic _ => []
  | .payload => payload.getD []

/-- The kind of option that values of a datatype are to be asked for with.  A mention may be of
anything that can be mentioned. -/
def DataType.offeredAs : DataType → OptionKind
  | .string => .string
  | .number => .number
  | .integer => .integer
  | .boolean => .boolean
  | .user => .user
  | .channel => .channel
  | .role => .role
  | .mention => .mentionable

theorem DataType.offeredAs_eq (datatype : DataType) :
    datatype.offeredAs = OptionKind.ofDataType datatype := by
  cases datatype <;> rfl

/-- The option that the parameter of a fragment is to be offered as. -/
def Declaration.Fragment.option (fragment : Fragment) (description : Option String)
    (source : ChoiceSource α) (options : ArgumentOptions) : OptionSchema :=
  let argument := fragment.argument
  { kind := if argument.isFlag then .string else argument.datatype.offeredAs
    name := argument.name
    description := (Draft.described fragment description).description
    required := !argument.isFlag && !argument.optional
    choices := if argument.isFlag then argument.token.toList else source.choices fragment.choices
    autocomplete := source.suggester?.isSome
    min := options.min
    max := options.max
    options := [] }

/-- The scope of the parameter in a declaration. -/
def Declaration.Parameter.scope (parameter : Parameter) : Option String :=
  parameter.subcommand.map fun mention => mention.argument.name

/-- The subcommand that a call mentions. -/
def Call.mention? : Call α → Option String
  | .addSubcommand name _ => some name
  | .addArgument declaration _ _ _ => (Parameter.parse declaration).toOption.bind Parameter.scope
  | _ => none

/-- The option that the parameter of a call is to be offered as, with its scope. -/
def Call.offer? : Call α → Option (Option String × OptionSchema)
  | .addArgument declaration description source options =>
      (Parameter.parse declaration).toOption.map fun parameter =>
        (parameter.scope, parameter.fragment.option description source options)
  | _ => none

/-- The suggester that a call brings along, with the key of its parameter. -/
def Call.suggester? : Call α → Option (ScopeKey × Suggester α)
  | .addArgument declaration _ source _ =>
      (Parameter.parse declaration).toOption.bind fun parameter =>
        source.suggester?.map (⟨parameter.scope, parameter.fragment.argument.name⟩, ·)
  | _ => none

/-- The options that are to be offered in a scope. -/
def offersIn (scope : Option String) (offers : List (Option String × OptionSchema)) :
    List OptionSchema :=
  (offers.filter fun offer => offer.1 == scope).map Prod.snd

/-- The calls of a record that were accepted. -/
def Record.calls (record : Record α) : List (Call α) :=
  record.filterMap fun
    | (.call next, .ok _) => some next
    | _ => none

/-! ## What commands show -/

/-- A command has the given subcommands and suggesters, and its parameters make the given
offers. -/
structure Command.Shows (command : Command α) (names : List String)
    (offers : List (Option String × OptionSchema))
    (suggesters : List (ScopeKey × Suggester α)) : Prop where
  subcommands : command.subcommands.map Argument.name = names
  parameters : ∀ scope, (parametersIn command.arguments scope).map
    (fun parameter => .ofParts command scope parameter []) = offersIn scope offers
  suggesters : ∀ key suggester,
    command.autocomplete.get? key = some suggester ↔ (key, suggester) ∈ suggesters

/-- Names with another one, unless it is among them. -/
def entered (name : String) (names : List String) : List String :=
  if name ∈ names then names else names ++ [name]

theorem eraseDups_append_singleton (names : List String) (name : String) :
    (names ++ [name]).eraseDups = entered name names.eraseDups := by
  rw [List.eraseDups_append, entered]
  by_cases hmem : name ∈ names
  · rw [if_pos (List.mem_eraseDups.mpr hmem)]
    simp [List.removeAll, hmem]
  · rw [if_neg (mt List.mem_eraseDups.mp hmem)]
    simp [List.removeAll, hmem, List.eraseDups_cons]

theorem offersIn_append (scope : Option String)
    (first second : List (Option String × OptionSchema)) :
    offersIn scope (first ++ second) = offersIn scope first ++ offersIn scope second := by
  simp [offersIn]

namespace Command.Shows

variable {command other : Command α} {names : List String}
  {offers : List (Option String × OptionSchema)} {suggesters : List (ScopeKey × Suggester α)}

/-- What is shown depends on parameters and records only. -/
theorem of_same (h : command.Shows names offers suggesters)
    (hsubcommands : other.subcommands.map Argument.name = command.subcommands.map Argument.name)
    (hparameters : ∀ scope,
      parametersIn other.arguments scope = parametersIn command.arguments scope)
    (hchoices : other.choices = command.choices)
    (hsuggesters : other.autocomplete = command.autocomplete) :
    other.Shows names offers suggesters where
  subcommands := hsubcommands.trans h.subcommands
  parameters := fun scope => by
    rw [← h.parameters scope, hparameters scope]
    refine List.map_congr_left fun parameter _ => ?_
    rw [OptionSchema.ofParts, OptionSchema.ofParts, hchoices, hsuggesters]
  suggesters := hsuggesters ▸ h.suggesters

end Command.Shows

namespace Draft

variable {draft next : Draft α} {names : List String}
  {offers : List (Option String × OptionSchema)} {suggesters : List (ScopeKey × Suggester α)}

theorem subcommands_freeze (draft : Draft α) :
    draft.freeze.subcommands = draft.arguments.filter Argument.isCommand :=
  rfl

/-! ## Subcommands -/

/-- The subcommands of a draft are those that it shows. -/
theorem hasSubcommand_iff_mem (hindexed : draft.Indexed)
    (h : draft.freeze.Shows names offers suggesters) (name : String) :
    draft.hasSubcommand name = true ↔ name ∈ names := by
  rw [hindexed.hasSubcommand_eq, ← h.subcommands, subcommands_freeze, List.any_eq_true,
    List.mem_map]
  refine exists_congr fun argument => ?_
  rw [isSubcommand_iff, List.mem_filter, and_assoc]

theorem shows_describeSubcommand (h : draft.freeze.Shows names offers suggesters) (name : String)
    (description : Option String) :
    (draft.describeSubcommand name description).freeze.Shows names offers suggesters := by
  cases description with
  | none => exact h
  | some text =>
      have hchange := keepsSubcommand_describe text
      refine h.of_same ?_ (parametersIn_described draft.arguments text) rfl rfl
      have hkept : Argument.isCommand ∘
          changed name (fun argument => { argument with description := text }) =
            Argument.isCommand := funext (changed_isCommand hchange)
      rw [subcommands_freeze, subcommands_freeze]
      simp only [describeSubcommand, changeSubcommand_arguments]
      rw [List.filter_map, hkept, map_changed_name hchange]

theorem shows_appendSubcommand (h : draft.freeze.Shows names offers suggesters) (name : String)
    (description : Option String) :
    (draft.appendSubcommand name description).freeze.Shows (names ++ [name]) offers suggesters where
  subcommands := by
    rw [← h.subcommands, subcommands_freeze, subcommands_freeze, appendSubcommand,
      List.filter_append, List.map_append]
    rfl
  parameters := fun scope => by
    rw [← h.parameters scope]
    have hsame : parametersIn (draft.appendSubcommand name description).arguments scope =
        parametersIn draft.arguments scope := by
      rw [appendSubcommand, parametersIn_append, parametersIn_subcommand, List.append_nil]
    exact congrArg (List.map _) hsame
  suggesters := h.suggesters

/-- A subcommand that is declared is shown from then on. -/
theorem shows_declareSubcommand (hindexed : draft.Indexed)
    (h : draft.freeze.Shows names offers suggesters) {name : String} {description : Option String}
    (hnext : draft.declareSubcommand name description = .ok next) :
    next.freeze.Shows (entered name names) offers suggesters := by
  have hmem := hasSubcommand_iff_mem hindexed h name
  cases declares_of_declareSubcommand hnext with
  | settled hsub =>
      rw [entered, if_pos (hmem.mp hsub)]
      refine shows_describeSubcommand ?_ name description
      exact h.of_same rfl (fun _ => rfl) rfl rfl
  | anew hsub =>
      rw [entered, if_neg (mt hmem.mpr (Bool.eq_false_iff.mp hsub))]
      exact shows_appendSubcommand h name description

/-- A subcommand that is mentioned is shown from then on. -/
theorem shows_mentionSubcommand (hindexed : draft.Indexed)
    (h : draft.freeze.Shows names offers suggesters) {name : String} {description : Option String}
    (hnext : draft.mentionSubcommand name description = .ok next) :
    next.freeze.Shows (entered name names) offers suggesters := by
  have hmem := hasSubcommand_iff_mem hindexed h name
  cases mentions_of_mentionSubcommand hnext with
  | described hsub =>
      rw [entered, if_pos (hmem.mp hsub)]
      exact shows_describeSubcommand h name description
  | ignored hsub =>
      rw [entered, if_pos (hmem.mp hsub)]
      exact h
  | anew hsub =>
      rw [entered, if_neg (mt hmem.mpr (Bool.eq_false_iff.mp hsub))]
      refine shows_appendSubcommand ?_ name description
      exact h.of_same rfl (fun _ => rfl) rfl rfl

/-! ## Parameters -/

/-- What is recorded about where the values of a new parameter come from. -/
theorem withSource_offer {key : ScopeKey} {argument : Argument}
    {payload : Option (List String)} {source : ChoiceSource α}
    (hchoices : draft.choices.get? key = none)
    (hsuggester : draft.autocomplete.get? key = none)
    (h : draft.withSource key argument payload source = .ok next) :
    (next.choices.get? key).getD [] =
        (if argument.isFlag then [argument.token.getD ""] else source.choices payload) ∧
      next.autocomplete.get? key = source.suggester? := by
  unfold withSource at h
  cases hflag : argument.isFlag with
  | true =>
      rw [hflag, if_pos rfl] at h
      split at h
      next =>
          cases h
          simp [Dict.get?_insert_self, hsuggester, ChoiceSource.suggester?]
      next => cases h
  | false =>
      simp only [hflag, Bool.false_eq_true, if_false] at h
      split at h <;> cases h
      all_goals
        simp [Dict.get?_insert_self, hchoices, hsuggester, ChoiceSource.choices,
          ChoiceSource.suggester?]

theorem withDefault_choices (draft : Draft α) (key : ScopeKey) (argument : Argument)
    (value : Option Value) : (draft.withDefault key argument value).choices = draft.choices := by
  rcases withDefault_cases draft key argument value with h | ⟨_, _, _, h⟩ <;> rw [h]

theorem withDefault_autocomplete (draft : Draft α) (key : ScopeKey) (argument : Argument)
    (value : Option Value) :
    (draft.withDefault key argument value).autocomplete = draft.autocomplete := by
  rcases withDefault_cases draft key argument value with h | ⟨_, _, _, h⟩ <;> rw [h]

/-- A placed parameter is no subcommand. -/
theorem map_name_subcommands_place (draft : Draft α) {argument : Argument}
    (hcommand : argument.isCommand = false) (scope : Option String) :
    ((draft.place argument scope).arguments.filter Argument.isCommand).map Argument.name =
      (draft.arguments.filter Argument.isCommand).map Argument.name := by
  cases scope with
  | none => simp [place, hcommand]
  | some name =>
      have hchange := keepsSubcommand_own argument
      have hkept : Argument.isCommand ∘ changed name (fun subcommand =>
          { subcommand with subarguments := subcommand.subarguments ++ [argument] }) =
            Argument.isCommand := funext (changed_isCommand hchange)
      rw [place, changeSubcommand_arguments, List.filter_map, hkept, map_changed_name hchange]

section

variable {scope : Option String} {fragment : Fragment} {description : Option String}
  {source : ChoiceSource α} {options : ArgumentOptions} {argument : Argument}

/-- The choices and the suggester of a new parameter are those that it is declared with. -/
theorem Adds.recorded_source
    (h : draft.Adds scope fragment description source options argument next)
    (hchoices : draft.choices.get? ⟨scope, argument.name⟩ = none)
    (hsuggester : draft.autocomplete.get? ⟨scope, argument.name⟩ = none) :
    (next.choices.get? ⟨scope, argument.name⟩).getD [] =
        (if argument.isFlag then [argument.token.getD ""] else source.choices fragment.choices) ∧
      next.autocomplete.get? ⟨scope, argument.name⟩ = source.suggester? := by
  obtain ⟨sourced, hsourced, rfl⟩ := h.recorded
  rw [place_choices, place_autocomplete, withDefault_choices, withDefault_autocomplete]
  exact withSource_offer hchoices hsuggester hsourced

/-- A new parameter is offered as its declaration says. -/
theorem Adds.offer (h : draft.Adds scope fragment description source options argument next)
    (hform : fragment.argument.ParameterForm)
    (hbounds : fragment.argument.min = none ∧ fragment.argument.max = none)
    (hchoices : draft.choices.get? ⟨scope, argument.name⟩ = none)
    (hsuggester : draft.autocomplete.get? ⟨scope, argument.name⟩ = none) :
    OptionSchema.ofParts next.freeze scope argument [] =
      fragment.option description source options := by
  obtain ⟨hlisted, hsuggested⟩ := h.recorded_source hchoices hsuggester
  have hargument : argument =
      { described fragment description with min := options.min, max := options.max } :=
    bounded_eq hbounds.1 hbounds.2 h.bounded
  have hcommand := (h.admits hform).kept.isCommand
  have hlistedFrozen : (next.freeze.choices.get? ⟨scope, argument.name⟩).getD [] = _ := hlisted
  have hsuggestedFrozen : next.freeze.autocomplete.get? ⟨scope, argument.name⟩ = _ := hsuggested
  rw [OptionSchema.ofParts, Dict.contains, hlistedFrozen, hsuggestedFrozen, hcommand,
    Fragment.option, OptionKind.ofArgument, hargument]
  cases hform with
  | positional form =>
      simp [described, form.kind, Argument.isFlag, DataType.offeredAs_eq]
  | flag form =>
      obtain ⟨token, htoken, _⟩ := form.token
      simp [described, form.kind, Argument.isFlag, form.optional, htoken]

/-- A new parameter leaves the offers of the others alone, which are recorded under other keys. -/
theorem Admits.ofParts_other (h : draft.Admits scope argument next) {own : Option String}
    {parameter : Argument} (hkey : (⟨own, parameter.name⟩ : ScopeKey) ≠ ⟨scope, argument.name⟩) :
    OptionSchema.ofParts next.freeze own parameter [] =
      OptionSchema.ofParts draft.freeze own parameter [] := by
  have hlisted : next.freeze.choices.get? ⟨own, parameter.name⟩ =
      draft.freeze.choices.get? ⟨own, parameter.name⟩ := h.choices_other _ hkey
  have hsuggested : next.freeze.autocomplete.get? ⟨own, parameter.name⟩ =
      draft.freeze.autocomplete.get? ⟨own, parameter.name⟩ := h.autocomplete_other _ hkey
  simp only [OptionSchema.ofParts, Dict.contains, hlisted, hsuggested]

/-- A parameter that is added is shown at the end of its scope, with its suggester if it has
one, and nothing else changes. -/
theorem shows_addParameter (hwell : draft.WellFormed)
    (h : draft.freeze.Shows names offers suggesters) (hform : fragment.argument.ParameterForm)
    (hbounds : fragment.argument.min = none ∧ fragment.argument.max = none)
    (hscope : ∀ name ∈ scope, draft.hasSubcommand name = true)
    (hnext : draft.addParameter scope fragment description source options = .ok next) :
    next.freeze.Shows names (offers ++ [(scope, fragment.option description source options)])
      (suggesters ++ (source.suggester?.map (⟨scope, fragment.argument.name⟩, ·)).toList) := by
  obtain ⟨argument, hadds⟩ := adds_of_addParameter hnext
  have hadmits := hadds.admits hform
  have hfresh := hadmits.fresh_parameter
  have hchoices : draft.choices.get? ⟨scope, argument.name⟩ = none :=
    Keyed.unrecorded hwell.consistent.choicesKeyed hfresh
  have hsuggester : draft.autocomplete.get? ⟨scope, argument.name⟩ = none :=
    Keyed.unrecorded hwell.consistent.suggestersKeyed hfresh
  have hplaced : ∀ own, parametersIn next.arguments own =
      parametersIn draft.arguments own ++ if own = scope then [argument] else [] := fun own => by
    rw [hadmits.arguments]
    refine parametersIn_place draft hadmits.kept.isCommand hwell.consistent.distinct
      (fun name hname => ?_) own
    rw [← hwell.indexed.hasSubcommand_eq]
    exact hscope name hname
  constructor
  · rw [← h.subcommands, subcommands_freeze, subcommands_freeze, hadmits.arguments,
      map_name_subcommands_place draft hadmits.kept.isCommand]
  · intro own
    have hothers : (parametersIn draft.arguments own).map
        (fun parameter => OptionSchema.ofParts next.freeze own parameter []) =
          offersIn own offers := by
      rw [← h.parameters own]
      exact List.map_congr_left fun parameter hmem =>
        hadmits.ofParts_other (scopeKey_ne_of_fresh hfresh hmem)
    rw [offersIn_append, ← hothers]
    refine (congrArg (List.map _) (hplaced own)).trans ?_
    rw [List.map_append]
    congr 1
    by_cases hown : own = scope
    · subst hown
      simp [offersIn, hadds.offer hform hbounds hchoices hsuggester]
    · have hother : (scope == own) = false := by simpa using Ne.symm hown
      simp [offersIn, hown, hother]
  · intro key suggester
    rw [List.mem_append, ← h.suggesters, ← hadds.name]
    by_cases hkey : key = ⟨scope, argument.name⟩
    · subst hkey
      have hold : draft.freeze.autocomplete.get? ⟨scope, argument.name⟩ = none := hsuggester
      have hnew : next.freeze.autocomplete.get? ⟨scope, argument.name⟩ = source.suggester? :=
        (hadds.recorded_source hchoices hsuggester).2
      simp [hold, hnew]
    · have hsame : next.freeze.autocomplete.get? key = draft.freeze.autocomplete.get? key :=
        hadmits.autocomplete_other key hkey
      simp [hsame, Ne.symm hkey]

end

/-! ## Calls -/

/-- A parameter that is declared is shown from then on, and so is the subcommand that it
mentions. -/
theorem shows_addArgument (hwell : draft.WellFormed)
    (h : draft.freeze.Shows names offers suggesters)
    {declaration : String} {description : Option String} {source : ChoiceSource α}
    {options : ArgumentOptions} {parameter : Parameter}
    (hparse : Parameter.parse declaration = .ok parameter)
    (haccepted : (draft.addArgument declaration description source options).2 = .ok ()) :
    (draft.addArgument declaration description source options).1.freeze.Shows
      (parameter.scope.elim names fun name => entered name names)
      (offers ++ [(parameter.scope, parameter.fragment.option description source options)])
      (suggesters ++
        (source.suggester?.map
          (⟨parameter.scope, parameter.fragment.argument.name⟩, ·)).toList) := by
  obtain ⟨⟨hread, hparameter⟩, hmention⟩ := Parameter.parse_isRead hparse
  have hform := hread.formed.parameter hparameter
  obtain ⟨content, hcontent⟩ := readFrom_of_declared hread.piece hread.declared
  obtain ⟨taken, htaken, htook⟩ := took_of_addArgument haccepted
  cases hparse.symm.trans htaken
  cases htook with
  | own hnext =>
      exact shows_addParameter hwell h hform hcontent.bounds (fun _ hname => by cases hname) hnext
  | @mentioned mention fragment between hmentioned hnext =>
      obtain ⟨hmentionRead, hcommand⟩ := hmention mention rfl
      obtain ⟨hwellMentioned, hsub⟩ := hwell.mentionSubcommand
        (hmentionRead.formed.bareword hcommand).name
        (fun text htext => Text.not_void_of_unlessVoid htext) hmentioned
      refine shows_addParameter hwellMentioned (shows_mentionSubcommand hwell.indexed h hmentioned)
        hform hcontent.bounds (fun name hname => ?_) hnext
      cases hname
      exact hsub

/-- What an accepted call says is shown from then on. -/
theorem shows_accepted (hwell : draft.WellFormed) (h : draft.freeze.Shows names offers suggesters)
    {call : Call α} (haccepted : (Builder.callDraft draft call).2 = .ok ()) :
    (Builder.callDraft draft call).1.freeze.Shows
      (call.mention?.elim names fun name => entered name names)
      (offers ++ call.offer?.toList) (suggesters ++ call.suggester?.toList) := by
  have hsame : ∀ {other : Command α}, other.arguments = draft.arguments →
      other.choices = draft.choices → other.autocomplete = draft.autocomplete →
        other.Shows names (offers ++ []) (suggesters ++ []) :=
          fun harguments hchoices hsuggesters => by
    rw [List.append_nil, List.append_nil]
    refine h.of_same ?_ (fun scope => ?_) hchoices hsuggesters
    · rw [Command.subcommands, harguments]
      rfl
    · rw [harguments]
      rfl
  cases call with
  | setCommand name description => cases haccepted
  | setDescription description =>
      simp only [Builder.callDraft, describe]
      split <;> exact hsame rfl rfl rfl
  | setType type => exact hsame rfl rfl rfl
  | addSubcommand name description =>
      simp only [Builder.callDraft] at haccepted ⊢
      split at haccepted
      next => cases haccepted
      next =>
          have hnext := shows_declareSubcommand hwell.indexed h (settle_ok haccepted)
          simpa [Call.mention?, Call.offer?, Call.suggester?] using hnext
  | addArgument declaration description source options =>
      cases hparse : Parameter.parse declaration with
      | error fault =>
          simp only [Builder.callDraft, addArgument, hparse] at haccepted
          cases haccepted
      | ok parameter =>
          simpa [Call.mention?, Call.offer?, Call.suggester?, hparse, Except.toOption,
            Builder.callDraft] using shows_addArgument hwell h hparse haccepted
  | addRequirement token =>
      simp only [Builder.callDraft, addRequirement]
      split <;> exact hsame rfl rfl rfl
  | addChannel id => exact hsame rfl rfl rfl
  | addGuild id => exact hsame rfl rfl rfl
  | setAction action =>
      simp only [Builder.callDraft, setAction]
      split <;> exact hsame rfl rfl rfl

/-- Nothing of what a refused call says is shown. -/
theorem shows_refused (h : draft.freeze.Shows names offers suggesters) {call : Call α}
    {fault : BuildError} (hrefused : (Builder.callDraft draft call).2 = .error fault) :
    (Builder.callDraft draft call).1.freeze.Shows names offers suggesters := by
  rw [callDraft_error hrefused, reworded]
  split
  next => exact h
  next name text _ => exact shows_describeSubcommand h name (some text)

end Draft

/-! ## Runs -/

/-- The subcommands that calls mention, in the order of their first mention. -/
def mentionedBy (calls : List (Call α)) : List String :=
  (calls.filterMap Call.mention?).eraseDups

/-- The options that the parameters of calls are to be offered as, in the order of the calls. -/
def offeredBy (calls : List (Call α)) : List (Option String × OptionSchema) :=
  calls.filterMap Call.offer?

/-- The suggesters that calls bring along, with the keys of their parameters. -/
def suggestedBy (calls : List (Call α)) : List (ScopeKey × Suggester α) :=
  calls.filterMap Call.suggester?

theorem mentionedBy_append (calls : List (Call α)) (next : Call α) :
    mentionedBy (calls ++ [next]) =
      next.mention?.elim (mentionedBy calls) fun name => entered name (mentionedBy calls) := by
  rw [mentionedBy, List.filterMap_append]
  cases hmention : next.mention? with
  | none => simp [hmention, mentionedBy]
  | some name => simp [hmention, mentionedBy, eraseDups_append_singleton]

theorem offeredBy_append (calls : List (Call α)) (next : Call α) :
    offeredBy (calls ++ [next]) = offeredBy calls ++ next.offer?.toList := by
  rw [offeredBy, List.filterMap_append]
  cases hoffer : next.offer? <;> simp [hoffer, offeredBy]

theorem suggestedBy_append (calls : List (Call α)) (next : Call α) :
    suggestedBy (calls ++ [next]) = suggestedBy calls ++ next.suggester?.toList := by
  rw [suggestedBy, List.filterMap_append]
  cases hsuggester : next.suggester? <;> simp [hsuggester, suggestedBy]

namespace Builder

/-- A builder shows what some calls said; one without a name shows nothing. -/
def Shows (builder : Builder α) (calls : List (Call α)) : Prop :=
  match builder with
  | .unnamed => calls = []
  | .drafting draft => draft.freeze.Shows (mentionedBy calls) (offeredBy calls) (suggestedBy calls)
  | .built command => command.Shows (mentionedBy calls) (offeredBy calls) (suggestedBy calls)

theorem shows_named {name : String} {description : Option String} {draft : Draft α}
    (h : Draft.named name description = .ok draft) :
    draft.freeze.Shows [] [] [] := by
  obtain ⟨_, rfl⟩ := Draft.named_ok h
  exact ⟨rfl, fun scope => by cases scope <;> rfl, fun key suggester => ⟨nofun, nofun⟩⟩

/-- After a step a builder shows what the accepted calls said, this one included. -/
theorem shows_step {builder : Builder α} (hwell : builder.WellFormed) {calls : List (Call α)}
    (h : builder.Shows calls) (next : Step α) :
    (builder.step next).1.Shows (calls ++ Record.calls [(next, (builder.step next).2)]) := by
  cases builder with
  | built command =>
      cases next <;> simpa [step, Builder.call, Builder.build, Record.calls, Except.map] using h
  | unnamed =>
      have hnone : calls = [] := h
      subst hnone
      cases next with
      | build => rfl
      | call next =>
          cases next with
          | setCommand name description =>
              simp only [step, Builder.call, callUnnamed]
              cases hnamed : Draft.named name description with
              | error fault => rfl
              | ok draft => exact shows_named hnamed
          | _ => rfl
  | drafting draft =>
      cases next with
      | build => simpa [step, Builder.build, Record.calls, Except.map, Shows] using h
      | call next =>
          cases houtcome : (callDraft draft next).2 with
          | error fault =>
              have hnext := Draft.shows_refused h houtcome
              simpa [step, Builder.call, Record.calls, houtcome, Except.map, Shows] using hnext
          | ok =>
              have hnext := Draft.shows_accepted hwell h houtcome
              simpa [step, Builder.call, Record.calls, houtcome, Except.map, Shows,
                mentionedBy_append, offeredBy_append, suggestedBy_append] using hnext

theorem wellFormed_step {builder : Builder α} (h : builder.WellFormed) (next : Step α) :
    (builder.step next).1.WellFormed := by
  cases next with
  | call next => exact h.call next
  | build => exact h.build

/-- The accepted calls of a run are that of its first step, if it is one, and those of the rest. -/
theorem calls_record_cons (builder : Builder α) (next : Step α) (rest : List (Step α)) :
    (builder.record (next :: rest)).calls =
      Record.calls [(next, (builder.step next).2)] ++
        ((builder.step next).1.record rest).calls := by
  rw [record, Record.calls, Record.calls, Record.calls, ← List.filterMap_append]
  rfl

/-- A run of steps shows what the accepted calls said. -/
theorem shows_after {builder : Builder α} (hwell : builder.WellFormed) {calls : List (Call α)}
    (h : builder.Shows calls) (steps : List (Step α)) :
    (builder.after steps).Shows (calls ++ (builder.record steps).calls) ∧
      (builder.after steps).WellFormed := by
  induction steps generalizing builder calls with
  | nil => simpa [after, record, Record.calls] using And.intro h hwell
  | cons next rest ih =>
      have hnext := ih (wellFormed_step hwell next) (shows_step hwell h next)
      rw [after, calls_record_cons, ← List.append_assoc]
      exact hnext

/-- A command that steps build shows what the accepted calls said. -/
theorem shows_of_build {steps : List (Step α)} {command : Command α}
    (h : ((Builder.unnamed : Builder α).after steps).build.2 = .ok command) :
    let calls := ((Builder.unnamed : Builder α).record steps).calls
    command.Shows (mentionedBy calls) (offeredBy calls) (suggestedBy calls) ∧
      command.WellFormed := by
  intro calls
  obtain ⟨hshows, hwell⟩ : ((Builder.unnamed : Builder α).after steps).Shows calls ∧
      ((Builder.unnamed : Builder α).after steps).WellFormed :=
    shows_after (show Builder.WellFormed .unnamed from trivial)
      (show Builder.Shows .unnamed [] from rfl) steps
  cases hafter : (Builder.unnamed : Builder α).after steps with
  | unnamed =>
      rw [hafter] at h
      cases h
  | drafting draft =>
      rw [hafter] at h hshows hwell
      cases h
      exact ⟨hshows, Draft.WellFormed.freeze hwell⟩
  | built given =>
      rw [hafter] at h hshows hwell
      cases h
      exact ⟨hshows, hwell⟩

/-- The schema of a command that steps build has exactly one option for each subcommand that
an accepted call mentions, and one for each parameter that an accepted call declares, in its
scope and in call order, as that call says.  The option of a subcommand asks for no value. -/
theorem schema_reflects {steps : List (Step α)} {command : Command α}
    (h : ((Builder.unnamed : Builder α).after steps).build.2 = .ok command) :
    let calls := ((Builder.unnamed : Builder α).record steps).calls
    command.schema.parameters = offersIn none (offeredBy calls) ∧
      command.schema.subcommands.map OptionSchema.name = mentionedBy calls ∧
      ∀ option ∈ command.schema.subcommands,
        option.options = offersIn (some option.name) (offeredBy calls) ∧
          option.required = false ∧ option.choices = [] ∧ option.autocomplete = false ∧
            option.min = none ∧ option.max = none := by
  intro calls
  obtain ⟨hshown, hformed⟩ := shows_of_build h
  refine ⟨?_, ?_, fun option hmem => ?_⟩
  · rw [hformed.schema_parameters, hshown.parameters]
  · rw [hformed.schema_subcommands, List.map_map, ← hshown.subcommands]
    exact List.map_congr_left fun subcommand _ => OptionSchema.ofArgument_name command none _
  · obtain ⟨subcommand, hin, hcommand, rfl⟩ := hformed.subcommand_of_mem_schema hmem
    refine ⟨?_, hformed.subcommand_option_bare hin hcommand⟩
    rw [hformed.nested_options hin hcommand, hshown.parameters, OptionSchema.ofArgument_name]

/-- An item with choices and a bounded count under a subcommand, a refused second item, a flag, and
a budget that is suggested. -/
def shoppingSteps : List (Step Unit) :=
  [.call (.setCommand "shop" none),
    .call (.addArgument "add <item>" none (.literal ["milk", "eggs"]) {}),
    .call (.addArgument "add;+Changed [item; Any; bread|jam]" none .payload {}),
    .call (.addArgument "add <count: integer>" none .payload { min := some 1 }),
    .call (.addArgument "(-u urgent)" none .payload {}),
    .call (.addArgument "[budget: number]" none (.dynamic fun _ _ shared => (.ok [], shared)) {}),
    .build]

theorem shoppingSteps_reflected :
    ∃ command : Command Unit, (Builder.unnamed.after shoppingSteps).build.2 = .ok command ∧
      command.schema.parameters =
        [⟨.string, "urgent", fillerDescription, false, ["-u"], false, none, none, []⟩,
          ⟨.number, "budget", fillerDescription, false, [], true, none, none, []⟩] ∧
      command.schema.subcommands.map OptionSchema.name = ["add"] ∧
      ∀ option ∈ command.schema.subcommands, option.options =
        [⟨.string, "item", fillerDescription, true, ["milk", "eggs"], false, none, none, []⟩,
          ⟨.integer, "count", fillerDescription, true, [], false, some 1, none, []⟩] := by
  obtain ⟨command, hbuilt⟩ : ∃ command : Command Unit,
      (Builder.unnamed.after shoppingSteps).build.2 = .ok command := ⟨_, rfl⟩
  obtain ⟨hparameters, hsubcommands, hoptions⟩ := schema_reflects hbuilt
  have hnames : command.schema.subcommands.map OptionSchema.name = ["add"] := by
    rw [hsubcommands]
    decide
  refine ⟨command, hbuilt, ?_, hnames, fun option hmem => ?_⟩
  · rw [hparameters]
    rfl
  · have hname : option.name = "add" := by
      have hlisted := List.mem_map_of_mem (f := OptionSchema.name) hmem
      rw [hnames] at hlisted
      exact List.mem_singleton.mp hlisted
    rw [(hoptions option hmem).1, hname]
    rfl

end Builder

end SlashCommand
