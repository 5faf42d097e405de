import SlashCommand.Proofs.Message.Shown
import SlashCommand.Proofs.Resolution.FlagValue
import SlashCommand.Proofs.Resolution.Places

/-!
# Quoted text is inert

A message is resolved by a plan: which parameters there are, in which order, under which
active subcommand, and at which positions of the message the value of each is read.  The plan
goes by what the tokens show, so all messages that differ inside quotations only are resolved
by one plan.  What is quoted reaches the values that are read from it and nothing else.
-/

namespace SlashCommand

open Message

variable {α : Type}

namespace Message

/-! ## Where values come from -/

/-- Where the value of a parameter is read in a message. -/
inductive Source where
  /-- No token is left, or the flag does not stand in the message. -/
  | nothing
  /-- The token at a position. -/
  | single (position : Nat)
  /-- The tokens at all positions that are left. -/
  | all (positions : List Nat)
  /-- The text that a flag of the message takes. -/
  | flag (mark : Mark)

namespace Source

/-- The value that is read in a row of tokens. -/
def value (row : Nat → Token) (datatype : DataType) : Source → Option Value
  | .nothing => none
  | .single position => some (valueOf datatype (row position).text)
  | .all positions => some (.list (positions.map fun position => (row position).text))
  | .flag mark => some (.text (row mark.source).text)

/-- The positions that a source looks at. -/
def positions : Source → List Nat
  | .nothing => []
  | .single position => [position]
  | .all positions => positions
  | .flag mark => [mark.stands, mark.source]

/-- The source of a flag, given its mark. -/
def ofMark? : Option Mark → Source
  | none => .nothing
  | some mark => .flag mark

end Source

/-- A parameter in its scope with the source of its value. -/
structure Feed where
  scope : Option String
  parameter : Argument
  source : Source

/-- The entry that a feed makes of a row of tokens. -/
def Feed.entry (command : Command α) (row : Nat → Token) (feed : Feed) : Entry :=
  .ofArgument command feed.scope feed.parameter (feed.source.value row feed.parameter.datatype)

/-! ## Handing out positions -/

/-- The feeds of parameters in a scope, given the marked flags and the positions that are left,
and the positions left behind them. -/
inductive Feeds (marks : List Mark) (scope : Option String) :
    List Argument → List Nat → List Feed → List Nat → Prop where
  | nil {left : List Nat} : Feeds marks scope [] left [] left
  /-- A flag reads what its last mark says. -/
  | flag {argument : Argument} {rest : List Argument} {left behind : List Nat}
      {feeds : List Feed} (hflag : argument.isFlag = true)
      (hrest : Feeds marks scope rest left feeds behind) :
      Feeds marks scope (argument :: rest) left
        (⟨scope, argument, .ofMark? (argument.token.bind (markOf? marks))⟩ :: feeds) behind
  | single {argument : Argument} {rest : List Argument} {position : Nat}
      {left behind : List Nat} {feeds : List Feed} (hflag : argument.isFlag = false)
      (hsingle : argument.variadic = false) (hrest : Feeds marks scope rest left feeds behind) :
      Feeds marks scope (argument :: rest) (position :: left)
        (⟨scope, argument, .single position⟩ :: feeds) behind
  | starved {argument : Argument} {rest : List Argument} {behind : List Nat}
      {feeds : List Feed} (hflag : argument.isFlag = false)
      (hsingle : argument.variadic = false) (hrest : Feeds marks scope rest [] feeds behind) :
      Feeds marks scope (argument :: rest) [] (⟨scope, argument, .nothing⟩ :: feeds) behind
  | variadic {argument : Argument} {rest : List Argument} {left behind : List Nat}
      {feeds : List Feed} (hflag : argument.isFlag = false)
      (hvariadic : argument.variadic = true) (hrest : Feeds marks scope rest [] feeds behind) :
      Feeds marks scope (argument :: rest) left (⟨scope, argument, .all left⟩ :: feeds) behind

/-- A feed goes by the marks of flags if its parameter is one, and else by the positions that
are left. -/
structure Feed.GoesBy (feed : Feed) (marks : List Mark) (left : List Nat) : Prop where
  flag : feed.parameter.isFlag = true → feed.source = .nothing ∨
    ∃ mark ∈ marks, feed.source = .flag mark ∧ feed.parameter.token = some mark.flag
  positional : feed.parameter.isFlag = false → feed.source.positions ⊆ left

theorem Feed.GoesBy.mono {feed : Feed} {marks : List Mark} {part left : List Nat}
    (h : feed.GoesBy marks part) (hpart : part ⊆ left) : feed.GoesBy marks left :=
  ⟨h.flag, fun hflag => List.Subset.trans (h.positional hflag) hpart⟩

/-- A positional parameter goes by the positions it looks at. -/
theorem Feed.goesBy_of_positional {scope : Option String} {argument : Argument} {source : Source}
    {left : List Nat} (marks : List Mark) (hflag : argument.isFlag = false)
    (hleft : source.positions ⊆ left) : Feed.GoesBy ⟨scope, argument, source⟩ marks left :=
  ⟨fun htrue => absurd htrue (by simp [hflag]), fun _ => hleft⟩

theorem exists_feeds (marks : List Mark) (scope : Option String) (arguments : List Argument)
    (left : List Nat) : ∃ feeds behind, Feeds marks scope arguments left feeds behind := by
  induction arguments generalizing left with
  | nil => exact ⟨[], left, .nil⟩
  | cons argument rest ih =>
      cases hflag : argument.isFlag with
      | true =>
          obtain ⟨feeds, behind, hrest⟩ := ih left
          exact ⟨_, behind, .flag hflag hrest⟩
      | false =>
          cases hvariadic : argument.variadic with
          | true =>
              obtain ⟨feeds, behind, hrest⟩ := ih []
              exact ⟨_, behind, .variadic hflag hvariadic hrest⟩
          | false =>
              cases left with
              | nil =>
                  obtain ⟨feeds, behind, hrest⟩ := ih []
                  exact ⟨_, behind, .starved hflag hvariadic hrest⟩
              | cons position left =>
                  obtain ⟨feeds, behind, hrest⟩ := ih left
                  exact ⟨_, behind, .single hflag hvariadic hrest⟩

/-- A flag reads the value that its last occurrence has. -/
theorem flagValue?_occurrences (row : Nat → Token) (marks : List Mark) (argument : Argument)
    (datatype : DataType) :
    flagValue? (marks.map (Mark.occurrence row)) argument =
      (Source.ofMark? (argument.token.bind (markOf? marks))).value row datatype := by
  cases htoken : argument.token with
  | none => simp [flagValue?, htoken, Source.ofMark?, Source.value]
  | some token =>
      rw [flagValue?, htoken, Option.bind_some, Option.bind_some, valueOf?_occurrences]
      cases markOf? marks token <;> rfl

namespace Feeds

variable {marks : List Mark} {scope : Option String} {arguments : List Argument}
  {left behind : List Nat} {feeds : List Feed}

/-- Every row of tokens is handed out so. -/
theorem handOut_map (h : Feeds marks scope arguments left feeds behind) (command : Command α)
    (row : Nat → Token) :
    handOut command (marks.map (Mark.occurrence row)) scope arguments (left.map row) =
      (feeds.map (Feed.entry command row), behind.map row) := by
  induction h with
  | nil => rfl
  | @flag argument _ _ _ _ hflag _ ih =>
      rw [handOut_cons_of_isFlag command _ scope hflag, ih,
        flagValue?_occurrences row marks argument argument.datatype]
      rfl
  | single hflag hsingle _ ih =>
      rw [handOut_cons_of_not_isFlag command _ scope hflag, take_left_of_single hsingle,
        List.map_cons, List.drop_succ_cons, List.drop_zero, ih]
      simp [take, hsingle, Feed.entry, Source.value]
  | starved hflag hsingle _ ih =>
      rw [handOut_cons_of_not_isFlag command _ scope hflag, take_left_of_single hsingle]
      simp only [List.map_nil, List.drop_nil] at ih ⊢
      rw [ih]
      simp [take, hsingle, Feed.entry, Source.value]
  | variadic hflag hvariadic _ ih =>
      rw [List.map_nil] at ih
      rw [handOut_cons_of_not_isFlag command _ scope hflag, take_left_of_variadic hvariadic, ih]
      simp [take, hvariadic, Feed.entry, Source.value, Function.comp_def]

theorem behind_subset (h : Feeds marks scope arguments left feeds behind) : behind ⊆ left := by
  induction h with
  | nil => exact List.Subset.refl _
  | flag _ _ ih => exact ih
  | single _ _ _ ih => exact List.subset_cons_of_subset _ ih
  | starved _ _ _ ih => exact ih
  | variadic _ _ _ ih => exact List.Subset.trans ih (List.nil_subset _)

theorem goesBy (h : Feeds marks scope arguments left feeds behind) :
    ∀ feed ∈ feeds, feed.GoesBy marks left := by
  induction h with
  | nil => exact fun feed hmem => by cases hmem
  | @flag argument _ _ _ _ hflag _ ih =>
      intro feed hmem
      rcases List.mem_cons.mp hmem with rfl | hlater
      · refine ⟨fun _ => ?_, fun hfalse => absurd hflag (by simp [hfalse])⟩
        cases hfound : argument.token.bind (markOf? marks) with
        | none => exact Or.inl rfl
        | some mark =>
            obtain ⟨token, htoken, hmark⟩ := Option.bind_eq_some_iff.mp hfound
            obtain ⟨hin, hname⟩ := mem_of_markOf? hmark
            exact Or.inr ⟨mark, hin, rfl, hname ▸ htoken⟩
      · exact ih feed hlater
  | single hflag _ _ ih =>
      intro feed hmem
      rcases List.mem_cons.mp hmem with rfl | hlater
      · exact Feed.goesBy_of_positional _ hflag (List.cons_subset_cons _ (List.nil_subset _))
      · exact (ih feed hlater).mono (List.subset_cons_self _ _)
  | starved hflag _ _ ih =>
      intro feed hmem
      rcases List.mem_cons.mp hmem with rfl | hlater
      · exact Feed.goesBy_of_positional _ hflag (List.nil_subset _)
      · exact ih feed hlater
  | variadic hflag _ _ ih =>
      intro feed hmem
      rcases List.mem_cons.mp hmem with rfl | hlater
      · exact Feed.goesBy_of_positional _ hflag (List.Subset.refl _)
      · exact (ih feed hlater).mono (List.nil_subset _)

end Feeds

/-! ## Plans -/

/-- How a message is resolved: the feeds in the order of the entries, and the active subcommand
with the position its name is read at. -/
structure Plan where
  feeds : List Feed
  active : Option (Nat × String)

/-- The resolution that a plan makes of a row of tokens. -/
def Plan.read (plan : Plan) (command : Command α) (row : Nat → Token) : Resolution :=
  .ofEntries (plan.feeds.map (Feed.entry command row)) (plan.active.map Prod.snd)

variable {command : Command α} {shown : Nat → Option String} {positions : List Nat} {plan : Plan}

/-- The plan for the tokens at some positions, told by what they show. -/
inductive Plans (command : Command α) (shown : Nat → Option String) (positions : List Nat) :
    Plan → Prop where
  /-- The token behind those of the leading parameters shows no name of a subcommand. -/
  | inactive {spare left behind : List Nat} {own : List Mark} {first last : List Feed}
      (hown : Extracts (flagTokens command.arguments) (flagTokens command.flags) shown positions
        spare own)
      (hleading : Feeds own none command.leading spare first left)
      (hnone : ∀ position ∈ left.head?, ∀ text ∈ shown position,
        command.subcommand? text = none)
      (htrailing : Feeds own none command.trailing left last behind) :
      Plans command shown positions ⟨first ++ last, none⟩
  /-- The token behind those of the leading parameters shows the name of a subcommand. -/
  | active {spare left inner rest behind : List Nat} {own under : List Mark}
      {first second last : List Feed} {word : Nat} {text : String} {subcommand : Argument}
      (hown : Extracts (flagTokens command.arguments) (flagTokens command.flags) shown positions
        spare own)
      (hleading : Feeds own none command.leading spare first (word :: left))
      (hword : shown word = some text) (hnamed : command.subcommand? text = some subcommand)
      (hunder : Extracts (flagTokens subcommand.subarguments) (flagTokens command.flags) shown
        left inner under)
      (hinner : Feeds (own ++ under) (some subcommand.name) subcommand.subarguments inner second
        rest)
      (htrailing : Feeds (own ++ under) none command.trailing rest last behind) :
      Plans command shown positions ⟨first ++ second ++ last, some (word, subcommand.name)⟩

theorem exists_plans (command : Command α) (shown : Nat → Option String) (positions : List Nat) :
    ∃ plan, Plans command shown positions plan := by
  obtain ⟨spare, own, hown⟩ :=
    exists_extracts (flagTokens command.arguments) (flagTokens command.flags) shown positions
  obtain ⟨first, left, hleading⟩ := exists_feeds own none command.leading spare
  by_cases hnamed : ∃ word ∈ left.head?, ∃ text ∈ shown word,
      ∃ subcommand, command.subcommand? text = some subcommand
  · obtain ⟨word, hhead, text, hword, subcommand, hsubcommand⟩ := hnamed
    obtain ⟨left, rfl⟩ := List.head?_eq_some_iff.mp hhead
    obtain ⟨inner, under, hunder⟩ :=
      exists_extracts (flagTokens subcommand.subarguments) (flagTokens command.flags) shown left
    obtain ⟨second, rest, hinner⟩ :=
      exists_feeds (own ++ under) (some subcommand.name) subcommand.subarguments inner
    obtain ⟨last, behind, htrailing⟩ := exists_feeds (own ++ under) none command.trailing rest
    exact ⟨_, .active hown hleading hword hsubcommand hunder hinner htrailing⟩
  · obtain ⟨last, behind, htrailing⟩ := exists_feeds own none command.trailing left
    refine ⟨_, .inactive hown hleading (fun word hhead text hword => ?_) htrailing⟩
    rw [Option.eq_none_iff_forall_ne_some]
    exact fun subcommand hsubcommand => hnamed ⟨word, hhead, text, hword, subcommand, hsubcommand⟩

/-- A word names a subcommand by what it shows. -/
theorem activated?_eq_bind_shown (command : Command α) (word : Token) (left : List Token) :
    activated? command (word :: left) = word.shown.bind command.subcommand? := by
  change (if word.quoted then none else command.subcommand? word.text) = _
  unfold Token.shown
  split <;> rfl

/-- The leading parameters of every row that shows the same are handed out alike. -/
theorem leadingPart_map {spare left : List Nat} {own : List Mark} {first : List Feed}
    (hown : Extracts (flagTokens command.arguments) (flagTokens command.flags) shown positions
      spare own)
    (hleading : Feeds own none command.leading spare first left) {row : Nat → Token}
    (hrow : Shows shown row) :
    ownExtraction command (positions.map row) =
        ⟨spare.map row, own.map (Mark.occurrence row)⟩ ∧
      leadingPart command (positions.map row) =
        (first.map (Feed.entry command row), left.map row) := by
  have hextraction : ownExtraction command (positions.map row) =
      ⟨spare.map row, own.map (Mark.occurrence row)⟩ := hown.extract_map hrow
  refine ⟨hextraction, ?_⟩
  rw [leadingPart, hextraction]
  exact hleading.handOut_map command row

/-- Every row that shows the same is resolved by the plan. -/
theorem Plans.resolveTokens_map (h : Plans command shown positions plan) {row : Nat → Token}
    (hrow : Shows shown row) :
    resolveTokens command (positions.map row) = plan.read command row := by
  cases h with
  | @inactive spare left _ own first _ hown hleading hnone htrailing =>
      obtain ⟨hextraction, hpart⟩ := leadingPart_map hown hleading hrow
      have hinactive : activated? command (leadingPart command (positions.map row)).2 = none := by
        rw [hpart]
        cases left with
        | nil => rfl
        | cons word left =>
            rw [List.map_cons, activated?_eq_bind_shown, hrow word, Option.bind_eq_none_iff]
            exact hnone word rfl
      rw [resolveTokens_of_inactive hinactive, hpart, hextraction,
        htrailing.handOut_map command row, Plan.read, List.map_append]
      rfl
  | @active spare left inner rest _ own under first second _ word text subcommand hown hleading
      hword hnamed hunder hinner htrailing =>
      obtain ⟨hextraction, hpart⟩ := leadingPart_map hown hleading hrow
      have hleft : (leadingPart command (positions.map row)).2 = row word :: left.map row := by
        rw [hpart, List.map_cons]
      have hactive : activated? command (row word :: left.map row) = some subcommand := by
        rw [activated?_eq_bind_shown, hrow word, hword]
        exact hnamed
      have hbehind : innerExtraction command subcommand (left.map row) =
          ⟨inner.map row, under.map (Mark.occurrence row)⟩ := hunder.extract_map hrow
      have hoccurrences : occurrencesIn command subcommand (positions.map row) (left.map row) =
          (own ++ under).map (Mark.occurrence row) := by
        rw [occurrencesIn, hextraction, hbehind, List.map_append]
      have hunderPart : innerPart command subcommand (positions.map row) (left.map row) =
          (second.map (Feed.entry command row), rest.map row) := by
        rw [innerPart, hoccurrences, hbehind]
        exact hinner.handOut_map command row
      rw [resolveTokens_of_active hleft hactive, hpart, hunderPart, hoccurrences,
        htrailing.handOut_map command row, Plan.read, List.map_append, List.map_append]
      rfl

/-! ## Sound plans -/

/-- A feed reads positions of the message.  That of a flag reads nothing, or the token of the
flag stands, unquoted, at the position of its mark. -/
structure Feed.Sound (feed : Feed) (tokens : List Token) : Prop where
  within : ∀ position ∈ feed.source.positions, position < tokens.length
  flag : feed.parameter.isFlag = true → feed.source = .nothing ∨
    ∃ mark, feed.source = .flag mark ∧ feed.parameter.token = some mark.flag ∧
      tokens[mark.stands]? = some ⟨mark.flag, false⟩

/-- The feeds of a plan are sound, and the name of the active subcommand stands, unquoted, at
its position. -/
structure Plan.Sound (plan : Plan) (tokens : List Token) : Prop where
  feeds : ∀ feed ∈ plan.feeds, feed.Sound tokens
  active : ∀ word ∈ plan.active, tokens[word.1]? = some ⟨word.2, false⟩

/-- A feed that goes by marks and positions of a message is sound. -/
theorem Feed.GoesBy.sound {feed : Feed} {marks : List Mark} {left : List Nat}
    {tokens : List Token} (h : feed.GoesBy marks left)
    (hmarks : ∀ mark ∈ marks,
      mark.Sound (fun position => (tokenAt tokens position).shown) (List.range tokens.length))
    (hleft : left ⊆ List.range tokens.length) : feed.Sound tokens := by
  have hmarked : ∀ mark ∈ marks, ∀ position ∈ (Source.flag mark).positions,
      position < tokens.length := by
    intro mark hmem position hposition
    rcases List.mem_cons.mp hposition with rfl | hsource
    · exact List.mem_range.mp (hmarks mark hmem).stands
    · rw [List.mem_singleton.mp hsource]
      exact List.mem_range.mp (hmarks mark hmem).source
  constructor
  · intro position hposition
    cases hflag : feed.parameter.isFlag with
    | false => exact List.mem_range.mp (hleft (h.positional hflag hposition))
    | true =>
        rcases h.flag hflag with hnothing | ⟨mark, hmem, hsource, -⟩
        · rw [hnothing] at hposition
          cases hposition
        · exact hmarked mark hmem position (hsource ▸ hposition)
  · intro hflag
    refine (h.flag hflag).imp_right fun ⟨mark, hmem, hsource, htoken⟩ => ?_
    exact ⟨mark, hsource, htoken, getElem?_of_shown (hmarks mark hmem).shown⟩

theorem Plans.sound {tokens : List Token}
    (h : Plans command (fun position => (tokenAt tokens position).shown)
      (List.range tokens.length) plan) : plan.Sound tokens := by
  cases h with
  | inactive hown hleading hnone htrailing =>
      have hspare := hown.left_subset
      constructor
      · intro feed hmem
        rcases List.mem_append.mp hmem with hfirst | hlast
        · exact (hleading.goesBy feed hfirst).sound hown.sound hspare
        · exact (htrailing.goesBy feed hlast).sound hown.sound
            (List.Subset.trans hleading.behind_subset hspare)
      · exact fun word hword => by cases hword
  | @active _ left _ _ _ own under _ _ _ word _ subcommand hown hleading hword hnamed hunder
      hinner htrailing =>
      have hspare := hown.left_subset
      have hleft : left ⊆ List.range tokens.length :=
        List.Subset.trans (List.subset_cons_self word left)
          (List.Subset.trans hleading.behind_subset hspare)
      have hmarks : ∀ mark ∈ own ++ under, mark.Sound
          (fun position => (tokenAt tokens position).shown) (List.range tokens.length) := by
        intro mark hmem
        rcases List.mem_append.mp hmem with hmem | hmem
        · exact hown.sound mark hmem
        · exact (hunder.sound mark hmem).mono hleft
      have hwithin := List.Subset.trans hunder.left_subset hleft
      constructor
      · intro feed hmem
        rcases List.mem_append.mp hmem with hfront | hlast
        · rcases List.mem_append.mp hfront with hfirst | hsecond
          · exact (hleading.goesBy feed hfirst).sound hown.sound hspare
          · exact (hinner.goesBy feed hsecond).sound hmarks hwithin
        · exact (htrailing.goesBy feed hlast).sound hmarks
            (List.Subset.trans hinner.behind_subset hwithin)
      · rintro _ ⟨⟩
        have hname := (Command.mem_of_subcommand? hnamed).2.2
        exact getElem?_of_shown (hname ▸ hword)

end Message

/-! ## Entries that differ in their texts only -/

/-- Entries of one parameter that are given, absent or defaulted alike, with lists of one
length. -/
structure Entry.Parallels (first second : Entry) : Prop where
  key : first.key = second.key
  flag : first.flag = second.flag
  present : first.value.isSome = second.value.isSome
  defaulted : first.defaulted = second.defaulted
  length : (first.value.bind Value.list?).map List.length =
    (second.value.bind Value.list?).map List.length

/-- Resolutions in one subcommand whose entries differ in their texts only. -/
structure Resolution.Parallels (first second : Resolution) : Prop where
  subcommand : first.subcommand = second.subcommand
  args : List.Forall₂ Entry.Parallels first.args second.args
  flags : List.Forall₂ Entry.Parallels first.flags second.flags

@[simp]
theorem Value.list?_text (text : String) : (Value.text text).list? = none :=
  rfl

@[simp]
theorem Value.list?_list (items : List String) : (Value.list items).list? = some items :=
  rfl

namespace Message

theorem list?_valueOf (datatype : DataType) (text : String) :
    (valueOf datatype text).list? = none := by
  cases datatype with
  | integer =>
      unfold valueOf
      cases Decimal.word? text.toList <;> rfl
  | number =>
      unfold valueOf
      cases Decimal.float? text.toList <;> rfl
  | boolean =>
      unfold valueOf
      dsimp only
      split
      next => rfl
      next => split <;> rfl
  | _ => rfl

/-- What a feed makes of two rows of tokens differs in the texts only. -/
theorem Feed.entry_parallels (command : Command α) (feed : Feed) (first second : Nat → Token) :
    (feed.entry command first).Parallels (feed.entry command second) := by
  have hgiven : (feed.source.value first feed.parameter.datatype).isNone =
      (feed.source.value second feed.parameter.datatype).isNone := by
    cases feed.source <;> rfl
  refine ⟨rfl, rfl, ?_, ?_, ?_⟩
  · cases hsource : feed.source <;> simp [Feed.entry, Entry.ofArgument, hsource, Source.value]
  · exact congrArg (· && _) hgiven
  · cases hsource : feed.source <;>
      simp [Feed.entry, Entry.ofArgument, hsource, Source.value, list?_valueOf]

/-- What a plan makes of two rows of tokens differs in the texts only. -/
theorem Plan.read_parallels (plan : Plan) (command : Command α) (first second : Nat → Token) :
    (plan.read command first).Parallels (plan.read command second) := by
  have hfilter : ∀ counts : Bool → Bool, List.Forall₂ Entry.Parallels
      ((plan.feeds.map (Feed.entry command first)).filter fun entry => counts entry.isFlag)
      ((plan.feeds.map (Feed.entry command second)).filter fun entry => counts entry.isFlag) := by
    intro counts
    rw [List.filter_map, List.filter_map, List.forall₂_map_left_iff, List.forall₂_map_right_iff]
    exact List.forall₂_same.mpr fun feed _ => feed.entry_parallels command first second
  exact ⟨rfl, hfilter (! ·), hfilter id⟩

end Message

/-! ## The law -/

/-- Quoted text is inert: all messages that differ from one inside quotations only are resolved
by one plan.  It reads each parameter and each flag at positions of the message, takes no quoted
token for a flag or for the name of the subcommand, and two of the messages resolve to the same
entries but for the texts that are read. -/
theorem Message.resolve_inert (command : Command α) {raw other : String}
    (h : AlikeOutside (tokens raw) (tokens other)) :
    ∃ plan : Plan, plan.Sound (tokens raw) ∧
      (∀ text, AlikeOutside (tokens raw) (tokens text) →
        resolve command text = plan.read command (tokenAt (tokens text))) ∧
      (resolve command raw).Parallels (resolve command other) := by
  obtain ⟨plan, hplans⟩ := exists_plans command
    (fun position => (tokenAt (tokens raw) position).shown) (List.range (tokens raw).length)
  have hread : ∀ text, AlikeOutside (tokens raw) (tokens text) →
      resolve command text = plan.read command (tokenAt (tokens text)) := by
    intro text halike
    have htokens := hplans.resolveTokens_map halike.shows
    rwa [halike.length_eq, map_tokenAt] at htokens
  refine ⟨plan, hplans.sound, hread, ?_⟩
  rw [hread raw (.refl _), hread other h]
  exact plan.read_parallels command _ _

/-- A quoted flag is the value of the flag in front of it, as any other quoted text is. -/
theorem Message.listing_inert :
    AlikeOutside (tokens "list -a “-v” milk") (tokens "list -a “bread” milk") ∧
      ∃ plan : Plan, plan.Sound (tokens "list -a “-v” milk") ∧
        (∀ text, AlikeOutside (tokens "list -a “-v” milk") (tokens text) →
          resolve listing text = plan.read listing (tokenAt (tokens text))) ∧
        (resolve listing "list -a “-v” milk").Parallels
          (resolve listing "list -a “bread” milk") := by
  have halike : AlikeOutside (tokens "list -a “-v” milk") (tokens "list -a “bread” milk") := by
    have hfirst : tokens "list -a “-v” milk" =
        [⟨"list", false⟩, ⟨"-a", false⟩, ⟨"-v", true⟩, ⟨"milk", false⟩] := rfl
    have hsecond : tokens "list -a “bread” milk" =
        [⟨"list", false⟩, ⟨"-a", false⟩, ⟨"bread", true⟩, ⟨"milk", false⟩] := rfl
    simp [AlikeOutside, hfirst, hsecond]
  exact ⟨halike, resolve_inert listing halike⟩

end SlashCommand
