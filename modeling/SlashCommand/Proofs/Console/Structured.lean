import SlashCommand.Console.Line
import SlashCommand.Proofs.Decimal.Literal
import SlashCommand.Proofs.Dispatch.Addressed
import SlashCommand.Proofs.Message.Written

/-!
# Structured lines

A structured line names a command behind a slash, then a subcommand or none, and then options,
each a name and a quoted value around an equals sign.  It is read as an invocation of the command
with just these options, where the last value of a name counts.  A value is what it denotes: a
whole number of 64 bits, a floating-point number, a truth value, or else the text itself.
-/

namespace SlashCommand

open Decimal

variable {α π : Type}

namespace Console

/-! ## Values -/

/-- The value a text denotes.  A whole number of 64 bits is no floating-point number. -/
inductive Denotes (text : String) : Value → Prop where
  | integer {word : Int64} (literal : IntegerLiteral text.toList word.toInt) :
      Denotes text (.integer word)
  | number {value : Float} (unwhole : ∀ word : Int64, ¬ IntegerLiteral text.toList word.toInt)
      (literal : NumberLiteral text.toList value) : Denotes text (.number value)
  | truth (htext : text = "true") : Denotes text (.bool true)
  | falsehood (htext : text = "false") : Denotes text (.bool false)
  | text (unwhole : ∀ word : Int64, ¬ IntegerLiteral text.toList word.toInt)
      (unreal : ∀ value, ¬ NumberLiteral text.toList value) (htrue : text ≠ "true")
      (hfalse : text ≠ "false") : Denotes text (.text text)

theorem word?_eq_none_iff {text : List Char} :
    word? text = none ↔ ∀ word : Int64, ¬ IntegerLiteral text word.toInt := by
  simp only [Option.eq_none_iff_forall_ne_some, ne_eq, word?_eq_some_iff]

theorem float?_eq_none_iff {text : List Char} :
    float? text = none ↔ ∀ value, ¬ NumberLiteral text value := by
  simp only [Option.eq_none_iff_forall_ne_some, ne_eq, float?_eq_some_iff]

/-- A value is typed as what it denotes. -/
theorem denotes_parseValue (text : String) : Denotes text (parseValue text.toList) := by
  unfold parseValue
  split
  next word _ hword => exact .integer (word?_eq_some_iff.mp hword)
  next number hword hnumber =>
      exact .number (word?_eq_none_iff.mp hword) (float?_eq_some_iff.mp hnumber)
  next hword hnumber =>
      split
      next htrue => exact .truth (String.toList_inj.mp htrue)
      next htrue =>
          split
          next hfalse => exact .falsehood (String.toList_inj.mp hfalse)
          next hfalse =>
              rw [String.ofList_toList]
              exact .text (word?_eq_none_iff.mp hword) (float?_eq_none_iff.mp hnumber)
                (fun heq => htrue (heq ▸ rfl)) fun heq => hfalse (heq ▸ rfl)

/-- A text denotes one value only. -/
theorem denotes_iff {text : String} {value : Value} :
    Denotes text value ↔ parseValue text.toList = value := by
  refine ⟨fun h => ?_, fun h => h ▸ denotes_parseValue text⟩
  unfold parseValue
  cases h with
  | integer literal => rw [word?_eq_some_iff.mpr literal]
  | number unwhole literal =>
      rw [word?_eq_none_iff.mpr unwhole, float?_eq_some_iff.mpr literal]
  | truth htext =>
      subst htext
      rfl
  | falsehood htext =>
      subst htext
      rfl
  | text unwhole unreal htrue hfalse =>
      rw [word?_eq_none_iff.mpr unwhole, float?_eq_none_iff.mpr unreal]
      dsimp only
      rw [if_neg fun heq => htrue (String.toList_inj.mp heq),
        if_neg fun heq => hfalse (String.toList_inj.mp heq), String.ofList_toList]

/-! ## Options -/

/-- The name and the value of an option as they are typed. -/
structure Typed where
  name : String
  value : String

/-- The word that the scanner makes of an option. -/
def Typed.word (option : Typed) : String :=
  option.name ++ "=" ++ option.value

/-- An option as it is written, with its value in quotation marks. -/
def Typed.written (option : Typed) : String :=
  option.name ++ "=" ++
    (Message.openQuote.toString ++ option.value ++ Message.closeQuote.toString)

/-- An option that a line holds as it is. -/
structure Typed.Writable (option : Typed) : Prop where
  name : ∀ c ∈ option.name.toList, c ≠ '=' ∧ Text.isBlank c = false ∧ c ≠ Message.openQuote
  value : Message.closeQuote ∉ option.value.toList

/-- The value of a name among options, the last one if there are several. -/
def lastValue? (options : List Typed) (name : String) : Option String :=
  (options.reverse.find? fun option => option.name == name).map Typed.value

theorem lastValue?_cons (option : Typed) (rest : List Typed) (name : String) :
    lastValue? (option :: rest) name =
      (lastValue? rest name).or (if option.name = name then some option.value else none) := by
  rw [lastValue?, List.reverse_cons, List.find?_append, Option.map_or, lastValue?]
  by_cases hsame : option.name = name <;> simp [hsame]

theorem Typed.Writable.reads {option : Typed} (h : option.Writable) :
    Message.Reads option.written ⟨option.word, true⟩ := by
  refine Message.reads_quoted (fun c hc => ?_) h.value
  rw [String.toList_append, List.mem_append] at hc
  rcases hc with hname | hsign
  · exact (h.name c hname).2
  · rw [List.mem_singleton.mp (show c ∈ ['='] from hsign)]
    decide

/-- The word of an option is entered under its name, up to the first equals sign. -/
theorem enterOption_word {option : Typed} (h : option.Writable) (options : Dict String Value) :
    enterOption options option.word =
      options.insert option.name (parseValue option.value.toList) := by
  have hname : ∀ c ∈ option.name.toList, (c == '=') = false :=
    fun c hc => beq_false_of_ne (h.name c hc).1
  have hword : option.word.toList = option.name.toList ++ '=' :: option.value.toList := by
    simp [Typed.word]
  rw [enterOption, hword, Text.splitAtFirst?_append hname (by decide)]
  dsimp only
  rw [String.ofList_toList]

/-- Entered one after the other, options have the last of their values. -/
theorem get?_foldl_enterOption {typed : List Typed} (h : ∀ option ∈ typed, option.Writable)
    (options : Dict String Value) (name : String) :
    ((typed.map Typed.word).foldl enterOption options).get? name =
      ((lastValue? typed name).map fun value => parseValue value.toList).or
        (options.get? name) := by
  induction typed generalizing options with
  | nil => rfl
  | cons option rest ih =>
      have hrest := fun other hother => h other (List.mem_cons_of_mem option hother)
      rw [List.map_cons, List.foldl_cons, ih hrest, enterOption_word (h option List.mem_cons_self),
        lastValue?_cons]
      cases lastValue? rest name with
      | some value => rfl
      | none =>
          by_cases hsame : option.name = name
          · subst hsame
            simp [Dict.get?_insert_self]
          · simp [Dict.get?_insert_of_ne options hsame, hsame]

/-! ## Lines -/

/-- The words of a structured line: the command, a subcommand or none, and options. -/
def structuredWords (name : String) (subcommand : Option String) (options : List Typed) :
    List String :=
  name :: (subcommand.toList ++ options.map Typed.written)

/-- A structured line, with single blanks between its words. -/
def structuredLine (name : String) (subcommand : Option String) (options : List Typed) : String :=
  "/" ++ Text.join " " (structuredWords name subcommand options)

/-- A line can hold the names of a command: none opens a quotation, and no subcommand has a name
with an equals sign, as only options have. -/
structure Typable (command : Command α) : Prop where
  name : Message.openQuote ∉ command.name.toList
  subcommands : ∀ subcommand ∈ command.subcommands,
    Message.openQuote ∉ subcommand.name.toList ∧ '=' ∉ subcommand.name.toList

section Structured

variable {dispatcher : Dispatcher α π} {command : Command α} (hdeclared : command.Declared)
  (hknown : dispatcher.commands.get? command.name = some command) (htypable : Typable command)
  {chosen : Option String}
  (hchosen : ∀ name ∈ chosen, ∃ subcommand ∈ command.subcommands, subcommand.name = name)
  {typed : List Typed} (hwritable : ∀ option ∈ typed, option.Writable)

include hdeclared hchosen in
theorem isWord_chosen : ∀ name ∈ chosen, Text.isWord name = true := by
  intro name hname
  obtain ⟨subcommand, hmem, rfl⟩ := hchosen name hname
  exact (hdeclared.wellFormed.subcommandForm hmem).name

include htypable hchosen in
theorem openQuote_not_mem_chosen : ∀ name ∈ chosen, Message.openQuote ∉ name.toList := by
  intro name hname
  obtain ⟨subcommand, hmem, rfl⟩ := hchosen name hname
  exact (htypable.subcommands subcommand hmem).1

include hdeclared htypable hchosen hwritable in
/-- The scanner takes the words of a structured line apart. -/
theorem words_structured :
    Message.words (Text.join " " (structuredWords command.name chosen typed)) =
      command.name :: (chosen.toList ++ typed.map Typed.word) := by
  have hname := Message.reads_bare hdeclared.wellFormed.name htypable.name
  have hsubcommand : List.Forall₂ Message.Reads chosen.toList
      (chosen.toList.map fun name => ⟨name, false⟩) := by
    refine List.forall₂_map_right_iff.mpr (List.forall₂_same.mpr fun name hmem => ?_)
    have hname := Option.mem_toList.mp hmem
    exact Message.reads_bare (isWord_chosen hdeclared hchosen name hname)
      (openQuote_not_mem_chosen htypable hchosen name hname)
  have hoptions : List.Forall₂ Message.Reads (typed.map Typed.written)
      (typed.map fun option => ⟨option.word, true⟩) := by
    rw [List.forall₂_map_left_iff, List.forall₂_map_right_iff, List.forall₂_same]
    exact fun option hmem => (hwritable option hmem).reads
  have htokens := Message.tokens_join_of_reads
    (List.Forall₂.cons hname (List.rel_append hsubcommand hoptions))
  rw [Message.words, structuredWords, htokens]
  simp [Function.comp_def]

include hdeclared hchosen in
/-- No word of a structured line ends with a blank. -/
theorem structuredWords_ending : ∀ text ∈ structuredWords command.name chosen typed,
    text.toList ≠ [] ∧ ∀ c ∈ text.toList.getLast?, Text.isBlank c = false := by
  have hends : ∀ {text : String}, Text.isWord text = true →
      text.toList ≠ [] ∧ ∀ c ∈ text.toList.getLast?, Text.isBlank c = false := by
    intro text hword
    obtain ⟨hnonempty, hplain⟩ := Text.isWord_iff.mp hword
    exact ⟨hnonempty, fun c hc => hplain c (List.mem_of_mem_getLast? hc)⟩
  intro text hmem
  rcases List.mem_cons.mp hmem with rfl | hmem
  · exact hends hdeclared.wellFormed.name
  rcases List.mem_append.mp hmem with hname | hoption
  · exact hends (isWord_chosen hdeclared hchosen text (Option.mem_toList.mp hname))
  · obtain ⟨option, _, rfl⟩ := List.mem_map.mp hoption
    have hclosed : option.written.toList = (option.name ++ "=" ++
        (Message.openQuote.toString ++ option.value)).toList ++ [Message.closeQuote] := by
      simp [Typed.written]
    rw [hclosed, List.getLast?_concat]
    refine ⟨List.append_ne_nil_of_right_ne_nil _ (List.cons_ne_nil _ _), ?_⟩
    rintro c ⟨⟩
    decide

include hdeclared hchosen in
/-- A structured line has no blanks at its ends. -/
theorem trim_structuredLine :
    Text.trim (structuredLine command.name chosen typed).toList =
      '/' :: (Text.join " " (structuredWords command.name chosen typed)).toList := by
  have hwords : structuredWords command.name chosen typed ≠ [] := List.cons_ne_nil _ _
  obtain ⟨hnonempty, hending⟩ :=
    Text.join_ending " " hwords (structuredWords_ending hdeclared hchosen)
  have hline : (structuredLine command.name chosen typed).toList =
      ['/'] ++ (Text.join " " (structuredWords command.name chosen typed)).toList := by
    simp [structuredLine]
  have htight : Text.Tight (structuredLine command.name chosen typed).toList := by
    rw [hline]
    constructor
    · rintro c ⟨⟩
      decide
    · rwa [List.getLast?_append_of_ne_nil _ hnonempty]
  rw [htight.trim_eq, hline, List.singleton_append]

include htypable in
/-- No option is taken for a subcommand. -/
theorem subcommand?_word (option : Typed) : command.subcommand? option.word = none := by
  rw [Option.eq_none_iff_forall_ne_some]
  intro subcommand hfound
  obtain ⟨hin, hcommand, hname⟩ := Command.mem_of_subcommand? hfound
  refine (htypable.subcommands subcommand (List.mem_filter.mpr ⟨hin, hcommand⟩)).2 ?_
  simp [hname, Typed.word]

include hknown htypable hchosen in
/-- Behind the name of the command, a word is taken for its subcommand if one is chosen. -/
theorem withSubcommand_structured {invocation : Invocation}
    (hname : invocation.commandName = command.name) (hnone : invocation.subcommand = none) :
    withSubcommand dispatcher invocation (chosen.toList ++ typed.map Typed.word) =
      ({ invocation with subcommand := chosen }, typed.map Typed.word) := by
  cases chosen with
  | some name =>
      obtain ⟨subcommand, hmem, rfl⟩ := hchosen name rfl
      obtain ⟨hin, hcommand⟩ := List.mem_filter.mp hmem
      obtain ⟨found, hfound⟩ :=
        Option.isSome_iff_exists.mp (Command.isSome_subcommand? hin hcommand)
      simp [withSubcommand, hname, hknown, hfound]
  | none =>
      have hsame : { invocation with subcommand := none } = invocation := by rw [← hnone]
      rw [hsame, Option.toList_none, List.nil_append]
      cases typed with
      | nil => rfl
      | cons option rest =>
          simp [withSubcommand, hname, hknown, subcommand?_word htypable option]

include hdeclared hknown htypable hchosen hwritable in
/-- The words of a structured line are the invocation and its options. -/
theorem invocation?_structured {template : Invocation} (hbare : template.subcommand = none) :
    invocation? dispatcher template
        (Text.join " " (structuredWords command.name chosen typed)).toList =
      some ({ template with commandName := command.name, subcommand := chosen },
        typed.map Typed.word) := by
  rw [invocation?, String.ofList_toList,
    words_structured hdeclared htypable hchosen hwritable]
  exact congrArg some (withSubcommand_structured hknown htypable hchosen rfl hbare)

end Structured

/-- A structured line of a declared command is read as an invocation of the command with the
chosen subcommand and, under every name, the last of its values; a value is typed as what it
denotes. -/
theorem structured_line_read {dispatcher : Dispatcher α π} {command : Command α}
    (hdeclared : command.Declared)
    (hknown : dispatcher.commands.get? command.name = some command) (htypable : Typable command)
    {template : Invocation} (hbare : template.subcommand = none) (hempty : template.options = ∅)
    {chosen : Option String}
    (hchosen : ∀ name ∈ chosen, ∃ subcommand ∈ command.subcommands, subcommand.name = name)
    {typed : List Typed} (hwritable : ∀ option ∈ typed, option.Writable) :
    (∃ options,
      parseLine dispatcher template (structuredLine command.name chosen typed) =
        .structured
          { template with
            commandName := command.name
            subcommand := chosen
            options := options } ∧
      ∀ name, options.get? name =
        (lastValue? typed name).map fun text => parseValue text.toList) ∧
    ∀ text value, parseValue text.toList = value ↔ Denotes text value := by
  refine ⟨⟨(typed.map Typed.word).foldl enterOption ∅, ?_, fun name => ?_⟩, fun text value =>
    denotes_iff.symm⟩
  · have hinvocation :=
      invocation?_structured hdeclared hknown htypable hchosen hwritable hbare
    unfold parseLine
    rw [trim_structuredLine hdeclared hchosen]
    simp only [hinvocation, hempty]
  · have hnone : (∅ : Dict String Value).get? name = none := rfl
    rw [get?_foldl_enterOption hwritable, hnone, Option.or_none]

/-- Options of which one comes twice, with values that look like words of a line. -/
def typedItems : List Typed :=
  [⟨"item", "list two=2"⟩, ⟨"count", "-7"⟩, ⟨"item", "“milk"⟩, ⟨"price", "-.15E2"⟩,
    ⟨"urgent", "true"⟩]

theorem listing_structured :
    structuredLine "todo" (some "list") typedItems =
        "/todo list item=“list two=2” count=“-7” item=““milk” price=“-.15E2” urgent=“true”" ∧
      (∃ options,
        parseLine (listingDispatcher "!") (Invocation.plain "" "42")
            (structuredLine "todo" (some "list") typedItems) =
          .structured
            { Invocation.plain "todo" "42" with
              subcommand := some "list"
              options := options } ∧
        options.get? "item" = some (.text "“milk") ∧
        options.get? "count" = some (.integer (-7)) ∧
        options.get? "price" = some (.number (-15)) ∧
        options.get? "urgent" = some (.bool true) ∧ options.get? "two" = none) ∧
      Denotes "-7" (.integer (-7)) ∧ Denotes "-.15E2" (.number (-15)) ∧
      Denotes "0.1" (.number (.ofBits 0x3FB999999999999A)) := by
  have htypable : Typable listing := by
    constructor
    · decide
    · decide
  have hwritable : ∀ option ∈ typedItems, option.Writable := by
    have hplain : ∀ option ∈ typedItems,
        option.name.toList.any
            (fun c => c == '=' || Text.isBlank c || c == Message.openQuote) = false ∧
          Message.closeQuote ∉ option.value.toList := by decide
    intro option hmem
    obtain ⟨hname, hvalue⟩ := hplain option hmem
    exact ⟨fun c hc => by simpa [and_assoc] using Text.forall_of_any_eq_false hname c hc, hvalue⟩
  have hchosen : ∀ name ∈ some "list", ∃ subcommand ∈ listing.subcommands,
      subcommand.name = name := by
    rintro name ⟨⟩
    exact ⟨_, List.mem_singleton_self _, rfl⟩
  have hknown : (listingDispatcher "!").commands.get? listing.name = some listing := rfl
  have hbare : (Invocation.plain "" "42").subcommand = none := rfl
  obtain ⟨⟨options, hline, hoptions⟩, hdenotes⟩ :=
    structured_line_read listing_declared hknown htypable hbare rfl hchosen hwritable
  refine ⟨rfl, ⟨options, hline, ?_, ?_, ?_, ?_, ?_⟩, (hdenotes _ _).mp rfl, (hdenotes _ _).mp rfl,
    (hdenotes _ _).mp rfl⟩
  · exact (hoptions "item").trans rfl
  · exact (hoptions "count").trans rfl
  · exact (hoptions "price").trans rfl
  · exact (hoptions "urgent").trans rfl
  · exact (hoptions "two").trans rfl

end Console

end SlashCommand
