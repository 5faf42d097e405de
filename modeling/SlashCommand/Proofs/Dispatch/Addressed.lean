import SlashCommand.Proofs.Dispatch.Containment
import SlashCommand.Proofs.Resolution.FlagValue
import SlashCommand.Proofs.Text.Cut

/-!
# Messages that are addressed to a bot

A message is addressed to a bot if, trimmed, it is the lead of the dispatcher, a word, and
nothing or a blank behind the word.  The word is the name of a command: a known one is
invoked with the text behind it, an unknown one is answered with the help message or a hint
at it.  Every other message is ignored.
-/

namespace SlashCommand

variable {α π : Type}

/-- A trimmed message is the lead, the word, and a rest that does not prolong the word. -/
structure Addressed (lead body name : String) (rest : List Char) : Prop where
  split : Text.trim body.toList = lead.toList ++ (name.toList ++ rest)
  word : Text.isWord name = true
  ended : ∀ c ∈ rest.head?, Text.isBlank c = true

namespace Dispatcher

/-! ## The name in a message -/

/-- A name that stands alone has no text behind it. -/
theorem nameAndRaw_of_word {name : List Char} (h : ∀ c ∈ name, Text.isBlank c = false) :
    nameAndRaw name = (name, []) := by
  rw [nameAndRaw, Text.splitAtFirst?_of_forall h]
  rfl

/-- A name ends at the blank behind it. -/
theorem nameAndRaw_append {name : List Char} (h : ∀ c ∈ name, Text.isBlank c = false)
    {blank : Char} (hblank : Text.isBlank blank = true) (rest : List Char) :
    nameAndRaw (name ++ blank :: rest) = (name, rest) := by
  rw [nameAndRaw, Text.splitAtFirst?_append h hblank]
  rfl

/-- The text behind a name, without the blank that ends the name, is trimmed alike. -/
theorem nameAndRaw_ended {name rest : List Char} (h : ∀ c ∈ name, Text.isBlank c = false)
    (hended : ∀ c ∈ rest.head?, Text.isBlank c = true) :
    ∃ raw, nameAndRaw (name ++ rest) = (name, raw) ∧ Text.trim raw = Text.trim rest := by
  cases rest with
  | nil => exact ⟨[], by rw [List.append_nil, nameAndRaw_of_word h], rfl⟩
  | cons blank rest =>
      have hblank := hended blank rfl
      exact ⟨rest, nameAndRaw_append h hblank rest, (Text.trim_cons_blank hblank rest).symm⟩

/-- Every text is a name, which may be empty, and a rest that does not prolong it. -/
theorem exists_name_rest (text : List Char) :
    ∃ name rest, text = name ++ rest ∧ (∀ c ∈ name, Text.isBlank c = false) ∧
      ∀ c ∈ rest.head?, Text.isBlank c = true := by
  refine ⟨text.takeWhile fun c => !Text.isBlank c, text.dropWhile fun c => !Text.isBlank c,
    List.takeWhile_append_dropWhile.symm, fun c hc => ?_, fun c hc => ?_⟩
  · simpa using List.mem_takeWhile_imp hc
  · have hdropped := List.head?_dropWhile_not (fun c => !Text.isBlank c) text
    rw [Option.mem_def.mp hc] at hdropped
    simpa using hdropped

/-! ## How a message is read -/

section Reading

variable {dispatcher : Dispatcher α π} {body : String} (template : Invocation)

/-- The invocation of a command by a message: the template lends its user, channel and guild. -/
def invocationOf (template : Invocation) (name : String) (rest : List Char) : Invocation :=
  { commandName := name
    subcommand := none
    options := ∅
    target := ∅
    focused := none
    raw := some (String.ofList (Text.trim rest))
    userId := template.userId
    channelId := template.channelId
    guildId := template.guildId }

/-- A message that is addressed to the bot is read as an invocation of the command it names. -/
theorem parseMessage_of_addressed {name : String} {rest : List Char}
    (h : Addressed dispatcher.lead body name rest) :
    dispatcher.parseMessage body template =
      if dispatcher.commands.contains name then .ok (invocationOf template name rest)
      else .error (.unknownCommand name) := by
  obtain ⟨hnonempty, hplain⟩ := Text.isWord_iff.mp h.word
  obtain ⟨raw, hsplit, htrim⟩ := nameAndRaw_ended hplain h.ended
  rw [parseMessage, h.split, Text.afterStart?_append]
  simp only [hsplit, htrim, String.ofList_toList]
  cases dispatcher.commands.contains name <;> simp [hnonempty, invocationOf]

/-- A message that is not addressed to the bot is refused as such. -/
theorem parseMessage_of_not_addressed
    (h : ∀ name rest, ¬ Addressed dispatcher.lead body name rest) :
    dispatcher.parseMessage body template = .error .notForBot := by
  unfold parseMessage
  split
  next => rfl
  next behind hbehind =>
      obtain ⟨name, rest, rfl, hplain, hended⟩ := exists_name_rest behind
      obtain ⟨raw, hsplit, _⟩ := nameAndRaw_ended hplain hended
      have hempty : name = [] := by
        by_contra hnonempty
        refine h (String.ofList name) rest ⟨?_, Text.isWord_iff.mpr ?_, hended⟩
        · rw [String.toList_ofList]
          exact Text.eq_append_of_afterStart? hbehind
        · rw [String.toList_ofList]
          exact ⟨hnonempty, hplain⟩
      simp only [hsplit]
      rw [hempty]
      rfl

end Reading

/-! ## How a message is answered -/

/-- A message is ignored: nothing is sent, no command is used, and nothing changes. -/
def Ignored (dispatcher : Dispatcher α π) (body : String) (template : Invocation)
    (world : World α π) : Prop :=
  dispatcher.handleMessage body template world = (.ok none, world) ∧
    dispatcher.recorded.handleMessage body template world.watched = (.ok none, world.watched)

/-- A message is answered with a reply to an invocation: no command is used, and sending the
reply is the only call of the platform. -/
structure RepliedTo (dispatcher : Dispatcher α π) (body : String) (template : Invocation)
    (world : World α π) (invocation : Invocation) (reply : Reply)
    (outcome : Except DispatchError Reply) (after : Watched α π) : Prop where
  recorded : dispatcher.recorded.handleMessage body template world.watched =
    (outcome.map some, after)
  plain : dispatcher.handleMessage body template world = (outcome.map some, after.plain)
  uses : after.uses = []
  shared : after.plain.shared = world.shared
  calls : after.calls = [.respond invocation reply]
  sent : Sent dispatcher.platform invocation reply world.platform after.calls outcome
    after.plain.platform

/-- What an unknown name is answered with: the help message exactly if help is asked for, and
else a hint at it that only the user sees. -/
structure RepliesToUnknown (dispatcher : Dispatcher α π) (name : String) (reply : Reply) :
    Prop where
  help : reply = .message dispatcher.help ↔ name = "help"
  hint : name ≠ "help" → reply = .ephemeral ("Unknown command `" ++ name ++ "`. Type `" ++
    dispatcher.lead ++ "help` for more information.")

variable (dispatcher : Dispatcher α π)

theorem repliesToUnknown_replyToUnknown (name : String) :
    dispatcher.RepliesToUnknown name (dispatcher.replyToUnknown name) := by
  by_cases hhelp : name = "help"
  · exact ⟨by simp [replyToUnknown, hhelp], fun hne => absurd hhelp hne⟩
  · have hhint : dispatcher.replyToUnknown name =
        Responses.unknownCommand dispatcher.lead name := if_neg hhelp
    exact ⟨by simp [hhint, hhelp, Responses.unknownCommand], fun _ => hhint⟩

theorem replyToUnknown_ne_silent (name : String) : dispatcher.replyToUnknown name ≠ .silent := by
  unfold replyToUnknown Responses.unknownCommand
  split <;> simp

variable {dispatcher} {body : String} {template : Invocation}

/-- A message with an unknown name is answered in the place of the template. -/
theorem repliedTo_of_unknown {name : String}
    (h : dispatcher.parseMessage body template = .error (.unknownCommand name))
    (world : World α π) :
    ∃ outcome after, dispatcher.RepliedTo body template world
      { template with commandName := name } (dispatcher.replyToUnknown name) outcome after := by
  have hsent := dispatcher.sent_send { template with commandName := name }
    (dispatcher.replyToUnknown name) world.platform
  rcases hsend : dispatcher.recorded.send { template with commandName := name }
    (dispatcher.replyToUnknown name) (world.platform, []) with ⟨sent, platform⟩
  rw [hsend] at hsent
  have hrecorded : dispatcher.recorded.handleMessage body template world.watched =
      ((sent.map fun _ => dispatcher.replyToUnknown name).map some,
        ⟨(world.shared, []), platform⟩) := by
    unfold handleMessage
    rw [parseMessage_recorded, h]
    simp only [replyToUnknown_recorded, World.watched, hsend]
    cases sent <;> rfl
  have hplain := dispatcher.handleMessage_recorded body template world.watched
  rw [hrecorded] at hplain
  exact ⟨_, _, hrecorded, hplain.symm, rfl, rfl,
    hsent.calls_eq (dispatcher.replyToUnknown_ne_silent name), hsent⟩

theorem ignored_of_notForBot (h : dispatcher.parseMessage body template = .error .notForBot)
    (world : World α π) : dispatcher.Ignored body template world := by
  constructor
  · rw [handleMessage, h]
  · rw [handleMessage, parseMessage_recorded, h]

/-- A message that is addressed to the bot invokes the command it names, if that is known, with
the text behind the name and no other part of the template but its user, channel and guild; else
it is answered once, with the help message or a hint at it.  Any other message is ignored. -/
theorem message_routed (dispatcher : Dispatcher α π) (body : String) (template : Invocation) :
    (∀ name rest, Addressed dispatcher.lead body name rest →
      ((∃ command, dispatcher.commands.get? name = some command) →
        dispatcher.parseMessage body template = .ok (invocationOf template name rest)) ∧
      (dispatcher.commands.get? name = none →
        dispatcher.parseMessage body template = .error (.unknownCommand name) ∧
        ∀ world, ∃ reply outcome after, dispatcher.RepliesToUnknown name reply ∧
          dispatcher.RepliedTo body template world { template with commandName := name } reply
            outcome after)) ∧
    ((∀ name rest, ¬ Addressed dispatcher.lead body name rest) →
      dispatcher.parseMessage body template = .error .notForBot ∧
      ∀ world, dispatcher.Ignored body template world) := by
  refine ⟨fun name rest haddressed => ?_, fun hchatter => ?_⟩
  · have hread := parseMessage_of_addressed template haddressed
    constructor
    · rintro ⟨command, hknown⟩
      simpa [Dict.contains, hknown] using hread
    · intro hunknown
      have hparse : dispatcher.parseMessage body template = .error (.unknownCommand name) := by
        simpa [Dict.contains, hunknown] using hread
      refine ⟨hparse, fun world => ?_⟩
      obtain ⟨outcome, after, hreplied⟩ := repliedTo_of_unknown hparse world
      exact ⟨_, outcome, after, dispatcher.repliesToUnknown_replyToUnknown name, hreplied⟩
  · have hparse := parseMessage_of_not_addressed template hchatter
    exact ⟨hparse, ignored_of_notForBot hparse⟩

end Dispatcher

/-- A dispatcher with a lead that knows the list. -/
def listingDispatcher (lead : String) : Dispatcher Unit Unit :=
  (({ platform := acceptingPlatform, lead := lead } : Dispatcher Unit Unit).registerEach ()
    [listing]).1

/-- A message in the kitchen, with fields that only an invocation of the platform has. -/
def inKitchen : Invocation :=
  { Invocation.plain "menu" "42" with
    subcommand := some "list"
    focused := some "all"
    channelId := some "kitchen" }

/-- Behind a lead that ends with a blank one name is known, another asks for help, a third is
unknown, and a further blank leaves no name at all. -/
theorem listing_addressed :
    (listingDispatcher "hey ").parseMessage " hey todo\n milk " inKitchen =
        .ok { said "milk" with channelId := some "kitchen" } ∧
      ((listingDispatcher "hey ").parseMessage "hey help" inKitchen =
          .error (.unknownCommand "help") ∧
        ∃ outcome after, (listingDispatcher "hey ").RepliedTo "hey help" inKitchen ⟨(), ()⟩
          { inKitchen with commandName := "help" } (.message (listingDispatcher "hey ").help)
            outcome after) ∧
      ((listingDispatcher "hey ").parseMessage "hey Todo milk" inKitchen =
          .error (.unknownCommand "Todo") ∧
        ∃ outcome after, (listingDispatcher "hey ").RepliedTo "hey Todo milk" inKitchen ⟨(), ()⟩
          { inKitchen with commandName := "Todo" }
          (.ephemeral "Unknown command `Todo`. Type `hey help` for more information.")
            outcome after) ∧
      (listingDispatcher "hey ").parseMessage "hey  todo" inKitchen = .error .notForBot ∧
        (listingDispatcher "hey ").Ignored "hey  todo" inKitchen ⟨(), ()⟩ := by
  have hmilk : Addressed "hey " " hey todo\n milk " "todo" "\n milk".toList :=
    ⟨by decide, by decide, fun c hc => by cases hc; decide⟩
  have hhelp : Addressed "hey " "hey help" "help" [] := ⟨by decide, by decide, by simp⟩
  have hother : Addressed "hey " "hey Todo milk" "Todo" " milk".toList :=
    ⟨by decide, by decide, fun c hc => by cases hc; decide⟩
  have hnameless : ∀ name rest, ¬ Addressed "hey " "hey  todo" name rest := by
    intro name rest haddressed
    obtain ⟨hnonempty, hplain⟩ := Text.isWord_iff.mp haddressed.word
    obtain ⟨c, others, hname⟩ := List.exists_cons_of_ne_nil hnonempty
    have hsplit := haddressed.split
    rw [hname] at hsplit hplain
    have hspaced : "hey ".toList ++ ' ' :: "todo".toList =
        "hey ".toList ++ c :: (others ++ rest) := hsplit
    have hnone := hplain c List.mem_cons_self
    rw [← (List.cons.inj (List.append_cancel_left hspaced)).1] at hnone
    cases hnone
  have hrouted := Dispatcher.message_routed (listingDispatcher "hey ")
  have hknown := ((hrouted " hey todo\n milk " inKitchen).1 _ _ hmilk).1 ⟨listing, rfl⟩
  obtain ⟨hunknown, hreplied⟩ := ((hrouted "hey help" inKitchen).1 _ _ hhelp).2 rfl
  obtain ⟨reply, outcome, after, hreply, hhandled⟩ := hreplied ⟨(), ()⟩
  obtain ⟨hstranger, hhinted⟩ := ((hrouted "hey Todo milk" inKitchen).1 _ _ hother).2 rfl
  obtain ⟨hint, hinted, later, hhint, htold⟩ := hhinted ⟨(), ()⟩
  obtain ⟨hrefused, hignored⟩ := (hrouted "hey  todo" inKitchen).2 hnameless
  rw [hreply.help.mpr rfl] at hhandled
  rw [hhint.hint (by decide)] at htold
  exact ⟨hknown, ⟨hunknown, outcome, after, hhandled⟩, ⟨hstranger, hinted, later, htold⟩, hrefused,
    hignored ⟨(), ()⟩⟩

end SlashCommand
