import SlashCommand.Console.Line
import SlashCommand.Proofs.Dispatch.Addressed

/-!
# Text commands at the console

Two readers look at a line that is typed at the console, one after the other.  The first goes
by its first character, a slash or a question mark, the second by the lead of the dispatcher.
A text command behind the lead always reaches its command once it is taken for a text, and it
is taken for one unless the lead itself starts with a character that the first reader reserves.
-/

namespace SlashCommand

variable {α π : Type}

/-! ## The end of a line -/

/-- A text behind a blank is trimmed at its end, and when nothing is left of it the blank goes
too. -/
theorem Text.trim_append_cons_blank {front : List Char} (h : Tight front) (hne : front ≠ [])
    (rest : List Char) :
    trim (front ++ ' ' :: rest) =
      if trimEnd rest = [] then front else front ++ ' ' :: trimEnd rest := by
  have hstart : trimStart (front ++ ' ' :: rest) = front ++ ' ' :: rest := by
    obtain ⟨c, others, rfl⟩ := List.exists_cons_of_ne_nil hne
    exact trimStart_of_start fun d hd => h.start d hd
  rw [trim, hstart]
  split
  next hblank =>
      have hblanks : ∀ c ∈ ' ' :: rest, isBlank c = true :=
        List.forall_mem_cons.mpr ⟨by decide, trimEnd_eq_nil_iff.mp hblank⟩
      rw [trimEnd_append_blank hblanks, trimEnd_of_ending h.ending]
  next hleft =>
      rw [List.append_cons, trimEnd_append hleft, List.append_assoc, List.singleton_append]

namespace Console

/-! ## The first reader -/

/-- A character that starts structured invocations or requests for suggestions. -/
def Reserved (c : Char) : Prop :=
  c = '/' ∨ c = '?'

/-- A line is taken for a text exactly if its first character is not reserved. -/
theorem parseLine_eq_text_iff (dispatcher : Dispatcher α π) (template : Invocation)
    {line : String} {start : Char} {rest : List Char}
    (h : Text.trim line.toList = start :: rest) :
    parseLine dispatcher template line = .text (String.ofList (start :: rest)) ↔
      ¬ Reserved start := by
  unfold parseLine Reserved
  rw [h]
  split
  next hnil => cases hnil
  next hslash =>
      cases hslash
      cases invocation? dispatcher template rest <;> simp
  next hquestion =>
      cases hquestion
      cases invocation? dispatcher template rest <;> simp
  next hslash hquestion =>
      refine iff_of_true rfl ?_
      rintro (rfl | rfl)
      · exact hslash rest rfl
      · exact hquestion rest rfl

/-! ## Both readers -/

/-- The line of a text command is trimmed to the lead, the name and what is left of the text
behind it. -/
theorem trim_commandLine {dispatcher : Dispatcher α π} {command : Command α} {start : Char}
    {others : List Char} (hlead : dispatcher.lead.toList = start :: others)
    (hstart : Text.isBlank start = false) (hname : Text.isWord command.name = true)
    (raw : String) :
    ∃ rest, Text.trim (dispatcher.lead ++ command.name ++ " " ++ raw).toList =
        dispatcher.lead.toList ++ rest ∧
      Dispatcher.nameAndRaw rest = (command.name.toList, Text.trimEnd raw.toList) := by
  obtain ⟨hnonempty, hplain⟩ := Text.isWord_iff.mp hname
  have htight : Text.Tight (dispatcher.lead.toList ++ command.name.toList) := by
    constructor
    · rw [hlead]
      rintro c ⟨⟩
      exact hstart
    · intro c hc
      rw [List.getLast?_append_of_ne_nil _ hnonempty] at hc
      exact hplain c (List.mem_of_getLast? hc)
  have hne : dispatcher.lead.toList ++ command.name.toList ≠ [] := by simp [hlead]
  have hline : (dispatcher.lead ++ command.name ++ " " ++ raw).toList =
      dispatcher.lead.toList ++ command.name.toList ++ ' ' :: raw.toList := by
    simp
  rw [hline, Text.trim_append_cons_blank htight hne]
  split
  next hblank =>
      rw [hblank]
      exact ⟨_, rfl, Dispatcher.nameAndRaw_of_word hplain⟩
  next =>
      rw [List.append_assoc]
      exact ⟨_, rfl, Dispatcher.nameAndRaw_append hplain (by decide) _⟩

/-- A text command of a declared command, behind a lead that does not start with a blank, always
reaches the command with its raw text once the line is taken for a text, and it is taken for one
exactly if the lead does not start with a reserved character. -/
theorem text_command_iff {dispatcher : Dispatcher α π} {command : Command α} {start : Char}
    {others : List Char} (hlead : dispatcher.lead.toList = start :: others)
    (hstart : Text.isBlank start = false) (hdeclared : command.Declared)
    (hknown : dispatcher.commands.get? command.name = some command) (template : Invocation)
    (raw : String) :
    let line := dispatcher.lead ++ command.name ++ " " ++ raw
    let body := String.ofList (Text.trim line.toList)
    (parseLine dispatcher template line = .text body ↔ ¬ Reserved start) ∧
      dispatcher.parseMessage body template = .ok
        { commandName := command.name
          raw := some (String.ofList (Text.trim raw.toList))
          userId := template.userId
          channelId := template.channelId
          guildId := template.guildId } := by
  intro line body
  have hname := hdeclared.wellFormed.name
  obtain ⟨rest, htrim, hsplit⟩ := trim_commandLine hlead hstart hname raw
  constructor
  · have hfirst : Text.trim line.toList = start :: (others ++ rest) := by
      rw [htrim, hlead, List.cons_append]
    have hiff := parseLine_eq_text_iff dispatcher template hfirst
    rwa [← hfirst] at hiff
  · have hbody : Text.trim body.toList = dispatcher.lead.toList ++ rest := by
      rw [String.toList_ofList, (Text.tight_trim _).trim_eq]
      exact htrim
    have hfound : dispatcher.commands.contains command.name = true := by
      rw [Dict.contains, hknown]
      rfl
    have hnonempty : command.name.toList ≠ [] := (Text.isWord_iff.mp hname).1
    rw [Dispatcher.parseMessage, hbody, Text.afterStart?_append]
    simp [hsplit, hnonempty, hfound, Text.trim_trimEnd]

/-- Behind a lead of letters a message is taken for a text and reaches the list. -/
theorem listing_reached :
    parseLine (listingDispatcher "bot ") (Invocation.plain "" "42") "bot todo  milk " =
        .text "bot todo  milk" ∧
      (listingDispatcher "bot ").parseMessage "bot todo  milk" (Invocation.plain "" "42") =
        .ok (said "milk") := by
  have hlead : (listingDispatcher "bot ").lead.toList = 'b' :: "ot ".toList := rfl
  have hreached := text_command_iff hlead (by decide) listing_declared rfl
    (Invocation.plain "" "42") " milk "
  exact ⟨hreached.1.mpr (by simp [Reserved]), hreached.2⟩

/-! ## A lead that is reserved -/

/-- Behind a question mark for a lead the same message is taken for a request for suggestions,
though it would reach the list. -/
theorem listing_misrouted :
    listing.Declared ∧ (listingDispatcher "?").commands.get? "todo" = some listing ∧
      (∃ request, parseLine (listingDispatcher "?") (Invocation.plain "" "42") "?todo milk" =
        .autocomplete request) ∧
      parseLine (listingDispatcher "?") (Invocation.plain "" "42") "?todo milk" ≠
        .text "?todo milk" ∧
      (listingDispatcher "?").parseMessage "?todo milk" (Invocation.plain "" "42") =
        .ok (said "milk") := by
  have hrequest : parseLine (listingDispatcher "?") (Invocation.plain "" "42") "?todo milk" =
      .autocomplete (focus (Invocation.plain "todo" "42") ["milk"]) := rfl
  refine ⟨listing_declared, rfl, ⟨_, hrequest⟩, ?_, rfl⟩
  rw [hrequest]
  exact Line.noConfusion

end Console

end SlashCommand
