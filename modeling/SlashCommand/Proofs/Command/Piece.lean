import SlashCommand.Command
import SlashCommand.Proofs.Declaration.Fragment

/-!
# Reading back the pieces of a written command

A command is written piece by piece.  A piece whose texts a declaration can hold is
scanned as one piece and declares what it was written for, without bounds.
-/

namespace SlashCommand

open Declaration

/-! ## Texts that can be written -/

/-- A text that a declaration holds as it is: trimmed, without plus signs, brackets and
marks between sections. -/
structure Plain (text : String) : Prop where
  trimmed : Text.trim text.toList = text.toList
  noPlus : '+' ∉ text.toList
  noBracket : ∀ c ∈ text.toList, isBracket c = false
  unparted : ¬ Payload.sectionMark <:+: text.toList

/-- A literal choice that a declaration holds as it is. -/
structure PlainChoice (choice : String) : Prop extends Plain choice where
  nonempty : choice ≠ ""
  noBar : '|' ∉ choice.toList

/-- A bareword with a description that a declaration holds as they are.  The only
blanks a bareword can hold are single spaces. -/
structure PlainBareword (name description : String) : Prop where
  noPlus : '+' ∉ name.toList
  noBracket : ∀ c ∈ name.toList, isBracket c = false
  described : Plain description
  spaced : ∀ c ∈ description.toList, Text.isBlank c = true → c = ' '

theorem Plain.carried {text : String} (h : Plain text) : Payload.Carried text.toList where
  tight := Text.trim_eq_self_iff.mp h.trimmed
  unparted := Payload.unparted_iff.mpr h.unparted
  noPlus := h.noPlus

theorem PlainChoice.carriedChoice {choice : String} (h : PlainChoice choice) :
    Payload.CarriedChoice choice.toList where
  toCarried := h.carried
  nonempty := by simpa [String.toList_eq_nil_iff] using h.nonempty
  noBar := h.noBar

/-! ## Written characters -/

theorem isBracket_blankToPlus {c : Char} (h : isBracket c = false) :
    isBracket (Payload.blankToPlus c) = false := by
  unfold Payload.blankToPlus
  split
  · decide
  · exact h

theorem forall_map_blankToPlus {text : List Char} (h : ∀ c ∈ text, isBracket c = false) :
    ∀ c ∈ text.map Payload.blankToPlus, isBracket c = false := by
  intro c hc
  obtain ⟨d, hd, rfl⟩ := List.mem_map.mp hc
  exact isBracket_blankToPlus (h d hd)

theorem sectionMark_noBracket : ∀ c ∈ Payload.sectionMark, isBracket c = false :=
  Text.forall_of_any_eq_false (by decide)

/-! ## Barewords -/

theorem roleAt?_command (position : Nat) : ∃ role, roleAt? .command position = some role := by
  match position with
  | 0 => exact ⟨.root, rfl⟩
  | 1 => exact ⟨.group, rfl⟩
  | _ + 2 => exact ⟨.sub, rfl⟩

theorem namePiece_ne_nil {name description : String} (hvoid : Text.isVoid description = false) :
    (Command.namePiece name description).toList ≠ [] := by
  rw [Command.namePiece, Payload.write_described hvoid]
  simp [Payload.sectionMark]

section Bareword

variable {name description : String} (hname : Text.isWord name = true)
  (hvoid : Text.isVoid description = false) (h : PlainBareword name description)

include hname hvoid h

theorem namePiece_plain : ∀ c ∈ (Command.namePiece name description).toList,
    Text.isBlank c = false ∧ isBracket c = false := by
  intro c hc
  rw [Command.namePiece, Payload.write_described hvoid] at hc
  obtain ⟨d, hd, rfl⟩ := List.mem_map.mp hc
  rw [List.mem_append, List.mem_append] at hd
  rcases hd with (hd | hd) | hd
  · have hblank := (Text.isWord_iff.mp hname).2 d hd
    have hspace : Text.isBlank d = true → d = ' ' := fun hyes => by simp [hblank] at hyes
    exact ⟨Payload.isBlank_blankToPlus hspace, isBracket_blankToPlus (h.noBracket d hd)⟩
  · have hspace : Text.isBlank d = true → d = ' ' := by
      rcases List.mem_cons.mp hd with rfl | hlast
      · decide
      · exact fun _ => List.mem_singleton.mp hlast
    exact ⟨Payload.isBlank_blankToPlus hspace, isBracket_blankToPlus (sectionMark_noBracket d hd)⟩
  · exact ⟨Payload.isBlank_blankToPlus (h.spaced d hd),
      isBracket_blankToPlus (h.described.noBracket d hd)⟩

theorem isPiece_namePiece : IsPiece (Command.namePiece name description).toList :=
  .bareword (namePiece_ne_nil hvoid) (namePiece_plain hname hvoid h)

/-- The piece of a name declares the name with its description. -/
theorem parse_namePiece (position : Nat) :
    ∃ role, Fragment.parse .command position (Command.namePiece name description) =
      .ok ⟨position, Command.namePiece name description,
        argumentOf ⟨name, some description, none⟩ (.command role) name, none⟩ := by
  obtain ⟨role, hrole⟩ := roleAt?_command position
  have hplain := namePiece_plain hname hvoid h
  have hword := Text.isWord_iff.mp hname
  have hread : Payload.read (Command.namePiece name description).toList =
      ⟨name, some description, none⟩ :=
    Payload.read_write (Payload.carried_of_word hword.2 h.noPlus) h.described.carried hvoid
      (by simp)
  exact ⟨role, Fragment.parse_of_noBracket (namePiece_ne_nil hvoid) (fun c hc => (hplain c hc).2)
    hrole hread hname⟩

end Bareword

/-! ## Parameters -/

/-- A parameter without bounds, its own and those of its parameters. -/
def Argument.unbounded (argument : Argument) : Argument :=
  { argument with
    min := none
    max := none
    subarguments := argument.subarguments.map fun own => { own with min := none, max := none } }

/-- The text that stands last in the piece of a positional parameter: its description,
or its last choice if it has a list of choices. -/
def lastText (description : String) : Option (List String) → Option String
  | none => some description
  | some listed => listed.getLast?

/-- A declaration holds a positional parameter and its choices as they are. -/
structure PlainPositional (argument : Argument) (choices : Option (List String)) : Prop where
  described : Plain argument.description
  undotted : ¬ dots <:+ argument.name.toList
  listed : ∀ listed ∈ choices, ∀ choice ∈ listed, PlainChoice choice
  ending : ∀ text ∈ lastText argument.description choices, ¬ dots <:+ text.toList

/-- A declaration holds a flag as it is. -/
structure PlainFlag (argument : Argument) : Prop where
  described : Plain argument.description
  token : ∀ token ∈ argument.token, token.toList.getLast? ≠ some ';'

/-- A declaration has a place for the texts of a positional parameter. -/
structure HeldPositional (argument : Argument) (choices : Option (List String)) : Prop where
  described : Plain argument.description
  listed : ∀ listed ∈ choices, ∀ choice ∈ listed, PlainChoice choice

/-- Nothing of a positional parameter is written as the dots of a variadic one. -/
structure UnmarkedPositional (argument : Argument) (choices : Option (List String)) : Prop where
  /-- A datatype behind the name keeps dots of the name apart, and the dots of a variadic
  parameter are the last ones. -/
  undotted : argument.datatype = .string → argument.variadic = false →
    ¬ dots <:+ argument.name.toList
  ending : ∀ text ∈ lastText argument.description choices, ¬ dots <:+ text.toList

/-- The token of a flag is not written with a mark between sections. -/
def UnmarkedFlag (argument : Argument) : Prop :=
  ∀ token ∈ argument.token, token.toList.getLast? ≠ some ';'

theorem PlainPositional.held {argument : Argument} {choices : Option (List String)}
    (h : PlainPositional argument choices) : HeldPositional argument choices :=
  ⟨h.described, h.listed⟩

theorem PlainPositional.unmarked {argument : Argument} {choices : Option (List String)}
    (h : PlainPositional argument choices) : UnmarkedPositional argument choices :=
  ⟨fun _ _ => h.undotted, h.ending⟩

theorem noPlus_of_spaced {first second : List Char} (hfirst : IsName first)
    (hsecond : IsName second) : '+' ∉ first ++ ' ' :: second := by
  have hfirstPlus : '+' ∉ first := fun hmem => (hfirst.plain _ hmem).2.1 rfl
  have hsecondPlus : '+' ∉ second := fun hmem => (hsecond.plain _ hmem).2.1 rfl
  simp [hfirstPlus, hsecondPlus]

theorem space_carried {first second : List Char} (hfirst : IsName first) (hsecond : IsName second)
    (hending : first.getLast? ≠ some ';') : Payload.Carried (first ++ ' ' :: second) where
  tight :=
    { start := fun c hc => by
        obtain ⟨d, rest, rfl⟩ := List.exists_cons_of_ne_nil hfirst.nonempty
        cases hc
        exact (hfirst.plain c List.mem_cons_self).1
      ending := fun c hc => by
        have hlast : c ∈ second.getLast? := by
          obtain ⟨d, rest, rfl⟩ := List.exists_cons_of_ne_nil hsecond.nonempty
          simpa using hc
        exact (hsecond.plain c (List.mem_of_mem_getLast? hlast)).1 }
  unparted := by
    have hspace : Payload.Unparted (' ' :: second) := by
      have hword := Payload.unparted_of_not_mem
        (Payload.space_not_mem_of_word fun c hc => (hsecond.plain c hc).1)
      have hblank : Payload.Unparted [' '] := List.isChain_singleton ' '
      exact hblank.append hword (Or.inl (by decide))
    have hword := Payload.unparted_of_not_mem
      (Payload.space_not_mem_of_word fun c hc => (hfirst.plain c hc).1)
    exact hword.append hspace (Or.inl hending)
  noPlus := noPlus_of_spaced hfirst hsecond

/-- A text in brackets is the text between them. -/
theorem inner_bracketed (piece : String) (closing : Char) (content : List Char) :
    Declaration.inner piece closing (content ++ [closing]) = .ok content := by
  simp [Declaration.inner]

/-- A written payload has no bracket if its texts have none. -/
theorem write_noBracket {head description : String} {choices : Option (List String)}
    (hvoid : Text.isVoid description = false) (hhead : ∀ c ∈ head.toList, isBracket c = false)
    (hdescription : Plain description)
    (hchoices : ∀ listed ∈ choices, ∀ choice ∈ listed, PlainChoice choice) :
    ∀ c ∈ (Payload.write ⟨head, some description, choices⟩).toList, isBracket c = false := by
  have hjoin : ∀ listed ∈ choices, ∀ c ∈ (Text.join "|" listed).toList, isBracket c = false := by
    intro listed hlisted c hc
    rcases Text.mem_join hc with hbar | ⟨choice, hmem, hchoice⟩
    · rw [List.mem_singleton.mp hbar]
      decide
    · exact (hchoices listed hlisted choice hmem).noBracket c hchoice
  cases choices with
  | none =>
      rw [Payload.write_described hvoid]
      refine forall_map_blankToPlus fun c hc => ?_
      rw [List.mem_append, List.mem_append] at hc
      rcases hc with (hc | hc) | hc
      · exact hhead c hc
      · exact sectionMark_noBracket c hc
      · exact hdescription.noBracket c hc
  | some listed =>
      rw [Payload.write_choices hvoid]
      refine forall_map_blankToPlus fun c hc => ?_
      simp only [List.mem_append] at hc
      rcases hc with (hc | hc) | (hc | hc) | hc
      · exact hhead c hc
      · exact sectionMark_noBracket c hc
      · exact hdescription.noBracket c hc
      · exact sectionMark_noBracket c hc
      · exact hjoin listed rfl c hc

/-! ### Flags -/

section Flag

variable {α : Type} {argument : Argument} {token : String} (hform : argument.FlagForm)
  (htoken : argument.token = some token) (hisToken : IsFlagToken token.toList)

/-- The head of the piece of a flag. -/
def flagHead (token : String) (argument : Argument) : String :=
  token ++ " " ++ argument.name

theorem flagHead_toList (token : String) (argument : Argument) :
    (flagHead token argument).toList = token.toList ++ ' ' :: argument.name.toList := by
  simp [flagHead]

theorem flagHead_noPlus (hform : argument.FlagForm) (hisToken : IsFlagToken token.toList) :
    '+' ∉ (flagHead token argument).toList := by
  rw [flagHead_toList]
  exact noPlus_of_spaced hisToken.toIsName hform.name

include hform htoken

theorem argumentPiece_flag (command : Command α) (scope : Option String) :
    command.argumentPiece scope argument =
      "(" ++ Payload.write ⟨flagHead token argument, some argument.description, none⟩ ++ ")" := by
  simp [Command.argumentPiece, hform.kind, htoken, flagHead]

theorem argumentPiece_flag_toList (command : Command α) (scope : Option String) :
    (command.argumentPiece scope argument).toList =
      '(' :: ((Payload.write ⟨flagHead token argument, some argument.description, none⟩).toList ++
        [')']) := by
  rw [argumentPiece_flag hform htoken]
  simp

omit hform htoken in
/-- What round brackets hold is read as a flag. -/
theorem declared_of_round {piece : String} {rest : List Char} (h : piece.toList = '(' :: rest)
    (grammar : Grammar) (position : Nat) :
    declared grammar position piece = flag piece rest := by
  unfold declared
  rw [h]
  rfl

include hisToken

theorem isPiece_flagPiece (hvoid : Text.isVoid argument.description = false)
    (h : Plain argument.description) (command : Command α) (scope : Option String) :
    IsPiece (command.argumentPiece scope argument).toList := by
  rw [argumentPiece_flag_toList hform htoken]
  refine .bracketed rfl (write_noBracket hvoid (fun c hc => ?_) h (by simp))
  rw [flagHead_toList, List.mem_append, List.mem_cons] at hc
  rcases hc with hc | rfl | hc
  · exact (hisToken.plain c hc).2.2
  · decide
  · exact (hform.name.plain c hc).2.2

omit hisToken in
/-- What the piece of a flag declares is the flag. -/
theorem flag_eq_unbounded (head : String) :
    { argumentOf ⟨head, some argument.description, none⟩ .flag argument.name with
      optional := true
      token := some token } = argument.unbounded := by
  obtain ⟨kind, name, description, optional, variadic, datatype, found, low, high, own⟩ := argument
  obtain ⟨rfl, _, _, rfl, rfl, rfl, _, _, rfl⟩ := hform
  cases htoken
  rfl

omit htoken in
/-- A piece in round brackets whose head is the token and the name of a flag declares it. -/
theorem flag_of_read (piece : String) {content : List Char} {description : Option String}
    {choices : Option (List String)} (hdash : (content ++ [')']).head? = some '-')
    (hread : Payload.read content = ⟨flagHead token argument, description, choices⟩) :
    flag piece (content ++ [')']) = .ok
      ({ argumentOf ⟨flagHead token argument, description, choices⟩ .flag argument.name with
          optional := true
          token := some token }, choices) := by
  have hwords : Text.words (flagHead token argument).toList =
      [token.toList, argument.name.toList] := by
    rw [flagHead_toList]
    exact Text.words_of_pair hisToken.nonempty (fun c hc => (hisToken.plain c hc).1)
      hform.name.nonempty fun c hc => (hform.name.plain c hc).1
  have hname := checkName_of_word piece hform.name.nonempty fun c hc => (hform.name.plain c hc).1
  have hmarked : (withoutDashes token.toList).isEmpty = false := by
    simpa using hisToken.marked
  have hdots : (Text.beforeEnd? dots argument.name.toList).isSome = false := by
    simpa [Text.beforeEnd?_eq_none_iff] using hform.undotted
  unfold flag
  rw [if_neg (by simp [hdash])]
  simp only [inner_bracketed, ok_bind, hread, flagWords, hwords, hname, hmarked, hdots]
  simp only [Bool.false_eq_true, if_false, String.ofList_toList]
  rfl

omit hform in
/-- A flag is read with its own token only if that does not end in a semicolon, which is
taken for the end of a section. -/
theorem unmarked_of_flag {piece : String} {content tail : List Char} {read : Argument}
    {choices : Option (List String)}
    (hcontent : content.map Payload.plusToBlank = (flagHead token argument).toList ++ tail)
    (h : flag piece (content ++ [')']) = .ok (read, choices))
    (hsame : read.token = argument.token) : UnmarkedFlag argument := by
  intro given hgiven hending
  have hgivenToken : token = given := Option.some.inj (htoken.symm.trans hgiven)
  rw [← hgivenToken] at hending
  obtain ⟨front, hfront⟩ := List.getLast?_eq_some_iff.mp hending
  have hunparted : Payload.Unparted front := by
    refine Payload.unparted_of_not_mem (Payload.space_not_mem_of_word fun c hc => ?_)
    exact (hisToken.plain c (hfront ▸ List.mem_append_left _ hc)).1
  have hsections : content.map Payload.plusToBlank =
      front ++ Payload.sectionMark ++ (argument.name.toList ++ tail) := by
    rw [hcontent, flagHead_toList, hfront]
    simp [Payload.sectionMark]
  have hhead := Payload.read_head hsections hunparted
  have hlength := (token_infix_of_flag hhead h token (hsame.trans htoken)).length_le
  rw [hfront, List.length_append, List.length_singleton] at hlength
  omega

/-- The piece of a flag declares the flag. -/
theorem parse_flagPiece (hvoid : Text.isVoid argument.description = false)
    (h : Plain argument.description) (hunmarked : UnmarkedFlag argument) (command : Command α)
    (scope : Option String) (position : Nat) :
    Fragment.parse .command position (command.argumentPiece scope argument) =
      .ok ⟨position, command.argumentPiece scope argument, argument.unbounded, none⟩ := by
  have hcarried : Payload.Carried (flagHead token argument).toList := by
    rw [flagHead_toList]
    exact space_carried hisToken.toIsName hform.name (hunmarked token htoken)
  have hread : Payload.read
      (Payload.write ⟨flagHead token argument, some argument.description, none⟩).toList = _ :=
    Payload.read_write hcarried h.carried hvoid (by simp)
  have hdash : ((Payload.write
      ⟨flagHead token argument, some argument.description, none⟩).toList ++ [')']).head? =
        some '-' := by
    obtain ⟨rest, hrest⟩ := List.head?_eq_some_iff.mp hisToken.dash
    rw [Payload.write_described hvoid, flagHead_toList, hrest]
    simp [Payload.blankToPlus]
  rw [Fragment.parse, declared_of_round (argumentPiece_flag_toList hform htoken command scope),
    flag_of_read hform hisToken _ hdash hread, flag_eq_unbounded hform htoken]
  rfl

end Flag

/-! ### Dots at the end -/

/-- Dots at the end of a text stand behind every other character of it. -/
theorem suffix_of_suffix_append_cons {ending front rest : List Char} {c : Char}
    (h : ending <:+ front ++ c :: rest) (hc : c ∉ ending) : ending <:+ rest := by
  rcases List.suffix_or_suffix_of_suffix h (List.suffix_append front (c :: rest)) with hin | hout
  · rcases List.suffix_cons_iff.mp hin with heq | hrest
    · exact absurd (heq ▸ List.mem_cons_self) hc
    · exact hrest
  · exact absurd (hout.subset List.mem_cons_self) hc

theorem dots_suffix_of_map {text : List Char}
    (h : dots <:+ text.map Payload.blankToPlus) : dots <:+ text := by
  obtain ⟨front, hfront⟩ := h
  obtain ⟨before, ending, rfl, _, hending⟩ := List.map_eq_append_iff.mp hfront.symm
  have hkept : ∀ c, Payload.blankToPlus c = '.' → c = '.' := by
    intro c hc
    unfold Payload.blankToPlus at hc
    split at hc
    next => exact absurd hc (by decide)
    next => exact hc
  have hdots : ending = dots := by
    simp only [dots, List.map_eq_cons_iff, List.map_eq_nil_iff] at hending
    obtain ⟨c, _, rfl, hc, d, _, rfl, hd, e, _, rfl, he, rfl⟩ := hending
    rw [hkept c hc, hkept d hd, hkept e he]
    rfl
  exact ⟨before, by rw [hdots]⟩

theorem blankToPlus_of_not_blank {c : Char} (h : Text.isBlank c = false) :
    Payload.blankToPlus c = c := by
  unfold Payload.blankToPlus
  split
  next heq =>
      rw [heq] at h
      exact absurd h (by decide)
  next => rfl

/-- The characters between which a payload writes its texts. -/
def isSeparator (c : Char) : Prop :=
  c = ' ' ∨ c = '|'

/-- No dots are stripped from a written payload whose last text has none at its end. -/
theorem stripDots_written {front last : List Char} {c : Char} (hc : isSeparator c)
    (hlast : ∀ d ∈ last.getLast?, Text.isBlank d = false) (hdots : ¬ dots <:+ last) :
    stripDots ((front ++ c :: last).map Payload.blankToPlus) =
      ((front ++ c :: last).map Payload.blankToPlus, false) := by
  have hnodots : ¬ dots <:+ (front ++ c :: last).map Payload.blankToPlus := by
    intro hin
    refine hdots (suffix_of_suffix_append_cons (dots_suffix_of_map hin) ?_)
    rcases hc with rfl | rfl <;> decide
  have hending : ∀ d ∈ ((front ++ c :: last).map Payload.blankToPlus).getLast?,
      Text.isBlank d = false := by
    intro d hd
    rw [List.getLast?_map] at hd
    obtain ⟨e, he, rfl⟩ := Option.map_eq_some_iff.mp hd
    cases last with
    | nil =>
        have hce : c = e := by simpa using he
        subst hce
        rcases hc with rfl | rfl <;> decide
    | cons f rest =>
        have hblank := hlast e (by simpa using he)
        rw [blankToPlus_of_not_blank hblank]
        exact hblank
  rw [stripDots, Text.trimEnd_of_ending hending, Text.beforeEnd?_eq_none_iff.mpr hnodots]

/-- The last choice stands behind a bar, or behind the mark in front of the choices. -/
theorem join_ending {listed : List String} {last : String} (h : listed.getLast? = some last) :
    ∃ front c, isSeparator c ∧
      ' ' :: (Text.join "|" listed).toList = front ++ c :: last.toList := by
  induction listed with
  | nil => cases h
  | cons choice rest ih =>
      cases rest with
      | nil =>
          cases h
          exact ⟨[], ' ', Or.inl rfl, rfl⟩
      | cons next rest =>
          obtain ⟨front, c, hc, hsplit⟩ := ih (by simpa using h)
          rw [Text.join_cons_cons]
          cases front with
          | nil =>
              obtain ⟨rfl, hjoin⟩ := List.cons.inj hsplit
              exact ⟨' ' :: choice.toList, '|', Or.inr rfl, by simp [hjoin]⟩
          | cons d front =>
              obtain ⟨rfl, hjoin⟩ := List.cons.inj hsplit
              exact ⟨' ' :: (choice.toList ++ '|' :: front), c, hc, by simp [hjoin]⟩

/-! ### Positional parameters -/

/-- A datatype is read behind a colon and a blank. -/
theorem parse?_name (datatype : DataType) :
    DataType.parse? (' ' :: datatype.name.toList) = some datatype := by
  cases datatype <;> decide

/-- The names of datatypes are words that hold no mark. -/
theorem datatype_name_plain (datatype : DataType) :
    IsName datatype.name.toList ∧ ¬ dots <:+ datatype.name.toList := by
  have hne : datatype.name.toList ≠ [] := by cases datatype <;> decide
  have hnone : datatype.name.toList.any (fun c => Text.isBlank c || c == '+' || isBracket c) =
      false := by
    cases datatype <;> decide
  have hplain : ∀ c ∈ datatype.name.toList,
      Text.isBlank c = false ∧ c ≠ '+' ∧ isBracket c = false := by
    intro c hc
    simpa [and_assoc] using Text.forall_of_any_eq_false hnone c hc
  exact ⟨⟨hne, hplain⟩, by cases datatype <;> decide⟩

section Positional

variable {α : Type} {argument : Argument} (hform : argument.PositionalForm)

/-- The name of a positional parameter and its datatype, unless that is a text. -/
def typedHead (argument : Argument) : List Char :=
  if argument.datatype = .string then
    argument.name.toList
  else
    (argument.name.toList ++ [':']) ++ ' ' :: argument.datatype.name.toList

theorem positionalHead_toList (argument : Argument) :
    (Command.positionalHead argument).toList =
      typedHead argument ++ if argument.variadic then dots else [] := by
  have hdots : "...".toList = dots := rfl
  unfold Command.positionalHead typedHead
  split <;> cases argument.variadic <;> simp [hdots]

include hform

theorem colon_isName : IsName (argument.name.toList ++ [':']) where
  nonempty := by simp
  plain := fun c hc => by
    rcases List.mem_append.mp hc with hname | hcolon
    · exact hform.name.plain c hname
    · rw [List.mem_singleton.mp hcolon]
      decide

theorem typedName_typedHead (piece : String) :
    typedName piece (typedHead argument) = .ok (argument.name.toList, argument.datatype) := by
  have hblank : ∀ c ∈ argument.name.toList, Text.isBlank c = false :=
    fun c hc => (hform.name.plain c hc).1
  unfold typedHead
  split
  next hstring => rw [typedName_of_untyped piece hblank hform.untyped, hstring]
  next =>
      have hcolon : ∀ c ∈ argument.name.toList, (c == ':') = false := by
        intro c hc
        have hne : c ≠ ':' := fun heq => hform.untyped (heq ▸ hc)
        simpa using hne
      unfold typedName
      rw [List.append_assoc, List.singleton_append,
        Text.splitAtFirst?_append hcolon (by decide)]
      simp only [parse?_name, (Text.tight_of_not_blank hblank).trim_eq]

/-- The head of a positional parameter is carried by a payload. -/
theorem positionalHead_carried : Payload.Carried (Command.positionalHead argument).toList := by
  have hdots : IsName dots := by
    constructor
    · decide
    · intro c hc
      rw [List.eq_of_mem_replicate (show c ∈ List.replicate 3 '.' from hc)]
      decide
  have hsuffix : ∀ {word : List Char}, IsName word →
      IsName (word ++ if argument.variadic then dots else []) := by
    intro word hword
    refine ⟨by simp [hword.nonempty], fun c hc => ?_⟩
    rcases List.mem_append.mp hc with hin | hin
    · exact hword.plain c hin
    · split at hin
      next => exact hdots.plain c hin
      next => cases hin
  rw [positionalHead_toList, typedHead]
  split
  next =>
      have hname := hsuffix hform.name
      exact Payload.carried_of_word (fun c hc => (hname.plain c hc).1) fun hplus =>
        (hname.plain _ hplus).2.1 rfl
  next =>
      rw [List.append_assoc, List.cons_append]
      exact space_carried (colon_isName hform) (hsuffix (datatype_name_plain _).1) (by simp)

theorem stripDots_positionalHead (hundotted : argument.datatype = .string →
    argument.variadic = false → ¬ dots <:+ argument.name.toList) :
    stripDots (Command.positionalHead argument).toList =
      (typedHead argument, argument.variadic) := by
  have hending := (positionalHead_carried hform).tight.ending
  rw [stripDots, Text.trimEnd_of_ending hending, positionalHead_toList]
  cases hvariadic : argument.variadic with
  | true => simp [Text.beforeEnd?_append]
  | false =>
      have hnodots : ¬ dots <:+ typedHead argument := by
        unfold typedHead
        split
        next hstring => exact hundotted hstring hvariadic
        next =>
            intro hin
            exact (datatype_name_plain _).2 (suffix_of_suffix_append_cons hin (by decide))
      simp [Text.beforeEnd?_eq_none_iff.mpr hnodots]

omit hform in
/-- No dots are stripped from the written payload of a positional parameter. -/
theorem stripDots_payload {head : String} {choices : Option (List String)}
    (hvoid : Text.isVoid argument.description = false) (h : HeldPositional argument choices)
    (hending : ∀ text ∈ lastText argument.description choices, ¬ dots <:+ text.toList) :
    stripDots (Payload.write ⟨head, some argument.description, choices⟩).toList =
      ((Payload.write ⟨head, some argument.description, choices⟩).toList, false) := by
  have hmark : ∀ text : List Char,
      Payload.sectionMark ++ text = [';'] ++ ' ' :: text := fun _ => rfl
  cases choices with
  | none =>
      rw [Payload.write_described hvoid, List.append_assoc, hmark, ← List.append_assoc]
      exact stripDots_written (Or.inl rfl) h.described.carried.tight.ending (hending _ rfl)
  | some listed =>
      rw [Payload.write_choices hvoid, List.append_assoc argument.description.toList, hmark,
        ← List.append_assoc argument.description.toList, ← List.append_assoc]
      cases hlast : listed.getLast? with
      | none =>
          rw [List.getLast?_eq_none_iff.mp hlast]
          exact stripDots_written (Or.inl rfl) (by simp [Text.join]) (by decide)
      | some last =>
          obtain ⟨front, c, hc, hsplit⟩ := join_ending hlast
          have hplain := h.listed listed rfl last (List.mem_of_mem_getLast? hlast)
          rw [hsplit, ← List.append_assoc]
          exact stripDots_written hc hplain.carried.tight.ending (hending last hlast)

/-- The bracket that opens the piece of a positional parameter, and the one that closes
it. -/
def brackets (argument : Argument) : Char × Char :=
  if argument.optional then ('[', ']') else ('<', '>')

omit hform in
theorem closingFor?_brackets (argument : Argument) :
    closingFor? (brackets argument).1 = some (brackets argument).2 := by
  unfold brackets
  split <;> rfl

theorem argumentPiece_positional_toList (command : Command α) (scope : Option String) :
    (command.argumentPiece scope argument).toList =
      (brackets argument).1 :: ((Payload.write ⟨Command.positionalHead argument,
        some argument.description, command.choices.get? ⟨scope, argument.name⟩⟩).toList ++
          [(brackets argument).2]) := by
  unfold Command.argumentPiece brackets
  rw [hform.kind]
  dsimp only
  split <;> simp

omit hform in
/-- What the brackets of a positional parameter hold is read as one. -/
theorem declared_of_brackets {piece : String} {rest : List Char}
    (h : piece.toList = (brackets argument).1 :: rest) (grammar : Grammar) (position : Nat) :
    declared grammar position piece =
      positional piece (brackets argument).2 argument.optional rest := by
  unfold declared
  rw [h]
  cases hoptional : argument.optional with
  | true =>
      have hbrackets : brackets argument = ('[', ']') := by simp [brackets, hoptional]
      rw [hbrackets]
      rfl
  | false =>
      have hbrackets : brackets argument = ('<', '>') := by simp [brackets, hoptional]
      rw [hbrackets]
      rfl

theorem isPiece_positionalPiece (hvoid : Text.isVoid argument.description = false)
    (command : Command α) (scope : Option String)
    (h : HeldPositional argument (command.choices.get? ⟨scope, argument.name⟩)) :
    IsPiece (command.argumentPiece scope argument).toList := by
  rw [argumentPiece_positional_toList hform]
  refine .bracketed (closingFor?_brackets argument)
    (write_noBracket hvoid (fun c hc => ?_) h.described h.listed)
  rw [positionalHead_toList, List.mem_append] at hc
  rcases hc with hc | hc
  · unfold typedHead at hc
    split at hc
    next => exact (hform.name.plain c hc).2.2
    next =>
        rcases List.mem_append.mp hc with hin | hin
        · exact ((colon_isName hform).plain c hin).2.2
        · rcases List.mem_cons.mp hin with rfl | hin
          · decide
          · exact ((datatype_name_plain _).1.plain c hin).2.2
  · split at hc
    next =>
        have hdots : dots.any isBracket = false := by decide
        exact Text.forall_of_any_eq_false hdots c hc
    next => cases hc

/-- What the piece of a positional parameter declares is the parameter. -/
theorem positional_eq_unbounded (head : String) (choices : Option (List String)) :
    { argumentOf ⟨head, some argument.description, choices⟩ .positional argument.name with
      optional := argument.optional
      variadic := argument.variadic
      datatype := argument.datatype } = argument.unbounded := by
  obtain ⟨kind, name, description, optional, variadic, datatype, found, low, high, own⟩ := argument
  obtain ⟨rfl, _, _, rfl, _, _, rfl⟩ := hform
  rfl

omit hform in
/-- A piece in angle or square brackets declares what its head says, without the dots. -/
theorem positional_of_read {piece : String} {closing : Char} {optional dotted headDotted : Bool}
    {content body head name : List Char} {payload : Payload} {datatype : DataType}
    (hcontent : stripDots content = (body, dotted)) (hread : Payload.read body = payload)
    (hhead : stripDots payload.head.toList = (head, headDotted))
    (hname : typedName piece head = .ok (name, datatype)) (hword : IsName name) :
    positional piece closing optional (content ++ [closing]) = .ok
      ({ argumentOf payload .positional (String.ofList name) with
          optional := optional
          variadic := dotted || headDotted
          datatype := datatype }, payload.choices) := by
  have hcheck := checkName_of_word piece hword.nonempty fun c hc => (hword.plain c hc).1
  unfold positional
  simp only [inner_bracketed, ok_bind, hcontent, hread, hhead, hname, hcheck]
  rfl

/-- The text between the brackets is read back. -/
theorem positional_content (piece : String) (closing : Char)
    (hvoid : Text.isVoid argument.description = false) {choices : Option (List String)}
    (h : HeldPositional argument choices) (hunmarked : UnmarkedPositional argument choices) :
    positional piece closing argument.optional
      ((Payload.write ⟨Command.positionalHead argument, some argument.description,
        choices⟩).toList ++ [closing]) = .ok (argument.unbounded, choices) := by
  have hread := Payload.read_write (positionalHead_carried hform) h.described.carried hvoid
    fun listed hlisted choice hchoice => (h.listed listed hlisted choice hchoice).carriedChoice
  rw [positional_of_read (stripDots_payload hvoid h hunmarked.ending) hread
    (stripDots_positionalHead hform hunmarked.undotted) (typedName_typedHead hform piece)
    hform.name, String.ofList_toList, Bool.false_or, positional_eq_unbounded hform]

/-- The piece of a positional parameter declares it with its choices. -/
theorem parse_positionalPiece (hvoid : Text.isVoid argument.description = false)
    (command : Command α) (scope : Option String)
    (h : HeldPositional argument (command.choices.get? ⟨scope, argument.name⟩))
    (hunmarked : UnmarkedPositional argument (command.choices.get? ⟨scope, argument.name⟩))
    (position : Nat) :
    Fragment.parse .command position (command.argumentPiece scope argument) =
      .ok ⟨position, command.argumentPiece scope argument, argument.unbounded,
        command.choices.get? ⟨scope, argument.name⟩⟩ := by
  rw [Fragment.parse, declared_of_brackets (argumentPiece_positional_toList hform command scope),
    positional_content hform _ _ hvoid h hunmarked]
  rfl

end Positional

end SlashCommand
