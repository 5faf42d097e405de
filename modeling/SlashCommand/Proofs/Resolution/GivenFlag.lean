import SlashCommand.Proofs.Resolution.Coverage
import SlashCommand.Proofs.Resolution.FlagValue

/-!
# Flags that read as given

A flag has a value exactly if its token stands in the message as a flag.  The argument object
keeps the names, the tokens and the values of all given flags in one set, so a flag reads as
given if it is, and also if another given flag has its name for a token or for a value.
-/

namespace SlashCommand

open Message

variable {α : Type}

/-! ## Given flags -/

namespace Message

/-- A token stands in a message as a flag: unquoted, where a scope is open that declares a flag
of this token. -/
def StandsAsFlag (command : Command α) (tokens : List Token) (token : String) : Prop :=
  ∃ scope before after, tokens = before ++ ⟨token, false⟩ :: after ∧
    Opened command scope before ∧ token ∈ flagTokens (parametersIn command.arguments scope)

/-- A scope stays open. -/
theorem Opened.append {command : Command α} {scope : Option String} {before : List Token}
    (h : Opened command scope before) (more : List Token) :
    Opened command scope (before ++ more) := by
  cases scope with
  | none => trivial
  | some name =>
      obtain ⟨front, subcommand, between, hname, rfl, hactivates⟩ := h
      exact ⟨front, subcommand, between ++ more, hname, by simp, hactivates⟩

/-- A token of a row has a last place in it. -/
theorem exists_last_place {token : Token} {tokens : List Token} (h : token ∈ tokens) :
    ∃ before after, tokens = before ++ token :: after ∧ token ∉ after := by
  obtain ⟨after, before, hsplit, hlast⟩ :=
    List.eq_append_cons_of_mem (List.mem_reverse.mpr h)
  refine ⟨before.reverse, after.reverse, ?_, by simpa using hlast⟩
  rw [← List.reverse_reverse tokens, hsplit]
  simp

/-- A flag whose token stands where its scope is open has a last such place. -/
theorem exists_standsLast {command : Command α} {scope : Option String} {flag : Argument}
    {token : String} (hmem : flag ∈ parametersIn command.arguments scope)
    (hflag : flag.isFlag = true) (htoken : flag.token = some token) {before : List Token}
    (hopened : Opened command scope before) (after : List Token) :
    ∃ behind, StandsLast command (before ++ ⟨token, false⟩ :: after) scope flag token behind := by
  obtain ⟨between, behind, hsplit, hlast⟩ :=
    exists_last_place (List.mem_cons_self : (⟨token, false⟩ : Token) ∈ ⟨token, false⟩ :: after)
  refine ⟨behind, hmem, hflag, htoken, ⟨before ++ between, ?_, hopened.append between⟩, hlast⟩
  rw [hsplit, List.append_assoc]

/-- The flags among the parameters of the command itself are those among its arguments. -/
theorem flagTokens_parametersIn_none (command : Command α) :
    flagTokens (parametersIn command.arguments none) = flagTokens command.arguments := by
  rw [flagTokens, flagTokens, parametersIn, List.filter_filter]
  refine congrArg (List.filterMap _) (List.filter_congr fun argument _ => ?_)
  cases hkind : argument.kind with
  | positional => simp [Argument.isFlag, hkind]
  | flag => simp [Argument.isFlag, Argument.isCommand, hkind]
  | command => simp [Argument.isFlag, hkind]

variable {command : Command α} {tokens : List Token} {scope : Option String} {flag : Argument}
  {token : String}

/-- A token that has a value among the flags of the command itself stands in the message. -/
theorem standsAsFlag_of_own {value : String}
    (h : valueOf? (ownExtraction command tokens).occurrences token = some value) :
    StandsAsFlag command tokens token := by
  obtain ⟨hown, hstands⟩ := mem_of_mem_occurrences (mem_of_valueOf? h)
  obtain ⟨before, after, htokens⟩ := List.append_of_mem hstands
  refine ⟨none, before, after, htokens, trivial, ?_⟩
  rwa [flagTokens_parametersIn_none]

/-- A token that has a value under the active subcommand stands in the message. -/
theorem standsAsFlag_of_inner (hwell : command.WellFormed) {front rest : List Token}
    {subcommand : Argument} (hactivates : Activates command front subcommand) {value : String}
    (h : valueOf? (occurrencesIn command subcommand (front ++ ⟨subcommand.name, false⟩ :: rest)
      (ownExtraction command rest).positional) token = some value) :
    StandsAsFlag command (front ++ ⟨subcommand.name, false⟩ :: rest) token := by
  rw [occurrencesIn, valueOf?_append, Option.or_eq_some_iff] at h
  rcases h with hinner | ⟨-, hown⟩
  · obtain ⟨hflag, hstands⟩ := mem_of_mem_occurrences (mem_of_valueOf? hinner)
    obtain ⟨between, after, rfl⟩ := List.append_of_mem ((positional_sublist rest).subset hstands)
    refine ⟨some subcommand.name, front ++ ⟨subcommand.name, false⟩ :: between, after, by simp,
      ⟨front, subcommand, between, rfl, rfl, hactivates⟩, ?_⟩
    rwa [hwell.parametersIn_subcommand hactivates.named]
  · exact standsAsFlag_of_own hown

/-- The entry of a flag has a value only if its token has one. -/
theorem exists_valueOf?_of_isSome {occurrences : List (String × String)}
    (hflag : flag.isFlag = true) (htoken : flag.token = some token)
    (h : (Entry.ofArgument command scope flag
      (flagValue? occurrences flag)).value.isSome = true) :
    ∃ value, valueOf? occurrences token = some value := by
  rwa [Entry.ofArgument_value_of_isFlag command scope _ hflag, flagValue?, htoken,
    Option.isSome_map, Option.bind_some, Option.isSome_iff_exists] at h

/-- A flag in effect is found, and if it has a value its token stands in the message. -/
theorem exists_flag_of_place (hwell : command.WellFormed)
    (hplace : (scope, flag) ∈ command.places (resolveTokens command tokens).subcommand)
    (hflag : flag.isFlag = true) (htoken : flag.token = some token) :
    ∃ entry, (resolveTokens command tokens).flagIn? scope flag.name = some entry ∧
      (entry.value.isSome = true → StandsAsFlag command tokens token) := by
  obtain ⟨hmem, hscope⟩ := Command.mem_places.mp hplace
  cases scope with
  | none =>
      refine ⟨_, flagIn?_resolveTokens_own hwell hmem hflag tokens, fun hgiven => ?_⟩
      obtain ⟨value, hvalue⟩ := exists_valueOf?_of_isSome hflag htoken hgiven
      exact standsAsFlag_of_own hvalue
  | some name =>
      obtain hnone | hactive := hscope
      · cases hnone
      obtain ⟨front, subcommand, rest, rfl, rfl, hactivates⟩ :=
        subcommand_eq_some_iff.mp hactive.symm
      rw [hwell.parametersIn_subcommand hactivates.named] at hmem
      refine ⟨_, flagIn?_resolveTokens_inner hwell hactivates hmem hflag, fun hgiven => ?_⟩
      obtain ⟨value, hvalue⟩ := exists_valueOf?_of_isSome hflag htoken hgiven
      exact standsAsFlag_of_inner hwell hactivates hvalue

/-- A token that only flags of subcommands have stands as a flag of the active one. -/
theorem opened_of_standsAsFlag (hnot : token ∉ flagTokens command.arguments)
    (h : StandsAsFlag command tokens token) :
    ∃ before after, tokens = before ++ ⟨token, false⟩ :: after ∧
      Opened command (resolveTokens command tokens).subcommand before := by
  obtain ⟨opened, before, after, htokens, hopened, hspelled⟩ := h
  cases opened with
  | none =>
      rw [flagTokens_parametersIn_none] at hspelled
      exact absurd hspelled hnot
  | some name =>
      obtain ⟨front, subcommand, between, hname, hbefore, hactivates⟩ := hopened
      have hactive : (resolveTokens command tokens).subcommand = some name := by
        refine subcommand_eq_some_iff.mpr
          ⟨front, subcommand, between ++ ⟨token, false⟩ :: after, hname, ?_, hactivates⟩
        rw [htokens, hbefore, List.append_assoc, List.cons_append]
      refine ⟨before, after, htokens, ?_⟩
      rw [hactive]
      exact ⟨front, subcommand, between, hname, hbefore, hactivates⟩

/-- A flag in effect whose token stands in the message as a flag has a value. -/
theorem exists_value_of_standsAsFlag (hwell : command.WellFormed)
    (hplace : (scope, flag) ∈ command.places (resolveTokens command tokens).subcommand)
    (hflag : flag.isFlag = true) (htoken : flag.token = some token)
    (h : StandsAsFlag command tokens token) :
    ∃ value, ((resolveTokens command tokens).flagIn? scope flag.name).bind Entry.value =
      some value := by
  obtain ⟨hmem, hscope⟩ := Command.mem_places.mp hplace
  have hstands : ∀ {before after : List Token}, tokens = before ++ ⟨token, false⟩ :: after →
      Opened command scope before →
      ∃ value, ((resolveTokens command tokens).flagIn? scope flag.name).bind Entry.value =
        some value := by
    rintro before after rfl hopened
    obtain ⟨behind, hlast⟩ := exists_standsLast hmem hflag htoken hopened after
    exact ⟨_, value_of_standsLast hwell hlast⟩
  by_cases hown : token ∈ flagTokens command.arguments
  · obtain ⟨_, before, _, htokens, -, -⟩ := h
    cases scope with
    | none => exact hstands htokens trivial
    | some name =>
        -- The token counts for both scopes, also in front of the name of the subcommand.
        obtain hnone | hactive := hscope
        · cases hnone
        obtain ⟨front, subcommand, rest, rfl, hsplit, hactivates⟩ :=
          subcommand_eq_some_iff.mp hactive.symm
        have hin : ⟨token, false⟩ ∈ tokens := by
          rw [htokens]
          exact List.mem_append_right before List.mem_cons_self
        obtain ⟨_, _, hplaced, hlast⟩ := exists_last_place hin
        have hvalue : valueOf? (occurrencesIn command subcommand tokens
            (ownExtraction command rest).positional) token = _ :=
          (valueOf?_occurrencesIn_own hown tokens rest).trans (hplaced ▸ valueOf?_own hown hlast)
        rw [hwell.parametersIn_subcommand hactivates.named] at hmem
        rw [hsplit] at hvalue ⊢
        rw [flagIn?_resolveTokens_inner hwell hactivates hmem hflag, Option.bind_some,
          Entry.ofArgument_value_of_isFlag command _ _ hflag, flagValue?_of_token htoken hvalue]
        exact ⟨_, rfl⟩
  · obtain ⟨before, after, htokens, hopened⟩ := opened_of_standsAsFlag hown h
    have hactive : scope = (resolveTokens command tokens).subcommand := by
      rcases hscope with rfl | hactive
      · refine absurd (mem_flagTokens.mpr ⟨flag, ?_, hflag, htoken⟩) hown
        exact (mem_parametersIn_none.mp hmem).1
      · exact hactive
    exact hstands htokens (hactive ▸ hopened)

end Message

/-! ## Marks -/

/-- A given flag passes for a name that is its token or the text of its value. -/
def Entry.PassesFor (entry : Entry) (name : String) : Prop :=
  ∃ value, entry.value = some value ∧ (entry.flag = some name ∨ value.display = name)

namespace Arguments

/-- A flag is recorded under its own name and those it passes for. -/
theorem mem_flagMarks_iff {entry : Entry} {mark : String} :
    mark ∈ flagMarks entry ↔
      entry.value.isSome = true ∧ entry.name = mark ∨ entry.PassesFor mark := by
  unfold Entry.PassesFor flagMarks
  cases entry.value with
  | none => simp
  | some value =>
      cases entry.flag with
      | none => simp [eq_comm]
      | some token => simp [eq_comm]

/-- A mark reads as given when some flag is recorded under it. -/
theorem flag_ofResolution_iff {resolution : Resolution} {mark : String} :
    (ofResolution resolution).flag mark = true ↔
      ∃ entry ∈ resolution.flags, mark ∈ flagMarks entry := by
  rw [flag, ofResolution, Dict.contains, Option.isSome_iff_exists, ← List.mem_flatMap]
  constructor
  · rintro ⟨⟨⟩, hmark⟩
    rcases (OrderedSet.get?_foldl_add _ _).mp hmark with hmem | hempty
    · exact hmem
    · cases hempty
  · intro hmem
    exact ⟨(), (OrderedSet.get?_foldl_add _ _).mpr (Or.inl hmem)⟩

end Arguments

theorem Resolution.mem_of_flagIn? {resolution : Resolution} {scope : Option String}
    {name : String} {entry : Entry} (h : resolution.flagIn? scope name = some entry) :
    entry ∈ resolution.flags ∧ entry.key = ⟨scope, name⟩ := by
  have hsame := List.find?_some h
  simp only [Bool.and_eq_true, beq_iff_eq] at hsame
  refine ⟨List.mem_of_find?_eq_some h, ?_⟩
  rw [Entry.key, hsame.1, hsame.2]

/-- Every flag of a resolution is that of a place in effect. -/
theorem Resolution.Covers.place_of_flag {command : Command α} {resolution : Resolution}
    (h : resolution.Covers command) {entry : Entry} (hmem : entry ∈ resolution.flags) :
    ∃ place ∈ command.places resolution.subcommand, place.2.isFlag = true ∧
      placeKey place = entry.key := by
  obtain ⟨place, hplace, hkey⟩ :=
    List.mem_map.mp (h.flags.mem_iff.mp (List.mem_map_of_mem (f := Entry.key) hmem))
  obtain ⟨hin, hflag⟩ := List.mem_filter.mp hplace
  exact ⟨place, hin, hflag, hkey⟩

/-- A flag in effect that shares its name with no other one has a value exactly if its token
stands in the message as a flag.  It reads as given exactly if it has a value or another flag
with a value passes for it, having its name for a token or for the text of the value. -/
theorem Command.resolve_flag_given_iff {command : Command α} (hdeclared : command.Declared)
    (htype : command.type = .chatInput) {invocation : Invocation} {raw : String}
    (hraw : invocation.raw = some raw) {resolution : Resolution}
    (hresolve : command.resolve invocation = .ok resolution) {scope : Option String}
    {flag : Argument} {token : String}
    (hplace : (scope, flag) ∈ command.places resolution.subcommand)
    (hflag : flag.isFlag = true) (htoken : flag.token = some token)
    (hsole : ∀ place ∈ command.places resolution.subcommand, place.2.isFlag = true →
      place.2.name = flag.name → place = (scope, flag)) :
    ∃ entry, resolution.flagIn? scope flag.name = some entry ∧
      (entry.value.isSome = true ↔ StandsAsFlag command (tokens raw) token) ∧
      ((Arguments.ofResolution resolution).flag flag.name = true ↔
        entry.value.isSome = true ∨
          ∃ other ∈ resolution.flags, other ≠ entry ∧ other.PassesFor flag.name) := by
  have hwell := hdeclared.wellFormed
  have hcovers : resolution.Covers command :=
    hwell.covers_resolve htype command.defaults hresolve
  rw [hwell.resolve_raw htype hraw] at hresolve
  obtain rfl := Except.ok.inj hresolve
  obtain ⟨entry, hentry, hstands⟩ := exists_flag_of_place hwell hplace hflag htoken
  obtain ⟨hmem, hkey⟩ := Resolution.mem_of_flagIn? hentry
  have hname : entry.name = flag.name := congrArg ScopeKey.name hkey
  have hunique : ∀ other ∈ (Message.resolve command raw).flags, other.name = flag.name →
      other = entry := by
    intro other hother hsame
    obtain ⟨place, hin, hkind, hotherKey⟩ := hcovers.place_of_flag hother
    have hnamed : place.2.name = flag.name := (congrArg ScopeKey.name hotherKey).trans hsame
    obtain rfl := hsole place hin hkind hnamed
    exact List.inj_on_of_nodup_map hcovers.distinct_flags hother hmem
      (hotherKey.symm.trans hkey.symm)
  refine ⟨entry, hentry, ⟨hstands, fun h => ?_⟩, ?_⟩
  · obtain ⟨value, hvalue⟩ := exists_value_of_standsAsFlag hwell hplace hflag htoken h
    have hgiven : entry.value = some value := by
      rwa [hentry] at hvalue
    rw [hgiven]
    rfl
  · rw [Arguments.flag_ofResolution_iff]
    constructor
    · rintro ⟨other, hother, hmark⟩
      by_cases hsame : other = entry
      · subst hsame
        rcases Arguments.mem_flagMarks_iff.mp hmark with ⟨hgiven, -⟩ | ⟨value, hvalue, -⟩
        · exact Or.inl hgiven
        · exact Or.inl (Option.isSome_iff_exists.mpr ⟨value, hvalue⟩)
      · rcases Arguments.mem_flagMarks_iff.mp hmark with ⟨-, hnamed⟩ | hpasses
        · exact absurd (hunique other hother hnamed) hsame
        · exact Or.inr ⟨other, hother, hsame, hpasses⟩
    · rintro (hgiven | ⟨other, hother, -, hpasses⟩)
      · exact ⟨entry, hmem, Arguments.mem_flagMarks_iff.mpr (Or.inl ⟨hgiven, hname⟩)⟩
      · exact ⟨other, hother, Arguments.mem_flagMarks_iff.mpr (Or.inr hpasses)⟩

/-! ## A forged flag -/

/-- A command with a flag that forces and one that carries a note. -/
def memo : Command Unit :=
  { listing with
    arguments := [plainFlag "-f" "force", plainFlag "-n" "note"]
    choices := (Dict.empty.insert ⟨none, "force"⟩ ["-f"]).insert ⟨none, "note"⟩ ["-n"] }

theorem memo_declared : memo.Declared := by
  refine ⟨Builder.run .unnamed
    [.setCommand "todo" none, .addArgument "(-f force)" none .payload {},
      .addArgument "(-n note)" none .payload {}], ?_, rfl⟩
  exact .call (.call (.call .unnamed _) _) _

/-- No other flag has the name of the one that forces. -/
theorem memo_sole : ∀ place ∈ memo.places none, place.2.isFlag = true →
    place.2.name = "force" → place = (none, plainFlag "-f" "force") := by
  intro place hmem _ hname
  rcases List.mem_cons.mp hmem with rfl | hmem
  · rfl
  · rw [List.mem_singleton.mp hmem] at hname
    exact absurd hname (by decide)

/-- A flag that is not given, beside another one with a note. -/
theorem memo_not_forced :
    memo.Declared ∧ memo.type = .chatInput ∧
      ∃ resolution entry, memo.resolve (said "-n later") = .ok resolution ∧
        (none, plainFlag "-f" "force") ∈ memo.places resolution.subcommand ∧
        resolution.flagIn? none "force" = some entry ∧
        (entry.value.isSome = true ↔ StandsAsFlag memo (tokens "-n later") "-f") ∧
        ((Arguments.ofResolution resolution).flag "force" = true ↔
          entry.value.isSome = true ∨
            ∃ other ∈ resolution.flags, other ≠ entry ∧ other.PassesFor "force") ∧
        entry.value = none ∧ (Arguments.ofResolution resolution).flag "force" = false := by
  have hresolve : memo.resolve (said "-n later") = .ok (Message.resolve memo "-n later") := rfl
  obtain ⟨entry, hentry, hgiven, hreads⟩ :=
    Command.resolve_flag_given_iff memo_declared rfl rfl hresolve
      (List.mem_cons_self : (none, plainFlag "-f" "force") ∈ memo.places none) rfl rfl memo_sole
  refine ⟨memo_declared, rfl, _, entry, hresolve, List.mem_cons_self, hentry, hgiven, hreads, ?_,
    by decide⟩
  cases hentry
  rfl

/-- A note that reads like its name forges the flag that forces: its token does not stand in the
message and it has no value, but it reads as given. -/
theorem memo_forged :
    memo.Declared ∧ memo.type = .chatInput ∧
      ∃ resolution entry, memo.resolve (said "-n force") = .ok resolution ∧
        (none, plainFlag "-f" "force") ∈ memo.places resolution.subcommand ∧
        (∀ place ∈ memo.places resolution.subcommand, place.2.isFlag = true →
          place.2.name = "force" → place = (none, plainFlag "-f" "force")) ∧
        resolution.flagIn? none "force" = some entry ∧ entry.value = none ∧
        ⟨"-f", false⟩ ∉ tokens "-n force" ∧
        (Arguments.ofResolution resolution).flag "force" = true :=
  ⟨memo_declared, rfl, _, _, rfl, List.mem_cons_self, memo_sole, rfl, rfl, by decide, by decide⟩

end SlashCommand
