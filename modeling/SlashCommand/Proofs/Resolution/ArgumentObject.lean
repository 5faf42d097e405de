import SlashCommand.Proofs.Resolution.GivenFlag

/-!
# What an action can read

The argument object flattens the entries of a resolution: it knows a value by the name of its
parameter, whatever the scope.  A value is read back unless it is eclipsed: a later entry of
the other scope has the name and another value.  The document of the object has the values
under their names, apart from the two names it reserves.
-/

namespace SlashCommand

variable {α : Type}

/-! ## The last value of a name -/

/-- An entry has a name and a value. -/
def Entry.gives (name : String) (entry : Entry) : Bool :=
  entry.name == name && entry.value.isSome

theorem Entry.gives_iff {name : String} {entry : Entry} :
    entry.gives name = true ↔ entry.name = name ∧ ∃ value, entry.value = some value := by
  simp [gives, Option.isSome_iff_exists]

namespace Arguments

/-- A dictionary that the present entries are put into has the last value of a name, or else
what it had before. -/
theorem get?_foldl_present (entries : List Entry) (values : Dict String Value) (name : String) :
    ((entries.filterMap present?).foldl (fun dict entry => dict.insert entry.1 entry.2)
        values).get? name =
      ((entries.findRev? (Entry.gives name)).bind Entry.value).or (values.get? name) := by
  induction entries generalizing values with
  | nil => rfl
  | cons entry rest ih =>
      rw [List.filterMap_cons, List.findRev?]
      cases hvalue : entry.value with
      | none =>
          have hnot : Entry.gives name entry = false := by simp [Entry.gives, hvalue]
          rw [present?, hvalue, Option.map_none, ih, hnot]
          cases rest.findRev? (Entry.gives name) <;> rfl
      | some value =>
          rw [present?, hvalue, Option.map_some, List.foldl_cons, ih]
          cases hlater : rest.findRev? (Entry.gives name) with
          | some later =>
              rw [List.findRev?_eq_find?_reverse] at hlater
              obtain ⟨-, given, hgiven⟩ := Entry.gives_iff.mp (List.find?_some hlater)
              simp [hgiven]
          | none =>
              by_cases hname : entry.name = name
              · subst hname
                simp [Entry.gives, hvalue, Dict.get?_insert_self]
              · simp [Entry.gives, hname, Dict.get?_insert_of_ne]

/-- The argument object has the last value of a name. -/
theorem get?_ofResolution (resolution : Resolution) (name : String) :
    (ofResolution resolution).get? name =
      (resolution.args.findRev? (Entry.gives name)).bind Entry.value :=
  (get?_foldl_present resolution.args .empty name).trans Option.or_none

end Arguments

/-! ## Eclipsed values -/

/-- Behind an entry there is one of its name, in another scope and with another value. -/
def Entry.Eclipsed (entry : Entry) (after : List Entry) : Prop :=
  ∃ other ∈ after, other.name = entry.name ∧ other.subcommand ≠ entry.subcommand ∧
    ∃ value, other.value = some value ∧ entry.value ≠ some value

/-- The arguments of a resolution are in no scope but that of the command itself and that of the
active subcommand, and no two share the name and the scope. -/
structure Resolution.Scoped (resolution : Resolution) : Prop where
  distinct : (resolution.args.map Entry.key).Nodup
  scope : ∀ entry ∈ resolution.args,
    entry.subcommand = none ∨ entry.subcommand = resolution.subcommand

namespace Resolution.Scoped

variable {resolution : Resolution} {before after : List Entry} {entry : Entry}

/-- Entries behind one of their name are in another scope. -/
theorem subcommand_ne (h : resolution.Scoped) (hargs : resolution.args = before ++ entry :: after)
    {other : Entry} (hother : other ∈ after) (hname : other.name = entry.name) :
    other.subcommand ≠ entry.subcommand := by
  have hdistinct := h.distinct
  rw [hargs, List.map_append, List.map_cons] at hdistinct
  have hfresh := (List.nodup_cons.mp (List.nodup_append.mp hdistinct).2.1).1
  intro hscope
  refine hfresh (List.mem_map.mpr ⟨other, hother, ?_⟩)
  rw [Entry.key, Entry.key, hscope, hname]

/-- There are but two scopes, so entries behind one of their name are one. -/
theorem eq_of_behind (h : resolution.Scoped) (hargs : resolution.args = before ++ entry :: after)
    {first second : Entry} (hfirst : first ∈ after) (hsecond : second ∈ after)
    (hname : first.name = entry.name) (hother : second.name = entry.name) : first = second := by
  have hin : ∀ other ∈ entry :: after, other ∈ resolution.args := by
    intro other hmem
    rw [hargs]
    exact List.mem_append_right before hmem
  have hbehind : ∀ other ∈ after, other ∈ resolution.args :=
    fun other hmem => hin other (List.mem_cons_of_mem entry hmem)
  have hscope : first.subcommand = second.subcommand := by
    -- A third scope would be needed to tell the two apart.
    have hentryIn := h.scope entry (hin entry List.mem_cons_self)
    have hfirstIn := h.scope first (hbehind first hfirst)
    have hsecondIn := h.scope second (hbehind second hsecond)
    have hfirstNe := h.subcommand_ne hargs hfirst hname
    have hsecondNe := h.subcommand_ne hargs hsecond hother
    grind
  refine List.inj_on_of_nodup_map h.distinct (hbehind first hfirst) (hbehind second hsecond) ?_
  rw [Entry.key, Entry.key, hscope, hname, hother]

/-- A value is read back exactly if it is not eclipsed. -/
theorem get?_eq_some_iff (h : resolution.Scoped)
    (hargs : resolution.args = before ++ entry :: after) {value : Value}
    (hvalue : entry.value = some value) :
    (Arguments.ofResolution resolution).get? entry.name = some value ↔
      ¬ entry.Eclipsed after := by
  have hself : entry.gives entry.name = true := Entry.gives_iff.mpr ⟨rfl, value, hvalue⟩
  have hlast : resolution.args.findRev? (Entry.gives entry.name) =
      (after.findRev? (Entry.gives entry.name)).or (some entry) := by
    simp [hargs, List.findRev?_eq_find?_reverse, hself]
  rw [Arguments.get?_ofResolution, hlast]
  cases hlater : after.findRev? (Entry.gives entry.name) with
  | none =>
      rw [Option.none_or, Option.bind_some, hvalue, iff_true_left rfl]
      rintro ⟨other, hother, hname, -, given, hgiven, -⟩
      rw [List.findRev?_eq_find?_reverse, List.find?_eq_none] at hlater
      exact hlater other (List.mem_reverse.mpr hother) (Entry.gives_iff.mpr ⟨hname, given, hgiven⟩)
  | some later =>
      rw [List.findRev?_eq_find?_reverse] at hlater
      have hmem : later ∈ after := List.mem_reverse.mp (List.mem_of_find?_eq_some hlater)
      obtain ⟨hname, given, hgiven⟩ := Entry.gives_iff.mp (List.find?_some hlater)
      rw [Option.some_or, Option.bind_some, hgiven]
      constructor
      · rintro hsame ⟨other, hother, hotherName, -, found, hfound, hne⟩
        obtain rfl := h.eq_of_behind hargs hother hmem hotherName hname
        rw [hgiven] at hfound
        exact hne (hvalue.trans (hsame.symm.trans hfound))
      · intro hnot
        by_contra hne
        refine hnot ⟨later, hmem, hname, h.subcommand_ne hargs hmem hname, given, hgiven, ?_⟩
        rw [hvalue]
        exact fun hsame => hne hsame.symm

end Resolution.Scoped

/-! ## Which resolutions are scoped -/

/-- The target of a context menu resolves to entries with different names. -/
theorem Resolution.scoped_ofTarget (target : Dict String Value) : (ofTarget target).Scoped where
  distinct := by
    have hdistinct : (target.entries.map fun entry => ScopeKey.top entry.1).Nodup := by
      refine List.pairwise_map.mpr (target.increasing.imp fun hlt hsame => ?_)
      rw [ScopeKey.top, ScopeKey.top, ScopeKey.mk.injEq] at hsame
      simp [hsame.2] at hlt
    have hentries := hdistinct.sublist ((List.filter_sublist
      (p := fun entry => entry.1 != unresolvedTarget)).map _)
    refine List.Nodup.sublist (List.filter_sublist.map Entry.key) ?_
    rwa [List.map_map]
  scope := by
    intro entry hmem
    obtain ⟨known, -, rfl⟩ := List.mem_map.mp (List.mem_of_mem_filter hmem)
    exact Or.inl rfl

theorem Resolution.Covers.scoped {command : Command α} {resolution : Resolution}
    (h : resolution.Covers command) : resolution.Scoped where
  distinct := h.distinct_args
  scope := by
    intro entry hmem
    obtain ⟨⟨scope, parameter⟩, hplace, hstands⟩ :=
      h.entries entry (List.mem_append_left _ hmem)
    have hscope : entry.subcommand = scope := congrArg ScopeKey.subcommand hstands.key
    rw [hscope]
    exact (Command.mem_places.mp hplace).2

/-- Whatever a declared command resolves is scoped. -/
theorem Command.Declared.scoped_resolve {command : Command α} (h : command.Declared)
    {invocation : Invocation} {resolution : Resolution}
    (hresolve : command.resolve invocation = .ok resolution) : resolution.Scoped := by
  cases htype : command.type with
  | chatInput => exact (h.wellFormed.covers_resolve htype command.defaults hresolve).scoped
  | user | message =>
      unfold resolve at hresolve
      split at hresolve
      · cases hresolve
      · rw [htype] at hresolve
        rw [← Except.ok.inj hresolve]
        exact Resolution.scoped_ofTarget _

/-! ## The document -/

/-- The fields of an object that lists a dictionary are its values. -/
theorem Json.field?_entries (fields : Dict String Json) (name : String) :
    (Json.object fields.entries).field? name = fields.get? name := by
  have hnamed : ∀ {field : String × Json},
      (fields.entries.reverse.find? fun field => field.1 == name) = some field →
      fields.get? name = some field.2 := by
    intro field hfound
    have hname : field.1 = name := by simpa using List.find?_some hfound
    rw [Dict.get?_eq_some_iff, ← hname]
    exact List.mem_reverse.mp (List.mem_of_find?_eq_some hfound)
  -- The keys are distinct, so it makes no difference that a field is looked up from the end.
  rw [field?]
  cases hfound : fields.entries.reverse.find? fun field => field.1 == name with
  | some field => exact (hnamed hfound).symm
  | none =>
      rw [List.find?_eq_none] at hfound
      refine (Option.eq_none_iff_forall_ne_some.mpr fun document hdocument => ?_).symm
      have hmem := List.mem_reverse.mpr (Dict.mem_of_get? hdocument)
      exact hfound _ hmem (beq_self_eq_true name)

namespace Arguments

/-- The document of an argument object has, apart from the reserved names, the documents of the
values under their names. -/
theorem field?_toJson (arguments : Arguments) {name : String} (hflags : name ≠ "flags")
    (hsubcommand : name ≠ "subcommand") :
    arguments.toJson.field? name = (arguments.get? name).map Value.toJson := by
  rw [toJson, Json.field?_entries, Dict.get?_insert_of_ne _ hsubcommand.symm,
    Dict.get?_insert_of_ne _ hflags.symm, Dict.get?_mapValues, get?]

theorem field?_toJson_flags (arguments : Arguments) :
    arguments.toJson.field? "flags" =
      some (.object (arguments.flags.toList.map fun mark => (mark, .bool true))) := by
  rw [toJson, Json.field?_entries, Dict.get?_insert_of_ne _ (by decide), Dict.get?_insert_self]

theorem field?_toJson_subcommand (arguments : Arguments) :
    arguments.toJson.field? "subcommand" = some (.ofOption .text arguments.subcommand) := by
  rw [toJson, Json.field?_entries, Dict.get?_insert_self]

end Arguments

/-! ## The law -/

/-- The argument object of a declared command has the value of an argument under its name
exactly if no later argument of the name, in the other scope, has another value.  Its document
has what it has under a name that is not reserved, and under the reserved ones the marks of the
given flags and the active subcommand. -/
theorem Command.resolve_arguments_iff {command : Command α} (hdeclared : command.Declared)
    {invocation : Invocation} {resolution : Resolution}
    (hresolve : command.resolve invocation = .ok resolution) :
    let arguments := Arguments.ofResolution resolution
    (∀ before entry after value, resolution.args = before ++ entry :: after →
      entry.value = some value →
        (arguments.get? entry.name = some value ↔ ¬ entry.Eclipsed after)) ∧
      (∀ name, name ≠ "flags" → name ≠ "subcommand" →
        arguments.toJson.field? name = (arguments.get? name).map Value.toJson) ∧
      (∃ marks : List String,
        arguments.toJson.field? "flags" =
            some (.object (marks.map fun mark => (mark, .bool true))) ∧
          ∀ mark, mark ∈ marks ↔ ∃ entry ∈ resolution.flags, mark ∈ Arguments.flagMarks entry) ∧
      arguments.toJson.field? "subcommand" = some (.ofOption .text resolution.subcommand) := by
  intro arguments
  refine ⟨?_, fun name => arguments.field?_toJson, ⟨arguments.flags.toList, ?_, ?_⟩, ?_⟩
  · intro before entry after value hargs hvalue
    exact (hdeclared.scoped_resolve hresolve).get?_eq_some_iff hargs hvalue
  · exact arguments.field?_toJson_flags
  · intro mark
    rw [← OrderedSet.contains_iff_mem_toList]
    exact Arguments.flag_ofResolution_iff
  · exact arguments.field?_toJson_subcommand

/-! ## A value that is lost -/

/-- A command with an item, a parameter with a reserved name, and a subcommand with another
item. -/
def basket : Command Unit :=
  { listing with
    arguments :=
      [requiredText "item", requiredText "flags",
        { Argument.subcommand "add" fillerDescription with
          subarguments := [requiredText "item"] }]
    choices := ∅ }

theorem basket_declared : basket.Declared := by
  refine ⟨Builder.run .unnamed
    [.setCommand "todo" none, .addArgument "<item>" none .payload {},
      .addArgument "<flags>" none .payload {}, .addArgument "add <item>" none .payload {}],
    ?_, rfl⟩
  exact .call (.call (.call (.call .unnamed _) _) _) _

/-- Outside of the subcommand the item is read back. -/
theorem basket_item_read :
    basket.Declared ∧
      ∃ resolution entry, basket.resolve (said "milk red") = .ok resolution ∧
        resolution.args.head? = some entry ∧ entry.name = "item" ∧
        entry.value = some (.text "milk") ∧
        (Arguments.ofResolution resolution).get? "item" = some (.text "milk") := by
  have hresolve : basket.resolve (said "milk red") = .ok (Message.resolve basket "milk red") := rfl
  have hlaw := (Command.resolve_arguments_iff basket_declared hresolve).1
  refine ⟨basket_declared, _, _, hresolve, rfl, rfl, rfl, ?_⟩
  refine (hlaw [] _ _ _ rfl rfl).mpr ?_
  rintro ⟨other, hother, hname, -⟩
  rw [List.mem_singleton.mp hother] at hname
  exact absurd hname (by decide)

/-- The item of the subcommand takes the place of the other one, and the marks of the flags that
of the parameter with their name. -/
theorem basket_item_lost :
    basket.Declared ∧
      ∃ resolution, basket.resolve (said "milk red add bread") = .ok resolution ∧
        resolution.args.map (fun entry => (entry.name, entry.value)) =
          [("item", some (.text "milk")), ("flags", some (.text "red")),
            ("item", some (.text "bread"))] ∧
        (Arguments.ofResolution resolution).get? "item" = some (.text "bread") ∧
        (Arguments.ofResolution resolution).toJson.field? "item" = some (.text "bread") ∧
        (Arguments.ofResolution resolution).toJson.field? "flags" = some (.object []) :=
  ⟨basket_declared, _, rfl, rfl, rfl, rfl, rfl⟩

end SlashCommand
