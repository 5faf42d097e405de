import Mathlib.Data.List.Sort
import SlashCommand.Dict

/-!
# Dictionaries as finite maps

A dictionary is the map of its entries: it has a value under a key exactly when it
lists the pair, and two dictionaries with the same values are one.
-/

namespace SlashCommand.Dict

variable {κ β : Type} [Ord κ]

/-- The dictionary with every value changed according to its key. -/
def mapWithKey {γ : Type} (change : κ → β → γ) (dict : Dict κ β) : Dict κ γ :=
  ⟨dict.entries.map fun entry => (entry.1, change entry.1 entry.2),
    List.pairwise_map.mpr dict.increasing⟩

variable [Std.LawfulEqOrd κ]

/-- A changed value stands where the value stood. -/
theorem get?_mapWithKey {γ : Type} (change : κ → β → γ) (dict : Dict κ β) (key : κ) :
    (dict.mapWithKey change).get? key = (dict.get? key).map (change key) := by
  rw [get?, mapWithKey, List.find?_map, Option.map_map, get?, Option.map_map]
  refine Option.map_congr fun entry hentry => ?_
  have hkey : entry.1 = key := by
    have hfound := List.find?_some hentry
    rwa [Function.comp_apply, beq_iff_eq, Std.LawfulEqCmp.compare_eq_iff_eq] at hfound
  simp only [Function.comp_apply, hkey]

theorem get?_mapValues {γ : Type} (change : β → γ) (dict : Dict κ β) (key : κ) :
    (dict.mapValues change).get? key = (dict.get? key).map change :=
  get?_mapWithKey (fun _ => change) dict key

theorem mem_of_get? {dict : Dict κ β} {key : κ} {value : β} (h : dict.get? key = some value) :
    (key, value) ∈ dict.entries := by
  obtain ⟨⟨found, result⟩, hfind, hvalue⟩ := Option.map_eq_some_iff.mp h
  have hkey := List.find?_some hfind
  rw [beq_iff_eq, Std.LawfulEqCmp.compare_eq_iff_eq] at hkey
  subst hkey
  subst hvalue
  exact List.mem_of_find?_eq_some hfind

variable [Std.TransOrd κ]

omit [Std.TransOrd κ] in
/-- An entry list in increasing order has one value for each key. -/
theorem find?_of_mem {entries : List (κ × β)} {key : κ} {value : β}
    (hincreasing : entries.Pairwise fun first second => compare first.1 second.1 = .lt)
    (h : (key, value) ∈ entries) :
    (entries.find? fun entry => compare entry.1 key == .eq) = some (key, value) := by
  induction entries with
  | nil => cases h
  | cons entry rest ih =>
      obtain ⟨hfirst, hrest⟩ := List.pairwise_cons.mp hincreasing
      rcases List.mem_cons.mp h with rfl | hmem
      · simp
      · have hlt := hfirst _ hmem
        rw [List.find?_cons_of_neg (by simp [hlt])]
        exact ih hrest hmem

omit [Std.TransOrd κ] in
theorem get?_eq_some_iff {dict : Dict κ β} {key : κ} {value : β} :
    dict.get? key = some value ↔ (key, value) ∈ dict.entries := by
  refine ⟨mem_of_get?, fun h => ?_⟩
  rw [get?, find?_of_mem dict.increasing h]
  rfl

/-- Dictionaries with the same values under every key are equal. -/
theorem ext_get? {first second : Dict κ β} (h : ∀ key, first.get? key = second.get? key) :
    first = second := by
  have hirrefl : Std.Irrefl fun first second : κ × β => compare first.1 second.1 = .lt :=
    ⟨fun entry hlt => by simp at hlt⟩
  have hantisymm : Std.Antisymm fun first second : κ × β => compare first.1 second.1 = .lt :=
    ⟨fun entry other hlt hgt => by
      rw [Std.OrientedCmp.gt_of_lt hlt] at hgt
      cases hgt⟩
  have hentries : first.entries = second.entries := by
    refine List.Pairwise.eq_of_mem_iff first.increasing second.increasing fun entry => ?_
    rw [← get?_eq_some_iff, ← get?_eq_some_iff, h]
  cases first
  cases second
  cases hentries
  rfl

/-! ## Taking away -/

omit [Std.TransOrd κ] in
/-- A key that was taken away has no value. -/
theorem get?_erase_self (dict : Dict κ β) (key : κ) : (dict.erase key).get? key = none := by
  simp [get?, erase, List.find?_filter]

omit [Std.TransOrd κ] in
/-- Every other key keeps what it had. -/
theorem get?_erase_of_ne (dict : Dict κ β) {key other : κ} (h : key ≠ other) :
    (dict.erase key).get? other = dict.get? other := by
  rw [get?, get?, erase, List.find?_filter]
  congr 2
  funext entry
  by_cases hother : entry.1 = other
  · simp [hother, Std.LawfulEqCmp.compare_eq_iff_eq, Ne.symm h]
  · simp [Std.LawfulEqCmp.compare_eq_iff_eq, hother]

/-- What was put under a new key and taken away again leaves no trace. -/
theorem erase_insert {dict : Dict κ β} {key : κ} (h : dict.get? key = none) (value : β) :
    (dict.insert key value).erase key = dict := by
  refine ext_get? fun other => ?_
  by_cases hkey : key = other
  · subst hkey
    rw [get?_erase_self, h]
  · rw [get?_erase_of_ne _ hkey, get?_insert_of_ne _ hkey]

/-! ## Putting what there is -/

/-- Puts a value into a dictionary, if there is one. -/
def insertSome (key : κ) (value : Option β) (dict : Dict κ β) : Dict κ β :=
  value.elim dict fun given => dict.insert key given

theorem get?_insertSome_self {dict : Dict κ β} {key : κ} (h : dict.get? key = none)
    (value : Option β) : (dict.insertSome key value).get? key = value := by
  cases value with
  | none => exact h
  | some given => exact get?_insert_self dict key given

theorem get?_insertSome_of_ne (dict : Dict κ β) {key other : κ} (h : key ≠ other)
    (value : Option β) : (dict.insertSome key value).get? other = dict.get? other := by
  cases value with
  | none => rfl
  | some given => exact get?_insert_of_ne dict h given

/-! ## Filling a dictionary -/

/-- A dictionary that entries with distinct keys are put into lists them, and what it had
under other keys. -/
theorem get?_foldl_insert {entries : List (κ × β)}
    (hdistinct : (entries.map Prod.fst).Nodup) (dict : Dict κ β) {key : κ} {value : β} :
    (entries.foldl (fun dict entry => dict.insert entry.1 entry.2) dict).get? key = some value ↔
      (key, value) ∈ entries ∨ key ∉ entries.map Prod.fst ∧ dict.get? key = some value := by
  induction entries generalizing dict with
  | nil => simp
  | cons entry rest ih =>
      obtain ⟨hfresh, hrest⟩ := List.nodup_cons.mp hdistinct
      rw [List.foldl_cons, ih hrest]
      by_cases hkey : entry.1 = key
      · subst hkey
        have hnot : (entry.1, value) ∉ rest :=
          fun hmem => hfresh (List.mem_map.mpr ⟨_, hmem, rfl⟩)
        rw [get?_insert_self]
        constructor
        · rintro (hmem | ⟨_, hvalue⟩)
          · exact absurd hmem hnot
          · rw [← Option.some.inj hvalue]
            exact Or.inl List.mem_cons_self
        · rintro (hmem | ⟨habsent, _⟩)
          · rcases List.mem_cons.mp hmem with heq | hlater
            · rw [← heq]
              exact Or.inr ⟨hfresh, rfl⟩
            · exact absurd hlater hnot
          · exact absurd List.mem_cons_self habsent
      · rw [get?_insert_of_ne dict hkey, List.map_cons, List.mem_cons, List.mem_cons]
        have hne : (key, value) ≠ entry := fun heq => hkey (heq ▸ rfl)
        simp [hne, Ne.symm hkey]

theorem get?_ofList {entries : List (κ × β)} (hdistinct : (entries.map Prod.fst).Nodup)
    {key : κ} {value : β} :
    (ofList entries).get? key = some value ↔ (key, value) ∈ entries := by
  rw [ofList, get?_foldl_insert hdistinct]
  simp [get?, empty]

end SlashCommand.Dict

namespace SlashCommand.OrderedSet

variable {κ : Type} [Ord κ] [Std.TransOrd κ] [Std.LawfulEqOrd κ]

omit [Std.TransOrd κ] in
/-- A set contains the elements it lists. -/
theorem contains_iff_mem_toList {set : OrderedSet κ} {element : κ} :
    set.contains element = true ↔ element ∈ set.toList := by
  rw [Dict.contains, Option.isSome_iff_exists, toList, Dict.keys, List.mem_map]
  simp only [Dict.get?_eq_some_iff]
  constructor
  · rintro ⟨⟨⟩, hmem⟩
    exact ⟨_, hmem, rfl⟩
  · rintro ⟨⟨found, ⟨⟩⟩, hmem, rfl⟩
    exact ⟨(), hmem⟩

/-- A set has the elements that were put into it, and those it had before. -/
theorem get?_foldl_add (elements : List κ) (set : OrderedSet κ) {element : κ} :
    (elements.foldl (fun set element => set.add element) set).get? element = some () ↔
      element ∈ elements ∨ set.get? element = some () := by
  induction elements generalizing set with
  | nil => simp
  | cons first rest ih =>
      rw [List.foldl_cons, ih, add]
      by_cases hsame : first = element
      · subst hsame
        simp [Dict.get?_insert_self]
      · rw [Dict.get?_insert_of_ne set hsame, List.mem_cons]
        simp [Ne.symm hsame]

omit [Std.TransOrd κ] in
theorem get?_eq_some_iff_mem {set : OrderedSet κ} {element : κ} :
    set.get? element = some () ↔ element ∈ set.toList := by
  rw [← contains_iff_mem_toList, Dict.contains]
  cases set.get? element <;> simp

/-- A set has the element that was put into it last, and those it had before. -/
theorem mem_toList_add {set : OrderedSet κ} {element other : κ} :
    other ∈ (set.add element).toList ↔ other = element ∨ other ∈ set.toList := by
  rw [← get?_eq_some_iff_mem, ← get?_eq_some_iff_mem, add]
  by_cases hsame : element = other
  · subst hsame
    simp [Dict.get?_insert_self]
  · rw [Dict.get?_insert_of_ne set hsame]
    simp [Ne.symm hsame]

/-- Sets with the same elements are equal. -/
theorem ext_toList {first second : OrderedSet κ}
    (h : ∀ element, element ∈ first.toList ↔ element ∈ second.toList) : first = second := by
  refine Dict.ext_get? fun element => ?_
  have hsame := h element
  rw [← get?_eq_some_iff_mem, ← get?_eq_some_iff_mem] at hsame
  exact Option.ext fun _ => hsame

end SlashCommand.OrderedSet
