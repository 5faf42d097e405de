/-!
# Ordered dictionaries

A dictionary keeps its entries in strictly increasing key order, so two
dictionaries with the same entries are the same value, whatever order they were
filled in, and every listing of one is sorted.
-/

namespace SlashCommand

/-- A finite map whose entries are listed in strictly increasing key order. -/
structure Dict (κ α : Type) [Ord κ] where
  entries : List (κ × α)
  /-- No key is listed twice or out of order. -/
  increasing : entries.Pairwise fun first second => compare first.1 second.1 = .lt

namespace Dict

variable {κ α β : Type} [Ord κ]

def empty : Dict κ α :=
  ⟨[], .nil⟩

instance : EmptyCollection (Dict κ α) :=
  ⟨empty⟩

instance : Inhabited (Dict κ α) :=
  ⟨empty⟩

/-! ## Entry lists -/

/-- Puts an entry into an ordered entry list, in place of one with the same key. -/
def putEntry (key : κ) (value : α) : List (κ × α) → List (κ × α)
  | [] => [(key, value)]
  | entry :: rest =>
      match compare key entry.1 with
      | .lt => (key, value) :: entry :: rest
      | .eq => (key, value) :: rest
      | .gt => entry :: putEntry key value rest

theorem mem_putEntry {key : κ} {value : α} {entry : κ × α} {entries : List (κ × α)}
    (h : entry ∈ putEntry key value entries) : entry = (key, value) ∨ entry ∈ entries := by
  induction entries with
  | nil => exact .inl (by simpa [putEntry] using h)
  | cons head rest ih =>
      rw [putEntry] at h
      split at h
      · simpa using h
      · rcases List.mem_cons.mp h with rfl | hrest
        · exact .inl rfl
        · exact .inr (List.mem_cons_of_mem _ hrest)
      · rcases List.mem_cons.mp h with rfl | hrest
        · exact .inr List.mem_cons_self
        · exact (ih hrest).imp_right (List.mem_cons_of_mem _)

variable [Std.TransOrd κ] [Std.LawfulEqOrd κ]

theorem putEntry_increasing (key : κ) (value : α) {entries : List (κ × α)}
    (h : entries.Pairwise fun first second => compare first.1 second.1 = .lt) :
    (putEntry key value entries).Pairwise
      fun first second => compare first.1 second.1 = .lt := by
  induction entries with
  | nil => simp [putEntry]
  | cons head rest ih =>
      obtain ⟨hhead, hrest⟩ := List.pairwise_cons.mp h
      rw [putEntry]
      split
      next hlt =>
        refine List.pairwise_cons.mpr ⟨fun entry hentry => ?_, h⟩
        rcases List.mem_cons.mp hentry with rfl | hmem
        · exact hlt
        · exact Std.TransCmp.lt_trans hlt (hhead entry hmem)
      next heq =>
        have hkey : key = head.1 := Std.LawfulEqCmp.eq_of_compare heq
        exact List.pairwise_cons.mpr ⟨fun entry hmem => hkey ▸ hhead entry hmem, hrest⟩
      next hgt =>
        refine List.pairwise_cons.mpr ⟨fun entry hentry => ?_, ih hrest⟩
        rcases mem_putEntry hentry with rfl | hmem
        · exact Std.OrientedCmp.lt_of_gt hgt
        · exact hhead entry hmem

def insert (key : κ) (value : α) (dict : Dict κ α) : Dict κ α :=
  ⟨putEntry key value dict.entries, putEntry_increasing key value dict.increasing⟩

/-- The dictionary of a list of entries, where a later entry replaces an earlier
one with the same key. -/
def ofList (entries : List (κ × α)) : Dict κ α :=
  entries.foldl (fun dict entry => dict.insert entry.1 entry.2) empty

omit [Std.TransOrd κ] [Std.LawfulEqOrd κ]

def get? (dict : Dict κ α) (key : κ) : Option α :=
  (dict.entries.find? fun entry => compare entry.1 key == .eq).map Prod.snd

def contains (dict : Dict κ α) (key : κ) : Bool :=
  (dict.get? key).isSome

def erase (dict : Dict κ α) (key : κ) : Dict κ α :=
  ⟨dict.entries.filter fun entry => compare entry.1 key != .eq,
    dict.increasing.filter fun entry => compare entry.1 key != .eq⟩

def keys (dict : Dict κ α) : List κ :=
  dict.entries.map Prod.fst

/-- The values in the order of their keys. -/
def values (dict : Dict κ α) : List α :=
  dict.entries.map Prod.snd

def isEmpty (dict : Dict κ α) : Bool :=
  dict.entries.isEmpty

def mapValues (change : α → β) (dict : Dict κ α) : Dict κ β :=
  ⟨dict.entries.map fun entry => (entry.1, change entry.2),
    List.pairwise_map.mpr dict.increasing⟩

/-! ## Looking up what was put -/

variable [Std.TransOrd κ] [Std.LawfulEqOrd κ]

theorem find?_putEntry_self (key : κ) (value : α) (entries : List (κ × α)) :
    ((putEntry key value entries).find? fun entry => compare entry.1 key == .eq) =
      some (key, value) := by
  induction entries with
  | nil => simp [putEntry]
  | cons head rest ih =>
      rw [putEntry]
      split
      next => simp
      next => simp
      next hgt =>
        have hlt : compare head.1 key = .lt := Std.OrientedCmp.lt_of_gt hgt
        simp [hlt, ih]

omit [Std.TransOrd κ] in
theorem find?_putEntry_of_ne {key other : κ} (h : key ≠ other) (value : α)
    (entries : List (κ × α)) :
    ((putEntry key value entries).find? fun entry => compare entry.1 other == .eq) =
      entries.find? fun entry => compare entry.1 other == .eq := by
  have hkey : (compare key other == .eq) = false := by
    simpa [Std.LawfulEqCmp.compare_eq_iff_eq] using h
  induction entries with
  | nil => simp [putEntry, hkey]
  | cons head rest ih =>
      rw [putEntry]
      split
      next => simp [List.find?_cons, hkey]
      next heq =>
        have hhead : key = head.1 := Std.LawfulEqCmp.eq_of_compare heq
        simp [hkey, ← hhead]
      next => rw [List.find?_cons, List.find?_cons, ih]

theorem get?_insert_self (dict : Dict κ α) (key : κ) (value : α) :
    (dict.insert key value).get? key = some value := by
  rw [get?, insert, find?_putEntry_self]
  rfl

theorem get?_insert_of_ne (dict : Dict κ α) {key other : κ} (h : key ≠ other) (value : α) :
    (dict.insert key value).get? other = dict.get? other := by
  rw [get?, insert, find?_putEntry_of_ne h, get?]

end Dict

/-- A finite set whose elements are listed in strictly increasing order. -/
abbrev OrderedSet (κ : Type) [Ord κ] :=
  Dict κ Unit

namespace OrderedSet

variable {κ : Type} [Ord κ]

def add [Std.TransOrd κ] [Std.LawfulEqOrd κ] (element : κ) (set : OrderedSet κ) :
    OrderedSet κ :=
  Dict.insert element () set

def toList (set : OrderedSet κ) : List κ :=
  Dict.keys set

end OrderedSet

end SlashCommand
