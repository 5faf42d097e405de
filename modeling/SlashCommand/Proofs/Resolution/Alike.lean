import SlashCommand.Proofs.Dict
import SlashCommand.Resolution

/-!
# Resolutions up to order

Resolutions that differ in the order of their entries only hand the same argument object
to a command, as long as no two parameters share a name.
-/

namespace SlashCommand

namespace Resolution

/-- Resolutions with the same entries, in whatever order. -/
structure Alike (first second : Resolution) : Prop where
  args : first.args.Perm second.args
  flags : first.flags.Perm second.flags
  subcommand : first.subcommand = second.subcommand

theorem Alike.symm {first second : Resolution} (h : first.Alike second) :
    second.Alike first where
  args := h.args.symm
  flags := h.flags.symm
  subcommand := h.subcommand.symm

theorem Alike.trans {first second third : Resolution} (hfirst : first.Alike second)
    (hsecond : second.Alike third) : first.Alike third where
  args := hfirst.args.trans hsecond.args
  flags := hfirst.flags.trans hsecond.flags
  subcommand := hfirst.subcommand.trans hsecond.subcommand

theorem alike_ofEntries {first second : List Entry} (h : first.Perm second)
    (active : Option String) : (ofEntries first active).Alike (ofEntries second active) where
  args := h.filter _
  flags := h.filter _
  subcommand := rfl

end Resolution

namespace Arguments

theorem map_fst_present_sublist (entries : List Entry) :
    ((entries.filterMap present?).map Prod.fst).Sublist (entries.map Entry.name) := by
  induction entries with
  | nil => exact List.Sublist.refl []
  | cons entry rest ih =>
      cases hvalue : entry.value with
      | none =>
          rw [List.filterMap_cons_none (by simp [present?, hvalue]), List.map_cons]
          exact ih.cons entry.name
      | some value =>
          have hpresent : present? entry = some (entry.name, value) := by
            simp [present?, hvalue]
          rw [List.filterMap_cons_some hpresent, List.map_cons, List.map_cons]
          exact ih.cons_cons entry.name

/-- The argument object does not depend on the order of the entries. -/
theorem ofResolution_eq_of_alike {first second : Resolution} (h : first.Alike second)
    (hdistinct : (first.args.map Entry.name).Nodup) :
    ofResolution first = ofResolution second := by
  have hfirst : ((first.args.filterMap present?).map Prod.fst).Nodup :=
    hdistinct.sublist (map_fst_present_sublist first.args)
  have hargs : (first.args.filterMap present?).Perm (second.args.filterMap present?) :=
    h.args.filterMap present?
  have hsecond : ((second.args.filterMap present?).map Prod.fst).Nodup :=
    (hargs.map Prod.fst).nodup_iff.mp hfirst
  have hvalues : Dict.ofList (first.args.filterMap present?) =
      Dict.ofList (second.args.filterMap present?) := by
    apply Dict.ext_get?
    intro key
    apply Option.ext
    intro value
    rw [Dict.get?_ofList hfirst, Dict.get?_ofList hsecond]
    exact hargs.mem_iff
  have hmarks : (first.flags.flatMap flagMarks).foldl (fun set mark => set.add mark) ∅ =
      (second.flags.flatMap flagMarks).foldl (fun (set : OrderedSet String) mark =>
        set.add mark) ∅ := by
    apply Dict.ext_get?
    intro mark
    apply Option.ext
    rintro ⟨⟩
    rw [OrderedSet.get?_foldl_add, OrderedSet.get?_foldl_add,
      (h.flags.flatMap_right flagMarks).mem_iff]
  rw [ofResolution, ofResolution, hvalues, hmarks, h.subcommand]

end Arguments

end SlashCommand
