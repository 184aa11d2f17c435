import Docroot.Proofs.Glob.View

/-!
# Expansions on disks with the same outline

A pattern stands for the same paths on two disks with the same outline
(`Pattern.expand_eq`), since every base offers the same view on both.
-/

namespace Docroot.Glob

variable {d e : Disk} {base : Location}

theorem Trail.lookup_eq (h : d.SameOutline e) {rule : Lookup} {components : List Component} :
    lookup d base rule components = lookup e base rule components := by
  rw [lookup, lookup, h.follow_eq]

theorem sameView_of_sameOutline (h : d.SameOutline e) :
    SameView d base [] e base fun _ => True where
  name _ := trivial
  status components _ := by
    rw [List.nil_append, Trail.lookup_eq h]
    cases hlookup : Trail.lookup e base .status components with
    | ok place => exact .inl ⟨place, place, rfl, rfl, h.alikeBelow place⟩
    | error fault => exact .inr ⟨fault, fault, rfl, rfl⟩
  linkStatus components _ := by rw [List.nil_append, Trail.lookup_eq h]

/-- A pattern stands for the same paths on both disks. -/
theorem Pattern.expand_eq (h : d.SameOutline e) (pattern : Pattern) :
    pattern.expand d base = pattern.expand e base :=
  expand_eq_of_sameView (sameView_of_sameOutline h) fun part _ => part.keepsTo_true

end Docroot.Glob
