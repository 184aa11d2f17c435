import Docroot.Proofs.Disk.LinkFree

/-!
# The targets of all links

How many moves the target of a link on a disk can ask for: no more than the longest
one does (`Disk.longestTarget`), which is found by going through the tree. Entries
that cannot be reached, since their name cannot be stored or stands before them in
the directory, have no part in it (`longestTarget_le_iff`).
-/

namespace Docroot

namespace Node

mutual

/-- The most moves that the target of a link in a part of the tree asks for. -/
def longestTarget : Node → Nat
  | .file _ => 0
  | .directory entries => longestTargetIn [] entries
  | .link target => target.steps.length
  | .special => 0

/-- The same for entries of a directory that stand behind others of these names. -/
def longestTargetIn (before : List Name) : List (Name × Node) → Nat
  | [] => 0
  | (n, node) :: rest =>
    max (if n.isStorable && !before.contains n then node.longestTarget else 0)
      (longestTargetIn (n :: before) rest)

end

variable {m : Nat} {before : List Name} {entries : List (Name × Node)} {node child : Node}
  {n : Name} {rest : Location}

/-- Of the entries that can be reached, none has a longer target in it. -/
theorem longestTargetIn_le_iff : longestTargetIn before entries ≤ m ↔
    ∀ n child, n.isStorable = true → n ∉ before → entries.lookup n = some child →
      child.longestTarget ≤ m := by
  induction entries generalizing before with
  | nil => simp [longestTargetIn]
  | cons entry entries ih =>
    obtain ⟨first, node⟩ := entry
    rw [longestTargetIn, Nat.max_le, ih]
    constructor
    · rintro ⟨hfirst, hrest⟩ n child hn hbefore hchild
      by_cases hname : n = first
      · subst hname
        rw [List.lookup_cons_self, Option.some.injEq] at hchild
        simpa [hn, hbefore, hchild] using hfirst
      · rw [List.lookup_cons, beq_false_of_ne hname] at hchild
        exact hrest n child hn (by simp [hname, hbefore]) hchild
    · intro h
      refine ⟨?_, fun n child hn hbefore hchild => ?_⟩
      · split_ifs with hfirst
        · rw [Bool.and_eq_true, Bool.not_eq_true', List.contains_eq_mem,
            decide_eq_false_iff_not] at hfirst
          exact h first node hfirst.1 hfirst.2 List.lookup_cons_self
        · exact Nat.zero_le m
      · rw [List.mem_cons, not_or] at hbefore
        refine h n child hn hbefore.2 ?_
        rwa [List.lookup_cons, beq_false_of_ne hbefore.1]

theorem sizeOf_lt_of_lookup (h : entries.lookup n = some child) :
    sizeOf child < sizeOf (directory entries) := by
  have hlt := List.sizeOf_lt_of_mem (mem_of_lookup h)
  rw [Prod.mk.sizeOf_spec] at hlt
  rw [directory.sizeOf_spec]
  omega

/-- Nothing is below what is no directory. -/
theorem find?_cons_of_entries (h : node.entries = []) : node.find? (n :: rest) = none := by
  simp [find?, h]

/-- No link in a part of the tree has a longer target. -/
theorem longestTarget_le_iff (node : Node) : node.longestTarget ≤ m ↔
    ∀ place target, node.find? place = some (.link target) → target.steps.length ≤ m := by
  match node with
  | .file _ | .special =>
    refine iff_of_true (Nat.zero_le m) fun place target h => ?_
    cases place with
    | nil => cases h
    | cons n rest =>
      rw [find?_cons_of_entries rfl] at h
      cases h
  | .link target =>
    refine ⟨fun h place target' hfind => ?_, fun h => h [] target rfl⟩
    cases place with
    | nil =>
      cases hfind
      exact h
    | cons n rest =>
      rw [find?_cons_of_entries rfl] at hfind
      cases hfind
  | .directory entries =>
    rw [longestTarget, longestTargetIn_le_iff]
    constructor
    · intro h place target hfind
      cases place with
      | nil => cases hfind
      | cons n rest =>
        rw [find?] at hfind
        split_ifs at hfind with hn
        obtain ⟨child, hchild, hbelow⟩ := Option.bind_eq_some_iff.1 hfind
        exact (longestTarget_le_iff child).1 (h n child hn List.not_mem_nil hchild) rest target
          hbelow
    · intro h n child hn _ hchild
      refine (longestTarget_le_iff child).2 fun rest target hbelow => h (n :: rest) target ?_
      rw [find?, if_pos hn]
      exact Option.bind_eq_some_iff.2 ⟨child, hchild, hbelow⟩
termination_by sizeOf node
decreasing_by all_goals exact sizeOf_lt_of_lookup hchild

theorem entry_eq_link_iff {target : Path} : node.entry = .link target ↔ node = .link target := by
  cases node <;> simp [entry]

end Node

namespace Disk

/-- The most moves that the target of a link on the disk asks for. -/
def longestTarget (d : Disk) : Nat := d.tree.longestTarget

variable {d : Disk} {m : Nat} {place : Location} {target : Path}

/-- No link on the disk has a longer target, and one has as long a target unless none
    asks for a move. -/
theorem longestTarget_le_iff : d.longestTarget ≤ m ↔
    ∀ place target, d.entryAt? place = some (.link target) → target.steps.length ≤ m := by
  rw [longestTarget, Node.longestTarget_le_iff]
  simp [entryAt?, Node.entry_eq_link_iff]

/-- A link that is seen at a place, be it through others, is a link on the disk. -/
theorem exists_entryAt?_of_linkTarget? (h : d.linkTarget? place = some target) :
    ∃ q, d.entryAt? q = some (.link target) := by
  rw [linkTarget?] at h
  split at h
  · rename_i seen hseen
    obtain ⟨q, _, hfound⟩ := bind_eq_ok_iff.1 hseen
    exact ⟨q, Option.some.inj h ▸ found_eq_ok_iff.1 hfound⟩
  · cases h

end Disk

end Docroot
