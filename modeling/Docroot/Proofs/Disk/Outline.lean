import Docroot.Proofs.Disk.LinkFree

/-!
# Disks with the same outline

Two disks have the same *outline* (`Disk.SameOutline`) when they differ in
nothing but the contents of regular files: entries of the same kind stand at the
same places, links have the same targets, and relative paths start from the same
place. Where paths lead can be told from the outline alone:

* every lookup ends in the same way (`SameOutline.lookup_eq`), and so does every
  walk (`SameOutline.walk_eq`);
* a directory has the same names, in whatever order (`AlikeBelow.names_perm`);
* what is found at a place without links is the same if it is at that place
  (`SameOutline.statusAt_eq`).
-/

namespace Docroot

/-- The entry without the content of a file. -/
def Entry.outline : Entry → Entry
  | file _ => .file ⟨.empty, 0⟩
  | entry => entry

/-- Entries of one outline are the same unless they are files. -/
theorem Entry.eq_or_file_of_outline_eq {a b : Entry} (h : a.outline = b.outline) :
    a = b ∨ ∃ x y, a = .file x ∧ b = .file y := by
  cases a <;> cases b <;> simp_all [outline]

/-- Two places with the same outline hold the same, or a file each. -/
theorem Entry.eq_or_file_of_outline_eq? {a b : Option Entry} (h : a.map outline = b.map outline) :
    a = b ∨ ∃ x y, a = some (.file x) ∧ b = some (.file y) := by
  cases a <;> cases b
  · exact .inl rfl
  · cases h
  · cases h
  · rcases eq_or_file_of_outline_eq (Option.some.inj h) with rfl | ⟨x, y, rfl, rfl⟩
    · exact .inl rfl
    · exact .inr ⟨x, y, rfl, rfl⟩

namespace Disk

/-- Below a place on one disk stands what stands below a place on the other, up to
    the contents of files. -/
def AlikeBelow (d e : Disk) (p q : Location) : Prop :=
  ∀ r, (d.entryAt? (p ++ r)).map Entry.outline = (e.entryAt? (q ++ r)).map Entry.outline

/-- The two disks differ in nothing but the contents of regular files. -/
structure SameOutline (d e : Disk) : Prop where
  workingDirectory : d.workingDirectory = e.workingDirectory
  outline : ∀ place, (d.entryAt? place).map Entry.outline = (e.entryAt? place).map Entry.outline

variable {d e : Disk} {rule : Lookup} {k hops : Nat} {place q : Location} {p : Path}

namespace AlikeBelow

theorem refl (d : Disk) (place : Location) : d.AlikeBelow d place place := fun _ => rfl

theorem isDirectory_eq (h : d.AlikeBelow e place q) : d.isDirectory place = e.isDirectory q := by
  have hself := h []
  rw [List.append_nil, List.append_nil] at hself
  rw [isDirectory, isDirectory]
  rcases Entry.eq_or_file_of_outline_eq? hself with heq | ⟨x, y, hd, he⟩
  · rw [heq]
  · simp [hd, he]

/-- The two places have the same names, in whatever order. -/
theorem names_perm (h : d.AlikeBelow e place q) : (d.names place).Perm (e.names q) := by
  -- Each disk names what stands in the directory, and each name once.
  refine (List.perm_ext_iff_of_nodup nodup_names nodup_names).2 fun n => ?_
  rw [mem_names_iff, mem_names_iff, ← Option.isSome_map, h, Option.isSome_map]

end AlikeBelow

namespace SameOutline

theorem alikeBelow (h : d.SameOutline e) (place : Location) : d.AlikeBelow e place place :=
  fun r => h.outline (place ++ r)

/-- The same stands at a place on both disks, or a file on each. -/
theorem entryAt?_eq_or (h : d.SameOutline e) (place : Location) :
    d.entryAt? place = e.entryAt? place ∨
      ∃ x y, d.entryAt? place = some (.file x) ∧ e.entryAt? place = some (.file y) :=
  Entry.eq_or_file_of_outline_eq? (h.outline place)

theorem isDirectory_eq (h : d.SameOutline e) : d.isDirectory place = e.isDirectory place :=
  (h.alikeBelow place).isDirectory_eq

/-! ## Lookups -/

theorem traverse_eq (h : d.SameOutline e) {comps : List Component}
    {onLink : Location → Path → List Component → Except Fault Location} :
    d.traverse rule onLink place comps = e.traverse rule onLink place comps := by
  induction comps generalizing place with
  | nil => rfl
  | cons c rest ih =>
    match c with
    | .root => exact ih
    | .here => simp only [traverse, h.isDirectory_eq, ih]
    | .step .up => simp only [traverse, h.isDirectory_eq, ih]
    | .step (.name n) =>
      -- A file is gone to like any entry that is no link, whatever is in it.
      simp only [traverse, h.isDirectory_eq, ih]
      rcases h.entryAt?_eq_or (place ++ [n]) with heq | ⟨x, y, hd, he⟩
      · rw [heq]
      · rw [hd, he]

theorem follow_eq (h : d.SameOutline e) {comps : List Component} :
    d.follow rule k place comps = e.follow rule k place comps := by
  induction k generalizing place comps with
  | zero => exact h.traverse_eq
  | succ k ih =>
    simp only [follow, ih]
    exact h.traverse_eq

/-- A path leads to the same place on both disks, or nowhere for the same
    reason. -/
theorem lookup_eq (h : d.SameOutline e) : d.lookup rule p = e.lookup rule p := by
  rw [lookup, lookup, h.workingDirectory, h.follow_eq]

theorem lookupAt_eq (h : d.SameOutline e) : d.lookupAt rule place = e.lookupAt rule place := by
  rw [lookupAt, lookupAt, h.follow_eq]

/-- The same is found on both disks, or a file on each. -/
theorem found_eq_or (h : d.SameOutline e) (place : Location) :
    d.found place = e.found place ∨
      ∃ x y, d.found place = .ok (.file x) ∧ e.found place = .ok (.file y) := by
  rcases h.entryAt?_eq_or place with heq | ⟨x, y, hd, he⟩
  · exact .inl (by rw [found, found, heq])
  · exact .inr ⟨x, y, found_eq_ok_iff.2 hd, found_eq_ok_iff.2 he⟩

theorem linkTarget?_eq (h : d.SameOutline e) : d.linkTarget? place = e.linkTarget? place := by
  rw [linkTarget?, linkTarget?, h.lookupAt_eq]
  cases e.lookupAt .linkStatus place with
  | error fault => rfl
  | ok q =>
    simp only [bind, Except.bind]
    rcases h.found_eq_or q with heq | ⟨x, y, hd, he⟩
    · rw [heq]
    · rw [hd, he]

/-- What the path of a place without links leads to is the same on both disks
    if the same stands at the place. -/
theorem statusAt_eq (h : d.SameOutline e) (hfree : d.LinkFree place)
    (hentry : d.entryAt? place = e.entryAt? place) : d.statusAt place = e.statusAt place := by
  rw [statusAt, statusAt, ← h.lookupAt_eq]
  cases hlookup : d.lookupAt .status place with
  | error fault => rfl
  | ok q =>
    -- Without a link on the way, the entry that is read is at the place itself.
    obtain ⟨_, _, rfl⟩ := (lookupAt_status_eq_ok_iff hfree).1 hlookup
    change d.found place = e.found place
    rw [found, found, hentry]

/-! ## Walks -/

theorem advance_eq (h : d.SameOutline e) {steps : List Step}
    {onDangling : Location → Path → List Step → Except Refusal Location} :
    d.advance onDangling place steps = e.advance onDangling place steps := by
  induction steps generalizing place with
  | nil => rfl
  | cons s rest ih =>
    cases s with
    | up => exact ih
    | name n => simp only [advance, canonicalizeAt, h.linkTarget?_eq, h.lookupAt_eq, ih]

theorem walk_eq (h : d.SameOutline e) {steps : List Step} :
    d.walk hops place steps = e.walk hops place steps := by
  induction hops generalizing place steps with
  | zero => exact h.advance_eq
  | succ hops ih =>
    simp only [walk, ih]
    exact h.advance_eq

theorem walkPath_eq (h : d.SameOutline e) : d.walkPath place p = e.walkPath place p := by
  rw [walkPath, walkPath, walkFrom, walkFrom, h.walk_eq]

end SameOutline

end Disk

end Docroot
