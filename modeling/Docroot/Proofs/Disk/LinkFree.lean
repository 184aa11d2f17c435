import Docroot.Proofs.Disk.Following

/-!
# Places without links

A place is *free of links* (`Disk.LinkFree`) when no link stands at it or on the
way to it, save where paths are too long to be looked up. There a lookup has
nothing to follow, so the system's view of the place is that of the tree:

* what the path leads to is what stands there (`statusAt_eq_ok_iff`);
* the link that is seen one name further is the one that stands there
  (`linkTarget?_concat_eq`), and its canonical lookup is that of its target from
  the directory it stands in (`canonicalizeAt_concat_eq_ok_iff`);
* a plain entry is its own canonical place (`canonicalizeAt_of_isPlain`).
-/

namespace Docroot

namespace Disk

/-- No link that a lookup could reach stands at the place or on the way to it. -/
def LinkFree (d : Disk) (place : Location) : Prop :=
  ∀ q : Location, q <+: place → q.bytes < maxPathBytes → d.targetAt? q = none

/-- The target of the link at a place, unless the path of the place is too long
    for anything there to be seen. -/
def visibleTarget? (d : Disk) (place : Location) : Option Path :=
  if place.bytes < maxPathBytes then d.targetAt? place else none

variable {d : Disk} {rule : Lookup} {k : Nat} {place p q : Location} {n : Name}
  {rest : List Component} {target : Path} {entry : Entry}

theorem linkFree_nil : d.LinkFree [] := by
  intro q hq _
  rw [List.prefix_nil.1 hq]
  rfl

theorem LinkFree.of_prefix (h : d.LinkFree place) (hp : p <+: place) : d.LinkFree p :=
  fun q hq => h q (hq.trans hp)

theorem LinkFree.parent (h : d.LinkFree place) : d.LinkFree place.parent :=
  h.of_prefix (List.dropLast_prefix place)

theorem LinkFree.concat (h : d.LinkFree place)
    (hn : (place ++ [n]).bytes < maxPathBytes → d.targetAt? (place ++ [n]) = none) :
    d.LinkFree (place ++ [n]) := by
  intro q hq hbytes
  rcases List.prefix_concat_iff.1 hq with rfl | hq
  · exact hn hbytes
  · exact h q hq hbytes

theorem LinkFree.not_link (h : d.LinkFree place) (hq : q <+: place)
    (hbytes : q.bytes < maxPathBytes) : d.entryAt? q ≠ some (.link target) := by
  intro hlink
  have hnone := h q hq hbytes
  rw [targetAt?_eq_some_iff.2 hlink] at hnone
  cases hnone

/-- Everything on the way to a plain entry is a directory, hence plain. -/
theorem IsPlain.of_prefix (h : d.IsPlain place) (hp : p <+: place) : d.IsPlain p := by
  obtain ⟨r, rfl⟩ := hp
  rcases eq_or_ne r [] with rfl | hr
  · rwa [List.append_nil] at h
  · obtain ⟨entry, hentry, _⟩ := h
    exact isPlain_of_isDirectory (isDirectory_of_entryAt?_append hentry hr)

theorem IsPlain.linkFree (h : d.IsPlain place) : d.LinkFree place := by
  intro q hq _
  obtain ⟨entry, hentry, htarget⟩ := h.of_prefix hq
  rw [targetAt?, hentry, Option.bind_some, htarget]

/-- Something stands everywhere on the way to a plain entry. -/
theorem IsPlain.isSome_of_prefix (h : d.IsPlain place) (hp : p <+: place) :
    (d.entryAt? p).isSome := by
  obtain ⟨entry, hentry, _⟩ := h.of_prefix hp
  exact Option.isSome_of_eq_some hentry

/-- Whatever is found by a name or behind it is found without a link on the way. -/
theorem Finds.linkFree {c : Component} (h : d.Finds k place (c :: rest) q) : d.LinkFree q :=
  (h.isPlain (.inl (List.cons_ne_nil c rest))).linkFree

theorem not_hasNul_of_entryAt? (h : d.entryAt? place = some entry) :
    place.any Name.hasNul = false := by
  rw [List.any_eq_false]
  intro n hn
  have hnul := (Name.isStorable_iff.1 (isStorable_of_mem h n hn)).2
  rw [hnul]
  exact Bool.false_ne_true

/-! ## Lookups from the top -/

theorem lookupAt_eq_ok_iff : d.lookupAt rule place = .ok q ↔
    rule.admitsBytes place.bytes = true ∧ place.any Name.hasNul = false ∧
      d.follow rule maxLinks [] (place.map fun n => .step (.name n)) = .ok q := by
  cases hbytes : rule.admitsBytes place.bytes <;> cases hnul : place.any Name.hasNul <;>
    simp only [lookupAt, hbytes, hnul, Bool.not_true, Bool.not_false, Bool.false_eq_true, if_true,
      if_false, reduceCtorEq, false_and, and_false, true_and]

/-- A lookup comes through a place without links if something stands there. -/
theorem follow_linkFree_eq_ok_iff (hrule : rule.createsLast = false) (hfree : d.LinkFree place)
    (hbytes : place.bytes < maxPathBytes) :
    d.follow rule k [] ((place.map fun n => .step (.name n)) ++ rest) = .ok q ↔
      (d.entryAt? place).isSome ∧ d.follow rule k place rest = .ok q := by
  -- From the end of the place: the names before the last lead there by
  -- hypothesis, with the last in front of what is left.
  induction place using List.reverseRecOn generalizing rest with
  | nil => simp
  | append_singleton place n ih =>
    have hplace : Location.bytes place < maxPathBytes :=
      Location.bytes_lt_of_prefix (List.prefix_append _ _) hbytes
    have hlink : d.targetAt? (place ++ [n]) = none := hfree _ List.prefix_rfl hbytes
    rw [List.map_append, List.append_assoc, List.map_singleton, List.singleton_append,
      ih (hfree.of_prefix (List.prefix_append _ _)) hplace,
      follow_name_eq_ok_iff hrule (admits_of_lt hbytes) hlink]
    refine ⟨fun h => h.2, fun h => ⟨?_, h⟩⟩
    obtain ⟨entry, hentry⟩ := Option.isSome_iff_exists.1 h.1
    rw [isDirectory_iff.1 (of_entryAt?_concat hentry).1]
    rfl

theorem found_eq_ok_iff : d.found place = .ok entry ↔ d.entryAt? place = some entry := by
  rw [found]
  cases d.entryAt? place <;> simp

theorem status_admitsBytes {bytes : Nat} :
    Lookup.status.admitsBytes bytes = true ↔ bytes < maxPathBytes := by
  simp [Lookup.admitsBytes, Lookup.status]

theorem linkStatus_admitsBytes {bytes : Nat} :
    Lookup.linkStatus.admitsBytes bytes = true ↔ bytes < maxPathBytes := by
  simp [Lookup.admitsBytes, Lookup.linkStatus]

/-- The path of a place without links leads to that place, or nowhere. -/
theorem lookupAt_status_eq_ok_iff (hfree : d.LinkFree place) :
    d.lookupAt .status place = .ok q ↔
      place.bytes < maxPathBytes ∧ (d.entryAt? place).isSome ∧ place = q := by
  rw [lookupAt_eq_ok_iff, status_admitsBytes]
  refine and_congr_right fun hbytes => ?_
  rw [← List.append_nil (place.map _), follow_linkFree_eq_ok_iff rfl hfree hbytes, follow_nil,
    Except.ok.injEq, and_iff_right_iff_imp]
  rintro ⟨hsome, _⟩
  obtain ⟨entry, hentry⟩ := Option.isSome_iff_exists.1 hsome
  exact not_hasNul_of_entryAt? hentry

theorem bind_eq_ok_iff {ε α β : Type} {x : Except ε α} {f : α → Except ε β} {b : β} :
    x >>= f = .ok b ↔ ∃ a, x = .ok a ∧ f a = .ok b := by
  cases x with
  | error fault => simp [bind, Except.bind]
  | ok a => exact ⟨fun h => ⟨a, rfl, h⟩, fun ⟨_, ha, h⟩ => Except.ok.inj ha ▸ h⟩

/-- Two continuations need only agree on what is given to them. -/
theorem bind_congr {ε α β : Type} {x : Except ε α} {f g : α → Except ε β}
    (h : ∀ a, x = .ok a → f a = g a) : x >>= f = x >>= g := by
  cases x with
  | error fault => rfl
  | ok a => exact h a rfl

/-- What the path of a place without links leads to is what stands there. -/
theorem statusAt_eq_ok_iff (hfree : d.LinkFree place) :
    d.statusAt place = .ok entry ↔
      place.bytes < maxPathBytes ∧ d.entryAt? place = some entry := by
  rw [statusAt, bind_eq_ok_iff]
  simp only [lookupAt_status_eq_ok_iff hfree, found_eq_ok_iff]
  constructor
  · rintro ⟨q, ⟨hbytes, _, rfl⟩, hentry⟩
    exact ⟨hbytes, hentry⟩
  · rintro ⟨hbytes, hentry⟩
    exact ⟨place, ⟨hbytes, by simp [hentry], rfl⟩, hentry⟩

/-! ## The next name -/

/-- One name behind a place without links, a link is seen where one stands. -/
theorem linkTarget?_concat (hfree : d.LinkFree place)
    (hbytes : (place ++ [n]).bytes < maxPathBytes) :
    d.linkTarget? (place ++ [n]) = d.targetAt? (place ++ [n]) := by
  have hplace : place.bytes < maxPathBytes :=
    Location.bytes_lt_of_prefix (List.prefix_append _ _) hbytes
  cases hlink : d.targetAt? (place ++ [n]) with
  | some target =>
    -- The lookup goes through the directories before the link and stops at it.
    have hentry := targetAt?_eq_some_iff.1 hlink
    have hlookup : d.lookupAt .linkStatus (place ++ [n]) = .ok (place ++ [n]) := by
      rw [lookupAt_eq_ok_iff, linkStatus_admitsBytes]
      refine ⟨hbytes, not_hasNul_of_entryAt? hentry, ?_⟩
      rw [List.map_append, follow_linkFree_eq_ok_iff rfl hfree hplace,
        isDirectory_iff.1 (of_entryAt?_concat hentry).1]
      refine ⟨rfl, ?_⟩
      rw [List.map_singleton, follow_name_of_link (admits_of_lt hbytes) hentry]
      rfl
    have hfound : d.found (place ++ [n]) = .ok (.link target) := found_eq_ok_iff.2 hentry
    rw [linkTarget?, bind_eq_ok_iff.2 ⟨_, hlookup, hfound⟩]
  | none =>
    -- No link is on the whole way, so the lookup cannot have ended at one.
    have hfree' : d.LinkFree (place ++ [n]) := hfree.concat fun _ => hlink
    rw [linkTarget?]
    split
    · rename_i target h
      obtain ⟨q, hlookup, hfound⟩ := bind_eq_ok_iff.1 h
      have hfollow := (lookupAt_eq_ok_iff.1 hlookup).2.2
      rw [← List.append_nil (List.map _ _), follow_linkFree_eq_ok_iff rfl hfree' hbytes, follow_nil]
        at hfollow
      obtain rfl := Except.ok.inj hfollow.2
      exact absurd (found_eq_ok_iff.1 hfound) (hfree'.not_link List.prefix_rfl hbytes)
    · rfl

/-- Links that paths are too long for are not seen. -/
theorem linkTarget?_of_le (hbytes : maxPathBytes ≤ place.bytes) : d.linkTarget? place = none := by
  rw [linkTarget?]
  split
  · rename_i target h
    obtain ⟨q, hlookup, _⟩ := bind_eq_ok_iff.1 h
    have hadmits := linkStatus_admitsBytes.1 (lookupAt_eq_ok_iff.1 hlookup).1
    exact absurd hadmits (Nat.not_lt.2 hbytes)
  · rfl

/-- What is seen one name behind a place without links is what stands there. -/
theorem linkTarget?_concat_eq (hfree : d.LinkFree place) :
    d.linkTarget? (place ++ [n]) = d.visibleTarget? (place ++ [n]) := by
  rw [visibleTarget?]
  split_ifs with hbytes
  · exact linkTarget?_concat hfree hbytes
  · exact linkTarget?_of_le (Nat.not_lt.1 hbytes)

theorem visibleTarget?_eq_some_iff : d.visibleTarget? place = some target ↔
    place.bytes < maxPathBytes ∧ d.entryAt? place = some (.link target) := by
  rw [visibleTarget?]
  split_ifs with hbytes <;> simp [hbytes, targetAt?_eq_some_iff]

theorem visibleTarget?_eq_none_iff : d.visibleTarget? place = none ↔
    (place.bytes < maxPathBytes → d.targetAt? place = none) := by
  rw [visibleTarget?]
  split_ifs with hbytes <;> simp [hbytes]

/-- No link is seen at a place without links. -/
theorem LinkFree.linkTarget?_eq_none (hfree : d.LinkFree (place ++ [n])) :
    d.linkTarget? (place ++ [n]) = none := by
  rw [linkTarget?_concat_eq (hfree.of_prefix (List.prefix_append place _)),
    visibleTarget?_eq_none_iff]
  exact hfree (place ++ [n]) List.prefix_rfl

theorem visibleTarget?_eq_none_of_entry (hentry : d.entryAt? place = some entry)
    (htarget : entry.target? = none) : d.visibleTarget? place = none := by
  refine visibleTarget?_eq_none_iff.2 fun _ => ?_
  rw [targetAt?, hentry, Option.bind_some, htarget]

/-- A place stays free of links behind a name under which none is seen. -/
theorem LinkFree.concat_of_linkTarget? (hfree : d.LinkFree place)
    (h : d.linkTarget? (place ++ [n]) = none) : d.LinkFree (place ++ [n]) := by
  rw [linkTarget?_concat_eq hfree] at h
  exact hfree.concat (visibleTarget?_eq_none_iff.1 h)

/-- A lookup goes along directories to the place they lead to. -/
theorem follow_of_isDirectory (hdir : d.isDirectory place = true)
    (hbytes : place.bytes < maxPathBytes) :
    d.follow rule k [] ((place.map fun n => .step (.name n)) ++ rest) =
      d.follow rule k place rest := by
  induction place using List.reverseRecOn generalizing rest with
  | nil => rfl
  | append_singleton place n ih =>
    have hentry := isDirectory_iff.1 hdir
    have hplace : Location.bytes place < maxPathBytes :=
      Location.bytes_lt_of_prefix (List.prefix_append _ _) hbytes
    rw [List.map_append, List.append_assoc, List.map_singleton, List.singleton_append,
      ih (of_entryAt?_concat hentry).1 hplace,
      follow_name_of_entry (admits_of_lt hbytes) hentry rfl]

/-- The canonical lookup of an entry is that of its name from the directory it
    stands in. -/
theorem canonicalizeAt_concat (hentry : d.entryAt? (place ++ [n]) = some entry)
    (hbytes : (place ++ [n]).bytes < maxPathBytes) :
    d.canonicalizeAt (place ++ [n]) = d.follow .canonical maxLinks place [.step (.name n)] := by
  have hplace : place.bytes < maxPathBytes :=
    Location.bytes_lt_of_prefix (List.prefix_append _ _) hbytes
  have hadmits : Lookup.canonical.admitsBytes (place ++ [n]).bytes = true := rfl
  rw [canonicalizeAt, lookupAt, hadmits, not_hasNul_of_entryAt? hentry, List.map_append,
    follow_of_isDirectory (of_entryAt?_concat hentry).1 hplace]
  rfl

/-- The canonical place behind the next name is found from the place itself. -/
theorem canonicalizeAt_concat_eq_ok_iff (hentry : d.entryAt? (place ++ [n]) = some entry)
    (hbytes : (place ++ [n]).bytes < maxPathBytes) :
    d.canonicalizeAt (place ++ [n]) = .ok q ↔
      ∃ j ≤ maxLinks, d.Finds j place [.step (.name n)] q := by
  rw [canonicalizeAt_concat hentry hbytes, follow_canonical_eq_ok_iff (by simp)]

/-- A plain entry is its own canonical place. -/
theorem canonicalizeAt_of_isPlain (h : d.IsPlain place) (hbytes : place.bytes < maxPathBytes) :
    d.canonicalizeAt place = .ok place := by
  have hfree := h.linkFree
  obtain ⟨entry, hentry, _⟩ := h
  rw [canonicalizeAt, lookupAt_eq_ok_iff, ← List.append_nil (place.map _),
    follow_linkFree_eq_ok_iff rfl hfree hbytes, follow_nil, hentry]
  exact ⟨rfl, not_hasNul_of_entryAt? hentry, rfl, rfl⟩

end Disk

end Docroot
