import Docroot.Proofs.Disk.Places
import Docroot.Walk

/-!
# Following links

A lookup by `Disk.follow` step by step: one equation for each kind of component,
so that later proofs need not know how lookups share their budget of links.

`Disk.Finds` is the canonical lookup as a relation that counts the links
followed:

* a lookup with a budget succeeds where `Finds` leads there within that budget
  (`follow_canonical_eq_ok_iff`);
* a route cut in two is found in two parts, and the links add up
  (`finds_append_iff`);
* what is found is there and is no link (`Finds.isPlain`).
-/

namespace Docroot

/-- The components that names make ask for these names. -/
theorem Component.filterMap_step?_names (names : List Name) :
    (names.map fun n => Component.step (.name n)).filterMap Component.step? = names.map .name := by
  rw [List.filterMap_map]
  exact congrFun List.filterMap_eq_map names

namespace Path

/-- What is gone through of a path once it is known where it starts. -/
def body (p : Path) : List Component :=
  p.segments ++ if p.text.toList.getLast? == some '/' then [.here] else []

theorem route_eq (p : Path) : p.route = (if p.isAbsolute then [.root] else []) ++ p.body := by
  simp only [route, body, List.append_assoc]

theorem route_of_relative {p : Path} (h : p.isAbsolute = false) : p.route = p.body := by
  simp [route_eq, h]

theorem root_notMem_segments (p : Path) : Component.root ∉ p.segments := by
  intro h
  obtain ⟨piece, _, hpiece⟩ := List.mem_filterMap.1 h
  rw [Component.ofPiece?] at hpiece
  split at hpiece
  · cases hpiece
  · simp at hpiece

/-- A `.` behind the segments of a path asks for no move. -/
theorem filterMap_step?_segments (p : Path) (slash : Bool) :
    (p.segments ++ if slash then [Component.here] else []).filterMap Component.step? = p.steps := by
  rw [List.filterMap_append, steps]
  cases slash <;> simp [Component.step?]

theorem root_notMem_segments_append (p : Path) (slash : Bool) :
    Component.root ∉ p.segments ++ if slash then [Component.here] else [] := by
  rw [List.mem_append, not_or]
  refine ⟨p.root_notMem_segments, ?_⟩
  cases slash <;> simp

/-- The moves of a path are those of its body. -/
theorem filterMap_step?_body (p : Path) : p.body.filterMap Component.step? = p.steps :=
  p.filterMap_step?_segments _

/-- A path in front of a route makes its own moves first. -/
theorem filterMap_step?_body_append (p : Path) (rest : List Component) :
    (p.body ++ rest).filterMap Component.step? = p.steps ++ rest.filterMap Component.step? := by
  rw [List.filterMap_append, p.filterMap_step?_body]

theorem root_notMem_body (p : Path) : Component.root ∉ p.body := p.root_notMem_segments_append _

end Path

namespace Disk

variable {d : Disk} {rule : Lookup} {k : Nat} {place q : Location} {n : Name}
  {rest : List Component} {target : Path}

/-! ## One equation for each component -/

@[simp] theorem follow_nil : d.follow rule k place [] = .ok place := by cases k <;> rfl

@[simp] theorem follow_root : d.follow rule k place (.root :: rest) = d.follow rule k [] rest := by
  cases k <;> rfl

theorem follow_here : d.follow rule k place (.here :: rest) =
    if d.isDirectory place then d.follow rule k place rest else .error .notDirectory := by
  cases k <;> rfl

theorem follow_up : d.follow rule k place (.step .up :: rest) =
    if d.isDirectory place then d.follow rule k place.parent rest else .error .notDirectory := by
  cases k <;> rfl

/-- A link's target is gone through from its anchor. -/
theorem follow_route : d.follow rule k place (target.route ++ rest) =
    d.follow rule k (target.anchor place) (target.body ++ rest) := by
  rw [Path.route_eq, Path.anchor]
  split
  · rw [List.append_assoc, List.singleton_append, follow_root]
  · rw [List.nil_append]

theorem follow_name : d.follow rule k place (.step (.name n) :: rest) =
    if !d.isDirectory place then .error .notDirectory
    else if Name.maxBytes < n.bytes then .error .nameTooLong
    else if !rule.admits (place ++ [n]) then .error .nameTooLong
    else match d.entryAt? (place ++ [n]) with
      | none => if rule.creates rest then .ok (place ++ [n]) else .error .notFound
      | some (.link target) =>
        if rule.follows rest then
          match k with
          | 0 => .error .tooManyLinks
          | k + 1 => d.follow rule k (target.anchor place) (target.body ++ rest)
        else .ok (place ++ [n])
      | some _ => d.follow rule k (place ++ [n]) rest := by
  have hparent : (place ++ [n]).parent = place := List.dropLast_concat
  cases k with
  | zero => rfl
  | succ k =>
    cases hentry : d.entryAt? (place ++ [n]) with
    | none => simp only [follow, traverse, hentry]
    | some entry => cases entry <;> simp only [follow, traverse, hentry, hparent, ← follow_route]

/-! ## Names, by what stands under them -/

theorem admits_of_lt (h : place.bytes < maxPathBytes) : rule.admits place = true := by
  simp [Lookup.admits, h]

/-- A name that leads somewhere is that of an entry whose place is admitted. -/
theorem entryAt?_of_follow_name (hrule : rule.createsLast = false)
    (h : d.follow rule k place (.step (.name n) :: rest) = .ok q) :
    rule.admits (place ++ [n]) = true ∧ (d.entryAt? (place ++ [n])).isSome := by
  have hcreates : rule.creates rest = false := by simp [Lookup.creates, hrule]
  rw [follow_name, hcreates] at h
  cases hentry : d.entryAt? (place ++ [n]) with
  | none =>
    simp only [hentry, Bool.false_eq_true, if_false] at h
    split_ifs at h
  | some entry =>
    refine ⟨?_, rfl⟩
    by_cases hadmits : rule.admits (place ++ [n]) = true
    · exact hadmits
    · simp only [hadmits, Bool.not_false, if_true] at h
      split_ifs at h

/-- Where something stands, the checks before it is looked at are passed. -/
theorem checks_of_entryAt? {entry : Entry} (hentry : d.entryAt? (place ++ [n]) = some entry) :
    d.isDirectory place = true ∧ ¬ Name.maxBytes < n.bytes := by
  obtain ⟨hdir, hstorable⟩ := of_entryAt?_concat hentry
  exact ⟨hdir, Nat.not_lt.2 (Name.isStorable_iff.1 hstorable).1⟩

/-- A name under which nothing stands leads somewhere only if it is to be created. -/
theorem follow_name_of_missing (hadmits : rule.admits (place ++ [n]) = true)
    (hmissing : d.entryAt? (place ++ [n]) = none) :
    d.follow rule k place (.step (.name n) :: rest) =
      if !d.isDirectory place then .error .notDirectory
      else if Name.maxBytes < n.bytes then .error .nameTooLong
      else if rule.creates rest then .ok (place ++ [n]) else .error .notFound := by
  rw [follow_name, hadmits, hmissing]
  rfl

/-- No name leads on from a file. -/
theorem follow_name_of_file {content : Content} (hfile : d.entryAt? place = some (.file content)) :
    d.follow rule k place (.step (.name n) :: rest) = .error .notDirectory := by
  have hdir : d.isDirectory place = false := by simp [isDirectory, hfile]
  rw [follow_name, hdir]
  rfl

/-- The name of an entry that is no link leads to the entry. -/
theorem follow_name_of_entry {entry : Entry} (hadmits : rule.admits (place ++ [n]) = true)
    (hentry : d.entryAt? (place ++ [n]) = some entry) (hlink : entry.target? = none) :
    d.follow rule k place (.step (.name n) :: rest) = d.follow rule k (place ++ [n]) rest := by
  obtain ⟨hdir, hbytes⟩ := checks_of_entryAt? hentry
  rw [follow_name]
  cases entry with
  | link target => cases hlink
  | file | directory | special => simp [hdir, hbytes, hadmits, hentry]

/-- The name of a link leads on from the anchor of the link's target, if the link
    is followed and there are links left to follow. -/
theorem follow_name_of_link (hadmits : rule.admits (place ++ [n]) = true)
    (hlink : d.entryAt? (place ++ [n]) = some (.link target)) :
    d.follow rule k place (.step (.name n) :: rest) =
      if rule.follows rest then
        match k with
        | 0 => .error .tooManyLinks
        | k + 1 => d.follow rule k (target.anchor place) (target.body ++ rest)
      else .ok (place ++ [n]) := by
  obtain ⟨hdir, hbytes⟩ := checks_of_entryAt? hlink
  rw [follow_name]
  simp [hdir, hbytes, hadmits, hlink]

theorem follow_name_of_link_canonical (hadmits : Lookup.canonical.admits (place ++ [n]) = true)
    (hlink : d.entryAt? (place ++ [n]) = some (.link target)) :
    d.follow .canonical k place (.step (.name n) :: rest) =
      match k with
      | 0 => .error .tooManyLinks
      | k + 1 => d.follow .canonical k (target.anchor place) (target.body ++ rest) :=
  follow_name_of_link hadmits hlink

/-- A name without a link is gone to if something stands there. -/
theorem follow_name_eq_ok_iff (hrule : rule.createsLast = false)
    (hadmits : rule.admits (place ++ [n]) = true) (hlink : d.targetAt? (place ++ [n]) = none) :
    d.follow rule k place (.step (.name n) :: rest) = .ok q ↔
      (d.entryAt? (place ++ [n])).isSome ∧ d.follow rule k (place ++ [n]) rest = .ok q := by
  cases hentry : d.entryAt? (place ++ [n]) with
  | none =>
    refine ⟨fun h => ?_, fun h => by cases h.1⟩
    simpa [hentry] using (entryAt?_of_follow_name hrule h).2
  | some entry =>
    have htarget : entry.target? = none := by simpa [targetAt?, hentry] using hlink
    rw [follow_name_of_entry hadmits hentry htarget]
    exact (and_iff_right rfl).symm

/-! ## Canonical lookups as a relation -/

/-- Something other than a link stands at the place. -/
def IsPlain (d : Disk) (place : Location) : Prop :=
  ∃ entry, d.entryAt? place = some entry ∧ entry.target? = none

theorem isPlain_of_isDirectory (h : d.isDirectory place = true) : d.IsPlain place :=
  ⟨.directory, isDirectory_iff.1 h, rfl⟩

/-- From a place, components lead to another by way of so many links. Places of
    too many bytes are not passed. -/
inductive Finds (d : Disk) : Nat → Location → List Component → Location → Prop
  | done {place : Location} : d.Finds 0 place [] place
  | here {k : Nat} {place q : Location} {rest : List Component} :
      d.isDirectory place = true → d.Finds k place rest q → d.Finds k place (.here :: rest) q
  | up {k : Nat} {place q : Location} {rest : List Component} :
      d.isDirectory place = true → d.Finds k place.parent rest q →
      d.Finds k place (.step .up :: rest) q
  | name {k : Nat} {place q : Location} {n : Name} {rest : List Component} {entry : Entry} :
      (place ++ [n]).bytes < maxPathBytes → d.entryAt? (place ++ [n]) = some entry →
      entry.target? = none → d.Finds k (place ++ [n]) rest q →
      d.Finds k place (.step (.name n) :: rest) q
  | link {k : Nat} {place q : Location} {n : Name} {rest : List Component} {target : Path} :
      (place ++ [n]).bytes < maxPathBytes → d.entryAt? (place ++ [n]) = some (.link target) →
      d.Finds k (target.anchor place) (target.body ++ rest) q →
      d.Finds (k + 1) place (.step (.name n) :: rest) q

theorem admits_canonical : Lookup.canonical.admits place = true ↔ place.bytes < maxPathBytes := by
  simp [Lookup.admits, Lookup.canonical]

/-- A canonical lookup that succeeds comes past a name in one of two ways: to an
    entry that is no link, or from there along a link it has left to follow. -/
theorem follow_canonical_name_eq_ok
    (h : d.follow .canonical k place (.step (.name n) :: rest) = .ok q) :
    (place ++ [n]).bytes < maxPathBytes ∧
      ((∃ entry, d.entryAt? (place ++ [n]) = some entry ∧ entry.target? = none ∧
        d.follow .canonical k (place ++ [n]) rest = .ok q) ∨
      ∃ target links, k = links + 1 ∧ d.entryAt? (place ++ [n]) = some (.link target) ∧
        d.follow .canonical links (target.anchor place) (target.body ++ rest) = .ok q) := by
  obtain ⟨hadmits, hsome⟩ := entryAt?_of_follow_name rfl h
  obtain ⟨entry, hentry⟩ := Option.isSome_iff_exists.1 hsome
  refine ⟨admits_canonical.1 hadmits, ?_⟩
  cases htarget : entry.target? with
  | none =>
    rw [follow_name_of_entry hadmits hentry htarget] at h
    exact .inl ⟨entry, hentry, htarget, h⟩
  | some target =>
    have hlink : d.entryAt? (place ++ [n]) = some (.link target) :=
      targetAt?_eq_some_iff.1 (by rw [targetAt?, hentry, Option.bind_some, htarget])
    rw [follow_name_of_link_canonical hadmits hlink] at h
    cases k with
    | zero => cases h
    | succ links => exact .inr ⟨target, links, rfl, hlink, h⟩

theorem finds_of_follow {comps : List Component} (hroot : .root ∉ comps)
    (h : d.follow .canonical k place comps = .ok q) : ∃ j ≤ k, d.Finds j place comps q := by
  -- On the budget, since a link's target may be longer than what is left of the
  -- route; between two links, on the route.
  induction k using Nat.strongRecOn generalizing place comps with
  | ind k ih =>
    induction comps generalizing place with
    | nil =>
      rw [follow_nil] at h
      cases h
      exact ⟨0, Nat.zero_le k, .done⟩
    | cons c rest ihrest =>
      have hrest : .root ∉ rest := fun hmem => hroot (List.mem_cons_of_mem c hmem)
      rcases c with _ | _ | _ | n
      · exact absurd List.mem_cons_self hroot
      · rw [follow_here] at h
        split at h
        · obtain ⟨j, hj, hfinds⟩ := ihrest hrest h
          exact ⟨j, hj, .here ‹_› hfinds⟩
        · cases h
      · rw [follow_up] at h
        split at h
        · obtain ⟨j, hj, hfinds⟩ := ihrest hrest h
          exact ⟨j, hj, .up ‹_› hfinds⟩
        · cases h
      · rcases follow_canonical_name_eq_ok h with ⟨hbytes, ⟨entry, hentry, htarget, h⟩ |
          ⟨target, links, rfl, hlink, h⟩⟩
        · obtain ⟨j, hj, hfinds⟩ := ihrest hrest h
          exact ⟨j, hj, .name hbytes hentry htarget hfinds⟩
        · have hbody : .root ∉ target.body ++ rest := by simp [target.root_notMem_body, hrest]
          obtain ⟨j, hj, hfinds⟩ := ih links (Nat.lt_succ_self links) hbody h
          exact ⟨j + 1, Nat.succ_le_succ hj, .link hbytes hlink hfinds⟩

theorem Finds.follow {j : Nat} {comps : List Component} (h : d.Finds j place comps q)
    (hj : j ≤ k) : d.follow .canonical k place comps = .ok q := by
  induction h generalizing k with
  | done => exact follow_nil
  | here hdir _ ih => rw [follow_here, if_pos hdir, ih hj]
  | up hdir _ ih => rw [follow_up, if_pos hdir, ih hj]
  | name hbytes hentry htarget _ ih =>
    rw [follow_name_of_entry (admits_of_lt hbytes) hentry htarget, ih hj]
  | link hbytes hlink _ ih =>
    obtain ⟨k, rfl⟩ : ∃ i, k = i + 1 := Nat.exists_eq_succ_of_ne_zero (by omega)
    rw [follow_name_of_link_canonical (admits_of_lt hbytes) hlink]
    exact ih (Nat.le_of_succ_le_succ hj)

/-- A canonical lookup succeeds where its route leads within its budget of
    links. -/
theorem follow_canonical_eq_ok_iff {comps : List Component} (hroot : .root ∉ comps) :
    d.follow .canonical k place comps = .ok q ↔ ∃ j ≤ k, d.Finds j place comps q :=
  ⟨finds_of_follow hroot, fun ⟨_, hj, h⟩ => h.follow hj⟩

namespace Finds

variable {i j : Nat} {r : Location} {xs ys : List Component}

theorem append (hx : d.Finds i place xs r) (hy : d.Finds j r ys q) :
    d.Finds (i + j) place (xs ++ ys) q := by
  induction hx with
  | done => rwa [Nat.zero_add]
  | here hdir _ ih => exact .here hdir (ih hy)
  | up hdir _ ih => exact .up hdir (ih hy)
  | name hbytes hentry htarget _ ih => exact .name hbytes hentry htarget (ih hy)
  | link hbytes hlink _ ih =>
    rw [Nat.succ_add]
    have hrest := ih hy
    rw [List.append_assoc] at hrest
    exact .link hbytes hlink hrest

theorem split {comps : List Component} (h : d.Finds k place comps q) (hcomps : xs ++ ys = comps) :
    ∃ i j r, i + j = k ∧ d.Finds i place xs r ∧ d.Finds j r ys q := by
  -- On the derivation: where it follows a link, the target joins the first part.
  induction h generalizing xs with
  | done =>
    obtain ⟨rfl, rfl⟩ := List.append_eq_nil_iff.1 hcomps
    exact ⟨0, 0, _, rfl, .done, .done⟩
  | here hdir hrest ih =>
    rcases List.append_eq_cons_iff.1 hcomps with ⟨rfl, rfl⟩ | ⟨xs, rfl, rfl⟩
    · exact ⟨0, _, _, Nat.zero_add _, .done, .here hdir hrest⟩
    · obtain ⟨i, j, r, hk, hx, hy⟩ := ih rfl
      exact ⟨i, j, r, hk, .here hdir hx, hy⟩
  | up hdir hrest ih =>
    rcases List.append_eq_cons_iff.1 hcomps with ⟨rfl, rfl⟩ | ⟨xs, rfl, rfl⟩
    · exact ⟨0, _, _, Nat.zero_add _, .done, .up hdir hrest⟩
    · obtain ⟨i, j, r, hk, hx, hy⟩ := ih rfl
      exact ⟨i, j, r, hk, .up hdir hx, hy⟩
  | name hbytes hentry htarget hrest ih =>
    rcases List.append_eq_cons_iff.1 hcomps with ⟨rfl, rfl⟩ | ⟨xs, rfl, rfl⟩
    · exact ⟨0, _, _, Nat.zero_add _, .done, .name hbytes hentry htarget hrest⟩
    · obtain ⟨i, j, r, hk, hx, hy⟩ := ih rfl
      exact ⟨i, j, r, hk, .name hbytes hentry htarget hx, hy⟩
  | link hbytes hlink hrest ih =>
    rcases List.append_eq_cons_iff.1 hcomps with ⟨rfl, rfl⟩ | ⟨xs, rfl, rfl⟩
    · exact ⟨0, _, _, Nat.zero_add _, .done, .link hbytes hlink hrest⟩
    · obtain ⟨i, j, r, hk, hx, hy⟩ := ih (List.append_assoc _ xs ys)
      exact ⟨i + 1, j, r, by omega, .link hbytes hlink hx, hy⟩

/-- What is found is there and is no link, if the lookup started there or had
    anything to go through. -/
theorem isPlain {comps : List Component} (h : d.Finds k place comps q)
    (hstart : comps ≠ [] ∨ d.IsPlain place) : d.IsPlain q := by
  induction h with
  | done => exact hstart.resolve_left fun h => h rfl
  | here hdir _ ih => exact ih (.inr (isPlain_of_isDirectory hdir))
  | up hdir _ ih => exact ih (.inr (isPlain_of_isDirectory (isDirectory_parent hdir)))
  | name _ hentry htarget _ ih => exact ih (.inr ⟨_, hentry, htarget⟩)
  | @link _ place _ _ _ target _ hlink _ ih =>
    refine ih (.inr (isPlain_of_isDirectory ?_))
    rw [Path.anchor]
    split
    · exact isDirectory_nil
    · exact (of_entryAt?_concat hlink).1

/-- No place of too many bytes is found from one of fewer. -/
theorem bytes_lt {comps : List Component} (h : d.Finds k place comps q)
    (hplace : place.bytes < maxPathBytes) : q.bytes < maxPathBytes := by
  induction h with
  | done => exact hplace
  | here _ _ ih => exact ih hplace
  | up _ _ ih => exact ih (Location.bytes_lt_of_prefix (List.dropLast_prefix _) hplace)
  | name hbytes _ _ _ ih => exact ih hbytes
  | @link _ place _ _ _ target _ _ _ ih =>
    refine ih ?_
    rw [Path.anchor]
    split
    · decide
    · exact hplace

end Finds

/-- A route cut in two is found in two parts, and the links add up. -/
theorem finds_append_iff {xs ys : List Component} :
    d.Finds k place (xs ++ ys) q ↔
      ∃ i j r, i + j = k ∧ d.Finds i place xs r ∧ d.Finds j r ys q :=
  ⟨fun h => h.split rfl, fun ⟨_, _, _, hk, hx, hy⟩ => hk ▸ hx.append hy⟩

end Disk

end Docroot
