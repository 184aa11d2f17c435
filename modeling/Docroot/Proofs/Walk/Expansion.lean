import Docroot.Proofs.Walk.Moves

/-!
# Expanding every link

The walk that treats all links alike: each is replaced by the moves of its
target, made from the top or from the directory of the link, whether the target
exists or not. Everything else is gone to as it is named, `..` goes to the
parent, and there is no bound on the links. `Disk.Expands` is this walk as a
relation that counts the links; it says that the walk ends, and where.

* It ends at one place only (`Expands.unique`).
* Where the system finds a place, expansion ends at that place, with as many
  links (`Finds.expands`), so it does not matter whether a link that leads
  somewhere is looked up or expanded.
* Hence `Disk.walk` ends where expansion does (`expands_of_walk`).
-/

namespace Docroot.Disk

/-- Replacing so many links by their targets, moves lead from a place to
    another. -/
inductive Expands (d : Disk) : Nat → Location → List Step → Location → Prop
  | done {place : Location} : d.Expands 0 place [] place
  | up {k : Nat} {place q : Location} {rest : List Step} :
      d.Expands k place.parent rest q → d.Expands k place (.up :: rest) q
  | name {k : Nat} {place q : Location} {n : Name} {rest : List Step} :
      d.visibleTarget? (place ++ [n]) = none → d.Expands k (place ++ [n]) rest q →
      d.Expands k place (.name n :: rest) q
  | link {k : Nat} {place q : Location} {n : Name} {rest : List Step} {target : Path} :
      d.visibleTarget? (place ++ [n]) = some target →
      d.Expands k (target.anchor place) (target.steps ++ rest) q →
      d.Expands (k + 1) place (.name n :: rest) q

variable {d : Disk} {hops i j k : Nat} {place p q : Location} {n : Name} {rest steps : List Step}
  {target : Path}

theorem Expands.of_name (hnone : d.visibleTarget? (place ++ [n]) = none)
    (h : d.Expands k place (.name n :: rest) q) : d.Expands k (place ++ [n]) rest q := by
  cases h with
  | name _ h => exact h
  | link hsome _ =>
    rw [hnone] at hsome
    cases hsome

theorem Expands.of_link (hsome : d.visibleTarget? (place ++ [n]) = some target)
    (h : d.Expands k place (.name n :: rest) q) :
    ∃ j, j + 1 = k ∧ d.Expands j (target.anchor place) (target.steps ++ rest) q := by
  cases h with
  | name hnone _ =>
    rw [hsome] at hnone
    cases hnone
  | link htarget h =>
    obtain rfl := Option.some.inj (hsome.symm.trans htarget)
    exact ⟨_, rfl, h⟩

theorem Expands.of_up (h : d.Expands k place (.up :: rest) q) :
    d.Expands k place.parent rest q := by
  cases h with
  | up h => exact h

/-- Expansion leads to one place, by way of one number of links. -/
theorem Expands.unique (hp : d.Expands i place steps p) (hq : d.Expands j place steps q) :
    i = j ∧ p = q := by
  induction hp generalizing j q with
  | done =>
    cases hq
    exact ⟨rfl, rfl⟩
  | up _ ih =>
    cases hq with
    | up hq => exact ih hq
  | name hnone _ ih =>
    cases hq with
    | name _ hq => exact ih hq
    | link hsome _ => exact absurd (hnone.symm.trans hsome) (by simp)
  | link hsome _ ih =>
    cases hq with
    | name hnone _ => exact absurd (hnone.symm.trans hsome) (by simp)
    | link htarget hq =>
      obtain rfl := Option.some.inj (hsome.symm.trans htarget)
      obtain ⟨rfl, rfl⟩ := ih hq
      exact ⟨rfl, rfl⟩

/-- Where the system finds a place, so does expansion, and goes on from there. -/
theorem Finds.expands {comps : List Component} (h : d.Finds i place comps p)
    (hrest : d.Expands j p rest q) :
    d.Expands (i + j) place (comps.filterMap Component.step? ++ rest) q := by
  induction h with
  | done => rwa [Nat.zero_add]
  | here _ _ ih => exact ih hrest
  | up _ _ ih => exact .up (ih hrest)
  | name _ hentry htarget _ ih =>
    exact .name (visibleTarget?_eq_none_of_entry hentry htarget) (ih hrest)
  | @link k _ _ _ rest' target hbytes hlink _ ih =>
    -- The target's moves come before those that were left, and its slash asks
    -- for none.
    have hmoves := ih hrest
    rw [target.filterMap_step?_body_append, List.append_assoc] at hmoves
    rw [Nat.add_right_comm]
    exact .link (visibleTarget?_eq_some_iff.2 ⟨hbytes, hlink⟩) hmoves

/-- Moves from a place free of links lead where expansion ends. -/
theorem Leads.expands (hfree : d.LinkFree place) (h : d.Leads i place steps q) :
    ∃ k, d.Expands k place steps q := by
  -- A link looked up contributes as many links as the system followed, one
  -- followed by hand itself.
  induction h with
  | done => exact ⟨0, .done⟩
  | up _ ih =>
    obtain ⟨k, hk⟩ := ih hfree.parent
    exact ⟨k, .up hk⟩
  | name hnone _ ih =>
    obtain ⟨k, hk⟩ := ih (hfree.concat_of_linkTarget? hnone)
    rw [linkTarget?_concat_eq hfree] at hnone
    exact ⟨k, .name hnone hk⟩
  | link hsome hresolved _ ih =>
    obtain ⟨m, _, hfinds⟩ := finds_of_canonicalizeAt hfree hsome hresolved
    obtain ⟨j, hj⟩ := ih hfinds.linkFree
    exact ⟨m + j, hfinds.expands hj⟩
  | dangling hsome _ _ ih =>
    obtain ⟨j, hj⟩ := ih hfree.anchor
    rw [linkTarget?_concat_eq hfree] at hsome
    exact ⟨j + 1, .link hsome hj⟩

/-- A walk from a place free of links ends where expansion does. -/
theorem expands_of_walk (hfree : d.LinkFree place) (h : d.walk hops place steps = .ok q) :
    ∃ k, d.Expands k place steps q := by
  obtain ⟨_, _, hleads⟩ := exists_leads_of_walk h
  exact hleads.expands hfree

end Docroot.Disk
