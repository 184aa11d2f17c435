import Docroot.Proofs.Path.Written
import Docroot.Proofs.Walk.Moves

/-!
# The walk agrees with the system

The system goes through a path as a whole, with one budget of links; the walk
looks up one link after the other and makes every `..` itself. Where the system
finds a place all the same, the walk ends there (`walk_of_finds`): what the system
finds behind a link is found within the links it followed in all, so the lookup
of that one link succeeds, and no link is left to be followed by hand.
-/

namespace Docroot.Disk

variable {d : Disk} {hops i : Nat} {base place q : Location} {names : List Name}

/-- Along names without links, only the place they name is found. -/
theorem Finds.eq_of_linkFree {r : Location}
    (h : d.Finds i place (names.map fun n => .step (.name n)) r)
    (hfree : d.LinkFree (place ++ names)) : r = place ++ names := by
  induction names generalizing place with
  | nil =>
    cases h
    exact (List.append_nil _).symm
  | cons n names ih =>
    rw [List.append_cons] at hfree ⊢
    cases h with
    | name _ _ _ hrest => exact ih hrest hfree
    | link hbytes hlink _ =>
      exact absurd hlink (hfree.not_link (List.prefix_append _ names) hbytes)

/-- The names that lead to a plain entry are found without a link. -/
theorem IsPlain.finds (h : d.IsPlain (place ++ names))
    (hbytes : Location.bytes (place ++ names) < maxPathBytes) :
    d.Finds 0 place (names.map fun n => .step (.name n)) (place ++ names) := by
  induction names generalizing place with
  | nil =>
    rw [List.append_nil]
    exact .done
  | cons n names ih =>
    rw [List.append_cons] at h hbytes ⊢
    obtain ⟨entry, hentry, htarget⟩ := h.of_prefix (List.prefix_append (place ++ [n]) names)
    have hfirst := Location.bytes_lt_of_prefix (List.prefix_append (place ++ [n]) names) hbytes
    exact .name hfirst hentry htarget (ih h hbytes)

/-- Where the system finds a place, the walk ends. -/
theorem walk_of_finds {comps : List Component} (hfree : d.LinkFree place) (hi : i ≤ maxLinks)
    (h : d.Finds i place comps q) :
    d.walk hops place (comps.filterMap Component.step?) = .ok q := by
  induction comps generalizing i place with
  | nil =>
    cases h
    exact walk_nil
  | cons c rest ih =>
    cases h with
    | here _ hrest => exact ih hfree hi hrest
    | up _ hrest =>
      change d.walk hops place (.up :: rest.filterMap Component.step?) = .ok q
      rw [walk_up]
      exact ih hfree.parent hi hrest
    | @name _ _ _ n _ entry _ hentry htarget hrest =>
      have hplain : d.IsPlain (place ++ [n]) := ⟨entry, hentry, htarget⟩
      change d.walk hops place (.name n :: rest.filterMap Component.step?) = .ok q
      rw [walk_name hplain.linkFree.linkTarget?_eq_none]
      exact ih hplain.linkFree hi hrest
    | @link k _ _ n _ target hbytes hlink hrest =>
      -- The links behind this one divide into those of its target and those of
      -- what is left, so neither part exceeds the budget.
      obtain ⟨a, b, r, hk, htarget, hrest⟩ := finds_append_iff.1 hrest
      have hone : d.Finds (a + 1) place [.step (.name n)] r :=
        .link hbytes hlink (by rwa [List.append_nil])
      have hsome : d.linkTarget? (place ++ [n]) = some target := by
        rw [linkTarget?_concat_eq hfree, visibleTarget?_eq_some_iff]
        exact ⟨hbytes, hlink⟩
      have hresolved : d.canonicalizeAt (place ++ [n]) = .ok r :=
        (canonicalizeAt_concat_eq_ok_iff hlink hbytes).2 ⟨a + 1, by omega, hone⟩
      change d.walk hops place (.name n :: rest.filterMap Component.step?) = .ok q
      rw [walk_link hsome, hresolved]
      exact ih hone.linkFree (by omega) hrest

/-- Where the system finds the canonical place of a joined path, the walk ends. -/
theorem walkFrom_of_canonicalize {p : Path} (hfree : d.LinkFree base) (hp : p.isAbsolute = false)
    (h : d.canonicalize (base.path.join p) = .ok q) : d.walkFrom base p.steps = .ok q := by
  obtain ⟨tail, hroute, htail, hroot⟩ := @Path.exists_route_join base p hp
  rw [canonicalize, lookup] at h
  split_ifs at h
  rw [hroute, List.cons_append, follow_root, follow_canonical_eq_ok_iff (by simp [hroot])] at h
  obtain ⟨k, hk, hfinds⟩ := h
  obtain ⟨i, j, r, rfl, hbase, hrest⟩ := finds_append_iff.1 hfinds
  obtain rfl : r = base := hbase.eq_of_linkFree hfree
  rw [walkFrom, ← htail]
  exact walk_of_finds hfree (by omega) hrest

end Docroot.Disk
