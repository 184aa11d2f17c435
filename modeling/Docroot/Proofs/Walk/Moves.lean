import Docroot.Proofs.Disk.LinkFree

/-!
# The walk, move by move

One equation for each move of `Disk.walk`, and the walks that end as a relation,
`Disk.Leads`, which counts the links followed by hand:

* a walk ends where its moves lead by way of no more links than it may follow
  (`walk_eq_ok_iff`), so what holds of walks is proved along `Leads`, without the
  hops;
* behind moves that lead somewhere, a walk goes on with the hops that are left
  (`Leads.walk_append`).

The invariant that carries everything else is that a walk which starts at a place
free of links ends at one (`LinkFree.walk`), since it goes only to names under
which no link is seen, to canonical places, to parents and to the top. Along the
names of such a place, it goes to these names and nowhere else (`walk_of_linkFree`).
-/

namespace Docroot.Disk

variable {d : Disk} {hops : Nat} {place q : Location} {n : Name} {rest steps : List Step}
  {target : Path}

@[simp] theorem walk_nil : d.walk hops place [] = .ok place := by cases hops <;> rfl

@[simp] theorem walk_up : d.walk hops place (.up :: rest) = d.walk hops place.parent rest := by
  cases hops <;> rfl

/-- A name under which no link is seen is gone to, whatever is there. -/
theorem walk_name (h : d.linkTarget? (place ++ [n]) = none) :
    d.walk hops place (.name n :: rest) = d.walk hops (place ++ [n]) rest := by
  cases hops <;> simp only [walk, advance, h]

/-- A link is gone through to its canonical place, or by hand if it leads
    nowhere and there are hops left. -/
theorem walk_link (h : d.linkTarget? (place ++ [n]) = some target) :
    d.walk hops place (.name n :: rest) =
      match d.canonicalizeAt (place ++ [n]) with
      | .ok resolved => d.walk hops resolved rest
      | .error .notFound =>
        match hops with
        | 0 => .error .unresolvableLink
        | hops + 1 => d.walk hops (target.anchor place) (target.steps ++ rest)
      | .error _ => .error .unresolvableLink := by
  cases hresolved : d.canonicalizeAt (place ++ [n]) with
  | ok resolved => cases hops <;> simp only [walk, advance, h, hresolved]
  | error fault => cases hops <;> cases fault <;> simp only [walk, advance, h, hresolved]

/-- The moves that a successful walk can make at a name. -/
theorem walk_name_eq_ok (h : d.walk hops place (.name n :: rest) = .ok q) :
    (d.linkTarget? (place ++ [n]) = none ∧ d.walk hops (place ++ [n]) rest = .ok q) ∨
    (∃ target resolved, d.linkTarget? (place ++ [n]) = some target ∧
      d.canonicalizeAt (place ++ [n]) = .ok resolved ∧ d.walk hops resolved rest = .ok q) ∨
    (∃ target k, d.linkTarget? (place ++ [n]) = some target ∧ hops = k + 1 ∧
      d.canonicalizeAt (place ++ [n]) = .error .notFound ∧
      d.walk k (target.anchor place) (target.steps ++ rest) = .ok q) := by
  cases hlink : d.linkTarget? (place ++ [n]) with
  | none =>
    rw [walk_name hlink] at h
    exact .inl ⟨rfl, h⟩
  | some target =>
    rw [walk_link hlink] at h
    right
    split at h
    · exact .inl ⟨target, _, rfl, ‹_›, h⟩
    · cases hops with
      | zero => cases h
      | succ k => exact .inr ⟨target, k, rfl, rfl, ‹_›, h⟩
    · cases h

/-! ## Walks that end -/

/-- Following so many links by hand, moves lead from a place to another. -/
inductive Leads (d : Disk) : Nat → Location → List Step → Location → Prop
  | done {place : Location} : d.Leads 0 place [] place
  | up {k : Nat} {place q : Location} {rest : List Step} :
      d.Leads k place.parent rest q → d.Leads k place (.up :: rest) q
  | name {k : Nat} {place q : Location} {n : Name} {rest : List Step} :
      d.linkTarget? (place ++ [n]) = none → d.Leads k (place ++ [n]) rest q →
      d.Leads k place (.name n :: rest) q
  | link {k : Nat} {place q resolved : Location} {n : Name} {rest : List Step} {target : Path} :
      d.linkTarget? (place ++ [n]) = some target → d.canonicalizeAt (place ++ [n]) = .ok resolved →
      d.Leads k resolved rest q → d.Leads k place (.name n :: rest) q
  | dangling {k : Nat} {place q : Location} {n : Name} {rest : List Step} {target : Path} :
      d.linkTarget? (place ++ [n]) = some target →
      d.canonicalizeAt (place ++ [n]) = .error .notFound →
      d.Leads k (target.anchor place) (target.steps ++ rest) q →
      d.Leads (k + 1) place (.name n :: rest) q

/-- A walk that ends has followed no more links than it may. -/
theorem exists_leads_of_walk (h : d.walk hops place steps = .ok q) :
    ∃ k ≤ hops, d.Leads k place steps q := by
  -- On the hops, since a link's moves may be more than are left; between two
  -- links followed by hand, on the moves.
  induction hops using Nat.strongRecOn generalizing place steps with
  | ind hops ih =>
    induction steps generalizing place with
    | nil =>
      rw [walk_nil] at h
      exact ⟨0, Nat.zero_le hops, Except.ok.inj h ▸ .done⟩
    | cons s rest ihrest =>
      cases s with
      | up =>
        rw [walk_up] at h
        obtain ⟨k, hk, hleads⟩ := ihrest h
        exact ⟨k, hk, .up hleads⟩
      | name n =>
        rcases walk_name_eq_ok h with ⟨hlink, h⟩ | ⟨target, resolved, hlink, hresolved, h⟩ |
          ⟨target, fewer, hlink, rfl, hmissing, h⟩
        · obtain ⟨k, hk, hleads⟩ := ihrest h
          exact ⟨k, hk, .name hlink hleads⟩
        · obtain ⟨k, hk, hleads⟩ := ihrest h
          exact ⟨k, hk, .link hlink hresolved hleads⟩
        · obtain ⟨k, hk, hleads⟩ := ih fewer (Nat.lt_succ_self fewer) h
          exact ⟨k + 1, Nat.succ_le_succ hk, .dangling hlink hmissing hleads⟩

/-- Behind moves that lead somewhere, a walk goes on from there with the hops that
    they have left. -/
theorem Leads.walk_append {k : Nat} (h : d.Leads k place steps q) (hk : k ≤ hops) :
    d.walk hops place (steps ++ rest) = d.walk (hops - k) q rest := by
  induction h generalizing hops with
  | done => rfl
  | up _ ih => rw [List.cons_append, walk_up, ih hk]
  | name hnone _ ih => rw [List.cons_append, walk_name hnone, ih hk]
  | link hsome hresolved _ ih =>
    rw [List.cons_append, walk_link hsome, hresolved]
    exact ih hk
  | dangling hsome hmissing _ ih =>
    obtain ⟨hops, rfl⟩ : ∃ m, hops = m + 1 := Nat.exists_eq_succ_of_ne_zero (by omega)
    rw [List.cons_append, walk_link hsome, hmissing, Nat.add_sub_add_right,
      ← ih (Nat.le_of_succ_le_succ hk), List.append_assoc]

/-- A walk ends where its moves lead by way of no more links than it may follow. -/
theorem walk_eq_ok_iff : d.walk hops place steps = .ok q ↔ ∃ k ≤ hops, d.Leads k place steps q := by
  refine ⟨exists_leads_of_walk, ?_⟩
  rintro ⟨k, hk, h⟩
  rw [← List.append_nil steps, h.walk_append hk, walk_nil]

/-- Moves that meet no link which leads nowhere leave all hops to the moves behind
    them. -/
theorem walk_append (h : d.walk 0 place steps = .ok q) :
    d.walk hops place (steps ++ rest) = d.walk hops q rest := by
  obtain ⟨k, hk, hleads⟩ := walk_eq_ok_iff.1 h
  obtain rfl := Nat.le_zero.1 hk
  exact hleads.walk_append (Nat.zero_le hops)

/-! ## Places without links -/

/-- Where the walk goes through a link, the system finds a place without links. -/
theorem finds_of_canonicalizeAt (hfree : d.LinkFree place)
    (hlink : d.linkTarget? (place ++ [n]) = some target)
    (h : d.canonicalizeAt (place ++ [n]) = .ok q) :
    ∃ j ≤ maxLinks, d.Finds j place [.step (.name n)] q := by
  rw [linkTarget?_concat_eq hfree] at hlink
  obtain ⟨hbytes, hentry⟩ := visibleTarget?_eq_some_iff.1 hlink
  exact (canonicalizeAt_concat_eq_ok_iff hentry hbytes).1 h

theorem LinkFree.anchor (hfree : d.LinkFree place) : d.LinkFree (target.anchor place) := by
  rw [Path.anchor]
  split
  · exact linkFree_nil
  · exact hfree

/-- Moves from a place free of links lead to one. -/
theorem LinkFree.leads {k : Nat} (hfree : d.LinkFree place) (h : d.Leads k place steps q) :
    d.LinkFree q := by
  induction h with
  | done => exact hfree
  | up _ ih => exact ih hfree.parent
  | name hnone _ ih => exact ih (hfree.concat_of_linkTarget? hnone)
  | link hsome hresolved _ ih =>
    obtain ⟨_, _, hfinds⟩ := finds_of_canonicalizeAt hfree hsome hresolved
    exact ih hfinds.linkFree
  | dangling _ _ _ ih => exact ih hfree.anchor

/-- A walk that starts at a place free of links ends at one. -/
theorem LinkFree.walk (hfree : d.LinkFree place) (h : d.walk hops place steps = .ok q) :
    d.LinkFree q := by
  obtain ⟨k, _, hleads⟩ := exists_leads_of_walk h
  exact hfree.leads hleads

/-- A walk from a place free of links, by whatever path, ends at one. -/
theorem LinkFree.walkPath {p : Path} (hfree : d.LinkFree place) (h : d.walkPath place p = .ok q) :
    d.LinkFree q := by
  rw [Disk.walkPath] at h
  split_ifs at h
  exact hfree.walk h

/-- Along names without links, a walk goes to these names and nowhere else. -/
theorem walk_of_linkFree {names : List Name} (hfree : d.LinkFree (place ++ names)) :
    d.walk hops place (names.map .name) = .ok (place ++ names) := by
  induction names generalizing place with
  | nil => rw [List.map_nil, walk_nil, List.append_nil]
  | cons n names ih =>
    rw [List.append_cons] at hfree ⊢
    rw [List.map_cons, walk_name (hfree.of_prefix (List.prefix_append _ _)).linkTarget?_eq_none,
      ih hfree]

end Docroot.Disk
