import Docroot.Proofs.Walk.Expansion

/-!
# The places that expansion passes

`Disk.Passes` lists the places that the walk which expands every link
(`Disk.Expands`) forms on its way. Where the system finds a place, expansion
passes through it (`Finds.passes`), with as many links less to go
(`Finds.expands_rest`), and no link on the way is one that the system cannot go
behind (`Finds.canonicalizeAt_ne`). Names without links are passed one by one
(`LinkFree.prefix_of_passes`).
-/

namespace Docroot

/-- The system can be asked for the place: the names on the way to it can be
    stored, and its path is not too long. -/
structure Location.Fits (place : Location) : Prop where
  bytes_lt : place.bytes < maxPathBytes
  isStorable : ∀ n ∈ place, n.isStorable = true

instance (place : Location) : Decidable place.Fits :=
  decidable_of_iff (place.bytes < maxPathBytes ∧ ∀ n ∈ place, n.isStorable = true)
    ⟨fun h => ⟨h.1, h.2⟩, fun h => ⟨h.1, h.2⟩⟩

theorem Location.Fits.of_prefix {p q : Location} (hq : q.Fits) (h : p <+: q) : p.Fits :=
  ⟨Location.bytes_lt_of_prefix h hq.bytes_lt, fun n hn => hq.isStorable n (h.subset hn)⟩

namespace Disk

/-- On the way that expansion takes from a place, a name leads to another, be it
    the name of a link or not. -/
inductive Passes (d : Disk) : Location → List Step → Location → Prop
  | next {place : Location} {n : Name} {rest : List Step} :
      d.Passes place (.name n :: rest) (place ++ [n])
  | up {place p : Location} {rest : List Step} :
      d.Passes place.parent rest p → d.Passes place (.up :: rest) p
  | name {place p : Location} {n : Name} {rest : List Step} :
      d.visibleTarget? (place ++ [n]) = none → d.Passes (place ++ [n]) rest p →
      d.Passes place (.name n :: rest) p
  | link {place p : Location} {n : Name} {rest : List Step} {target : Path} :
      d.visibleTarget? (place ++ [n]) = some target →
      d.Passes (target.anchor place) (target.steps ++ rest) p →
      d.Passes place (.name n :: rest) p

/-- The system answers "Not a directory" for a link on the way that expansion
    takes from a place. -/
def Blocks (d : Disk) (place : Location) (steps : List Step) : Prop :=
  ∃ link, d.Passes place steps link ∧ (d.visibleTarget? link).isSome ∧
    d.canonicalizeAt link = .error .notDirectory

variable {d : Disk} {i k : Nat} {place p q r : Location} {n : Name} {names : List Name}
  {rest steps : List Step} {comps behind : List Component} {target : Path}

/-- A way is blocked if one that it goes through is. -/
theorem Blocks.mono {place' : Location} {steps' : List Step} (h : d.Blocks place' steps')
    (hpasses : ∀ p, d.Passes place' steps' p → d.Passes place steps p) : d.Blocks place steps := by
  obtain ⟨link, hlink, hblocked⟩ := h
  exact ⟨link, hpasses link hlink, hblocked⟩

/-! ## One move of expansion -/

theorem Passes.of_name (hnone : d.visibleTarget? (place ++ [n]) = none)
    (h : d.Passes place (.name n :: rest) p) :
    p = place ++ [n] ∨ d.Passes (place ++ [n]) rest p := by
  cases h with
  | next => exact .inl rfl
  | name _ h => exact .inr h
  | link hsome _ =>
    rw [hnone] at hsome
    cases hsome

theorem Passes.of_link (hsome : d.visibleTarget? (place ++ [n]) = some target)
    (h : d.Passes place (.name n :: rest) p) :
    p = place ++ [n] ∨ d.Passes (target.anchor place) (target.steps ++ rest) p := by
  cases h with
  | next => exact .inl rfl
  | name hnone _ =>
    rw [hsome] at hnone
    cases hnone
  | link htarget h =>
    obtain rfl := Option.some.inj (hsome.symm.trans htarget)
    exact .inr h

theorem Passes.of_up (h : d.Passes place (.up :: rest) p) : d.Passes place.parent rest p := by
  cases h with
  | up h => exact h

/-- The moves of a link's target before those of a route are the moves of the
    target's body before the route. -/
theorem filterMap_step?_body_append :
    (target.body ++ behind).filterMap Component.step? ++ rest =
      target.steps ++ (behind.filterMap Component.step? ++ rest) := by
  rw [target.filterMap_step?_body_append, List.append_assoc]

/-! ## The places on the way -/

/-- What fits on the way makes the end fit, unless the end was there before. -/
theorem Expands.fits (h : d.Expands k place steps q)
    (hfits : ∀ p, d.Passes place steps p → p.Fits) : q <+: place ∨ q.Fits := by
  induction h with
  | done => exact .inl List.prefix_rfl
  | up _ ih =>
    refine (ih fun p hp => hfits p (.up hp)).imp_left fun hq => ?_
    exact hq.trans (List.dropLast_prefix _)
  | name hnone _ ih =>
    rcases ih fun p hp => hfits p (.name hnone hp) with hq | hq
    · rcases List.prefix_concat_iff.1 hq with rfl | hq
      · exact .inr (hfits _ .next)
      · exact .inl hq
    · exact .inr hq
  | link hsome _ ih =>
    refine (ih fun p hp => hfits p (.link hsome hp)).imp_left fun hq => ?_
    rw [Path.anchor] at hq
    split at hq
    · rw [List.prefix_nil.1 hq]
      exact List.nil_prefix
    · exact hq

/-- Behind what the system finds, expansion has as many links less to go. -/
theorem Finds.expands_rest (h : d.Finds i place comps r)
    (hq : d.Expands k place (comps.filterMap Component.step? ++ rest) q) :
    ∃ j, i + j = k ∧ d.Expands j r rest q := by
  induction h generalizing k with
  | done => exact ⟨k, Nat.zero_add k, hq⟩
  | here _ _ ih => exact ih hq
  | up _ _ ih => exact ih hq.of_up
  | name _ hentry htarget _ ih =>
    exact ih (hq.of_name (visibleTarget?_eq_none_of_entry hentry htarget))
  | link hbytes hlink _ ih =>
    obtain ⟨m, rfl, hmoves⟩ := hq.of_link (visibleTarget?_eq_some_iff.2 ⟨hbytes, hlink⟩)
    obtain ⟨j, rfl, hj⟩ := ih (filterMap_step?_body_append ▸ hmoves)
    exact ⟨j, Nat.add_right_comm _ 1 j, hj⟩

/-- Expansion passes through what the system finds. -/
theorem Finds.passes (h : d.Finds i place comps r) (hp : d.Passes r rest p) :
    d.Passes place (comps.filterMap Component.step? ++ rest) p := by
  induction h with
  | done => exact hp
  | here _ _ ih => exact ih hp
  | up _ _ ih => exact .up (ih hp)
  | name _ hentry htarget _ ih =>
    exact .name (visibleTarget?_eq_none_of_entry hentry htarget) (ih hp)
  | link hbytes hlink _ ih =>
    exact .link (visibleTarget?_eq_some_iff.2 ⟨hbytes, hlink⟩) (filterMap_step?_body_append ▸ ih hp)

/-- A link that expansion passes on the way to what the system finds leads
    somewhere as well. -/
theorem Finds.canonicalizeAt_ne (h : d.Finds i place comps r) (hi : i ≤ maxLinks)
    (hp : d.Passes place (comps.filterMap Component.step? ++ rest) p)
    (hlink : (d.visibleTarget? p).isSome) :
    d.canonicalizeAt p ≠ .error .notDirectory ∨ d.Passes r rest p := by
  induction h with
  | done => exact .inr hp
  | here _ _ ih => exact ih hi hp
  | up _ _ ih => exact ih hi hp.of_up
  | name _ hentry htarget _ ih =>
    have hnone := visibleTarget?_eq_none_of_entry hentry htarget
    rcases hp.of_name hnone with rfl | hp
    · rw [hnone] at hlink
      cases hlink
    · exact ih hi hp
  | @link i place _ n behind target hbytes hentry hbehind ih =>
    rcases hp.of_link (visibleTarget?_eq_some_iff.2 ⟨hbytes, hentry⟩) with rfl | hp
    · -- The target is found within the links that were followed in all.
      obtain ⟨a, b, s, rfl, htarget, _⟩ := finds_append_iff.1 hbehind
      have hone : d.Finds (a + 1) place [.step (.name n)] s :=
        .link hbytes hentry (by rwa [List.append_nil])
      left
      rw [(canonicalizeAt_concat_eq_ok_iff hentry hbytes).2 ⟨a + 1, by omega, hone⟩]
      exact nofun
    · exact ih (by omega) (filterMap_step?_body_append ▸ hp)

/-- Along names without links, expansion makes just these moves. -/
theorem LinkFree.expands (h : d.LinkFree (place ++ names)) :
    d.Expands 0 place (names.map .name) (place ++ names) := by
  induction names generalizing place with
  | nil =>
    rw [List.append_nil]
    exact .done
  | cons n names ih =>
    rw [List.append_cons] at h ⊢
    have hnone := visibleTarget?_eq_none_iff.2 (h (place ++ [n]) (List.prefix_append _ _))
    exact .name hnone (ih h)

/-- Along names without links, expansion passes nothing else than these names. -/
theorem LinkFree.prefix_of_passes (h : d.LinkFree (place ++ names))
    (hp : d.Passes place (names.map .name) p) : p <+: place ++ names := by
  induction names generalizing place with
  | nil => cases hp
  | cons n names ih =>
    rw [List.append_cons] at h ⊢
    have hnone := visibleTarget?_eq_none_iff.2 (h (place ++ [n]) (List.prefix_append _ _))
    rcases hp.of_name hnone with rfl | hp
    · exact List.prefix_append _ _
    · exact ih h hp

/-- A link to names without links leads expansion along just these names. -/
theorem Expands.of_link_to_names (hsome : d.visibleTarget? (place ++ [n]) = some target)
    (hmoves : target.steps = names.map .name) (hfree : d.LinkFree (target.anchor place ++ names)) :
    d.Expands 1 place [.name n] (target.anchor place ++ names) := by
  refine .link hsome ?_
  rw [hmoves, List.append_nil]
  exact hfree.expands

theorem Passes.fits_of_link_to_names (h : d.Passes place [.name n] p)
    (hsome : d.visibleTarget? (place ++ [n]) = some target) (hn : (place ++ [n]).Fits)
    (hmoves : target.steps = names.map .name) (hfree : d.LinkFree (target.anchor place ++ names))
    (hfits : (target.anchor place ++ names : Location).Fits) : p.Fits := by
  rcases h.of_link hsome with rfl | h
  · exact hn
  · rw [hmoves, List.append_nil] at h
    exact hfits.of_prefix (hfree.prefix_of_passes h)

end Disk

end Docroot
