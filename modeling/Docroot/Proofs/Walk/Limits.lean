import Docroot.Proofs.Disk.OutOfReach
import Docroot.Proofs.Walk.Passing

/-!
# Expansion within the limits of the system

When the walk that expands every link (`Disk.Expands`) ends after no more links
than one lookup follows, and passes only places that the system can be asked for
(`Location.Fits`), a lookup on its way can fail for two reasons alone: something
is missing, or the path goes on behind something that is no directory
(`follow_of_expands`).

The walk of a request follows a link by hand in the first case only. So it ends
where expansion does exactly if the system answers "Not a directory" for no link
that expansion passes (`walk_eq_ok_iff_of_expands`).
-/

namespace Docroot.Disk

variable {d : Disk} {rule : Lookup} {hops i j k : Nat} {place p q r : Location} {n : Name}
  {rest steps : List Step} {comps behind : List Component} {target : Path}

/-! ## How a lookup can fail -/

/-- A lookup that has no more links to follow than it may, and forms no place
    that it does not admit, finds a place, or something is missing, or what it
    would have to go through is no directory. -/
theorem follow_of_expands (hcreates : rule.createsLast = false) (hfollows : rule.followsLast = true)
    (hroot : .root ∉ comps)
    (h : d.Expands j place (comps.filterMap Component.step? ++ rest) q) (hj : j ≤ k)
    (hfits : ∀ p, d.Passes place (comps.filterMap Component.step? ++ rest) p → p.Fits) :
    (∃ r, d.follow rule k place comps = .ok r) ∨
      d.follow rule k place comps = .error .notFound ∨
      d.follow rule k place comps = .error .notDirectory := by
  -- On the budget, since a link's target may be longer than what is left of the
  -- route; between two links, on the route.
  induction k using Nat.strongRecOn generalizing j place comps with
  | ind k ih =>
    induction comps generalizing place with
    | nil => exact .inl ⟨place, follow_nil⟩
    | cons c behind ihbehind =>
      have hbehind : .root ∉ behind := fun hmem => hroot (List.mem_cons_of_mem c hmem)
      rcases c with _ | _ | _ | n
      · exact absurd List.mem_cons_self hroot
      · rw [follow_here]
        split_ifs
        · exact ihbehind hbehind h hfits
        · exact .inr (.inr rfl)
      · rw [follow_up]
        split_ifs
        · exact ihbehind hbehind h.of_up fun p hp => hfits p (.up hp)
        · exact .inr (.inr rfl)
      · have hnext := hfits _ .next
        have hbytes : ¬ Name.maxBytes < n.bytes :=
          Nat.not_lt.2 (Name.isStorable_iff.1 (hnext.isStorable n (by simp))).1
        have hadmits : rule.admits (place ++ [n]) = true := admits_of_lt hnext.bytes_lt
        cases hentry : d.entryAt? (place ++ [n]) with
        | none =>
          rw [follow_name_of_missing hadmits hentry, if_neg hbytes]
          cases d.isDirectory place <;> simp [Lookup.creates, hcreates]
        | some entry =>
          cases htarget : entry.target? with
          | none =>
            have hnone := visibleTarget?_eq_none_of_entry hentry htarget
            rw [follow_name_of_entry hadmits hentry htarget]
            exact ihbehind hbehind (h.of_name hnone) fun p hp => hfits p (.name hnone hp)
          | some target =>
            have hlink : d.entryAt? (place ++ [n]) = some (.link target) :=
              targetAt?_eq_some_iff.1 (by rw [targetAt?, hentry, Option.bind_some, htarget])
            have hsome := visibleTarget?_eq_some_iff.2 ⟨hnext.bytes_lt, hlink⟩
            obtain ⟨j, rfl, hmoves⟩ := h.of_link hsome
            obtain ⟨k, rfl⟩ : ∃ m, k = m + 1 := Nat.exists_eq_succ_of_ne_zero (by omega)
            have hfollow : rule.follows behind = true := by simp [Lookup.follows, hfollows]
            rw [follow_name_of_link hadmits hlink, if_pos hfollow]
            refine ih k (Nat.lt_succ_self k) ?_ (filterMap_step?_body_append ▸ hmoves)
              (Nat.le_of_succ_le_succ hj) fun p hp => ?_
            · simp [target.root_notMem_body, hbehind]
            · exact hfits p (.link hsome (filterMap_step?_body_append ▸ hp))

/-- So the canonical lookup of a link fails only for these two reasons, if the
    links behind it are not too many. -/
theorem canonicalizeAt_of_expands (hsome : d.visibleTarget? (place ++ [n]) = some target)
    (h : d.Expands k place (.name n :: rest) q) (hlinks : k ≤ maxLinks)
    (hfits : ∀ p, d.Passes place (.name n :: rest) p → p.Fits) :
    (∃ r, d.canonicalizeAt (place ++ [n]) = .ok r) ∨
      d.canonicalizeAt (place ++ [n]) = .error .notFound ∨
      d.canonicalizeAt (place ++ [n]) = .error .notDirectory := by
  obtain ⟨hbytes, hentry⟩ := visibleTarget?_eq_some_iff.1 hsome
  rw [canonicalizeAt_concat hentry hbytes]
  exact follow_of_expands rfl rfl (by simp) h hlinks hfits

/-- A place that fits is not out of reach. -/
theorem not_outOfReach_of_fits (hfits : place.Fits) : ¬ d.OutOfReach place := by
  have hstorable : ∀ n ∈ place, n.bytes ≤ Name.maxBytes ∧ n.hasNul = false :=
    fun n hn => Name.isStorable_iff.1 (hfits.isStorable n hn)
  rintro (hbytes | hnul | ⟨p, n, hbelow, _, hn⟩)
  · exact absurd hfits.bytes_lt (Nat.not_lt.2 hbytes)
  · obtain ⟨n, hmem, hn⟩ := List.any_eq_true.1 hnul
    rw [(hstorable n hmem).2] at hn
    cases hn
  · exact absurd hn (Nat.not_lt.2 (hstorable n (hbelow.subset (by simp))).1)

/-- A lookup of a place without links fails only for these reasons. -/
theorem statusAt_of_missing (hfree : d.LinkFree place) (hfits : place.Fits)
    (hmissing : d.entryAt? place = none) :
    d.statusAt place = .error .notFound ∨ d.statusAt place = .error .notDirectory := by
  obtain ⟨entry, hentry⟩ | ⟨fault, hfault, rfl | rfl⟩ :=
    statusAt_of_not_outOfReach hfree (not_outOfReach_of_fits hfits)
  · rw [((statusAt_eq_ok_iff hfree).1 hentry).2] at hmissing
    cases hmissing
  · exact .inl hfault
  · exact .inr hfault

theorem Finds.pos_of_link (hsome : d.visibleTarget? (place ++ [n]) = some target)
    (h : d.Finds i place (.step (.name n) :: behind) r) : 0 < i := by
  cases h with
  | name _ hentry htarget _ =>
    rw [visibleTarget?_eq_none_of_entry hentry htarget] at hsome
    cases hsome
  | link => exact Nat.succ_pos _

/-! ## Where the walk of a request ends -/

/-- The walk ends where expansion does, if the system answers "Not a directory"
    for no link on the way. -/
theorem walk_of_expands (hfree : d.LinkFree place) (h : d.Expands k place steps q)
    (hhops : k ≤ hops) (hlinks : k ≤ maxLinks) (hfits : ∀ p, d.Passes place steps p → p.Fits)
    (hblocks : ¬ d.Blocks place steps) : d.walk hops place steps = .ok q := by
  -- On the links left: a link looked up takes as many as the system followed, one
  -- followed by hand takes itself; between two links, on the moves.
  induction k using Nat.strongRecOn generalizing hops place steps with
  | ind k ih =>
    induction steps generalizing place with
    | nil =>
      cases h
      exact walk_nil
    | cons s rest ihrest =>
      cases s with
      | up =>
        rw [walk_up]
        exact ihrest hfree.parent h.of_up (fun p hp => hfits p (.up hp))
          (mt (Blocks.mono · fun _ => .up) hblocks)
      | name n =>
        cases hseen : d.visibleTarget? (place ++ [n]) with
        | none =>
          have hnone : d.linkTarget? (place ++ [n]) = none := by
            rw [linkTarget?_concat_eq hfree, hseen]
          rw [walk_name hnone]
          exact ihrest (hfree.concat_of_linkTarget? hnone) (h.of_name hseen)
            (fun p hp => hfits p (.name hseen hp))
            (mt (Blocks.mono · fun _ => .name hseen) hblocks)
        | some target =>
          have hsome : d.linkTarget? (place ++ [n]) = some target := by
            rw [linkTarget?_concat_eq hfree, hseen]
          rw [walk_link hsome]
          rcases canonicalizeAt_of_expands hseen h hlinks hfits with
            ⟨r, hr⟩ | hmissing | hblocked
          · obtain ⟨i, _, hfinds⟩ := finds_of_canonicalizeAt hfree hsome hr
            have hpos : 0 < i := hfinds.pos_of_link hseen
            obtain ⟨j, rfl, hrest⟩ := hfinds.expands_rest h
            rw [hr]
            exact ih j (by omega) hfinds.linkFree hrest (by omega) (by omega)
              (fun p hp => hfits p (hfinds.passes hp))
              (mt (Blocks.mono · fun _ => hfinds.passes) hblocks)
          · obtain ⟨j, rfl, hmoves⟩ := h.of_link hseen
            obtain ⟨hops, rfl⟩ : ∃ m, hops = m + 1 := Nat.exists_eq_succ_of_ne_zero (by omega)
            rw [hmissing]
            exact ih j (Nat.lt_succ_self j) hfree.anchor hmoves (Nat.le_of_succ_le_succ hhops)
              (Nat.le_of_succ_le hlinks) (fun p hp => hfits p (.link hseen hp))
              (mt (Blocks.mono · fun _ => .link hseen) hblocks)
          · exact absurd ⟨_, .next, by rw [hseen]; rfl, hblocked⟩ hblocks

/-- Where moves lead, the system answers "Not a directory" for no link that
    expansion passes. -/
theorem Leads.not_blocks (hfree : d.LinkFree place) (h : d.Leads i place steps q) :
    ¬ d.Blocks place steps := by
  rintro ⟨p, hp, hlink, hblocked⟩
  -- A link is passed in the walk itself, where it was looked up, or on the way to
  -- a place that was found.
  induction h with
  | done => cases hp
  | up _ ih => exact ih hfree.parent hp.of_up
  | name hnone _ ih =>
    have hfree' := hfree.concat_of_linkTarget? hnone
    rw [linkTarget?_concat_eq hfree] at hnone
    rcases hp.of_name hnone with rfl | hp
    · rw [hnone] at hlink
      cases hlink
    · exact ih hfree' hp
  | link hsome hresolved _ ih =>
    obtain ⟨m, hm, hfinds⟩ := finds_of_canonicalizeAt hfree hsome hresolved
    rcases hfinds.canonicalizeAt_ne hm hp hlink with hne | hp
    · exact hne hblocked
    · exact ih hfinds.linkFree hp
  | dangling hsome hmissing _ ih =>
    rw [linkTarget?_concat_eq hfree] at hsome
    rcases hp.of_link hsome with rfl | hp
    · rw [hblocked] at hmissing
      cases hmissing
    · exact ih hfree.anchor hp

/-- Where the walk ends, the system answers "Not a directory" for no link that
    expansion passes. -/
theorem not_blocks_of_walk (hfree : d.LinkFree place) (h : d.walk hops place steps = .ok q) :
    ¬ d.Blocks place steps := by
  obtain ⟨_, _, hleads⟩ := exists_leads_of_walk h
  exact hleads.not_blocks hfree

/-- Within the limits of the system the walk ends where expansion does, unless
    the system answers "Not a directory" for a link on the way. -/
theorem walk_eq_ok_iff_of_expands (hfree : d.LinkFree place) (h : d.Expands k place steps q)
    (hlinks : k ≤ maxLinks) (hfits : ∀ p, d.Passes place steps p → p.Fits) :
    d.walkFrom place steps = .ok q ↔ ¬ d.Blocks place steps :=
  ⟨not_blocks_of_walk hfree, walk_of_expands hfree h hlinks hlinks hfits⟩

end Docroot.Disk
