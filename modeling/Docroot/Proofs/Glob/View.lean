import Docroot.Glob.Expansion
import Docroot.Proofs.Disk.Outline
import Docroot.Proofs.Path.Order
import Mathlib.Data.List.Perm.Basic

/-!
# Expansions with the same view

What a pattern selects depends on what the paths below its base lead to, and not
on where the base is. Two bases, be they on one disk or on two, offer the same
*view* (`Glob.SameView`) when the same paths lead to something below both, and to
directories with the same entries in them. Then the parts of a pattern select the
same trails from both (`Pattern.select_perm`). The directories may be listed in
different orders, so the trails are the same up to a permutation, which is sorted
away in the end (`Pattern.expand_eq_of_sameView`).

One of the bases may be seen from further up: then every trail starts with the
components that lead to it.
-/

namespace Docroot

namespace Glob

/-- The trail seen from further up. -/
def Trail.behind (above : List Component) (trail : Trail) : Trail :=
  ⟨above ++ trail.components, trail.isDirectory⟩

@[simp] theorem Trail.components_behind {above : List Component} {trail : Trail} :
    (trail.behind above).components = above ++ trail.components := rfl

@[simp] theorem Trail.isDirectory_behind {above : List Component} {trail : Trail} :
    (trail.behind above).isDirectory = trail.isDirectory := rfl

/-- Paths of the allowed components lead to the same below a base on one disk, and
    below some components behind a base on the other. -/
structure SameView (d : Disk) (base : Location) (above : List Component) (e : Disk)
    (base' : Location) (allowed : Component → Prop) : Prop where
  name : ∀ n, allowed (.step (.name n))
  status : ∀ components, (∀ c ∈ components, allowed c) →
    (∃ p q, Trail.lookup d base .status (above ++ components) = .ok p ∧
      Trail.lookup e base' .status components = .ok q ∧ d.AlikeBelow e p q) ∨
    ∃ f g, Trail.lookup d base .status (above ++ components) = .error f ∧
      Trail.lookup e base' .status components = .error g
  linkStatus : ∀ components, (∀ c ∈ components, allowed c) →
    (Trail.lookup d base .linkStatus (above ++ components)).toBool =
      (Trail.lookup e base' .linkStatus components).toBool

/-- The part keeps to the allowed components. -/
def Part.KeepsTo (allowed : Component → Prop) : Part → Prop
  | .exact c => allowed c
  | part => part.startsWithDot = true → allowed .here ∧ allowed (.step .up)

/-- Every part keeps to the components if none is ruled out. -/
theorem Part.keepsTo_true (part : Part) : part.KeepsTo fun _ => True := by
  cases part with
  | exact c => trivial
  | anyDepth | same | wild => exact fun _ => ⟨trivial, trivial⟩

/-- Lists that are the same but for their order and a change of each element stay so
    when every element is replaced by such lists. -/
theorem perm_flatMap_map {α β γ δ : Type} {φ : α → β} {ψ : γ → δ} {xs : List β} {ys : List α}
    {f : β → List δ} {g : α → List γ} (h : xs.Perm (ys.map φ))
    (hfg : ∀ y ∈ ys, (f (φ y)).Perm ((g y).map ψ)) :
    (xs.flatMap f).Perm ((ys.flatMap g).map ψ) := by
  rw [List.map_flatMap]
  refine (h.flatMap fun _ _ => .refl _).trans ?_
  rw [List.flatMap_map]
  exact List.Perm.flatMap_left ys hfg

namespace Trail

/-- The trail keeps to the allowed components. -/
def KeepsTo (allowed : Component → Prop) (trail : Trail) : Prop :=
  ∀ c ∈ trail.components, allowed c

variable {d e : Disk} {base base' place q : Location} {above components : List Component}
  {allowed : Component → Prop} {trail entry : Trail} {n : Name} {c : Component} {depth : Nat}

theorem KeepsTo.concat (h : trail.KeepsTo allowed) (hc : allowed c) :
    ∀ x ∈ trail.components ++ [c], allowed x := by
  intro x hx
  rcases List.mem_append.1 hx with hx | hx
  · exact h x hx
  · exact List.mem_singleton.1 hx ▸ hc

@[simp] theorem components_entryTrail :
    (trail.entryTrail d base place n).components = trail.components ++ [.step (.name n)] := by
  rw [entryTrail]
  split <;> rfl

theorem components_of_mem_entries (h : (n, entry) ∈ trail.entries d base) :
    entry.components = trail.components ++ [.step (.name n)] := by
  rw [entries, listing?] at h
  split_ifs at h
  · cases hlookup : lookup d base .status trail.components with
    | error fault => simp [hlookup] at h
    | ok place =>
      rw [hlookup] at h
      obtain ⟨m, _, hm⟩ := List.mem_map.1 h
      obtain ⟨rfl, rfl⟩ := Prod.mk.inj hm
      exact components_entryTrail
  · cases h

theorem KeepsTo.of_mem_entries (h : trail.KeepsTo allowed) (hn : allowed (.step (.name n)))
    (hentry : (n, entry) ∈ trail.entries d base) : entry.KeepsTo allowed := by
  rw [KeepsTo, components_of_mem_entries hentry]
  exact h.concat hn

theorem KeepsTo.of_mem_below (h : trail.KeepsTo allowed) (hnames : ∀ n, allowed (.step (.name n)))
    (hentry : (n, entry) ∈ trail.below d base depth) : entry.KeepsTo allowed := by
  induction depth generalizing trail with
  | zero => cases hentry
  | succ depth ih =>
    obtain ⟨⟨m, child⟩, hchild, hmem⟩ := List.mem_flatMap.1 hentry
    have hkeeps := h.of_mem_entries (hnames m) hchild
    rcases List.mem_cons.1 hmem with heq | hmem
    · obtain ⟨rfl, rfl⟩ := Prod.mk.inj heq
      exact hkeeps
    · exact ih hkeeps hmem

/-! ## One trail, seen from both bases -/

theorem leadsToDirectory_eq (h : SameView d base above e base' allowed)
    (hc : ∀ c ∈ components, allowed c) :
    leadsToDirectory d base (above ++ components) = leadsToDirectory e base' components := by
  rcases h.status components hc with ⟨p, q, hd, he, halike⟩ | ⟨f, g, hd, he⟩
  · simp only [leadsToDirectory, hd, he, halike.isDirectory_eq]
  · simp only [leadsToDirectory, hd, he]

theorem isThere_eq (h : SameView d base above e base' allowed)
    (hc : ∀ c ∈ components, allowed c) :
    isThere d base (above ++ components) = isThere e base' components := by
  rw [isThere, isThere, h.linkStatus components hc]
  rcases h.status components hc with ⟨p, q, hd, he, _⟩ | ⟨f, g, hd, he⟩ <;> rw [hd, he] <;> rfl

theorem ofComponents_eq (h : SameView d base above e base' allowed)
    (hc : ∀ c ∈ components, allowed c) :
    ofComponents d base (above ++ components) = (ofComponents e base' components).behind above := by
  rw [ofComponents, leadsToDirectory_eq h hc]
  rfl

theorem extend_eq (h : SameView d base above e base' allowed) (htrail : trail.KeepsTo allowed)
    (hc : allowed c) :
    (trail.behind above).extend d base c = (trail.extend e base' c).behind above := by
  rw [extend, extend, ← ofComponents_eq h (htrail.concat hc), behind, List.append_assoc]

theorem entryTrail_eq (h : SameView d base above e base' allowed) (htrail : trail.KeepsTo allowed)
    (halike : d.AlikeBelow e place q) :
    (trail.behind above).entryTrail d base place n =
      (trail.entryTrail e base' q n).behind above := by
  have hlink := ofComponents_eq h (htrail.concat (h.name n))
  rw [entryTrail, entryTrail, behind, List.append_assoc]
  rcases Entry.eq_or_file_of_outline_eq? (halike [n]) with heq | ⟨x, y, hd, he⟩
  · rw [heq]
    rcases e.entryAt? (q ++ [n]) with _ | _ | _ | _ | _
    · rfl
    · rfl
    · rfl
    · exact hlink
    · rfl
  · rw [hd, he]
    rfl

/-- A directory is listed from both bases or from neither, and the listings have
    the same entries. -/
theorem listing?_eq_or (h : SameView d base above e base' allowed)
    (htrail : trail.KeepsTo allowed) :
    (trail.behind above).listing? d base = none ∧ trail.listing? e base' = none ∨
      ∃ xs ys, (trail.behind above).listing? d base = some xs ∧
        trail.listing? e base' = some ys ∧ xs.Perm (ys.map (Prod.map id (behind above))) := by
  rw [listing?, listing?, isDirectory_behind, components_behind]
  split_ifs
  · rcases h.status _ htrail with ⟨p, q, hd, he, halike⟩ | ⟨f, g, hd, he⟩
    · refine .inr ⟨_, _, by rw [hd], by rw [he], ?_⟩
      simp only [entryTrail_eq h htrail halike, List.map_map]
      exact halike.names_perm.map _
    · exact .inl ⟨by rw [hd], by rw [he]⟩
  · exact .inl ⟨rfl, rfl⟩

theorem isSome_listing?_eq (h : SameView d base above e base' allowed)
    (htrail : trail.KeepsTo allowed) :
    ((trail.behind above).listing? d base).isSome = (trail.listing? e base').isSome := by
  rcases listing?_eq_or h htrail with ⟨hd, he⟩ | ⟨xs, ys, hd, he, _⟩
  · rw [hd, he]
  · rw [hd, he]
    rfl

theorem entries_perm (h : SameView d base above e base' allowed) (htrail : trail.KeepsTo allowed) :
    ((trail.behind above).entries d base).Perm
      ((trail.entries e base').map (Prod.map id (behind above))) := by
  rw [entries, entries]
  rcases listing?_eq_or h htrail with ⟨hd, he⟩ | ⟨xs, ys, hd, he, hperm⟩
  · rw [hd, he]
    rfl
  · rw [hd, he]
    exact hperm

theorem below_perm (h : SameView d base above e base' allowed) (htrail : trail.KeepsTo allowed) :
    ((trail.behind above).below d base depth).Perm
      ((trail.below e base' depth).map (Prod.map id (behind above))) := by
  induction depth generalizing trail with
  | zero => exact .refl _
  | succ depth ih =>
    refine perm_flatMap_map (entries_perm h htrail) fun ⟨n, entry⟩ hentry => ?_
    exact (ih (htrail.of_mem_entries (h.name n) hentry)).cons _

end Trail

namespace Pattern

variable {d e : Disk} {base base' : Location} {above : List Component}
  {allowed : Component → Prop} {trail : Trail} {part : Part}

theorem dotTrails_eq (h : SameView d base above e base' allowed) (htrail : trail.KeepsTo allowed)
    (hpart : part.startsWithDot = true → allowed .here ∧ allowed (.step .up)) :
    dotTrails d base part (trail.behind above) =
      (dotTrails e base' part trail).map (Trail.behind above) := by
  rw [dotTrails, dotTrails, Trail.isSome_listing?_eq h htrail]
  split_ifs with hdots
  · obtain ⟨hhere, hup⟩ := hpart (Bool.and_eq_true_iff.1 hdots).1
    rw [List.map_map]
    refine List.map_congr_left fun ⟨piece, c⟩ hc => ?_
    rcases List.mem_pair.1 (List.mem_of_mem_filter hc) with heq | heq <;> cases heq
    · exact Trail.extend_eq h htrail hhere
    · exact Trail.extend_eq h htrail hup
  · rfl

/-- Trails that are selected keep to the allowed components, where the part that
    selects them does. -/
theorem keepsTo_of_mem_dotTrails (htrail : trail.KeepsTo allowed)
    (hpart : part.startsWithDot = true → allowed .here ∧ allowed (.step .up)) {t : Trail}
    (ht : t ∈ dotTrails e base' part trail) : t.KeepsTo allowed := by
  rw [dotTrails] at ht
  split_ifs at ht with hdots
  · obtain ⟨hhere, hup⟩ := hpart (Bool.and_eq_true_iff.1 hdots).1
    obtain ⟨⟨piece, c⟩, hc, rfl⟩ := List.mem_map.1 ht
    rcases List.mem_pair.1 (List.mem_of_mem_filter hc) with heq | heq <;> cases heq
    · exact htrail.concat hhere
    · exact htrail.concat hup
  · cases ht

theorem keepsTo_of_mem_named {xs : List (Name × Trail)}
    (hxs : ∀ n t, (n, t) ∈ xs → t.KeepsTo allowed) {t : Trail}
    (ht : t ∈ (xs.filter fun (n, _) => part.matchesName n).map (·.2)) : t.KeepsTo allowed := by
  obtain ⟨⟨n, t⟩, hmem, rfl⟩ := List.mem_map.1 ht
  exact hxs n t (List.mem_of_mem_filter hmem)

/-- Of entries listed in another order, those that a part stands for come in
    another order. -/
theorem named_perm {xs ys : List (Name × Trail)}
    (h : xs.Perm (ys.map (Prod.map id (Trail.behind above)))) :
    ((xs.filter fun (n, _) => part.matchesName n).map (·.2)).Perm
      (((ys.filter fun (n, _) => part.matchesName n).map (·.2)).map (Trail.behind above)) := by
  refine ((h.filter _).map _).trans (.of_eq ?_)
  rw [List.filter_map, List.map_map, List.map_map]
  rfl

/-- The parts of a pattern select the same trails from both bases, in whatever
    order. -/
theorem select_perm (h : SameView d base above e base' allowed) :
    ∀ (parts : List Part) (trail : Trail), (∀ part ∈ parts, part.KeepsTo allowed) →
      trail.KeepsTo allowed →
      (select d base parts (trail.behind above)).Perm
        ((select e base' parts trail).map (Trail.behind above))
  -- Part by part, as they are selected. Only where a directory is listed can the
  -- order differ; what each entry then selects is the same by recursion.
  | [], _, _, _ => .refl _
  | .same :: parts, trail, hparts, htrail => by
    have hrest := fun part hpart => hparts part (List.mem_cons_of_mem _ hpart)
    rw [select, select, Trail.components_behind, Trail.leadsToDirectory_eq h htrail]
    split_ifs
    · exact select_perm h parts trail hrest htrail
    · exact .refl _
  | .exact c :: parts, trail, hparts, htrail => by
    have hrest := fun part hpart => hparts part (List.mem_cons_of_mem _ hpart)
    have hc : allowed c := hparts _ List.mem_cons_self
    match c with
    | .step (.name n) =>
      rw [select, select, Trail.components_behind, List.append_assoc,
        Trail.isThere_eq h (htrail.concat hc), Trail.ofComponents_eq h (htrail.concat hc)]
      split_ifs
      · exact select_perm h parts _ hrest (htrail.concat hc)
      · exact .refl _
    | .root | .here | .step .up =>
      rw [select, select, Trail.isDirectory_behind, Trail.extend_eq h htrail hc] <;> try simp
      split_ifs
      · exact select_perm h parts _ hrest (htrail.concat hc)
      · exact .refl _
  | .wild tokens :: parts, trail, hparts, htrail => by
    have hrest := fun part hpart => hparts part (List.mem_cons_of_mem _ hpart)
    have hdots := hparts _ List.mem_cons_self
    have hnamed := (@named_perm above (.wild tokens) _ _ (Trail.entries_perm h htrail)).append_right
      ((dotTrails e base' (.wild tokens) trail).map (Trail.behind above))
    rw [← List.map_append] at hnamed
    rw [select, select, dotTrails_eq h htrail hdots]
    refine perm_flatMap_map hnamed fun t ht => select_perm h parts t hrest ?_
    rcases List.mem_append.1 ht with ht | ht
    · exact keepsTo_of_mem_named (fun n _ => htrail.of_mem_entries (h.name n)) ht
    · exact keepsTo_of_mem_dotTrails htrail hdots ht
  | [.anyDepth], trail, _, htrail => by
    rw [select, select]
    refine (((Trail.below_perm h htrail).map _).filter _).trans (.of_eq ?_)
    rw [List.map_map, List.filter_map, List.filter_map, List.map_map]
    rfl
  | .anyDepth :: part :: parts, trail, hparts, htrail => by
    have hrest := fun part hpart => hparts part (List.mem_cons_of_mem _ hpart)
    by_cases hpart : part = .anyDepth
    · subst hpart
      rw [select, select]
      exact select_perm h (.anyDepth :: parts) trail hrest htrail
    · rw [select.eq_8 d base _ part parts hpart, select.eq_8 e base' trail part parts hpart]
      refine perm_flatMap_map (named_perm (Trail.below_perm h htrail)) fun t ht => ?_
      refine select_perm h parts t (fun p hp => hrest p (List.mem_cons_of_mem _ hp)) ?_
      exact keepsTo_of_mem_named (fun n _ => htrail.of_mem_below h.name) ht

/-- A pattern stands for the same paths below bases with the same view. -/
theorem expand_eq_of_sameView (h : SameView d base [] e base' allowed) {pattern : Pattern}
    (hparts : ∀ part ∈ pattern.parts, part.KeepsTo allowed) :
    pattern.expand d base = pattern.expand e base' := by
  have hbehind : Trail.behind [] = id := rfl
  have hstart : ∀ c ∈ ([] : List Component), allowed c := by simp
  have hselect := select_perm h pattern.parts (Trail.ofComponents e base' []) hparts hstart
  rw [← Trail.ofComponents_eq h hstart, hbehind, List.map_id] at hselect
  exact Step.mergeSort_eq_of_perm ((hselect.filter _).map _)

end Pattern

end Glob

end Docroot
