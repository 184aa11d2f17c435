import Docroot.Proofs.Glob.Escape
import Mathlib.Algebra.GroupWithZero.Nat

/-!
# What a pattern hits

A pattern is gone through part by part, and each part leads on from the trails that
were selected before. So every hit starts with the trail that it was selected from,
and the names added to it are those of entries on the disk
(`Pattern.isStartOf_of_mem_select`). In particular, a pattern behind the path of a root
hits nothing that is not seen from the root (`Pattern.isStartOf_of_mem_select_names`).

One path can be hit more than once: two parts `**` with another part between them can
share the directories of a path out in more than one way, and so can parts that
select `.` as well as names. A pattern with at most one run of `**` and no such part
hits each path at most once (`Pattern.nodup_steps_select`).
-/

namespace Docroot

/-! ## Names that are there -/

/-- A path that leads somewhere ends in a name that is stored. -/
theorem Disk.isStorable_of_follow {d : Disk} {rule : Lookup} {k : Nat} {place q : Location}
    {n : Name} {components : List Component} (hrule : rule.createsLast = false)
    (h : d.follow rule k place (components ++ [.step (.name n)]) = .ok q) :
    n.isStorable = true := by
  -- On the links that are left, and for each number of them on the components: a link
  -- puts its target in front of the rest and takes one of the links.
  induction k using Nat.strong_induction_on generalizing place components with
  | _ k links =>
    induction components generalizing place with
    | nil =>
      obtain ⟨entry, hentry⟩ := Option.isSome_iff_exists.1 (entryAt?_of_follow_name hrule h).2
      exact (of_entryAt?_concat hentry).2
    | cons c components ih =>
      rw [List.cons_append] at h
      match c with
      | .root =>
        rw [follow_root] at h
        exact ih h
      | .here =>
        rw [follow_here] at h
        split_ifs at h
        exact ih h
      | .step .up =>
        rw [follow_up] at h
        split_ifs at h
        exact ih h
      | .step (.name m) =>
        obtain ⟨hadmits, hsome⟩ := entryAt?_of_follow_name hrule h
        obtain ⟨entry, hentry⟩ := Option.isSome_iff_exists.1 hsome
        cases entry with
        | file | directory | special =>
          rw [follow_name_of_entry hadmits hentry rfl] at h
          exact ih h
        | link target =>
          have hfollows : rule.follows (components ++ [.step (.name n)]) = true := by
            simp [Lookup.follows]
          rw [follow_name_of_link hadmits hentry, if_pos hfollows] at h
          cases k with
          | zero => cases h
          | succ k =>
            rw [← List.append_assoc] at h
            exact links k (Nat.lt_succ_self k) h

namespace Glob

/-- A list made of one list for each element shows nothing twice if none of these
    does and what they show tells which element they are for. -/
theorem nodup_map_flatMap {α β γ δ : Type} {xs : List α} {f : α → List β} {g : β → γ} {k : α → δ}
    (hxs : (xs.map k).Nodup) (hf : ∀ x ∈ xs, ((f x).map g).Nodup)
    (hk : ∀ x ∈ xs, ∀ y ∈ xs, ∀ a ∈ f x, ∀ b ∈ f y, g a = g b → k x = k y) :
    ((xs.flatMap f).map g).Nodup := by
  rw [List.map_flatMap, List.nodup_flatMap]
  refine ⟨hf, (List.pairwise_map.1 hxs).imp_of_mem fun {x y} hx hy hne z hzx hzy => ?_⟩
  obtain ⟨a, ha, rfl⟩ := List.mem_map.1 hzx
  obtain ⟨b, hb, hba⟩ := List.mem_map.1 hzy
  exact hne (hk x hx y hy a ha b hb hba.symm)

namespace Trail

variable {d : Disk} {base : Location} {trail next other t u entry : Trail} {n : Name}
  {c : Component} {components : List Component} {depth : Nat}

theorem isStorable_of_isThere (h : isThere d base (components ++ [.step (.name n)]) = true) :
    n.isStorable = true := by
  have hlookup : ∀ rule : Lookup, rule.createsLast = false →
      (lookup d base rule (components ++ [.step (.name n)])).toBool = true →
      n.isStorable = true := by
    intro rule hrule hbool
    rw [lookup] at hbool
    split_ifs at hbool
    · cases hbool
    · cases hfollow : d.follow rule maxLinks []
        (base.map (fun n => .step (.name n)) ++ (components ++ [.step (.name n)])) with
      | error fault => simp [hfollow, Except.toBool] at hbool
      | ok place =>
        rw [← List.append_assoc] at hfollow
        exact Disk.isStorable_of_follow hrule hfollow
  rw [isThere, Bool.or_eq_true] at h
  exact h.elim (hlookup .status rfl) (hlookup .linkStatus rfl)

/-! ## Trails that lead on -/

/-- The next trail goes on where this one ends, by names that are stored. -/
def IsStartOf (trail next : Trail) : Prop :=
  ∃ added, next.components = trail.components ++ added ∧
    ∀ n, .step (.name n) ∈ added → n.isStorable = true

theorem IsStartOf.refl (trail : Trail) : trail.IsStartOf trail :=
  ⟨[], (List.append_nil _).symm, nofun⟩

theorem IsStartOf.trans (h : trail.IsStartOf next) (h' : next.IsStartOf other) :
    trail.IsStartOf other := by
  obtain ⟨xs, hnext, hxs⟩ := h
  obtain ⟨ys, hother, hys⟩ := h'
  refine ⟨xs ++ ys, by rw [hother, hnext, List.append_assoc], fun n hn => ?_⟩
  exact (List.mem_append.1 hn).elim (hxs n) (hys n)

theorem IsStartOf.concat (hnext : next.components = trail.components ++ [c])
    (hc : ∀ n, c = .step (.name n) → n.isStorable = true) : trail.IsStartOf next :=
  ⟨[c], hnext, fun n hn => hc n (List.mem_singleton.1 hn).symm⟩

theorem IsStartOf.steps_isPrefix_steps (h : trail.IsStartOf next) : trail.steps <+: next.steps := by
  obtain ⟨added, hnext, _⟩ := h
  rw [steps, steps, hnext, List.filterMap_append]
  exact List.prefix_append _ _

/-- Trails that are as long and lead on to the same path are the same path. -/
theorem IsStartOf.steps_eq (ht : trail.IsStartOf t) (hu : other.IsStartOf u)
    (heq : t.steps = u.steps) (hlength : trail.steps.length = other.steps.length) :
    trail.steps = other.steps := by
  have hstarts := List.prefix_of_prefix_length_le ht.steps_isPrefix_steps
    (heq ▸ hu.steps_isPrefix_steps) (Nat.le_of_eq hlength)
  exact hstarts.eq_of_length hlength

theorem steps_concat {s : Step} (hnext : next.components = trail.components ++ [.step s]) :
    next.steps = trail.steps ++ [s] := by
  rw [steps, steps, hnext, List.filterMap_append]
  rfl

/-! ## The entries below a trail -/

/-- The entries of a directory are the trails to what is stored in it. -/
theorem entries_eq_or (d : Disk) (base : Location) (trail : Trail) :
    trail.entries d base = [] ∨ ∃ place,
      trail.entries d base = (d.names place).map fun n => (n, trail.entryTrail d base place n) := by
  rw [entries, listing?]
  split_ifs
  · cases lookup d base .status trail.components with
    | ok place => exact .inr ⟨place, rfl⟩
    | error fault => exact .inl rfl
  · exact .inl rfl

theorem entries_of_not_isDirectory (h : trail.isDirectory = false) :
    trail.entries d base = [] := by
  simp [entries, listing?, h]

theorem below_of_not_isDirectory (h : trail.isDirectory = false) :
    trail.below d base depth = [] := by
  cases depth with
  | zero => rfl
  | succ depth => rw [below, entries_of_not_isDirectory h, List.flatMap_nil]

theorem isStorable_of_mem_entries (h : (n, entry) ∈ trail.entries d base) :
    n.isStorable = true := by
  rcases entries_eq_or d base trail with hnil | ⟨place, hentries⟩
  · rw [hnil] at h
    cases h
  · rw [hentries] at h
    obtain ⟨m, hm, heq⟩ := List.mem_map.1 h
    obtain rfl := (Prod.mk.inj heq).1
    obtain ⟨entry, hentry⟩ := Option.isSome_iff_exists.1 (Disk.mem_names_iff.1 hm)
    exact (Disk.of_entryAt?_concat hentry).2

theorem isStartOf_of_mem_entries (h : (n, entry) ∈ trail.entries d base) :
    trail.IsStartOf entry :=
  .concat (components_of_mem_entries h) fun _ hn =>
    (Step.name.inj (Component.step.inj hn)) ▸ isStorable_of_mem_entries h

theorem steps_of_mem_entries (h : (n, entry) ∈ trail.entries d base) :
    entry.steps = trail.steps ++ [.name n] :=
  steps_concat (components_of_mem_entries h)

theorem length_steps_of_mem_entries (h : (n, entry) ∈ trail.entries d base) :
    entry.steps.length = trail.steps.length + 1 := by
  rw [steps_of_mem_entries h, List.length_append, List.length_singleton]

theorem nodup_steps_entries : ((trail.entries d base).map (·.2.steps)).Nodup := by
  rcases entries_eq_or d base trail with hnil | ⟨place, hentries⟩
  · rw [hnil]
    exact List.nodup_nil
  · rw [hentries, List.map_map]
    refine Disk.nodup_names.map fun m n hmn => ?_
    have hsteps : ∀ n, (trail.entryTrail d base place n).steps = trail.steps ++ [.name n] :=
      fun n => steps_concat components_entryTrail
    rw [Function.comp_apply, Function.comp_apply, hsteps, hsteps, List.append_cancel_left_eq] at hmn
    exact Step.name.inj (List.singleton_inj.1 hmn)

theorem isStartOf_of_mem_below (h : (n, t) ∈ trail.below d base depth) :
    trail.IsStartOf t ∧ trail.steps.length < t.steps.length := by
  induction depth generalizing trail with
  | zero => cases h
  | succ depth ih =>
    obtain ⟨⟨m, entry⟩, hentry, hmem⟩ := List.mem_flatMap.1 h
    have hstart := isStartOf_of_mem_entries hentry
    have hlength := length_steps_of_mem_entries hentry
    rcases List.mem_cons.1 hmem with heq | hmem
    · obtain ⟨rfl, rfl⟩ := Prod.mk.inj heq
      exact ⟨hstart, by omega⟩
    · obtain ⟨hbelow, hdeeper⟩ := ih hmem
      exact ⟨hstart.trans hbelow, by omega⟩

/-- Nothing is listed twice below a trail. -/
theorem nodup_steps_below : ((trail.below d base depth).map (·.2.steps)).Nodup := by
  induction depth generalizing trail with
  | zero => exact List.nodup_nil
  | succ depth ih =>
    refine nodup_map_flatMap nodup_steps_entries (fun ⟨n, entry⟩ _ => ?_) ?_
    · refine List.nodup_cons.2 ⟨fun hmem => ?_, ih⟩
      obtain ⟨⟨m, t⟩, ht, heq⟩ := List.mem_map.1 hmem
      exact absurd (congrArg List.length heq) (Nat.ne_of_gt (isStartOf_of_mem_below ht).2)
    · rintro ⟨m, entry⟩ hentry ⟨n, entry'⟩ hentry' ⟨m', t⟩ ht ⟨n', u⟩ hu heq
      have hstart : ∀ {n m : Name} {entry t : Trail},
          (m, t) ∈ (n, entry) :: below d base depth entry → entry.IsStartOf t := by
        intro n m entry t h
        rcases List.mem_cons.1 h with heq | h
        · exact (Prod.mk.inj heq).2 ▸ .refl _
        · exact (isStartOf_of_mem_below h).1
      exact (hstart ht).steps_eq (hstart hu) heq
        ((length_steps_of_mem_entries hentry).trans (length_steps_of_mem_entries hentry').symm)

end Trail

/-! ## Rigid parts -/

/-- The part adds as many moves to a path whatever it selects: it does not select `.`
    as well as names, and is not `**`. -/
def Part.isRigid : Part → Bool
  | anyDepth => false
  | part => !(part.startsWithDot && part.matchesPiece ".")

/-- The moves that a rigid part adds to a path. -/
def Part.width : Part → Nat
  | exact (.step _) | wild _ => 1
  | _ => 0

/-- Rigid parts, at most one run of `**`, and rigid parts again. -/
def Part.hitOnce : List Part → Bool
  | [] => true
  | part :: parts =>
    if part.isRigid then hitOnce parts
    else part == .anyDepth && (parts.dropWhile (· == .anyDepth)).all isRigid

theorem Part.StandsFor.isRigid {n : Name} {part : Part} (h : part.StandsFor n) :
    part.isRigid = true := by
  cases h with
  | exact => rfl
  | @wild tokens htokens =>
    have hdot : matchesText tokens ['.'] = false :=
      Pattern.matchesText_eq_false_of_standsFor htokens n.toList_ne_dot
    simp [Part.isRigid, Part.matchesPiece, hdot]

/-- Parts that stand for names can be put in front. -/
theorem Part.hitOnce_append {names : List Name} {heads parts : List Part}
    (hheads : List.Forall₂ Part.StandsFor names heads) :
    Part.hitOnce (heads ++ parts) = Part.hitOnce parts := by
  induction hheads with
  | nil => rfl
  | cons hpart _ ih => rw [List.cons_append, Part.hitOnce, if_pos hpart.isRigid, ih]

theorem Part.ne_anyDepth_of_isRigid {part : Part} (h : part.isRigid = true) :
    part ≠ .anyDepth := by
  rintro rfl
  cases h

namespace Pattern

/-! ## One part after the other -/

variable {d : Disk} {base : Location} {trail t : Trail} {part : Part} {parts heads : List Part}

/-- The trails that a part selects from a trail, unless the part is `**`. -/
def choices (d : Disk) (base : Location) : Part → Trail → List Trail
  | .anyDepth, _ => []
  | .same, trail => if Trail.leadsToDirectory d base trail.components then [trail] else []
  | .exact (.step (.name n)), trail =>
    let next := trail.components ++ [.step (.name n)]
    if Trail.isThere d base next then [Trail.ofComponents d base next] else []
  | .exact c, trail => if trail.isDirectory then [trail.extend d base c] else []
  | .wild tokens, trail =>
    ((trail.entries d base).filter fun (n, _) => (Part.wild tokens).matchesName n).map (·.2) ++
      dotTrails d base (.wild tokens) trail

/-- The trails that a part selects behind `**`. -/
def deepChoices (d : Disk) (base : Location) (part : Part) (trail : Trail) : List Trail :=
  ((trail.below d base Trail.maxDepth).filter fun (n, _) => part.matchesName n).map (·.2)

theorem select_cons (hpart : part ≠ .anyDepth) :
    select d base (part :: parts) trail =
      (choices d base part trail).flatMap (select d base parts) := by
  cases part with
  | anyDepth => exact absurd rfl hpart
  | same =>
    rw [select, choices]
    split_ifs <;> simp
  | wild tokens => rw [select, choices]
  | exact c =>
    rcases c with _ | _ | (_ | n) <;> rw [select, choices] <;> try simp
    all_goals split_ifs <;> simp

theorem select_anyDepth_cons (hpart : part ≠ .anyDepth) :
    select d base (.anyDepth :: part :: parts) trail =
      (deepChoices d base part trail).flatMap (select d base parts) := by
  rw [select, deepChoices]
  exact hpart

theorem components_of_mem_dotTrails (h : t ∈ dotTrails d base part trail) :
    ∃ c, (c = .here ∨ c = .step .up) ∧ t.components = trail.components ++ [c] := by
  rw [dotTrails] at h
  split_ifs at h
  · obtain ⟨⟨piece, c⟩, hc, rfl⟩ := List.mem_map.1 h
    refine ⟨c, ?_, rfl⟩
    rcases List.mem_pair.1 (List.mem_of_mem_filter hc) with heq | heq <;> cases heq
    · exact .inl rfl
    · exact .inr rfl
  · cases h

theorem isStartOf_of_mem_choices (h : t ∈ choices d base part trail) : trail.IsStartOf t := by
  cases part with
  | anyDepth => cases h
  | same =>
    rw [choices] at h
    split_ifs at h
    · exact List.mem_singleton.1 h ▸ .refl trail
    · cases h
  | exact c =>
    match c with
    | .step (.name n) =>
      rw [choices] at h
      split_ifs at h with hthere
      · rw [List.mem_singleton.1 h]
        exact .concat rfl fun _ hn =>
          (Step.name.inj (Component.step.inj hn)) ▸ Trail.isStorable_of_isThere hthere
      · cases h
    | .root | .here | .step .up =>
      rw [choices] at h <;> try simp
      split_ifs at h
      · rw [List.mem_singleton.1 h]
        exact .concat rfl nofun
      · cases h
  | wild tokens =>
    rcases List.mem_append.1 h with h | h
    · obtain ⟨⟨n, entry⟩, hentry, rfl⟩ := List.mem_map.1 h
      exact Trail.isStartOf_of_mem_entries (List.mem_of_mem_filter hentry)
    · obtain ⟨c, rfl | rfl, ht⟩ := components_of_mem_dotTrails h <;> exact .concat ht nofun

theorem isStartOf_of_mem_deepChoices (h : t ∈ deepChoices d base part trail) :
    trail.IsStartOf t := by
  obtain ⟨⟨n, t⟩, ht, rfl⟩ := List.mem_map.1 h
  exact (Trail.isStartOf_of_mem_below (List.mem_of_mem_filter ht)).1

/-- Every hit goes on from the trail it is selected from, by names that are stored. -/
theorem isStartOf_of_mem_select :
    ∀ (parts : List Part) (trail : Trail), t ∈ select d base parts trail → trail.IsStartOf t
  | [], trail, h => List.mem_singleton.1 h ▸ .refl trail
  | [.anyDepth], trail, h => by
    rw [select] at h
    obtain ⟨⟨n, t⟩, ht, rfl⟩ := List.mem_map.1 (List.mem_of_mem_filter h)
    exact (Trail.isStartOf_of_mem_below ht).1
  | .anyDepth :: part :: parts, trail, h => by
    by_cases hpart : part = .anyDepth
    · subst hpart
      rw [select] at h
      exact isStartOf_of_mem_select (.anyDepth :: parts) trail h
    · rw [select_anyDepth_cons hpart] at h
      obtain ⟨u, hu, h⟩ := List.mem_flatMap.1 h
      exact (isStartOf_of_mem_deepChoices hu).trans (isStartOf_of_mem_select parts u h)
  | .same :: parts, trail, h | .exact _ :: parts, trail, h | .wild _ :: parts, trail, h => by
    rw [select_cons (by simp)] at h
    obtain ⟨u, hu, h⟩ := List.mem_flatMap.1 h
    exact (isStartOf_of_mem_choices hu).trans (isStartOf_of_mem_select parts u h)

/-- A part that stands for a name selects this name and nothing else. -/
theorem components_of_mem_choices_of_standsFor {n : Name} (hpart : part.StandsFor n)
    (h : t ∈ choices d base part trail) :
    t.components = trail.components ++ [.step (.name n)] := by
  cases hpart with
  | exact =>
    rw [choices] at h
    split_ifs at h
    · rw [List.mem_singleton.1 h]
      rfl
    · cases h
  | @wild tokens htokens =>
    rcases List.mem_append.1 h with h | h
    · obtain ⟨⟨m, entry⟩, hentry, rfl⟩ := List.mem_map.1 h
      obtain ⟨hentry, hmatches⟩ := List.mem_filter.1 hentry
      obtain rfl := Name.text_injective (String.toList_injective ((htokens _).1 hmatches))
      exact Trail.components_of_mem_entries hentry
    · rw [dotTrails_of_standsFor htokens] at h
      cases h

/-- Behind parts that stand for names, every hit starts with these names. -/
theorem isStartOf_of_mem_select_names {names : List Name}
    (hheads : List.Forall₂ Part.StandsFor names heads)
    (h : t ∈ select d base (heads ++ parts) trail) :
    (trail.components ++ names.map fun n => .step (.name n)) <+: t.components := by
  induction hheads generalizing trail with
  | nil =>
    obtain ⟨added, ht, _⟩ := isStartOf_of_mem_select parts trail h
    exact ⟨added, by rw [ht, List.map_nil, List.append_nil]⟩
  | @cons n part names heads hpart _ ih =>
    have hne : part ≠ .anyDepth := by
      rintro rfl
      cases hpart
    rw [List.cons_append, select_cons hne] at h
    obtain ⟨u, hu, h⟩ := List.mem_flatMap.1 h
    have hnext := ih h
    rwa [components_of_mem_choices_of_standsFor hpart hu, List.append_assoc] at hnext

/-! ## Trails that lead to no directory -/

theorem select_anyDepth_of_not_isDirectory (hdir : trail.isDirectory = false) :
    select d base (.anyDepth :: parts) trail = [] := by
  have hbelow := @Trail.below_of_not_isDirectory d base trail Trail.maxDepth hdir
  induction parts with
  | nil =>
    rw [select, hbelow]
    rfl
  | cons part parts ih =>
    by_cases hpart : part = .anyDepth
    · subst hpart
      rwa [select]
    · rw [select_anyDepth_cons hpart, deepChoices, hbelow]
      rfl

/-- From what is no directory, something is hit only under a name. -/
theorem length_steps_lt_of_mem_select {components : List Component}
    (hdir : Trail.leadsToDirectory d base components = false)
    (h : t ∈ select d base (part :: parts) (Trail.ofComponents d base components)) :
    (Trail.ofComponents d base components).steps.length < t.steps.length := by
  have htrail : (Trail.ofComponents d base components).isDirectory = false := hdir
  by_cases hany : part = .anyDepth
  · rw [hany, select_anyDepth_of_not_isDirectory htrail] at h
    cases h
  rw [select_cons hany] at h
  obtain ⟨u, hu, ht⟩ := List.mem_flatMap.1 h
  cases part with
  | anyDepth => cases hu
  | same => simp [choices, Trail.ofComponents, hdir] at hu
  | wild tokens =>
    simp [choices, dotTrails, Trail.listing?, Trail.entries_of_not_isDirectory htrail,
      htrail] at hu
  | exact c =>
    rcases c with _ | _ | (_ | n)
    case step.name =>
      rw [choices] at hu
      split_ifs at hu
      · have hsteps := Trail.steps_concat (congrArg Trail.components (List.mem_singleton.1 hu))
        have hlength := (isStartOf_of_mem_select parts u ht).steps_isPrefix_steps.length_le
        rw [hsteps, List.length_append, List.length_singleton] at hlength
        exact hlength
      · cases hu
    all_goals simp [choices, htrail] at hu

/-! ## Paths that are hit once -/

theorem dotTrails_of_isRigid {tokens : List Token} (h : (Part.wild tokens).isRigid = true) :
    dotTrails d base (.wild tokens) trail = [] ∨
      dotTrails d base (.wild tokens) trail = [trail.extend d base (.step .up)] := by
  rw [dotTrails]
  split_ifs with hdots
  · have hdot : (Part.wild tokens).matchesPiece "." = false := by
      simpa [Part.isRigid, (Bool.and_eq_true_iff.1 hdots).1] using h
    cases hup : (Part.wild tokens).matchesPiece ".." <;> simp [hdot, hup]
  · exact .inl rfl

theorem length_steps_of_mem_choices (hpart : part.isRigid = true)
    (h : t ∈ choices d base part trail) :
    t.steps.length = trail.steps.length + part.width := by
  have hmove : ∀ {s : Step}, t.components = trail.components ++ [.step s] →
      t.steps.length = trail.steps.length + 1 := fun ht => by
    rw [Trail.steps_concat ht, List.length_append, List.length_singleton]
  cases part with
  | anyDepth => cases h
  | same =>
    rw [choices] at h
    split_ifs at h
    · rw [List.mem_singleton.1 h]
      rfl
    · cases h
  | exact c =>
    match c with
    | .step (.name n) =>
      rw [choices] at h
      split_ifs at h
      · exact hmove (congrArg Trail.components (List.mem_singleton.1 h))
      · cases h
    | .step .up =>
      rw [choices] at h <;> try simp
      split_ifs at h
      · exact hmove (congrArg Trail.components (List.mem_singleton.1 h))
      · cases h
    | .root | .here =>
      rw [choices] at h <;> try simp
      split_ifs at h
      · rw [List.mem_singleton.1 h, Trail.steps, Trail.extend, Trail.ofComponents,
          List.filterMap_append, List.length_append]
        rfl
      · cases h
  | wild tokens =>
    rcases List.mem_append.1 h with h | h
    · obtain ⟨⟨n, entry⟩, hentry, rfl⟩ := List.mem_map.1 h
      exact Trail.length_steps_of_mem_entries (List.mem_of_mem_filter hentry)
    · rcases dotTrails_of_isRigid hpart with hnil | hup
      · rw [hnil] at h
        cases h
      · rw [hup] at h
        exact hmove (congrArg Trail.components (List.mem_singleton.1 h))

/-- A rigid part selects no path twice. -/
theorem nodup_steps_choices (hpart : part.isRigid = true) :
    ((choices d base part trail).map Trail.steps).Nodup := by
  cases part with
  | anyDepth => exact List.nodup_nil
  | same =>
    rw [choices]
    split_ifs <;> simp
  | exact c =>
    match c with
    | .step (.name n) =>
      rw [choices]
      split_ifs <;> simp
    | .root | .here | .step .up =>
      rw [choices] <;> try simp
      split_ifs <;> simp
  | wild tokens =>
    have hnamed : (((trail.entries d base).filter fun (n, _) =>
        (Part.wild tokens).matchesName n).map (·.2.steps)).Nodup :=
      Trail.nodup_steps_entries.sublist (List.filter_sublist.map _)
    rw [choices, List.map_append, List.map_map, List.nodup_append]
    rcases dotTrails_of_isRigid hpart with hnil | hup
    · rw [hnil]
      exact ⟨hnamed, List.nodup_nil, by simp⟩
    · rw [hup]
      refine ⟨hnamed, List.nodup_singleton _, fun path hpath path' hpath' heq => ?_⟩
      obtain ⟨⟨n, entry⟩, hentry, rfl⟩ := List.mem_map.1 hpath
      have hname := Trail.steps_of_mem_entries (List.mem_of_mem_filter hentry)
      rw [List.map_singleton, List.mem_singleton, Trail.steps_concat rfl] at hpath'
      cases List.append_cancel_left (hname.symm.trans (heq.trans hpath'))

theorem nodup_steps_deepChoices : ((deepChoices d base part trail).map Trail.steps).Nodup := by
  rw [deepChoices, List.map_map]
  exact Trail.nodup_steps_below.sublist (List.filter_sublist.map _)

theorem length_steps_of_mem_select (hparts : parts.all Part.isRigid = true)
    (h : t ∈ select d base parts trail) :
    t.steps.length = trail.steps.length + (parts.map Part.width).sum := by
  induction parts generalizing trail with
  | nil => exact List.mem_singleton.1 h ▸ rfl
  | cons part parts ih =>
    obtain ⟨hpart, hparts⟩ := Bool.and_eq_true_iff.1 hparts
    rw [select_cons (Part.ne_anyDepth_of_isRigid hpart)] at h
    obtain ⟨u, hu, h⟩ := List.mem_flatMap.1 h
    rw [ih hparts h, length_steps_of_mem_choices hpart hu, List.map_cons, List.sum_cons,
      Nat.add_assoc]

/-- From different trails different paths are hit, if what is hit tells how long the
    trail is. -/
theorem nodup_steps_flatMap_select {trails : List Trail} (htrails : (trails.map Trail.steps).Nodup)
    (hselect : ∀ trail, ((select d base parts trail).map Trail.steps).Nodup)
    (hlength : ∀ x ∈ trails, ∀ y ∈ trails, ∀ t ∈ select d base parts x,
      ∀ u ∈ select d base parts y, t.steps = u.steps → x.steps.length = y.steps.length) :
    ((trails.flatMap (select d base parts)).map Trail.steps).Nodup :=
  nodup_map_flatMap htrails (fun x _ => hselect x) fun x hx y hy t ht u hu heq =>
    (isStartOf_of_mem_select parts x ht).steps_eq (isStartOf_of_mem_select parts y hu) heq
      (hlength x hx y hy t ht u hu heq)

theorem nodup_steps_select_cons (hpart : part.isRigid = true)
    (hselect : ∀ trail, ((select d base parts trail).map Trail.steps).Nodup) :
    ((select d base (part :: parts) trail).map Trail.steps).Nodup := by
  rw [select_cons (Part.ne_anyDepth_of_isRigid hpart)]
  refine nodup_steps_flatMap_select (nodup_steps_choices hpart) hselect ?_
  intro x hx y hy _ _ _ _ _
  rw [length_steps_of_mem_choices hpart hx, length_steps_of_mem_choices hpart hy]

theorem nodup_steps_select_of_isRigid (hparts : parts.all Part.isRigid = true) :
    ((select d base parts trail).map Trail.steps).Nodup := by
  induction parts generalizing trail with
  | nil => exact List.nodup_singleton _
  | cons part parts ih =>
    obtain ⟨hpart, hparts⟩ := Bool.and_eq_true_iff.1 hparts
    exact nodup_steps_select_cons hpart fun trail => ih hparts

/-- Behind a run of `**` the rigid parts add as many moves to each path, so that what
    is hit tells where the run has ended. -/
theorem nodup_steps_select_anyDepth
    (hparts : (parts.dropWhile (· == .anyDepth)).all Part.isRigid = true) :
    ((select d base (.anyDepth :: parts) trail).map Trail.steps).Nodup := by
  induction parts with
  | nil =>
    rw [select, List.filter_map, List.map_map]
    exact Trail.nodup_steps_below.sublist (List.filter_sublist.map _)
  | cons part parts ih =>
    by_cases hpart : part = .anyDepth
    · subst hpart
      rw [select]
      exact ih hparts
    · rw [List.dropWhile_cons_of_neg (by simpa using hpart)] at hparts
      have hrest := (Bool.and_eq_true_iff.1 hparts).2
      rw [select_anyDepth_cons hpart]
      refine nodup_steps_flatMap_select nodup_steps_deepChoices
        (fun trail => nodup_steps_select_of_isRigid hrest) ?_
      intro x _ y _ t ht u hu heq
      have hlength := congrArg List.length heq
      rw [length_steps_of_mem_select hrest ht, length_steps_of_mem_select hrest hu] at hlength
      exact Nat.add_right_cancel hlength

/-- With at most one run of `**` and else rigid parts, no path is hit twice. -/
theorem nodup_steps_select (hparts : Part.hitOnce parts = true) :
    ((select d base parts trail).map Trail.steps).Nodup := by
  induction parts generalizing trail with
  | nil => exact List.nodup_singleton _
  | cons part parts ih =>
    rw [Part.hitOnce] at hparts
    split_ifs at hparts with hpart
    · exact nodup_steps_select_cons hpart fun trail => ih hparts
    · obtain ⟨hany, hrest⟩ := Bool.and_eq_true_iff.1 hparts
      rw [eq_of_beq hany]
      exact nodup_steps_select_anyDepth hrest

end Pattern

end Glob

end Docroot
