import Docroot.Proofs.Walk.Expansion

/-!
# What is reached on the way

`Disk.Reaches` says where expansion stands on its way, and with which moves left.
It knows no limits, neither of the length of a path nor of the links to follow, so
it also tells what a walk would come to that the system breaks off.

Something can be asked of everything that is reached (`Disk.Always`): that it is
within a root (`Disk.StaysIn`), or that its path is not too long
(`Disk.StaysShort`). What always holds holds behind every move
(`Always.up`, `Always.name`, `Always.link`), so it can be carried along a walk.
-/

namespace Docroot

/-- The place that the next of some moves looks at. -/
def Location.ahead (place : Location) : List Step → Location
  | .name n :: _ => place ++ [n]
  | _ => place

namespace Disk

/-- On the way that expansion takes from a place with some moves left, it comes to
    another place with others left. -/
inductive Reaches (d : Disk) : Location → List Step → Location → List Step → Prop
  | refl {place : Location} {steps : List Step} : d.Reaches place steps place steps
  | up {place q : Location} {rest left : List Step} :
      d.Reaches place.parent rest q left → d.Reaches place (.up :: rest) q left
  | name {place q : Location} {n : Name} {rest left : List Step} :
      d.targetAt? (place ++ [n]) = none → d.Reaches (place ++ [n]) rest q left →
      d.Reaches place (.name n :: rest) q left
  | link {place q : Location} {n : Name} {rest left : List Step} {target : Path} :
      d.targetAt? (place ++ [n]) = some target →
      d.Reaches (target.anchor place) (target.steps ++ rest) q left →
      d.Reaches place (.name n :: rest) q left

/-- Something holds wherever expansion comes to. -/
def Always (d : Disk) (holds : Location → List Step → Prop) (place : Location)
    (steps : List Step) : Prop :=
  ∀ q left, d.Reaches place steps q left → holds q left

/-- Expansion does not leave the root. -/
def StaysIn (d : Disk) (root : Location) : Location → List Step → Prop :=
  d.Always fun q _ => root <+: q

/-- Expansion comes to no place whose path is too long, nor looks at one. -/
def StaysShort (d : Disk) : Location → List Step → Prop :=
  d.Always fun q left => (q.ahead left).bytes < maxPathBytes

/-- The whole way that expansion takes, if it ends within so many moves. -/
def way? (d : Disk) : Nat → Location → List Step → Option (List (Location × List Step))
  | 0, _, _ => none
  | _ + 1, place, [] => some [(place, [])]
  | fuel + 1, place, .up :: rest =>
    (d.way? fuel place.parent rest).map ((place, .up :: rest) :: ·)
  | fuel + 1, place, .name n :: rest =>
    (match d.targetAt? (place ++ [n]) with
      | none => d.way? fuel (place ++ [n]) rest
      | some target => d.way? fuel (target.anchor place) (target.steps ++ rest)).map
      ((place, .name n :: rest) :: ·)

variable {d : Disk} {holds : Location → List Step → Prop} {root place q r : Location} {n : Name}
  {steps rest left before behind : List Step} {target : Path} {fuel i k : Nat}
  {way : List (Location × List Step)}

/-! ## Ways in parts -/

/-- What comes behind the moves does not matter before. -/
theorem Reaches.append (h : d.Reaches place before q left) :
    d.Reaches place (before ++ behind) q (left ++ behind) := by
  induction h with
  | refl => exact .refl
  | up _ ih => exact .up ih
  | name hnone _ ih => exact .name hnone ih
  | link hsome _ ih => exact .link hsome (List.append_assoc _ _ _ ▸ ih)

theorem Reaches.trans (h : d.Reaches place steps q rest) (hr : d.Reaches q rest r left) :
    d.Reaches place steps r left := by
  induction h with
  | refl => exact hr
  | up _ ih => exact .up (ih hr)
  | name hnone _ ih => exact .name hnone (ih hr)
  | link hsome _ ih => exact .link hsome (ih hr)

/-- What is reached is reached on the first part of the way, or behind its end. -/
theorem Reaches.split (h : d.Reaches place (before ++ behind) q left) :
    (∃ rest, d.Reaches place before q rest ∧ left = rest ++ behind) ∨
      ∃ r, d.Reaches place before r [] ∧ d.Reaches r behind q left := by
  -- On the way as a whole, its first part growing by the target's moves at each
  -- link; where the first part is empty, all is behind its end.
  generalize hsteps : before ++ behind = steps at h
  induction h generalizing before with
  | refl => exact .inl ⟨before, .refl, hsteps.symm⟩
  | @up place q rest left hrest ih =>
    cases before with
    | nil =>
      rw [List.nil_append] at hsteps
      exact .inr ⟨place, .refl, hsteps ▸ .up hrest⟩
    | cons s before =>
      obtain ⟨rfl, htail⟩ := List.cons.inj hsteps
      exact (ih htail).imp (fun ⟨rest, h, hleft⟩ => ⟨rest, .up h, hleft⟩)
        fun ⟨r, hr, h⟩ => ⟨r, .up hr, h⟩
  | @name place q n rest left hnone hrest ih =>
    cases before with
    | nil =>
      rw [List.nil_append] at hsteps
      exact .inr ⟨place, .refl, hsteps ▸ .name hnone hrest⟩
    | cons s before =>
      obtain ⟨rfl, htail⟩ := List.cons.inj hsteps
      exact (ih htail).imp (fun ⟨rest, h, hleft⟩ => ⟨rest, .name hnone h, hleft⟩)
        fun ⟨r, hr, h⟩ => ⟨r, .name hnone hr, h⟩
  | @link place q n rest left target hsome hrest ih =>
    cases before with
    | nil =>
      rw [List.nil_append] at hsteps
      exact .inr ⟨place, .refl, hsteps ▸ .link hsome hrest⟩
    | cons s before =>
      obtain ⟨rfl, htail⟩ := List.cons.inj hsteps
      have hmoves : (target.steps ++ before) ++ behind = target.steps ++ rest :=
        (List.append_assoc _ _ _).trans (congrArg (target.steps ++ ·) htail)
      exact (ih hmoves).imp (fun ⟨rest, h, hleft⟩ => ⟨rest, .link hsome h, hleft⟩)
        fun ⟨r, hr, h⟩ => ⟨r, .link hsome hr, h⟩

/-- What the system finds is reached. -/
theorem Finds.reaches {comps : List Component} (h : d.Finds i place comps q) :
    d.Reaches place (comps.filterMap Component.step? ++ rest) q rest := by
  induction h with
  | done => exact .refl
  | here _ _ ih => exact ih
  | up _ _ ih => exact .up ih
  | name _ hentry htarget _ ih =>
    exact .name (by rw [targetAt?, hentry, Option.bind_some, htarget]) ih
  | link _ hlink _ ih =>
    refine .link (targetAt?_eq_some_iff.2 hlink) ?_
    rwa [Path.filterMap_step?_body_append, List.append_assoc] at ih

/-! ## What always holds -/

namespace Always

theorem self (h : d.Always holds place steps) : holds place steps := h _ _ .refl

theorem up (h : d.Always holds place (.up :: rest)) : d.Always holds place.parent rest :=
  fun q left hq => h q left (.up hq)

theorem name (h : d.Always holds place (.name n :: rest))
    (hnone : d.targetAt? (place ++ [n]) = none) : d.Always holds (place ++ [n]) rest :=
  fun q left hq => h q left (.name hnone hq)

theorem link (h : d.Always holds place (.name n :: rest))
    (hsome : d.targetAt? (place ++ [n]) = some target) :
    d.Always holds (target.anchor place) (target.steps ++ rest) :=
  fun q left hq => h q left (.link hsome hq)

theorem of_reaches (h : d.Always holds place steps) (hq : d.Reaches place steps q left) :
    d.Always holds q left :=
  fun r rest hr => h r rest (hq.trans hr)

end Always

theorem StaysIn.of_append (h : d.StaysIn root place (before ++ behind)) :
    d.StaysIn root place before :=
  fun q _ hq => h q _ hq.append

theorem StaysShort.of_append (h : d.StaysShort place (before ++ behind)) :
    d.StaysShort place before := by
  intro q left hq
  refine Location.bytes_lt_of_prefix ?_ (h q _ hq.append)
  rcases left with _ | ⟨_ | n, left⟩
  · rcases behind with _ | ⟨_ | n, behind⟩
    · exact List.prefix_rfl
    · exact List.prefix_rfl
    · exact List.prefix_append q [n]
  · exact List.prefix_rfl
  · exact List.prefix_rfl

theorem StaysShort.next (h : d.StaysShort place (.name n :: rest)) :
    (place ++ [n]).bytes < maxPathBytes := h.self

/-- Where expansion ends is reached, if no path is too long on the way. -/
theorem Expands.reaches (h : d.Expands k place steps q) (hshort : d.StaysShort place steps) :
    d.Reaches place steps q [] := by
  induction h with
  | done => exact .refl
  | up _ ih => exact .up (ih (Always.up hshort))
  | name hnone _ ih =>
    have htarget := visibleTarget?_eq_none_iff.1 hnone hshort.next
    exact .name htarget (ih (Always.name hshort htarget))
  | link hsome _ ih =>
    have htarget := targetAt?_eq_some_iff.2 (visibleTarget?_eq_some_iff.1 hsome).2
    exact .link htarget (ih (Always.link hshort htarget))

/-- So is where a walk ends, and its path is not too long. -/
theorem reaches_of_walkFrom (hfree : d.LinkFree place) (hshort : d.StaysShort place steps)
    (h : d.walkFrom place steps = .ok q) :
    d.Reaches place steps q [] ∧ q.bytes < maxPathBytes := by
  obtain ⟨k, hk⟩ := expands_of_walk hfree h
  exact ⟨hk.reaches hshort, hshort q [] (hk.reaches hshort)⟩

/-! ## Ways that end -/

/-- Whatever is reached is on the way. -/
theorem Reaches.mem_way (h : d.Reaches place steps q left)
    (hway : d.way? fuel place steps = some way) : (q, left) ∈ way := by
  induction h generalizing fuel way with
  | @refl place steps =>
    rcases fuel with _ | fuel
    · cases hway
    · rcases steps with _ | ⟨_ | n, steps⟩
      · cases hway
        exact List.mem_cons_self
      all_goals
        obtain ⟨rest, _, rfl⟩ := Option.map_eq_some_iff.1 hway
        exact List.mem_cons_self
  | up _ ih =>
    cases fuel with
    | zero => cases hway
    | succ fuel =>
      obtain ⟨rest, hrest, rfl⟩ := Option.map_eq_some_iff.1 hway
      exact List.mem_cons_of_mem _ (ih hrest)
  | name hnone _ ih =>
    cases fuel with
    | zero => cases hway
    | succ fuel =>
      obtain ⟨rest, hrest, rfl⟩ := Option.map_eq_some_iff.1 hway
      rw [hnone] at hrest
      exact List.mem_cons_of_mem _ (ih hrest)
  | link hsome _ ih =>
    cases fuel with
    | zero => cases hway
    | succ fuel =>
      obtain ⟨rest, hrest, rfl⟩ := Option.map_eq_some_iff.1 hway
      rw [hsome] at hrest
      exact List.mem_cons_of_mem _ (ih hrest)

/-- What holds on a whole way always holds. -/
theorem always_of_way (hway : d.way? fuel place steps = some way)
    (h : ∀ x ∈ way, holds x.1 x.2) : d.Always holds place steps :=
  fun q left hq => h (q, left) (hq.mem_way hway)

end Disk

end Docroot
