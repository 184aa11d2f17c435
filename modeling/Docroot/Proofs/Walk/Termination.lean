import Docroot.Proofs.Disk.Targets
import Docroot.Proofs.Specimen
import Docroot.Proofs.Walk.Moves

/-!
# Walks end

A walk is a loop over the moves that are left: it takes one off, makes it, and may
put the moves of a link's target in front of the others (`Disk.takeMove`). A link
such as `a -> missing/../a` does so every time it is come to, and is never a circle
to the system, since something on it is missing. What ends the loop is that each such
link costs one of the hops:

* every move makes the moves left, and those that the hops left can still add, fewer
  (`potential_lt_of_takeMove`);
* so the loop takes no more moves than the path has and than the longest target has
  for each hop (`walkPath_ends_within`), and the link above takes all of them.
-/

namespace Docroot

/-- Where a walk stands between two moves. -/
structure Stage where
  /-- The place that it has come to. -/
  place : Location
  /-- The moves that are left. -/
  left : List Step
  /-- How many links that lead nowhere may still be followed. -/
  hops : Nat

namespace Disk

variable (d : Disk)

/-- Makes a move that was taken off those that were left, and is now in front of the
    rest. -/
def takeMove (place : Location) (rest : List Step) (hops : Nat) : Step → Except Refusal Stage
  | .up => .ok ⟨place.parent, rest, hops⟩
  | .name n =>
    match d.linkTarget? (place ++ [n]) with
    | none => .ok ⟨place ++ [n], rest, hops⟩
    | some target =>
      match d.canonicalizeAt (place ++ [n]) with
      | .ok resolved => .ok ⟨resolved, rest, hops⟩
      | .error .notFound =>
        match hops with
        | 0 => .error .unresolvableLink
        | hops + 1 => .ok ⟨target.anchor place, target.steps ++ rest, hops⟩
      | .error _ => .error .unresolvableLink

/-- What the loop over the moves that are left comes to, if it takes no more than so
    many off. -/
def loopWithin? : Nat → Stage → Option (Except Refusal Location)
  | _, ⟨place, [], _⟩ => some (.ok place)
  | 0, ⟨_, _ :: _, _⟩ => none
  | moves + 1, ⟨place, s :: rest, hops⟩ =>
    match d.takeMove place rest hops s with
    | .ok stage => loopWithin? moves stage
    | .error refusal => some (.error refusal)

/-- Where a relative path leads from a base, if the loop over its moves takes no more
    than so many off. -/
def walkPathWithin? (moves : Nat) (base : Location) (p : Path) :
    Option (Except Refusal Location) :=
  if p.isAbsolute then some (.error .absolutePath)
  else d.loopWithin? moves ⟨base, p.steps, maxHops⟩

end Disk

/-- The moves that are left and that the hops left can still add, if no target asks
    for more than `longest`. -/
def Stage.potential (longest : Nat) (stage : Stage) : Nat :=
  stage.left.length + stage.hops * longest

namespace Disk

variable {d : Disk} {place : Location} {rest : List Step} {hops moves : Nat} {s : Step}
  {stage : Stage}

/-- A walk makes its first move and goes on from the stage it has come to. -/
theorem walk_cons : d.walk hops place (s :: rest) =
    d.takeMove place rest hops s >>= fun stage => d.walk stage.hops stage.place stage.left := by
  cases s with
  | up => exact walk_up
  | name n =>
    rw [takeMove]
    cases hlink : d.linkTarget? (place ++ [n]) with
    | none => exact walk_name hlink
    | some target =>
      rw [walk_link hlink]
      cases d.canonicalizeAt (place ++ [n]) with
      | ok resolved => rfl
      | error fault => cases fault <;> cases hops <;> rfl

/-- Every move leaves less to do: it is taken off itself, and what a link's target
    puts in its place is paid for by a hop. -/
theorem potential_lt_of_takeMove (h : d.takeMove place rest hops s = .ok stage) :
    stage.potential d.longestTarget < Stage.potential d.longestTarget ⟨place, s :: rest, hops⟩ := by
  have hless : ∀ q : Location, Stage.potential d.longestTarget ⟨q, rest, hops⟩ <
      Stage.potential d.longestTarget ⟨place, s :: rest, hops⟩ := fun q => by
    simp only [Stage.potential, List.length_cons]
    omega
  cases s with
  | up => exact Except.ok.inj h ▸ hless _
  | name n =>
    rw [takeMove] at h
    split at h
    · exact Except.ok.inj h ▸ hless _
    · rename_i target hlink
      split at h
      · exact Except.ok.inj h ▸ hless _
      · split at h
        · cases h
        · rename_i hops _
          obtain ⟨q, hq⟩ := exists_entryAt?_of_linkTarget? hlink
          have htarget : target.steps.length ≤ d.longestTarget :=
            longestTarget_le_iff.1 (Nat.le_refl _) q target hq
          rw [← Except.ok.inj h]
          simp only [Stage.potential, List.length_append, List.length_cons, Nat.succ_mul]
          omega
      · cases h

/-- The loop comes to what the walk comes to, within as many moves as are left and
    the hops left can add. -/
theorem loopWithin?_of_potential_le (h : stage.potential d.longestTarget ≤ moves) :
    d.loopWithin? moves stage = some (d.walk stage.hops stage.place stage.left) := by
  induction moves generalizing stage with
  | zero =>
    obtain ⟨place, _ | ⟨s, rest⟩, hops⟩ := stage
    · rw [loopWithin?, walk_nil]
    · rw [Stage.potential, List.length_cons] at h
      omega
  | succ moves ih =>
    obtain ⟨place, _ | ⟨s, rest⟩, hops⟩ := stage
    · rw [loopWithin?, walk_nil]
    · rw [loopWithin?, walk_cons]
      cases htake : d.takeMove place rest hops s with
      | error refusal => rfl
      | ok next => exact ih (Nat.le_of_lt_succ (Nat.lt_of_lt_of_le (potential_lt_of_takeMove htake) h))

/-- Whatever links are on the disk, every walk ends, and takes no more moves than its
    path asks for and the longest target of all links does for each of the links that
    are followed by hand. -/
theorem walkPath_ends_within (d : Disk) :
    (∀ m, d.longestTarget ≤ m ↔
      ∀ place target, d.entryAt? place = some (.link target) → target.steps.length ≤ m) ∧
    ∀ (base : Location) (p : Path),
      d.walkPathWithin? (p.steps.length + maxHops * d.longestTarget) base p =
        some (d.walkPath base p) := by
  refine ⟨fun m => longestTarget_le_iff, fun base p => ?_⟩
  rw [walkPathWithin?, walkPath]
  split_ifs
  · rfl
  · exact loopWithin?_of_potential_le (Nat.le_refl _)

end Disk

namespace Specimen

/-- A site with a link through a missing directory back to itself. -/
def circling : Disk := diskOf [(first, .link ⟨"gone/../first"⟩)]

/-- On such a link a walk takes every move that it may before it is refused. -/
example : 1 + Disk.maxHops * circling.longestTarget = 121 ∧
    circling.walkPathWithin? 121 [srv, web] ⟨"first"⟩ = some (.error .unresolvableLink) ∧
    circling.walkPathWithin? 120 [srv, web] ⟨"first"⟩ = none := by
  decide +kernel

end Specimen

end Docroot
