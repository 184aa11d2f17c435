import Docroot.Proofs.Disk.Places
import Docroot.Proofs.Site.IndexName
import Docroot.Proofs.Specimen
import Docroot.Proofs.Walk.Moves
import Mathlib.Data.List.Infix
import Mathlib.Data.List.Induction

/-!
# Requests that name the index document

Whether a request names the index document is told from its moves, without the disk:
`..` takes back the name before it, and there must be one
(`Request.plainNames?`). The walk makes the same moves from the root, where `..` goes
to the parent and never fails. Two things tell them apart:

* moves that climb above where they begin have no plain names
  (`Request.isSome_plainNames?_iff`), although the walk may come back into the root;
* a link leads the walk elsewhere than its name says. Without links, a walk is a
  matter of its moves as well (`Disk.walk_of_hasNoLinks`), and while they do not
  climb it stays at the plain names, seen from where it began
  (`Request.goAll_of_plainNames?`).

So without links, the request names the index document exactly if its moves do not
climb above the root and lead to the root or to the place of the index document
(`Site.namesIndex_iff_walkPath`).
-/

namespace Docroot

/-! ## Moves that climb -/

namespace Step

/-- No start of the moves goes up more often than down. -/
def StaysBelow (steps : List Step) : Prop :=
  ∀ before ∈ steps.inits, before.count .up ≤ before.countP (· != .up)

instance {steps : List Step} : Decidable (StaysBelow steps) :=
  inferInstanceAs (Decidable (∀ before ∈ steps.inits, _))

variable {steps : List Step} {s : Step}

theorem staysBelow_concat_iff : StaysBelow (steps ++ [s]) ↔
    StaysBelow steps ∧ (steps ++ [s]).count .up ≤ (steps ++ [s]).countP (· != .up) := by
  simp only [StaysBelow, List.mem_inits, List.prefix_concat_iff, forall_eq_or_imp]
  exact and_comm

end Step

namespace Request

variable {steps : List Step} {names : List Name} {n : Name} {place : Location}

theorem plainNames?_concat_name :
    plainNames? (steps ++ [.name n]) = (plainNames? steps).bind fun names => some (names ++ [n]) := by
  simp [plainNames?]

theorem plainNames?_concat_up : plainNames? (steps ++ [.up]) =
    (plainNames? steps).bind fun names => if names.isEmpty then none else some names.dropLast := by
  simp [plainNames?]

/-- A `..` takes back the last name. -/
theorem plainNames?_concat_up_eq_some_iff :
    plainNames? (steps ++ [.up]) = some names ↔ ∃ n, plainNames? steps = some (names ++ [n]) := by
  rw [plainNames?_concat_up, Option.bind_eq_some_iff]
  constructor
  · rintro ⟨before, hbefore, h⟩
    split_ifs at h with hempty
    obtain rfl := Option.some.inj h
    have hne : before ≠ [] := by simpa using hempty
    exact ⟨before.getLast hne, by rw [List.dropLast_concat_getLast, hbefore]⟩
  · rintro ⟨n, h⟩
    exact ⟨names ++ [n], h, by simp⟩

/-- The names that are left are those that were not taken back. -/
theorem countP_of_plainNames? (h : plainNames? steps = some names) :
    steps.countP (· != .up) = steps.count .up + names.length := by
  induction steps using List.reverseRecOn generalizing names with
  | nil =>
    obtain rfl := Option.some.inj h
    rfl
  | append_singleton steps s ih =>
    rw [List.countP_append, List.count_append]
    cases s with
    | name n =>
      rw [plainNames?_concat_name, Option.bind_eq_some_iff] at h
      obtain ⟨before, hbefore, h⟩ := h
      obtain rfl := Option.some.inj h
      simp [ih hbefore, Nat.add_assoc]
    | up =>
      obtain ⟨last, hbefore⟩ := plainNames?_concat_up_eq_some_iff.1 h
      simp only [ih hbefore, List.length_append, List.length_singleton, List.countP_singleton,
        List.count_singleton_self, bne_self_eq_false, Bool.false_eq_true, if_false]
      omega

/-- Moves have plain names exactly if they never climb above where they begin. -/
theorem isSome_plainNames?_iff : (plainNames? steps).isSome ↔ Step.StaysBelow steps := by
  -- From the end of the moves, where a last `..` finds a name to take back if more
  -- names than `..` stand before it.
  induction steps using List.reverseRecOn with
  | nil => exact iff_of_true rfl (by decide)
  | append_singleton steps s ih =>
    rw [Step.staysBelow_concat_iff, ← ih, List.countP_append, List.count_append]
    cases hnames : plainNames? steps with
    | none => cases s <;> simp [plainNames?_concat_name, plainNames?_concat_up, hnames]
    | some names =>
      rw [countP_of_plainNames? hnames]
      cases s with
      | name n => simp [plainNames?_concat_name, hnames, Nat.add_assoc]
      | up => cases names <;> simp [plainNames?_concat_up, hnames]

end Request

/-! ## Without links -/

namespace Location

/-- Where a move leads from a place if no link is there. -/
def go (place : Location) : Step → Location
  | .up => place.parent
  | .name n => place ++ [n]

/-- Where moves lead from a place if no links are there. -/
def goAll (place : Location) (steps : List Step) : Location := steps.foldl go place

end Location

/-- While moves do not climb above where they begin, they stay at their plain
    names. -/
theorem Request.goAll_of_plainNames? {steps : List Step} {names : List Name} (place : Location)
    (h : plainNames? steps = some names) : place.goAll steps = place ++ names := by
  induction steps using List.reverseRecOn generalizing names with
  | nil =>
    obtain rfl := Option.some.inj h
    exact (List.append_nil place).symm
  | append_singleton steps s ih =>
    rw [Location.goAll, List.foldl_concat]
    cases s with
    | name n =>
      rw [plainNames?_concat_name, Option.bind_eq_some_iff] at h
      obtain ⟨before, hbefore, h⟩ := h
      obtain rfl := Option.some.inj h
      rw [← Location.goAll, ih hbefore, Location.go, List.append_assoc]
    | up =>
      obtain ⟨last, hbefore⟩ := plainNames?_concat_up_eq_some_iff.1 h
      rw [← Location.goAll, ih hbefore, Location.go, Location.parent, ← List.append_assoc,
        List.dropLast_concat]

namespace Disk

/-- No link stands anywhere on the disk. -/
def HasNoLinks (d : Disk) : Prop := ∀ place target, d.entryAt? place ≠ some (.link target)

variable {d : Disk} {hops : Nat} {place : Location} {steps : List Step}

theorem HasNoLinks.linkFree (hlinks : d.HasNoLinks) (place : Location) : d.LinkFree place := by
  intro q _ _
  rw [Option.eq_none_iff_forall_ne_some]
  intro target htarget
  exact hlinks q target (targetAt?_eq_some_iff.1 htarget)

/-- On a disk without links, a walk ends where its moves say, whatever is there. -/
theorem walk_of_hasNoLinks (hlinks : d.HasNoLinks) :
    d.walk hops place steps = .ok (place.goAll steps) := by
  induction steps generalizing place with
  | nil => exact walk_nil
  | cons s rest ih =>
    cases s with
    | up => rw [walk_up, ih]; rfl
    | name n => rw [walk_name (hlinks.linkFree _).linkTarget?_eq_none, ih]; rfl

theorem walkPath_of_hasNoLinks (hlinks : d.HasNoLinks) :
    d.walkPath place ⟨Step.textOf steps⟩ = .ok (place.goAll steps) := by
  rw [walkPath, Step.isAbsolute_textOf, Step.steps_textOf]
  exact walk_of_hasNoLinks hlinks

end Disk

namespace Site

variable {site : Site} {d : Disk} {n : Name}

theorem namesIndex_iff {request : String}
    (hindex : (Path.mk site.index).components = [.step (.name n)]) :
    site.namesIndex request = true ↔ ∃ steps names, Request.sanitize request = .ok steps ∧
      Request.plainNames? steps = some names ∧ (names = [] ∨ names = [n]) := by
  rw [namesIndex]
  cases Request.sanitize request with
  | error refusal => simp
  | ok steps => simp [Option.any_eq_true, isIndexNames_of_components hindex]

/-- On a disk without links, a request names the index document exactly if it is not
    refused, none of its starts climbs above the root, and it leads to the root or
    to the index document's place in it, whether or not anything is there. -/
theorem namesIndex_iff_walkPath (hlinks : d.HasNoLinks)
    (hindex : (Path.mk site.index).components = [.step (.name n)]) (root : Location)
    (request : String) :
    site.namesIndex request = true ↔ ∃ steps, Request.sanitize request = .ok steps ∧
      Step.StaysBelow steps ∧
      (d.walkPath root ⟨Step.textOf steps⟩ = .ok root ∨
        d.walkPath root ⟨Step.textOf steps⟩ = .ok (root ++ [n])) := by
  rw [namesIndex_iff hindex]
  refine exists_congr fun steps => ?_
  rw [exists_and_left, Disk.walkPath_of_hasNoLinks hlinks, ← Request.isSome_plainNames?_iff]
  refine and_congr_right fun _ => ?_
  cases hnames : Request.plainNames? steps with
  | none => simp
  | some names => simp [Request.goAll_of_plainNames? root hnames]

end Site

namespace Specimen

/-- A site with nothing in its root. -/
def bare : Disk := diskOf []

theorem hasNoLinks_bare : bare.HasNoLinks := by
  intro place target h
  obtain ⟨node, hnode, hentry⟩ := Option.map_eq_some_iff.1 h
  have hlink : node.entry ≠ .directory := by simp [hentry]
  obtain ⟨_, hsrv⟩ := Node.exists_find?_of_singleton hnode hlink
  obtain ⟨rest, hweb⟩ := Node.exists_find?_of_singleton hsrv hlink
  cases rest with
  | nil =>
    obtain rfl := Option.some.inj hweb
    exact hlink rfl
  | cons n rest => simp [Node.find?, Node.entries] at hweb

end Specimen

open Specimen in
/-- An index document that is not there is named by way of a missing directory. By
    way of the directory above the root it is not, although the walk leads to its
    place. -/
theorem Site.namesIndex_iff_walkPath_bare :
    bare.HasNoLinks ∧
    (Path.mk Specimen.site.index).components = [.step (.name indexHtml)] ∧
    bare.entryAt? [srv, web, indexHtml] = none ∧
    Specimen.site.namesIndex "gone/../index.html" = true ∧
    Request.sanitize "../web/index.html" = .ok [.up, .name web, .name indexHtml] ∧
    bare.walkPath [srv, web] ⟨Step.textOf [.up, .name web, .name indexHtml]⟩ =
      .ok [srv, web, indexHtml] ∧
    ¬ Specimen.site.namesIndex "../web/index.html" = true := by
  have hindex : (Path.mk Specimen.site.index).components = [.step (.name indexHtml)] := by
    decide +kernel
  have hgone : Request.sanitize "gone/../index.html" = .ok [.name gone, .up, .name indexHtml] := by
    decide +kernel
  have habove : Request.sanitize "../web/index.html" = .ok [.up, .name web, .name indexHtml] := by
    decide +kernel
  have hiff := fun request =>
    namesIndex_iff_walkPath hasNoLinks_bare hindex [srv, web] request
  refine ⟨hasNoLinks_bare, hindex, by decide +kernel, ?_, habove,
    Disk.walkPath_of_hasNoLinks hasNoLinks_bare, ?_⟩
  · exact (hiff _).2 ⟨_, hgone, by decide, .inr (Disk.walkPath_of_hasNoLinks hasNoLinks_bare)⟩
  · intro hnames
    obtain ⟨steps, hsteps, hbelow, _⟩ := (hiff _).1 hnames
    obtain rfl := Except.ok.inj (habove.symm.trans hsteps)
    exact absurd hbelow (by decide)

end Docroot
