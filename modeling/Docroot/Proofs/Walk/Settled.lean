import Docroot.Proofs.Request.Reading
import Docroot.Proofs.Specimen
import Docroot.Proofs.Walk.Moves

/-!
# Settled places

A place without links is *settled*: seen from any place above it, it is reached by
the names between the two, and a walk along these names meets no link
(`walk_of_linkFree`). It does not matter whether anything is there.

A walk from a canonical base ends at such a place (`LinkFree.walkPath`). So to walk
there again, from wherever on the way to it, changes nothing
(`walkPath_settles`).
-/

namespace Docroot.Disk

variable {d : Disk} {base q : Location} {names : List Name} {p : Path}

/-- A place without links is walked to from any place above it, by the path on which
    it is seen from there. -/
theorem walkPath_of_linkFree (hfree : d.LinkFree (base ++ names)) :
    d.walkPath base ⟨Step.textOf (names.map .name)⟩ = .ok (base ++ names) := by
  rw [walkPath, Step.isAbsolute_textOf, Step.steps_textOf]
  exact walk_of_linkFree hfree

/-- Where a walk from a canonical base ends is an absolute path of names alone, on
    which no link stands that a path can reach, and a walk to it from any place on
    the way to it ends there again. -/
theorem walkPath_settles (hbase : d.canonicalize base.path = .ok base)
    (h : d.walkPath base p = .ok q) :
    q.path.isAbsolute = true ∧
    q.path.components = .root :: q.map (fun n => .step (.name n)) ∧
    (∀ r : Location, r <+: q → r.bytes < maxPathBytes →
      ∀ target, d.entryAt? r ≠ some (.link target)) ∧
    ∀ b : Location, b <+: q →
      ∃ rest, b.path.relativeTo? q.path = some rest ∧ d.walkPath b rest = .ok q := by
  have hfree : d.LinkFree q := (isPlain_of_canonicalize hbase).linkFree.walkPath h
  refine ⟨Location.isAbsolute_path, Location.components_path,
    fun r hr hbytes target => hfree.not_link hr hbytes, ?_⟩
  rintro b ⟨names, rfl⟩
  exact ⟨_, Location.relativeTo?_path b names, walkPath_of_linkFree hfree⟩

open Specimen in
/-- Out of a missing directory, through a link that leads nowhere to another one, the
    walk comes to a place outside the base where nothing is, and keeps to it. -/
theorem walkPath_settles_gone :
    disk.canonicalize (Location.path [srv, web]) = .ok [srv, web] ∧
    disk.walkPath [srv, web] ⟨"gone/../first"⟩ = .ok [etc, gone] ∧
    disk.entryAt? [etc, gone] = none ∧
    ∀ b : Location, b <+: [etc, gone] →
      ∃ rest, b.path.relativeTo? (Location.path [etc, gone]) = some rest ∧
        disk.walkPath b rest = .ok [etc, gone] := by
  have hbase : disk.canonicalize (Location.path [srv, web]) = .ok [srv, web] := by decide
  have hwalk : disk.walkPath [srv, web] ⟨"gone/../first"⟩ = .ok [etc, gone] := by decide +kernel
  obtain ⟨_, _, _, hsettled⟩ := walkPath_settles hbase hwalk
  exact ⟨hbase, hwalk, by decide, hsettled⟩

end Docroot.Disk
