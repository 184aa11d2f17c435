import Docroot.Proofs.Path.Written
import Docroot.Proofs.Specimen
import Docroot.Proofs.Walk.Moves

/-!
# Walks in two parts

A walk along two paths joined comes by the place where the first of them leads: the
moves of a link's target go in front of those that are left, so all that the links
of the first path add is done before the second path is begun (`Leads.split`).

From that place the second path is walked as if the walk had started there, save
that both paths share the hops. Walked one behind the other, each has all of them.
So what the joined path leads to is found in two walks as well, and where the first
path needs no hop, the two ways of going agree altogether, in what they refuse too
(`walkPath_join`).
-/

namespace Docroot.Disk

variable {d : Disk} {k : Nat} {base place q : Location} {steps xs ys : List Step} {x y : Path}

/-- Moves in two parts lead to a place between them, and the links followed by hand
    add up. -/
theorem Leads.split (h : d.Leads k place steps q) (hsteps : xs ++ ys = steps) :
    ∃ i j r, i + j = k ∧ d.Leads i place xs r ∧ d.Leads j r ys q := by
  -- On the derivation: where it follows a link by hand, the target joins the first
  -- part.
  induction h generalizing xs with
  | done =>
    obtain ⟨rfl, rfl⟩ := List.append_eq_nil_iff.1 hsteps
    exact ⟨0, 0, _, rfl, .done, .done⟩
  | up hrest ih =>
    rcases List.append_eq_cons_iff.1 hsteps with ⟨rfl, rfl⟩ | ⟨xs, rfl, rfl⟩
    · exact ⟨0, _, _, Nat.zero_add _, .done, .up hrest⟩
    · obtain ⟨i, j, r, hk, hx, hy⟩ := ih rfl
      exact ⟨i, j, r, hk, .up hx, hy⟩
  | name hnone hrest ih =>
    rcases List.append_eq_cons_iff.1 hsteps with ⟨rfl, rfl⟩ | ⟨xs, rfl, rfl⟩
    · exact ⟨0, _, _, Nat.zero_add _, .done, .name hnone hrest⟩
    · obtain ⟨i, j, r, hk, hx, hy⟩ := ih rfl
      exact ⟨i, j, r, hk, .name hnone hx, hy⟩
  | link hsome hresolved hrest ih =>
    rcases List.append_eq_cons_iff.1 hsteps with ⟨rfl, rfl⟩ | ⟨xs, rfl, rfl⟩
    · exact ⟨0, _, _, Nat.zero_add _, .done, .link hsome hresolved hrest⟩
    · obtain ⟨i, j, r, hk, hx, hy⟩ := ih rfl
      exact ⟨i, j, r, hk, .link hsome hresolved hx, hy⟩
  | dangling hsome hmissing hrest ih =>
    rcases List.append_eq_cons_iff.1 hsteps with ⟨rfl, rfl⟩ | ⟨xs, rfl, rfl⟩
    · exact ⟨0, _, _, Nat.zero_add _, .done, .dangling hsome hmissing hrest⟩
    · obtain ⟨i, j, r, hk, hx, hy⟩ := ih (List.append_assoc _ xs ys)
      exact ⟨i + 1, j, r, by omega, .dangling hsome hmissing hx, hy⟩

/-- A walk that ends comes by a place between two parts of its moves, and each part
    alone can be walked with all the hops. -/
theorem exists_of_walk_append {hops : Nat} (h : d.walk hops place (xs ++ ys) = .ok q) :
    ∃ r, d.walk hops place xs = .ok r ∧ d.walk hops r ys = .ok q := by
  obtain ⟨k, hk, hleads⟩ := exists_leads_of_walk h
  obtain ⟨i, j, r, rfl, hx, hy⟩ := hleads.split rfl
  exact ⟨r, walk_eq_ok_iff.2 ⟨i, by omega, hx⟩, walk_eq_ok_iff.2 ⟨j, by omega, hy⟩⟩

theorem walkPath_of_relative (hx : x.isAbsolute = false) :
    d.walkPath base x = d.walkFrom base x.steps := by
  rw [walkPath, hx, if_neg Bool.false_ne_true]

theorem walkPath_of_absolute (hx : x.isAbsolute = true) :
    d.walkPath base x = .error .absolutePath := by
  rw [walkPath, if_pos hx]

/-- A joined path is relative if both its parts are, and then asks for the moves of
    both. -/
theorem walkPath_join_of_relative (hx : x.isAbsolute = false) (hy : y.isAbsolute = false) :
    d.walkPath base (x.join y) = d.walkFrom base (x.steps ++ y.steps) := by
  have hsteps : (x.join y).steps = x.steps ++ y.steps := by
    rw [Path.steps, Path.segments_join hy, List.filterMap_append]
    rfl
  rw [walkPath_of_relative ((Path.isAbsolute_join_eq hy).trans hx), hsteps]

theorem isAbsolute_of_walkPath (h : d.walkPath base x = .ok q) : x.isAbsolute = false := by
  by_contra hx
  rw [walkPath_of_absolute (Bool.not_eq_false _ ▸ hx)] at h
  cases h

/-- Where two paths lead when they are joined, the second leads from the place where
    the first does. If the first follows no link by hand, walking the joined path is
    walking the second from that place, refusals included. -/
theorem walkPath_join (d : Disk) (base : Location) (x y : Path) :
    (∀ p, d.walkPath base (x.join y) = .ok p →
      ∃ q, d.walkPath base x = .ok q ∧ d.walkPath q y = .ok p) ∧
    ∀ q, d.walkPath base x = .ok q → d.Leads 0 base x.steps q →
      d.walkPath base (x.join y) = d.walkPath q y := by
  cases hy : y.isAbsolute with
  | true =>
    -- Joined to anything, an absolute path starts anew, and is refused either way.
    have hjoin : x.join y = y := if_pos hy
    rw [hjoin]
    refine ⟨fun p hp => ?_, fun q _ _ => ?_⟩
    · rw [walkPath_of_absolute hy] at hp
      cases hp
    · rw [walkPath_of_absolute hy, walkPath_of_absolute hy]
  | false =>
    refine ⟨fun p hp => ?_, fun q hq hleads => ?_⟩
    · have hx : x.isAbsolute = false :=
        (Path.isAbsolute_join_eq hy).symm.trans (isAbsolute_of_walkPath hp)
      rw [walkPath_join_of_relative hx hy] at hp
      obtain ⟨q, hfirst, hsecond⟩ := exists_of_walk_append hp
      exact ⟨q, (walkPath_of_relative hx).trans hfirst, (walkPath_of_relative hy).trans hsecond⟩
    · rw [walkPath_join_of_relative (isAbsolute_of_walkPath hq) hy, walkPath_of_relative hy]
      exact hleads.walk_append (Nat.zero_le maxHops)

end Docroot.Disk

namespace Docroot.Specimen

/-- A site with a link to a directory that is there, one to a directory that is not,
    and one to itself. -/
def turns : Disk :=
  diskOf
    [(assets, .directory []),
     (round, .link ⟨"../web/assets"⟩),
     (gone, .link ⟨"missing"⟩),
     (escape, .link ⟨"escape"⟩)]

end Docroot.Specimen

namespace Docroot.Disk

open Specimen in
/-- The site is entered again through the link to a directory that is there. From
    then on the link to a missing place leads there, and the link to itself is
    refused, as from the site itself. -/
theorem walkPath_join_round :
    (∃ q, turns.walkPath [srv, web] ⟨"round/.."⟩ = .ok q ∧
      turns.walkPath q ⟨"gone/../assets"⟩ = .ok [srv, web, assets]) ∧
    turns.walkPath [srv, web] ((Path.mk "round/..").join ⟨"escape"⟩) =
      turns.walkPath [srv, web] ⟨"escape"⟩ ∧
    turns.walkPath [srv, web] ⟨"escape"⟩ = .error .unresolvableLink := by
  have hjoined : turns.walkPath [srv, web] ((Path.mk "round/..").join ⟨"gone/../assets"⟩) =
      .ok [srv, web, assets] := by decide +kernel
  have hround : turns.walkPath [srv, web] ⟨"round/.."⟩ = .ok [srv, web] := by decide +kernel
  have hnohop : turns.walk 0 [srv, web] (Path.mk "round/..").steps = .ok [srv, web] := by
    decide +kernel
  have hleads : turns.Leads 0 [srv, web] (Path.mk "round/..").steps [srv, web] := by
    obtain ⟨k, hk, hleads⟩ := exists_leads_of_walk hnohop
    exact Nat.le_zero.1 hk ▸ hleads
  exact ⟨(walkPath_join turns [srv, web] ⟨"round/.."⟩ ⟨"gone/../assets"⟩).1 _ hjoined,
    (walkPath_join turns [srv, web] ⟨"round/.."⟩ ⟨"escape"⟩).2 _ hround hleads, by decide +kernel⟩

end Docroot.Disk
