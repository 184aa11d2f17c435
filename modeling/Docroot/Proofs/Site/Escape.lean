import Docroot.Proofs.Site.Resolving
import Docroot.Proofs.Specimen
import Docroot.Proofs.Walk.Expansion

/-!
# Escapes are denied

Whether a request leads out of the root can be read off the targets of its links
alone: where the expansion of all links (`Disk.Expands`) ends outside, the
request is denied, be there something at that place or not, and so it is where
the expansion of the index document in a requested directory ends outside. What
links lead to is never decided differently because it exists.
-/

namespace Docroot.Site

variable {site : Site} {d : Disk} {root place q : Location} {request : String} {steps : List Step}
  {k : Nat}

/-- The moves made from the root for those that a request asks for; no moves
    stand for the index document. -/
def movesFor (site : Site) (steps : List Step) : List Step :=
  if steps.isEmpty then (Path.mk site.index).steps else steps

theorem expands_of_walkPath {p : Path} (hfree : d.LinkFree root)
    (h : d.walkPath root p = .ok place) : ∃ k, d.Expands k root p.steps place := by
  rw [Disk.walkPath] at h
  split at h
  · cases h
  · exact Disk.expands_of_walk hfree h

theorem expands_of_walkTo (hfree : d.LinkFree root) (h : site.walkTo d root steps = .ok place) :
    ∃ k, d.Expands k root (site.movesFor steps) place := by
  rw [walkTo] at h
  rw [movesFor]
  split_ifs at h ⊢ with hsteps
  · exact expands_of_walkPath hfree h
  · exact Disk.expands_of_walk hfree h

/-- A walk that does not end in the root is denied. -/
theorem inspect_of_not_isWithin {walked : Except Refusal Location}
    (h : ∀ p, walked = .ok p → root.isWithin p = false) :
    inspect d root request walked = .error (.accessDenied request) := by
  cases walked with
  | error refusal => rfl
  | ok p => simp [inspect, h p rfl]

theorem resolve_of_outside (hsteps : Request.sanitize request = .ok steps)
    (hhome : site.home d = .ok root)
    (h : ∀ p, site.walkTo d root steps = .ok p → root.isWithin p = false) :
    site.resolve d request = .error (.accessDenied request) := by
  rw [resolve_eq_locate hsteps hhome, locate, inspect_of_not_isWithin h]
  rfl

theorem resolve_of_escape (hsteps : Request.sanitize request = .ok steps)
    (hhome : site.home d = .ok root) (h : d.Expands k root (site.movesFor steps) q)
    (hout : root.isWithin q = false) : site.resolve d request = .error (.accessDenied request) := by
  refine resolve_of_outside hsteps hhome fun p hp => ?_
  obtain ⟨j, hj⟩ := expands_of_walkTo (isPlain_of_home hhome).linkFree hp
  rwa [(hj.unique h).2]

theorem resolve_of_index_escape {directory : Location} {j : Nat}
    (hsteps : Request.sanitize request = .ok steps) (hhome : site.home d = .ok root)
    (h : d.Expands j root (site.movesFor steps) directory)
    (hdir : d.isDirectory directory = true) (hbytes : directory.bytes < maxPathBytes)
    (hindex : d.Expands k directory (Path.mk site.index).steps q)
    (hout : root.isWithin q = false) : site.resolve d request = .error (.accessDenied request) := by
  have hfree := (isPlain_of_home hhome).linkFree
  cases hwalk : site.walkTo d root steps with
  | error refusal => exact resolve_of_outside hsteps hhome (by simp [hwalk])
  | ok p =>
    obtain ⟨i, hi⟩ := expands_of_walkTo hfree hwalk
    -- The walk ends in the directory, as expansion does. It is denied if that
    -- is outside already, and otherwise the index document is walked to.
    obtain rfl : p = directory := (hi.unique h).2
    have hp : d.LinkFree p := linkFree_of_walkTo hfree hwalk
    cases hwithin : root.isWithin p with
    | false =>
      exact resolve_of_outside hsteps hhome fun r hr =>
        Except.ok.inj (hwalk.symm.trans hr) ▸ hwithin
    | true =>
      have hdenied : inspect d root request (site.walkToIndex d p) =
          .error (.accessDenied request) := by
        refine inspect_of_not_isWithin fun r hr => ?_
        obtain ⟨m, hm⟩ := expands_of_walkPath hp hr
        rwa [(hm.unique hindex).2]
      rw [resolve_eq_locate hsteps hhome,
        locate_of_directory hwalk ⟨hp, hwithin, hbytes, Disk.isDirectory_iff.1 hdir⟩, hdenied]
      rfl

/-- A walk ends where the expansion of all links ends, and expansion ends nowhere
    else. So a request whose expansion ends outside the root is denied, whatever
    is there, and so is a request for a directory whose index document leads out. -/
theorem expansion_judges (d : Disk) :
    (∀ (base place : Location) (p : Path), d.canonicalize base.path = .ok base →
      d.walkPath base p = .ok place →
      (∃ k, d.Expands k base p.steps place) ∧ ∀ k q, d.Expands k base p.steps q → q = place) ∧
    ∀ (site : Site) (request : String) (steps : List Step) (root : Location),
      Request.sanitize request = .ok steps → d.canonicalize site.root = .ok root →
      (∀ k q, d.Expands k root (site.movesFor steps) q → root.isWithin q = false →
        site.resolve d request = .error (.accessDenied request)) ∧
      ∀ j directory k q, d.Expands j root (site.movesFor steps) directory →
        d.isDirectory directory = true → directory.bytes < maxPathBytes →
        d.Expands k directory (Path.mk site.index).steps q → root.isWithin q = false →
        site.resolve d request = .error (.accessDenied request) := by
  refine ⟨fun base place p hbase hwalk => ?_, fun site request steps root hsteps hhome => ⟨?_, ?_⟩⟩
  · obtain ⟨k, hk⟩ := expands_of_walkPath (Disk.isPlain_of_canonicalize hbase).linkFree hwalk
    exact ⟨⟨k, hk⟩, fun j q hj => (hj.unique hk).2⟩
  · intro k q h hout
    exact resolve_of_escape hsteps hhome h hout
  · intro j directory k q h hdir hbytes hindex hout
    exact resolve_of_index_escape hsteps hhome h hdir hbytes hindex hout

open Specimen in
/-- The link `first` leads to `second`, which leads to a missing place outside the
    root, so a walk along it ends there, a request for it is denied, and so is one
    for `assets` if the index document is `../second`. -/
theorem expansion_judges_second :
    (disk.walkPath [srv, web] ⟨"first"⟩ = .ok [etc, gone] ∧
      (∃ k, disk.Expands k [srv, web] [.name first] [etc, gone]) ∧
      ∀ k q, disk.Expands k [srv, web] [.name first] q → q = [etc, gone]) ∧
    (Location.isWithin [srv, web] [etc, gone] = false ∧
      Specimen.site.resolve disk "first" = .error (.accessDenied "first")) ∧
    (Site.mk ⟨"web"⟩ "../second" []).resolve disk "assets" = .error (.accessDenied "assets") := by
  have hbase : disk.canonicalize (Location.path [srv, web]) = .ok [srv, web] := by decide +kernel
  have hroot : disk.canonicalize ⟨"web"⟩ = .ok [srv, web] := by decide +kernel
  have hwalk : disk.walkPath [srv, web] ⟨"first"⟩ = .ok [etc, gone] := by decide +kernel
  have hfirst : disk.visibleTarget? [srv, web, first] = some ⟨"second"⟩ := by decide +kernel
  have hsecond : disk.visibleTarget? [srv, web, second] = some ⟨"/etc/gone"⟩ := by decide +kernel
  have hassets : disk.visibleTarget? [srv, web, assets] = none := by decide +kernel
  have hetc : disk.visibleTarget? [etc] = none := by decide +kernel
  have hgone : disk.visibleTarget? [etc, gone] = none := by decide +kernel
  have hend : disk.Expands 1 [srv, web] [.name second] [etc, gone] :=
    .link hsecond (.name hetc (.name hgone .done))
  have hout : Location.isWithin [srv, web] [etc, gone] = false := by decide
  obtain ⟨hsame, hjudge⟩ := expansion_judges disk
  refine ⟨⟨hwalk, hsame _ _ ⟨"first"⟩ hbase hwalk⟩, ⟨hout, ?_⟩, ?_⟩
  · have hsteps : Request.sanitize "first" = .ok [.name first] := by decide +kernel
    exact (hjudge Specimen.site "first" _ _ hsteps hroot).1 _ _ (.link hfirst hend) hout
  · have hsteps : Request.sanitize "assets" = .ok [.name assets] := by decide +kernel
    have hdir : disk.isDirectory [srv, web, assets] = true := by decide +kernel
    exact (hjudge ⟨⟨"web"⟩, "../second", []⟩ "assets" _ _ hsteps hroot).2 _ [srv, web, assets] _ _
      (.name hassets .done) hdir (by decide) (.up hend) hout

end Docroot.Site
