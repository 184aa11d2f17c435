import Docroot.Proofs.Site.Escape
import Docroot.Proofs.Walk.Limits

/-!
# Links whose targets are known

The target of a link is known as soon as the link can be read, be there
something at that place or not. Only a link that leads in a circle, or further
than the system goes, has none that can be found out; so a request that a link
leads to a missing place in the root is one for something missing.

The walk of a request keeps to this unless a link leads through something that
is there and is no directory (`Disk.Blocks`). A request that passes such a link
is denied, although one that names the place behind the link is told that
nothing is there (`known_targets_followed`, `below_file_denied`).
-/

namespace Docroot.Site

variable {site : Site} {d : Disk} {root place q : Location} {request : String} {steps : List Step}
  {k : Nat}

/-- The walk of a request is the walk of its moves, the index document's in the
    place of none. -/
theorem walkTo_eq_walkFrom (hindex : steps = [] → (Path.mk site.index).isAbsolute = false) :
    site.walkTo d root steps = d.walkFrom root (site.movesFor steps) := by
  cases steps with
  | nil => simp [walkTo, walkToIndex, movesFor, Disk.walkPath, hindex rfl]
  | cons s rest => rfl

/-- A place in the root where the system knows that nothing is makes the request
    one for something missing. -/
theorem inspect_of_missing (hfree : d.LinkFree q) (hfits : q.Fits)
    (hwithin : root.isWithin q = true) (hmissing : d.entryAt? q = none) :
    inspect d root request (.ok q) = .error (.notFound request) := by
  rcases Disk.statusAt_of_missing hfree hfits hmissing with h | h <;> simp [inspect, hwithin, h]

/-- Where expansion ends at a missing place in the root, the request is one for
    something missing if its walk ends there, and denied if not. -/
theorem resolve_of_expands_missing (hsteps : Request.sanitize request = .ok steps)
    (hhome : site.home d = .ok root)
    (hindex : steps = [] → (Path.mk site.index).isAbsolute = false)
    (h : d.Expands k root (site.movesFor steps) q) (hlinks : k ≤ maxLinks)
    (hfits : ∀ p, d.Passes root (site.movesFor steps) p → p.Fits)
    (hwithin : root.isWithin q = true) (hmissing : d.entryAt? q = none) :
    (¬ d.Blocks root (site.movesFor steps) →
      site.resolve d request = .error (.notFound request)) ∧
    (d.Blocks root (site.movesFor steps) →
      site.resolve d request = .error (.accessDenied request)) := by
  have hplain := isPlain_of_home hhome
  have hwalk := Disk.walk_eq_ok_iff_of_expands hplain.linkFree h hlinks hfits
  rw [resolve_eq_locate hsteps hhome, locate, walkTo_eq_walkFrom hindex]
  constructor
  · intro hfree
    have hwalked := hwalk.2 hfree
    have hq : q.Fits := by
      refine (h.fits hfits).resolve_left fun hprefix => ?_
      have hsome := hplain.isSome_of_prefix hprefix
      rw [hmissing] at hsome
      cases hsome
    have hfreeq : d.LinkFree q := hplain.linkFree.walk hwalked
    rw [hwalked, inspect_of_missing hfreeq hq hwithin hmissing]
    rfl
  · intro hblocks
    cases hwalked : d.walkFrom root (site.movesFor steps) with
    | error refusal => rfl
    | ok p =>
      obtain ⟨j, hj⟩ := Disk.expands_of_walk hplain.linkFree hwalked
      obtain rfl : p = q := (hj.unique h).2
      exact absurd hblocks (hwalk.1 hwalked)

/-- Let expansion end within the limits of the system. Then the walk ends at the
    same place exactly if the system answers "Not a directory" for no link on the
    way. If the place is in the root and nothing is there, a request for it is
    then one for something missing, and denied otherwise. -/
theorem known_targets_followed (d : Disk) :
    (∀ (base q : Location) (p : Path) (k : Nat), d.canonicalize base.path = .ok base →
      p.isAbsolute = false → d.Expands k base p.steps q → k ≤ maxLinks →
      (∀ r, d.Passes base p.steps r → r.Fits) →
      (d.walkPath base p = .ok q ↔ ¬ d.Blocks base p.steps)) ∧
    ∀ (site : Site) (request : String) (steps : List Step) (root q : Location) (k : Nat),
      Request.sanitize request = .ok steps → d.canonicalize site.root = .ok root →
      (steps = [] → (Path.mk site.index).isAbsolute = false) →
      d.Expands k root (site.movesFor steps) q → k ≤ maxLinks →
      (∀ r, d.Passes root (site.movesFor steps) r → r.Fits) →
      root.isWithin q = true → d.entryAt? q = none →
      (¬ d.Blocks root (site.movesFor steps) →
        site.resolve d request = .error (.notFound request)) ∧
      (d.Blocks root (site.movesFor steps) →
        site.resolve d request = .error (.accessDenied request)) := by
  refine ⟨fun base q p k hbase hp h hlinks hfits => ?_,
    fun site request steps root q k hsteps hhome hindex h hlinks hfits hwithin hmissing => ?_⟩
  · have hfree := (Disk.isPlain_of_canonicalize hbase).linkFree
    rw [Disk.walkPath, hp]
    exact Disk.walk_eq_ok_iff_of_expands hfree h hlinks hfits
  · exact resolve_of_expands_missing hsteps hhome hindex h hlinks hfits hwithin hmissing

end Docroot.Site

namespace Docroot.Specimen

def late : Name := ⟨"late", by decide⟩
def below : Name := ⟨"below", by decide⟩

/-- A site with two links to places where nothing is: `late` leads to a file that
    is missing from a directory, `below` to a place below a regular file. -/
def hollow : Disk :=
  diskOf
    [(indexHtml, .file (.ofText "<p>home</p>")),
     (assets, .directory []),
     (late, .link ⟨"assets/app.css"⟩),
     (below, .link ⟨"index.html/below"⟩)]

theorem linkFree_late : hollow.LinkFree [srv, web, assets, appCss] := by
  have hdir : hollow.isDirectory [srv, web, assets] = true := by decide +kernel
  have hnone : hollow.targetAt? [srv, web, assets, appCss] = none := by decide +kernel
  exact (Disk.isPlain_of_isDirectory hdir).linkFree.concat fun _ => hnone

theorem linkFree_below : hollow.LinkFree [srv, web, indexHtml, below] := by
  have hfile : hollow.entryAt? [srv, web, indexHtml] = some (.file (.ofText "<p>home</p>")) := by
    decide +kernel
  have hplain : hollow.IsPlain [srv, web, indexHtml] := ⟨_, hfile, rfl⟩
  have hnone : hollow.targetAt? [srv, web, indexHtml, below] = none := by decide +kernel
  exact hplain.linkFree.concat fun _ => hnone

end Docroot.Specimen

namespace Docroot.Site

open Specimen in
/-- The link `late` is followed to the missing file it leads to, and a request for
    it is told that nothing is there. -/
theorem known_targets_followed_late :
    hollow.walkPath [srv, web] ⟨"late"⟩ = .ok [srv, web, assets, appCss] ∧
    Specimen.site.resolve hollow "late" = .error (.notFound "late") := by
  have hbase : hollow.canonicalize (Location.path [srv, web]) = .ok [srv, web] := by decide +kernel
  have hroot : hollow.canonicalize Specimen.site.root = .ok [srv, web] := by decide +kernel
  have hsteps : Request.sanitize "late" = .ok [.name late] := by decide +kernel
  have hlink : hollow.visibleTarget? [srv, web, late] = some ⟨"assets/app.css"⟩ := by
    decide +kernel
  have hmoves : (Path.mk "assets/app.css").steps = [assets, appCss].map .name := by decide +kernel
  have hexpands : hollow.Expands 1 [srv, web] [.name late] [srv, web, assets, appCss] :=
    .of_link_to_names hlink hmoves linkFree_late
  have hfits : ∀ p, hollow.Passes [srv, web] [.name late] p → p.Fits := fun p hp =>
    hp.fits_of_link_to_names hlink (by decide) hmoves linkFree_late (by decide)
  have hmissing : hollow.entryAt? [srv, web, assets, appCss] = none := by decide +kernel
  have hblocks : ¬ hollow.Blocks [srv, web] [.name late] := by
    rintro ⟨p, hp, hsome, hblocked⟩
    rcases hp.of_link hlink with rfl | hp
    · exact absurd hblocked (by decide +kernel)
    · rw [hmoves, List.append_nil] at hp
      have hnone := linkFree_late p (linkFree_late.prefix_of_passes hp)
      rw [Disk.visibleTarget?_eq_none_iff.2 hnone] at hsome
      cases hsome
  obtain ⟨hwalk, hresolve⟩ := known_targets_followed hollow
  refine ⟨?_, ?_⟩
  · exact (hwalk _ _ ⟨"late"⟩ 1 hbase (by decide) hexpands (by decide) hfits).2 hblocks
  · exact (hresolve Specimen.site "late" _ _ _ 1 hsteps hroot (by simp) hexpands (by decide) hfits
      (by decide) hmissing).1 hblocks

open Specimen in
/-- The link `below` has a target that is known and in the root, but its way leads
    through a file: a request for it is denied, while one for the place it leads
    to is told that nothing is there. -/
theorem below_file_denied :
    hollow.canonicalize (Location.path [srv, web]) = .ok [srv, web] ∧
    hollow.Expands 1 [srv, web] [.name below] [srv, web, indexHtml, below] ∧
    (∀ p, hollow.Passes [srv, web] [.name below] p → p.Fits) ∧
    hollow.walkPath [srv, web] ⟨"below"⟩ = .error .unresolvableLink ∧
    Specimen.site.resolve hollow "below" = .error (.accessDenied "below") ∧
    Specimen.site.resolve hollow "index.html/below" = .error (.notFound "index.html/below") := by
  have hlink : hollow.visibleTarget? [srv, web, below] = some ⟨"index.html/below"⟩ := by
    decide +kernel
  have hmoves : (Path.mk "index.html/below").steps = [indexHtml, below].map .name := by
    decide +kernel
  refine ⟨by decide +kernel, .of_link_to_names hlink hmoves linkFree_below, fun p hp => ?_, ?_⟩
  · exact hp.fits_of_link_to_names hlink (by decide) hmoves linkFree_below (by decide)
  · decide +kernel

end Docroot.Site
