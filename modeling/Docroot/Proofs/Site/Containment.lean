import Docroot.Proofs.Site.Resolving
import Docroot.Proofs.Specimen

/-!
# Containment

Whatever the disk, the site and the request are, what is given out is a regular
file at or below the root, at its own canonical place, and the data given out is
that file's.
-/

namespace Docroot.Site

variable {site : Site} {d : Disk} {root place : Location} {request : String} {entry : Entry}

/-- What stands in the root within reach is its own canonical place. -/
theorem Stands.canonicalize_path (h : Stands d root place entry) :
    d.canonicalize place.path = .ok place := by
  rw [Disk.canonicalize_path]
  refine Disk.canonicalizeAt_of_isPlain ⟨entry, h.entryAt?, ?_⟩ h.bytes_lt
  have hlink := h.linkFree place List.prefix_rfl h.bytes_lt
  rwa [Disk.targetAt?, h.entryAt?, Option.bind_some] at hlink

/-- No link stands at the place or on the way to it. -/
theorem Stands.not_link (h : Stands d root place entry) {q : Location} (hq : q <+: place)
    (target : Path) : d.entryAt? q ≠ some (.link target) :=
  h.linkFree.not_link hq (Location.bytes_lt_of_prefix hq h.bytes_lt)

/-- What is resolved is contained: its place is canonical, with no link on the
    way, at or below the canonical root, and the asset is the regular file that
    stands there. -/
theorem resolve_contained {asset : Asset} (h : site.resolve d request = .ok asset) :
    ∃ root, d.canonicalize site.root = .ok root ∧
      d.canonicalize asset.place.path = .ok asset.place ∧
      (∀ q, q <+: asset.place → ∀ target, d.entryAt? q ≠ some (.link target)) ∧
      root.isWithin asset.place = true ∧ site.IsAsset d asset := by
  obtain ⟨root, entry, hhome, hstands, hasset⟩ := resolve_eq_ok h
  exact ⟨root, hhome, hstands.canonicalize_path, fun q hq => hstands.not_link hq,
    hstands.isWithin, hasset⟩

open Specimen in
/-- A request that goes through two links, one of which leaves the root and comes
    back, resolves to a sheet below the root. -/
theorem resolve_contained_look :
    Specimen.site.resolve disk "round/../look.css" =
      .ok (.text [srv, web, assets, appCss] "p { }") ∧
    ∃ root, disk.canonicalize Specimen.site.root = .ok root ∧
      disk.canonicalize (Location.path [srv, web, assets, appCss]) =
        .ok [srv, web, assets, appCss] ∧
      (∀ q, q <+: [srv, web, assets, appCss] → ∀ target, disk.entryAt? q ≠ some (.link target)) ∧
      root.isWithin [srv, web, assets, appCss] = true ∧
      Specimen.site.IsAsset disk (.text [srv, web, assets, appCss] "p { }") := by
  have h : Specimen.site.resolve disk "round/../look.css" =
      .ok (.text [srv, web, assets, appCss] "p { }") := by decide +kernel
  have hcontained := resolve_contained h
  exact ⟨h, hcontained⟩

end Docroot.Site
