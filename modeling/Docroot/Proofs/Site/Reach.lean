import Docroot.Proofs.Request.Reading
import Docroot.Proofs.Site.Resolving
import Docroot.Proofs.Specimen
import Docroot.Proofs.Walk.Agreement

/-!
# What exists is found

A request for something that the system finds is never answered as missing or
denied. If a path joined to a base has a canonical place, the walk ends there;
so a request for a regular file in the root resolves to that file, and every
file is resolved under its own relative path.
-/

namespace Docroot.Site

variable {site : Site} {d : Disk} {root place q : Location} {request : String} {steps : List Step}
  {entry : Entry} {content : Content}

/-- What else than a directory stands where the walk ends is located. -/
theorem locate_of_walkTo (hwalk : site.walkTo d root steps = .ok place)
    (hstands : Stands d root place entry) (hentry : entry ≠ .directory) :
    site.locate d root request steps = .ok (place, entry) := by
  have hfirst : inspect d root request (.ok place) = .ok (place, entry) :=
    (inspect_eq_ok_iff fun r hr => Except.ok.inj hr ▸ hstands.linkFree).2 ⟨rfl, hstands⟩
  rw [locate, hwalk, hfirst]
  cases entry with
  | directory => exact absurd rfl hentry
  | file | link | special => rfl

/-- A regular file makes an asset, if it is UTF-8 where the site counts it as
    text. -/
theorem exists_isAsset (hfile : d.entryAt? place = some (.file content))
    (htext : site.isText place.getLast? = true → content.text?.isSome) :
    ∃ asset, asset.place = place ∧ site.IsAsset d asset := by
  cases h : site.isText place.getLast? with
  | true =>
    obtain ⟨text, hcontent⟩ := Option.isSome_iff_exists.1 (htext h)
    exact ⟨.text place text, rfl, .text hfile h hcontent⟩
  | false => exact ⟨.binary place content.size, rfl, .binary hfile h⟩

/-- Where a walk ends at a regular file in the root, the request resolves to it. -/
theorem resolve_of_walkFrom (hsteps : Request.sanitize request = .ok steps) (hne : steps ≠ [])
    (hhome : site.home d = .ok root) (hwalk : d.walkFrom root steps = .ok place)
    (hwithin : root.isWithin place = true) (hbytes : place.bytes < maxPathBytes)
    (hfile : d.entryAt? place = some (.file content))
    (htext : site.isText place.getLast? = true → content.text?.isSome) :
    ∃ asset, site.resolve d request = .ok asset ∧ asset.place = place ∧ site.IsAsset d asset := by
  have hfree : d.LinkFree place := (isPlain_of_home hhome).linkFree.walk hwalk
  have hlocate : site.locate d root request steps = .ok (place, .file content) := by
    refine locate_of_walkTo ?_ ⟨hfree, hwithin, hbytes, hfile⟩ (by simp)
    rw [walkTo, if_neg (by simpa using hne), hwalk]
  obtain ⟨asset, hasset⟩ := exists_isAsset hfile htext
  refine ⟨asset, ?_, hasset⟩
  rw [resolve_eq_locate hsteps hhome, hlocate]
  change site.assetAt request place (.file content) = .ok asset
  exact (assetAt_eq_ok_iff hfile).2 hasset

/-- A walk along the names of what stands below a place ends there. -/
theorem walkFrom_of_entryAt? {names : List Name} (hroot : d.LinkFree root)
    (hplain : d.IsPlain (root ++ names)) (hbytes : Location.bytes (root ++ names) < maxPathBytes) :
    d.walkFrom root (names.map .name) = .ok (root ++ names) := by
  rw [Disk.walkFrom, ← Component.filterMap_step?_names]
  exact Disk.walk_of_finds hroot (Nat.zero_le maxLinks) (hplain.finds hbytes)

/-- The names of a request that leads to a file are stored on the disk. -/
theorem isPlainStep_of_entryAt? {names : List Name}
    (hentry : d.entryAt? (root ++ names) = some entry)
    (hback : ∀ n ∈ names, '\\' ∉ n.text.toList) :
    ∀ s ∈ names.map Step.name, Request.IsPlainStep s := by
  intro s hs
  obtain ⟨n, hn, rfl⟩ := List.mem_map.1 hs
  refine ⟨?_, hback n hn⟩
  have hstorable := Disk.isStorable_of_mem hentry n (List.mem_append_right _ hn)
  have hnul := (Name.isStorable_iff.1 hstorable).2
  rw [Name.hasNul, List.contains_eq_mem, decide_eq_false_iff_not] at hnul
  exact hnul

/-- The walk ends wherever the system finds a canonical place. So a request
    resolves to the regular file in the root which the system finds for it, and
    to every regular file in the root under that file's own path. -/
theorem resolve_what_exists (d : Disk) :
    (∀ (base q : Location) (p : Path), d.canonicalize base.path = .ok base →
      p.isAbsolute = false → d.canonicalize (base.path.join p) = .ok q →
      d.walkPath base p = .ok q) ∧
    ∀ (site : Site) (root q : Location) (content : Content),
      d.canonicalize site.root = .ok root → root.isWithin q = true →
      d.entryAt? q = some (.file content) →
      (site.isText q.getLast? = true → content.text?.isSome) →
      (∀ request steps, Request.sanitize request = .ok steps → steps ≠ [] →
        d.canonicalize (root.path.join ⟨Step.textOf steps⟩) = .ok q →
        ∃ asset, site.resolve d request = .ok asset ∧ asset.place = q ∧ site.IsAsset d asset) ∧
      ∀ names, root ++ names = q → names ≠ [] → q.bytes < maxPathBytes →
        (∀ n ∈ names, '\\' ∉ n.text.toList) →
        names.head?.any (fun n => Request.startsWithDrive n.text.toList) = false →
        ∃ asset, site.resolve d (Step.textOf (names.map .name)) = .ok asset ∧
          asset.place = q ∧ site.IsAsset d asset := by
  refine ⟨fun base q p hbase hp h => ?_,
    fun site root q content hhome hwithin hfile htext => ⟨?_, ?_⟩⟩
  · rw [Disk.walkPath, hp]
    exact Disk.walkFrom_of_canonicalize (Disk.isPlain_of_canonicalize hbase).linkFree hp h
  · intro request steps hsteps hne h
    have hrelative : (Path.mk (Step.textOf steps)).isAbsolute = false := Step.isAbsolute_textOf
    have hwalk := Disk.walkFrom_of_canonicalize (isPlain_of_home hhome).linkFree hrelative h
    rw [Step.steps_textOf] at hwalk
    have hbytes : q.bytes < maxPathBytes :=
      Disk.bytes_lt_of_canonicalize (Path.isAbsolute_join hrelative) h
    exact resolve_of_walkFrom hsteps hne hhome hwalk hwithin hbytes hfile htext
  · rintro names rfl hne hbytes hback hdrive
    have hsteps : Request.sanitize (Step.textOf (names.map .name)) = .ok (names.map .name) := by
      refine Request.sanitize_textOf (isPlainStep_of_entryAt? hfile hback) ?_
      rw [List.head?_map]
      cases names <;> exact hdrive
    have hwalk : d.walkFrom root (names.map .name) = .ok (root ++ names) :=
      walkFrom_of_entryAt? (isPlain_of_home hhome).linkFree ⟨_, hfile, rfl⟩ hbytes
    exact resolve_of_walkFrom hsteps (by simpa using hne) hhome hwalk hwithin hbytes hfile htext

open Specimen in
/-- The sheet below the root is found by way of two links and a `..` between them,
    and under its own path. -/
theorem resolve_what_exists_look :
    disk.walkPath [srv, web] ⟨"round/../look.css"⟩ = .ok [srv, web, assets, appCss] ∧
    (∃ asset, Specimen.site.resolve disk "round/../look.css" = .ok asset ∧
      asset.place = [srv, web, assets, appCss] ∧ Specimen.site.IsAsset disk asset) ∧
    ∃ asset, Specimen.site.resolve disk (Step.textOf [.name assets, .name appCss]) = .ok asset ∧
      asset.place = [srv, web, assets, appCss] ∧ Specimen.site.IsAsset disk asset := by
  have hbase : disk.canonicalize (Location.path [srv, web]) = .ok [srv, web] := by decide +kernel
  have hroot : disk.canonicalize Specimen.site.root = .ok [srv, web] := by decide +kernel
  have hfile : disk.entryAt? [srv, web, assets, appCss] = some (.file (.ofText "p { }")) := by
    decide +kernel
  have htext : (Content.ofText "p { }").text?.isSome := by decide +kernel
  have hsteps : Request.sanitize "round/../look.css" =
      .ok [.name round, .up, .name lookCss] := by decide +kernel
  have hfound : disk.canonicalize (Path.join (Location.path [srv, web]) ⟨"round/../look.css"⟩) =
      .ok [srv, web, assets, appCss] := by decide +kernel
  have hfoundSteps : disk.canonicalize (Path.join (Location.path [srv, web])
      ⟨Step.textOf [.name round, .up, .name lookCss]⟩) = .ok [srv, web, assets, appCss] := by
    decide +kernel
  obtain ⟨hwalk, hserve⟩ := resolve_what_exists disk
  obtain ⟨hrequest, hown⟩ := hserve Specimen.site _ _ _ hroot (by decide) hfile fun _ => htext
  refine ⟨hwalk _ _ _ hbase (by decide) hfound, ?_, ?_⟩
  · exact hrequest _ _ hsteps (by simp) hfoundSteps
  · exact hown [assets, appCss] rfl (by simp) (by decide) (by decide) (by decide)

end Docroot.Site
