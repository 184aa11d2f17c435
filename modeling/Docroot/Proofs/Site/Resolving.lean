import Docroot.Proofs.Path.Written
import Docroot.Proofs.Walk.Moves
import Docroot.Site

/-!
# Resolving, stage by stage

What each stage of `Site.resolve` has established when it succeeds. The root is
the place of something real, every walk from it ends at a place free of links,
what is found there is what stands there, and the asset is made from just that
entry (`resolve_eq_ok`).
-/

namespace Docroot.Site

variable {site : Site} {d : Disk} {root place : Location} {request : String} {steps : List Step}
  {entry : Entry} {asset : Asset}

/-- The asset is the regular file at its place: its text if the site counts the
    file as text, and otherwise its size. -/
inductive IsAsset (site : Site) (d : Disk) : Asset → Prop
  | text {place : Location} {content : Content} {text : String} :
      d.entryAt? place = some (.file content) → site.isText place.getLast? = true →
      content.text? = some text → site.IsAsset d (.text place text)
  | binary {place : Location} {content : Content} :
      d.entryAt? place = some (.file content) → site.isText place.getLast? = false →
      site.IsAsset d (.binary place content.size)

/-- Something stands in the root, within reach of the system, and no link is on
    the way to it. -/
structure Stands (d : Disk) (root place : Location) (entry : Entry) : Prop where
  linkFree : d.LinkFree place
  isWithin : root.isWithin place = true
  bytes_lt : place.bytes < maxPathBytes
  entryAt? : d.entryAt? place = some entry

theorem isPlain_of_home (h : site.home d = .ok root) : d.IsPlain root :=
  Disk.isPlain_of_canonicalize h

theorem linkFree_of_walkTo (hfree : d.LinkFree root) (h : site.walkTo d root steps = .ok place) :
    d.LinkFree place := by
  rw [walkTo] at h
  split at h
  · exact hfree.walkPath h
  · exact hfree.walk h

/-- An inspection lets pass what stands in the root at the end of the walk. -/
theorem inspect_eq_ok_iff {walked : Except Refusal Location}
    (hfree : ∀ p, walked = .ok p → d.LinkFree p) :
    inspect d root request walked = .ok (place, entry) ↔
      walked = .ok place ∧ Stands d root place entry := by
  cases walked with
  | error refusal => simp [inspect]
  | ok p =>
    have hp := hfree p rfl
    cases hwithin : root.isWithin p with
    | false =>
      simp only [inspect, hwithin, Bool.not_false, if_true, Except.ok.injEq, reduceCtorEq,
        false_iff]
      rintro ⟨rfl, hstands⟩
      rw [hstands.isWithin] at hwithin
      cases hwithin
    | true =>
      simp only [inspect, hwithin, Bool.not_true, Bool.false_eq_true, if_false, Except.ok.injEq]
      constructor
      · intro h
        split at h
        · rename_i e hstatus
          obtain ⟨rfl, rfl⟩ := Prod.mk.inj (Except.ok.inj h)
          obtain ⟨hbytes, hentry⟩ := (Disk.statusAt_eq_ok_iff hp).1 hstatus
          exact ⟨rfl, hp, hwithin, hbytes, hentry⟩
        all_goals cases h
      · rintro ⟨rfl, hstands⟩
        rw [(Disk.statusAt_eq_ok_iff hp).2 ⟨hstands.bytes_lt, hstands.entryAt?⟩]

/-- What is located stands in the root, whether it was found at once or in the
    place of a directory. -/
theorem stands_of_locate (hfree : d.LinkFree root)
    (h : site.locate d root request steps = .ok (place, entry)) : Stands d root place entry := by
  rw [locate] at h
  obtain ⟨⟨first, found⟩, hfirst, h⟩ := Disk.bind_eq_ok_iff.1 h
  obtain ⟨_, hstands⟩ := (inspect_eq_ok_iff fun _ => linkFree_of_walkTo hfree).1 hfirst
  cases found with
  | directory =>
    exact ((inspect_eq_ok_iff fun _ => hstands.linkFree.walkPath).1 h).2
  | file | link | special =>
    obtain ⟨rfl, rfl⟩ := Prod.mk.inj (Except.ok.inj h)
    exact hstands

/-- Where the walk ends at a directory in the root, what is located is at the end of
    the walk to the index document. -/
theorem locate_of_directory (hwalk : site.walkTo d root steps = .ok place)
    (hstands : Stands d root place .directory) :
    site.locate d root request steps = inspect d root request (site.walkToIndex d place) := by
  have hfirst : inspect d root request (.ok place) = .ok (place, .directory) :=
    (inspect_eq_ok_iff fun p hp => Except.ok.inj hp ▸ hstands.linkFree).2 ⟨rfl, hstands⟩
  rw [locate, hwalk, hfirst]
  rfl

/-- The asset at a place is that of the regular file which stands there. -/
theorem assetAt_eq_ok_iff (hentry : d.entryAt? place = some entry) :
    site.assetAt request place entry = .ok asset ↔ asset.place = place ∧ site.IsAsset d asset := by
  constructor
  · intro h
    cases entry with
    | directory | link | special => cases h
    | file content =>
      cases htext : site.isText place.getLast? with
      | true =>
        cases hcontent : content.text? with
        | none => simp [assetAt, htext, hcontent] at h
        | some text =>
          simp only [assetAt, htext, hcontent, if_true, Except.ok.injEq] at h
          exact h ▸ ⟨rfl, .text hentry htext hcontent⟩
      | false =>
        simp only [assetAt, htext, Bool.false_eq_true, if_false, Except.ok.injEq] at h
        exact h ▸ ⟨rfl, .binary hentry htext⟩
  · rintro ⟨rfl, hasset⟩
    cases hasset with
    | text hfile htext hcontent =>
      obtain rfl := Option.some.inj (hfile.symm.trans hentry)
      simp [assetAt, Asset.place, htext, hcontent]
    | binary hfile htext =>
      obtain rfl := Option.some.inj (hfile.symm.trans hentry)
      simp [assetAt, Asset.place, htext]

/-- A request that is read is located, and an asset made of what is there. -/
theorem resolve_eq_locate (hsteps : Request.sanitize request = .ok steps)
    (hhome : site.home d = .ok root) :
    site.resolve d request = site.locate d root request steps >>= fun (place, entry) =>
      site.assetAt request place entry := by
  rw [resolve, hsteps, hhome]

/-- A request that resolves was read, and located at the place of its asset. -/
theorem exists_locate_of_resolve (h : site.resolve d request = .ok asset) :
    ∃ root steps entry, site.home d = .ok root ∧ Request.sanitize request = .ok steps ∧
      site.locate d root request steps = .ok (asset.place, entry) ∧ site.IsAsset d asset := by
  rw [resolve] at h
  split at h
  · cases h
  · split at h
    · cases h
    · rename_i steps hsteps _ root hhome
      obtain ⟨⟨place, entry⟩, hlocate, hasset⟩ := Disk.bind_eq_ok_iff.1 h
      have hstands := stands_of_locate (isPlain_of_home hhome).linkFree hlocate
      obtain ⟨rfl, hmade⟩ := (assetAt_eq_ok_iff hstands.entryAt?).1 hasset
      exact ⟨root, steps, entry, hhome, hsteps, hlocate, hmade⟩

theorem resolve_eq_ok (h : site.resolve d request = .ok asset) :
    ∃ root entry, site.home d = .ok root ∧ Stands d root asset.place entry ∧
      site.IsAsset d asset := by
  obtain ⟨root, _, entry, hhome, _, hlocate, hasset⟩ := exists_locate_of_resolve h
  exact ⟨root, entry, hhome, stands_of_locate (isPlain_of_home hhome).linkFree hlocate, hasset⟩

end Docroot.Site
