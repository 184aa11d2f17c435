import Docroot.Proofs.Glob.Outline
import Docroot.Proofs.Site.Resolving
import Docroot.Proofs.Specimen
import Docroot.Reply

/-!
# What lies outside stays confidential

No file outside the root is ever read. Two disks which differ in nothing but the
contents of regular files outside the root (`Site.SameInside`) cannot be told
apart by anyone who is served: requests resolve to the same assets or fail in
the same way, and the style sheets, the index page and all replies are the same.

Lookups and walks depend on the outline of the disk alone
(`Disk.SameOutline`). Beyond it a file is only read where a walk ended in the
root, at a place free of links, so that the file read is the one that stands
there.
-/

namespace Docroot.Site

/-- The two disks differ in nothing but the contents of regular files outside
    the root of the site. -/
structure SameInside (site : Site) (d e : Disk) : Prop where
  sameOutline : d.SameOutline e
  entryAt?_eq : ∀ root, site.home d = .ok root → ∀ place, root.isWithin place = true →
    d.entryAt? place = e.entryAt? place

variable {site : Site} {d e : Disk} {root place : Location} {request : String} {steps : List Step}
  {asset : Asset} {style : PageStyle}

namespace SameInside

theorem home_eq (h : site.SameInside d e) : site.home d = site.home e := h.sameOutline.lookup_eq

/-- What is inspected in the root is the same on both disks. -/
theorem inspect_eq (h : site.SameInside d e) {walked : Except Refusal Location}
    (hhome : site.home d = .ok root) (hfree : ∀ p, walked = .ok p → d.LinkFree p) :
    inspect d root request walked = inspect e root request walked := by
  cases walked with
  | error refusal => rfl
  | ok p =>
    cases hwithin : root.isWithin p with
    | false => simp only [inspect, hwithin, Bool.not_false, if_true]
    | true =>
      have hstatus : d.statusAt p = e.statusAt p :=
        h.sameOutline.statusAt_eq (hfree p rfl) (h.entryAt?_eq root hhome p hwithin)
      simp only [inspect, hstatus]

theorem walkToIndex_eq (h : site.SameInside d e) :
    site.walkToIndex d place = site.walkToIndex e place := h.sameOutline.walkPath_eq

theorem walkTo_eq (h : site.SameInside d e) :
    site.walkTo d root steps = site.walkTo e root steps := by
  rw [walkTo, walkTo, h.walkToIndex_eq, Disk.walkFrom, Disk.walkFrom, h.sameOutline.walk_eq]

theorem locate_eq (h : site.SameInside d e) (hhome : site.home d = .ok root) :
    site.locate d root request steps = site.locate e root request steps := by
  have hroot : d.LinkFree root := (isPlain_of_home hhome).linkFree
  have hwalk : ∀ p, site.walkTo d root steps = .ok p → d.LinkFree p :=
    fun p => linkFree_of_walkTo hroot
  rw [locate, locate, ← h.walkTo_eq, ← h.inspect_eq hhome hwalk]
  -- Whatever was found first stands free of links, and so does what a walk to
  -- the index document leads to from there.
  refine Disk.bind_congr fun found hfound => ?_
  obtain ⟨p, entry⟩ := found
  cases entry with
  | file | link | special => dsimp only
  | directory =>
    have hstands := ((inspect_eq_ok_iff hwalk).1 hfound).2
    change inspect d root request (site.walkToIndex d p) =
      inspect e root request (site.walkToIndex e p)
    rw [← h.walkToIndex_eq]
    exact h.inspect_eq hhome fun q => hstands.linkFree.walkPath

theorem resolve_eq (h : site.SameInside d e) : site.resolve d request = site.resolve e request := by
  rw [resolve, resolve, ← h.home_eq]
  cases Request.sanitize request with
  | error refusal => rfl
  | ok steps =>
    cases hhome : site.home d with
    | error fault => rfl
    | ok root =>
      change (site.locate d root request steps >>= _) = site.locate e root request steps >>= _
      rw [h.locate_eq hhome]

/-- Where an asset was resolved, the same file is read again. -/
theorem statusAt_eq (h : site.SameInside d e) (hasset : site.resolve d request = .ok asset) :
    d.statusAt asset.place = e.statusAt asset.place := by
  obtain ⟨root, entry, hhome, hstands, _⟩ := resolve_eq_ok hasset
  exact h.sameOutline.statusAt_eq hstands.linkFree
    (h.entryAt?_eq root hhome _ hstands.isWithin)

theorem stylesheets_eq (h : site.SameInside d e) (pattern : String) :
    site.stylesheets d pattern = site.stylesheets e pattern := by
  have hselected : site.selected d pattern = site.selected e pattern := by
    rw [selected, selected, ← h.home_eq]
    cases site.home d with
    | error fault => rfl
    | ok root =>
      dsimp only
      cases Glob.Pattern.ofText? (patternBelow root pattern) with
      | none => rfl
      | some parsed =>
        exact congrArg (List.filterMap _) (Glob.Pattern.expand_eq h.sameOutline parsed)
  simp only [stylesheets, text?, hselected, h.resolve_eq]

theorem indexText_eq (h : site.SameInside d e) : site.indexText d = site.indexText e := by
  rw [indexText, indexText, ← h.resolve_eq]
  refine Disk.bind_congr fun asset hasset => ?_
  have hstatus := h.statusAt_eq hasset
  cases asset with
  | text => rfl
  | binary place size => simp only [show d.statusAt place = e.statusAt place from hstatus]

theorem page_eq (h : site.SameInside d e) : site.page d style = site.page e style := by
  simp only [page, pageSheets, h.indexText_eq, h.stylesheets_eq]

theorem replyTo_eq (h : site.SameInside d e) :
    site.replyTo d style request = site.replyTo e style request := by
  have hplace : ∀ place, site.isIndexPlace d place = site.isIndexPlace e place := by
    intro place
    rw [isIndexPlace, isIndexPlace, h.home_eq]
  rw [replyTo, replyTo, ← h.resolve_eq, replyWithPage, replyWithPage, h.page_eq]
  cases hasset : site.resolve d request with
  | error failure => rfl
  | ok asset =>
    have hstatus := h.statusAt_eq hasset
    simp only [hplace]
    cases asset with
    | text => rfl
    | binary place size =>
      simp only [show d.statusAt place = e.statusAt place from hstatus]

theorem reply_eq (h : site.SameInside d e) (target : String) :
    site.reply d style target = site.reply e style target := by
  simp only [reply, h.replyTo_eq]

end SameInside

/-- The contents of files outside the root show in nothing that is served: on
    two disks that differ in nothing else, every request resolves alike, every
    pattern collects the same sheets, and every page and every reply is the
    same. -/
theorem outside_confidential (h : site.SameInside d e) :
    (∀ request, site.resolve d request = site.resolve e request) ∧
    (∀ pattern, site.stylesheets d pattern = site.stylesheets e pattern) ∧
    (∀ style, site.page d style = site.page e style) ∧
    ∀ style target, site.reply d style target = site.reply e style target := by
  refine ⟨fun request => ?_, fun pattern => ?_, fun style => ?_, fun style target => ?_⟩
  · exact h.resolve_eq
  · exact h.stylesheets_eq pattern
  · exact h.page_eq
  · exact h.reply_eq target

open Specimen in
/-- Whatever is written in the file outside its root, the site serves the same. -/
theorem sameInside_diskWith (secret : String) :
    Specimen.site.SameInside disk (diskWith secret) := by
  refine ⟨⟨rfl, fun place => ?_⟩, fun root hhome place hwithin => ?_⟩
  · by_cases hplace : place = [etc, passwd]
    · subst hplace
      rfl
    · rw [entryAt?_diskWith hplace]
  · have hroot : Specimen.site.home disk = .ok [srv, web] := by decide +kernel
    obtain rfl := Except.ok.inj (hroot.symm.trans hhome)
    refine (entryAt?_diskWith ?_).symm
    rintro rfl
    exact absurd hwithin (by decide)

open Specimen in
/-- Two disks with different passwords, from which the same is served. -/
theorem outside_confidential_passwd :
    disk.entryAt? [etc, passwd] ≠ (diskWith "changed").entryAt? [etc, passwd] ∧
    (∀ request, Specimen.site.resolve disk request =
      Specimen.site.resolve (diskWith "changed") request) ∧
    (∀ pattern, Specimen.site.stylesheets disk pattern =
      Specimen.site.stylesheets (diskWith "changed") pattern) ∧
    (∀ style, Specimen.site.page disk style = Specimen.site.page (diskWith "changed") style) ∧
    ∀ style target, Specimen.site.reply disk style target =
      Specimen.site.reply (diskWith "changed") style target := by
  have hdiffer : disk.entryAt? [etc, passwd] ≠ (diskWith "changed").entryAt? [etc, passwd] := by
    decide +kernel
  exact ⟨hdiffer, outside_confidential (sameInside_diskWith "changed")⟩

end Docroot.Site
