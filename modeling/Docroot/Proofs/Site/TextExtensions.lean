import Docroot.Proofs.Site.Health

/-!
# Text or not

A text file is given out as its text and any other file by its size, and the two
are read at different moments: the one when the request is resolved, the other
when it is answered. As long as every file in the root is text in UTF-8
(`Site.HoldsText`), this does not show in a reply. Whatever extensions are taken
for those of text files, the same requests fail, in the same way, and the others
resolve to the same place (`resolve_withTextExtensions_cases`), so the same bytes
are sent from there (`reply_withTextExtensions`).

Only the style sheets of the index page have to be text files by their name, so
they must be left out of it.
-/

namespace Docroot.Site

variable {site : Site} {d : Disk} {root place : Location} {request : String} {style : PageStyle}
  {asset : Asset} {extensions extensions' : List String}

/-- The site with other extensions for its text files. -/
def withTextExtensions (site : Site) (extensions : List String) : Site :=
  { site with textExtensions := extensions }

/-- Every file in the root is text in UTF-8. -/
def HoldsText (site : Site) (d : Disk) : Prop :=
  ∀ root place content, site.home d = .ok root → root.isWithin place = true →
    d.entryAt? place = some (.file content) → content.text?.isSome

@[simp] theorem home_withTextExtensions :
    (site.withTextExtensions extensions).home d = site.home d := rfl

@[simp] theorem locate_withTextExtensions {steps : List Step} :
    (site.withTextExtensions extensions).locate d root request steps =
      site.locate d root request steps := rfl

/-- What stands in the root makes an asset of its place, or it makes none whatever
    the text files are. -/
theorem assetAt_withTextExtensions_cases {entry : Entry} (hutf8 : site.HoldsText d)
    (hhome : site.home d = .ok root) (hstands : Stands d root place entry) :
    (∀ extensions, (site.withTextExtensions extensions).assetAt request place entry =
      .error (.notFound request)) ∨
    ∀ extensions, ∃ asset, asset.place = place ∧
      (site.withTextExtensions extensions).assetAt request place entry = .ok asset := by
  cases entry with
  | directory | link | special => exact .inl fun _ => rfl
  | file content =>
    refine .inr fun extensions => ?_
    have htext := hutf8 root place content hhome hstands.isWithin hstands.entryAt?
    obtain ⟨asset, hplace, hasset⟩ := @exists_isAsset (site.withTextExtensions extensions) d place
      content hstands.entryAt? fun _ => htext
    exact ⟨asset, hplace, (assetAt_eq_ok_iff hstands.entryAt?).2 ⟨hplace, hasset⟩⟩

/-- A request fails in one way, or resolves to one place, whatever the text files
    are. -/
theorem resolve_withTextExtensions_cases (hutf8 : site.HoldsText d) (request : String) :
    (∃ failure, ∀ extensions,
      (site.withTextExtensions extensions).resolve d request = .error failure) ∨
    ∃ place, ∀ extensions, ∃ asset, asset.place = place ∧
      (site.withTextExtensions extensions).resolve d request = .ok asset := by
  cases hsteps : Request.sanitize request with
  | error refusal =>
    refine .inl ⟨.accessDenied request, fun extensions => ?_⟩
    rw [resolve, hsteps]
  | ok steps =>
    cases hhome : site.home d with
    | error fault =>
      refine .inl ⟨.unreadable site.root.text fault, fun extensions => ?_⟩
      rw [resolve, hsteps, home_withTextExtensions, hhome]
      rfl
    | ok root =>
      have hresolve := fun extensions =>
        @resolve_eq_locate (site.withTextExtensions extensions) d root request steps hsteps hhome
      simp only [hresolve, locate_withTextExtensions]
      cases hlocate : site.locate d root request steps with
      | error failure => exact .inl ⟨failure, fun _ => rfl⟩
      | ok found =>
        obtain ⟨place, entry⟩ := found
        have hstands := stands_of_locate (isPlain_of_home hhome).linkFree hlocate
        exact (assetAt_withTextExtensions_cases hutf8 hhome hstands).imp
          (fun h => ⟨.notFound request, h⟩) fun h => ⟨place, h⟩

/-- The text of the index document is that of the file which its name resolves
    to, be it given out as text or not. -/
theorem indexText_of_resolve {content : Content} {text : String}
    (hresolve : site.resolve d site.index = .ok asset)
    (hfile : d.entryAt? asset.place = some (.file content)) (htext : content.text? = some text) :
    site.indexText d = .ok text := by
  obtain ⟨root, entry, _, hstands, hasset⟩ := resolve_eq_ok hresolve
  rw [indexText, hresolve]
  cases hasset with
  | text hfile' _ htext' =>
    obtain rfl := Entry.file.inj (Option.some.inj (hfile.symm.trans hfile'))
    obtain rfl := Option.some.inj (htext.symm.trans htext')
    rfl
  | @binary place _ hfile' _ =>
    have hstatus : d.statusAt place = .ok (.file content) :=
      (Disk.statusAt_eq_ok_iff hstands.linkFree).2 ⟨hstands.bytes_lt, hfile⟩
    simp only [bind, Except.bind, hstatus, readText_file htext]

theorem indexText_withTextExtensions (hutf8 : site.HoldsText d) :
    (site.withTextExtensions extensions).indexText d =
      (site.withTextExtensions extensions').indexText d := by
  rcases resolve_withTextExtensions_cases hutf8 site.index with ⟨failure, h⟩ | ⟨place, h⟩
  · have hfailure : ∀ extensions,
        (site.withTextExtensions extensions).indexText d = .error failure := by
      intro extensions
      rw [indexText]
      exact congrArg (· >>= _) (h extensions)
    rw [hfailure, hfailure]
  · obtain ⟨asset, hplace, hasset⟩ := h extensions
    obtain ⟨asset', hplace', hasset'⟩ := h extensions'
    obtain ⟨root, entry, hhome, hstands, hmade⟩ := resolve_eq_ok hasset
    have hfile : ∃ content, d.entryAt? asset.place = some (.file content) := by
      cases hmade with
      | text hfile | binary hfile => exact ⟨_, hfile⟩
    obtain ⟨content, hfile⟩ := hfile
    obtain ⟨text, htext⟩ := Option.isSome_iff_exists.1
      (hutf8 root asset.place content hhome hstands.isWithin hfile)
    rw [indexText_of_resolve hasset hfile htext]
    rw [hplace, ← hplace'] at hfile
    exact (indexText_of_resolve hasset' hfile htext).symm

/-- Without style sheets, the index page is the same whatever the text files
    are. -/
theorem page_withTextExtensions (hutf8 : site.HoldsText d) (hsheets : style.inlinesSheets = false) :
    (site.withTextExtensions extensions).page d style =
      (site.withTextExtensions extensions').page d style := by
  simp only [page, pageSheets, hsheets, Bool.false_eq_true, if_false,
    @indexText_withTextExtensions site d extensions extensions' hutf8]

/-- A file that is sent is sent byte for byte, and a failure told in the same
    words, whatever the text files are. -/
theorem replyTo_withTextExtensions (hutf8 : site.HoldsText d)
    (hsheets : style.inlinesSheets = false) :
    (site.withTextExtensions extensions).replyTo d style request =
      (site.withTextExtensions extensions').replyTo d style request := by
  have hpage : (site.withTextExtensions extensions).replyWithPage d style =
      (site.withTextExtensions extensions').replyWithPage d style := by
    rw [replyWithPage, replyWithPage,
      @page_withTextExtensions site d style extensions extensions' hutf8 hsheets]
  rcases resolve_withTextExtensions_cases hutf8 request with ⟨failure, h⟩ | ⟨place, h⟩
  · rw [replyTo, replyTo, h, h, hpage]
    rfl
  · obtain ⟨asset, rfl, hasset⟩ := h extensions
    obtain ⟨asset', hplace', hasset'⟩ := h extensions'
    cases hindex : site.isIndexPlace d asset.place with
    | true =>
      rw [replyTo_of_isIndexPlace hasset hindex, hpage]
      rw [← hplace'] at hindex
      exact (replyTo_of_isIndexPlace hasset' hindex).symm
    | false =>
      obtain ⟨content, hfile, hreply⟩ := @replyTo_of_asset _ _ _ style _ hasset hindex
      rw [← hplace'] at hindex hfile hreply
      obtain ⟨content', hfile', hreply'⟩ := @replyTo_of_asset _ _ _ style _ hasset' hindex
      obtain rfl := Entry.file.inj (Option.some.inj (hfile.symm.trans hfile'))
      rw [hreply, hreply']

/-- Let every file in the root be text in UTF-8, and the style sheets be left out
    of the index page. Then every target is answered alike, whatever extensions
    are taken for those of text files. -/
theorem reply_withTextExtensions (hutf8 : site.HoldsText d) (hsheets : style.inlinesSheets = false)
    (extensions extensions' : List String) (target : String) :
    (site.withTextExtensions extensions).reply d style target =
      (site.withTextExtensions extensions').reply d style target := by
  cases htarget : Request.ofTarget? target with
  | none => rw [reply, reply, htarget]
  | some request =>
    rw [reply_of_request htarget, reply_of_request htarget]
    exact replyTo_withTextExtensions hutf8 hsheets

open Specimen in
/-- The index document resolves to its text if documents are text files, and to
    its size if none are, but the page made of it is sent either way. -/
theorem reply_withTextExtensions_lone :
    Specimen.site.HoldsText lone ∧
    (Specimen.site.withTextExtensions []).resolve lone "" ≠
      (Specimen.site.withTextExtensions ["html"]).resolve lone "" ∧
    (Specimen.site.withTextExtensions []).reply lone ⟨false, "", "Home"⟩ "/" =
      (Specimen.site.withTextExtensions ["html"]).reply lone ⟨false, "", "Home"⟩ "/" := by
  have hutf8 : Specimen.site.HoldsText lone := by
    intro root place content hhome hwithin hfile
    obtain rfl := Except.ok.inj (hhome.symm.trans isHealthy_lone.canonicalize)
    exact isHealthy_lone.isSome_text? place content hwithin hfile
  exact ⟨hutf8, by decide +kernel, reply_withTextExtensions hutf8 rfl [] ["html"] "/"⟩

end Docroot.Site
