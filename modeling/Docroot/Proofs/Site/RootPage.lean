import Docroot.Proofs.Site.IndexName
import Docroot.Proofs.Site.Integrity
import Docroot.Proofs.Site.Outcome
import Docroot.Proofs.Specimen

/-!
# The page at the top of a site

A target that asks for the top of a site should be answered with the index page
whenever there is one. The page is made of what the index document resolves to,
while the reply goes by the place of what was resolved, so the two part where
the index document leads to a file at another place: a link to it, or a directory
with an index document of its own. Then that file is sent as it is, to be kept
for an hour (`root_reply_showsPage_iff`, `linked_index_sent_raw`).
-/

namespace Docroot

/-- Settings that are valid have no flaws, and what is warned about is all that looks
    like a mistake. -/
theorem Settings.flaws_of_validate {settings : Settings} {d : Disk}
    {warnings : List Settings.Warning} (h : settings.validate d = .ok warnings) :
    settings.flaws = [] ∧ settings.warnings d = warnings := by
  rw [validate] at h
  split_ifs at h with hflaws
  exact ⟨List.isEmpty_iff.1 hflaws, Except.ok.inj h⟩

/-- Settings that are valid name the index document by a plain name. -/
theorem Settings.exists_index_of_validate {settings : Settings} {d : Disk}
    {warnings : List Settings.Warning} (h : settings.validate d = .ok warnings) :
    ∃ n : Name, n.text = settings.site.index ∧ '\\' ∉ n.text.toList := by
  obtain ⟨hflaws, _⟩ := flaws_of_validate h
  rw [flaws, List.append_assoc, List.append_eq_nil_iff] at hflaws
  exact exists_name_of_indexFlaws hflaws.1

namespace Site

open Failure

variable {site : Site} {d : Disk} {root : Location} {steps : List Step} {style : PageStyle}
  {page : Page} {index : Name}

/-- If there is a page without an index document, the document is missing. -/
theorem kind_of_page {failure : Failure} (h : site.page d style = .ok page)
    (hfailure : site.resolve d site.index = .error failure) : failure.kind = .notFound := by
  have hindex : site.indexText d = .error failure := by
    rw [indexText, hfailure]
    rfl
  rw [Site.page, hindex] at h
  cases failure with
  | notFound => rfl
  | accessDenied | unreadable => cases h

/-- So there is only a page if the name of the index document can be requested,
    and the root is there. -/
theorem exists_of_page (h : site.page d style = .ok page) :
    ∃ steps root, Request.sanitize site.index = .ok steps ∧ site.home d = .ok root := by
  cases hsteps : Request.sanitize site.index with
  | error refusal =>
    have hdenied : site.resolve d site.index = .error (.accessDenied site.index) := by
      rw [resolve, hsteps]
    cases kind_of_page h hdenied
  | ok steps =>
    cases hhome : site.home d with
    | error fault =>
      have hunreadable :
          site.resolve d site.index = .error (.unreadable site.root.text fault) := by
        rw [resolve, hsteps, hhome]
      cases kind_of_page h hunreadable
    | ok root => exact ⟨steps, root, rfl, rfl⟩

theorem sanitize_empty : Request.sanitize "" = .ok [] := by decide +kernel

theorem namesIndex_empty : site.namesIndex "" = true := by
  rw [namesIndex, sanitize_empty]
  rfl

/-- The empty request has the outcome of the index document's name. -/
theorem outcome_resolve_empty (hindex : index.text = site.index)
    (hback : '\\' ∉ index.text.toList) (hsteps : Request.sanitize site.index = .ok steps) :
    outcome (site.resolve d "") = outcome (site.resolve d site.index) := by
  refine outcome_resolve_of_walkTo sanitize_empty hsteps fun root _ => ?_
  rw [sanitize_index hindex hback hsteps]
  exact walkToIndex_eq hindex

theorem reply_top : site.reply d style "/" = site.replyTo d style "" :=
  reply_of_request (by decide +kernel)

/-- Under valid settings that have an index page, the top of the site is answered
    with that page exactly if the index document, should it resolve to a file at
    all, is that file itself and does not lead to one at another place. -/
theorem root_reply_showsPage_iff {settings : Settings} {d : Disk}
    {warnings : List Settings.Warning} {page : Page} (hvalid : settings.validate d = .ok warnings)
    (hpage : settings.site.page d settings.style = .ok page) :
    (settings.site.reply d settings.style "/").ShowsPage page ↔
      ∀ (asset : Asset) (root : Location) (index : Name),
        settings.site.resolve d settings.site.index = .ok asset →
        d.canonicalize settings.site.root = .ok root → index.text = settings.site.index →
        asset.place = root ++ [index] := by
  obtain ⟨index, hindex, hback⟩ := Settings.exists_index_of_validate hvalid
  obtain ⟨steps, root, hsteps, hhome⟩ := exists_of_page hpage
  have houtcome := @outcome_resolve_empty settings.site d _ _ hindex hback hsteps
  rw [reply_top]
  cases hresolve : settings.site.resolve d settings.site.index with
  | error failure =>
    -- The document is missing, and the fallback page is shown in its place.
    have hmissing : outcome (settings.site.resolve d "") = .error .notFound :=
      houtcome.trans (outcome_eq_error_iff.2 ⟨failure, hresolve, kind_of_page hpage hresolve⟩)
    rw [replyTo_of_missing hmissing, namesIndex_empty, if_pos rfl, replyWithPage_of_page hpage]
    exact iff_of_true (Reply.showsPage_ofPage page) nofun
  | ok asset =>
    have hempty : settings.site.resolve d "" = .ok asset :=
      outcome_eq_ok_iff.1 (houtcome.trans (outcome_eq_ok_iff.2 hresolve))
    cases hplace : settings.site.isIndexPlace d asset.place with
    | true =>
      rw [replyTo_of_isIndexPlace hempty hplace, replyWithPage_of_page hpage]
      refine iff_of_true (Reply.showsPage_ofPage page) fun asset' r n hasset hr hn => ?_
      obtain rfl := Except.ok.inj hasset
      exact (isIndexPlace_iff hn hr).1 hplace
    | false =>
      obtain ⟨content, _, hreply⟩ := @replyTo_of_asset _ _ _ settings.style _ hempty hplace
      rw [hreply]
      refine iff_of_false (fun h => h.not_givesFile (Reply.givesFile_ofFile _ content)) fun h => ?_
      rw [(isIndexPlace_iff hindex hhome).2 (h asset root index rfl hhome hindex)] at hplace
      cases hplace

open Specimen in
/-- The index document of the small site is a regular file, so the top of the site
    is answered with the page. -/
theorem root_reply_showsPage_iff_home :
    (Specimen.site.reply disk .default "/").ShowsPage ⟨"<p>home</p>", 0, false⟩ := by
  have hvalid : (Settings.mk Specimen.site .default).validate disk = .ok [] := by decide +kernel
  have hpage : Specimen.site.page disk .default = .ok ⟨"<p>home</p>", 0, false⟩ := by
    decide +kernel
  have hroot : disk.canonicalize Specimen.site.root = .ok [srv, web] := by decide +kernel
  have hresolve : Specimen.site.resolve disk "index.html" =
      .ok (.text [srv, web, indexHtml] "<p>home</p>") := by decide +kernel
  refine (root_reply_showsPage_iff hvalid hpage).2 fun asset root index hasset hhome hindex => ?_
  obtain rfl := Except.ok.inj (hresolve.symm.trans hasset)
  obtain rfl := Except.ok.inj (hroot.symm.trans hhome)
  have hname : index = indexHtml := Name.text_injective hindex
  rw [hname]
  rfl

end Site

namespace Specimen

def homeHtml : Name := ⟨"home.html", by decide⟩

/-- A site whose index document is a link to another document in the root. -/
def linked : Disk :=
  diskOf
    [(homeHtml, .file (.ofText "<img src=\"/assets/home.png\">")),
     (indexHtml, .link ⟨"home.html"⟩)]

end Specimen

namespace Site

open Specimen in
/-- Under valid settings there is a page, whose references are relative. But the
    top of the site is answered with the document that the link leads to, as it
    is stored, and kept for an hour. -/
theorem linked_index_sent_raw :
    (Settings.mk Specimen.site .default).validate linked = .ok [] ∧
    Specimen.site.page linked .default =
      .ok ⟨"<img src=\"./assets/home.png\">", 0, false⟩ ∧
    Specimen.site.reply linked .default "/" =
      ⟨.ok, "text/html; charset=utf-8", some "public, max-age=3600",
        "<img src=\"/assets/home.png\">".toUTF8⟩ ∧
    ¬ (Specimen.site.reply linked .default "/").ShowsPage
      ⟨"<img src=\"./assets/home.png\">", 0, false⟩ := by
  have hreply : Specimen.site.reply linked .default "/" =
      ⟨.ok, "text/html; charset=utf-8", some "public, max-age=3600",
        "<img src=\"/assets/home.png\">".toUTF8⟩ := by decide +kernel
  refine ⟨by decide +kernel, by decide +kernel, hreply, fun h => ?_⟩
  exact absurd h.cacheControl (by rw [hreply]; decide)

end Site

end Docroot
