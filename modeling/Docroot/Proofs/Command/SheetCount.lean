import Docroot.Command.Outcome
import Docroot.Proofs.Site.IndexPage

/-!
# The count of style sheets

A page goes with a count of the style sheets in it, which `render` and `check` print.
The count is taken of the sheets at hand and not of those put in. So it is true unless
there are sheets and the document has no end of a head: then nothing is put in, and
the sheets are counted all the same (`sheetCount_true_iff`, `headless_overcounted`).
-/

namespace Docroot

namespace Site

open Markup

variable {site : Site} {d : Disk} {style : PageStyle} {page : Page}

/-- As many style sheets as the page counts are in it. -/
structure CountsTruly (site : Site) (d : Disk) (style : PageStyle) (page : Page) : Prop where
  inserted : 0 < page.sheetCount → ∃ text before after,
    site.indexText d = .ok text ∧ before ++ after = relativizeAssets text ∧
    page.html = before ++ styleElement (site.pageSheets d style) ++ after ∧
    (site.pageSheets d style).length = page.sheetCount
  bare : (∃ text, site.indexText d = .ok text ∧ page.html = relativizeAssets text) ∨
    page.isFallback = true → page.sheetCount = 0

theorem CountsTruly.of_zero (h : page.sheetCount = 0) : site.CountsTruly d style page :=
  ⟨fun hpos => absurd h (Nat.ne_of_gt hpos), fun _ => h⟩

/-- The count of a page is true exactly if there was nothing to put in or a place to
    put it. -/
theorem countsTruly_iff (hpage : site.page d style = .ok page) :
    site.CountsTruly d style page ↔ page.isFallback = true ∨ site.pageSheets d style = [] ∨
      ∃ text, site.indexText d = .ok text ∧ HasHeadEnd (relativizeAssets text) := by
  rcases page_eq_ok_iff.1 hpage with ⟨text, htext, rfl⟩ | ⟨_, rfl⟩
  · by_cases hsheets : site.pageSheets d style = []
    · exact iff_of_true (.of_zero (List.length_eq_zero_iff.2 hsheets)) (.inr (.inl hsheets))
    by_cases hhead : HasHeadEnd (relativizeAssets text)
    · obtain ⟨before, after, hcut⟩ := exists_cutAtHeadEnd hhead
      have hhtml := inlineSheets_of_cut hsheets hcut
      refine iff_of_true ⟨fun _ => ⟨text, before, after, htext, hcut.append, hhtml, rfl⟩, ?_⟩
        (.inr (.inr ⟨text, htext, hhead⟩))
      -- The page is longer than the document, so it is not just the document.
      rintro (⟨text', htext', hbare⟩ | hfallback)
      · obtain rfl := Except.ok.inj (htext.symm.trans htext')
        have hlength := congrArg String.length (hhtml.symm.trans (hbare.trans hcut.append.symm))
        simp [styleElement] at hlength
      · cases hfallback
    · have hbare : inlineSheets (relativizeAssets text) (site.pageSheets d style) =
          relativizeAssets text := inlineSheets_of_not (.inr hhead)
      refine iff_of_false (fun h => hsheets ?_) ?_
      · exact List.length_eq_zero_iff.1 (h.bare (.inl ⟨text, htext, hbare⟩))
      · rintro (hfallback | hnil | ⟨text', htext', hhead'⟩)
        · cases hfallback
        · exact hsheets hnil
        · obtain rfl := Except.ok.inj (htext.symm.trans htext')
          exact hhead hhead'
  · exact iff_of_true (.of_zero rfl) (.inl rfl)

end Site

namespace Command

variable {d : Disk} {settings : Settings} {inlinesSheets : Bool} {file : Path}

/-- What `render` says about a page that it has written. -/
def writtenLine (file : Path) (page : Page) : String :=
  "Wrote " ++ file.text ++ " (" ++ toString page.sheetCount ++ " stylesheet(s) inlined)\n"

/-- A page that was written is announced with its count. -/
theorem errors_render (h : (render d settings inlinesSheets (some file)).problem? = none) :
    ∃ page, settings.site.page d { settings.style with
        inlinesSheets := settings.style.inlinesSheets && inlinesSheets } = .ok page ∧
      (render d settings inlinesSheets (some file)).errors =
        (if page.isFallback then fallbackWarning settings else "") ++ writtenLine file page := by
  rw [render] at h ⊢
  cases hpage : settings.site.page d { settings.style with
      inlinesSheets := settings.style.inlinesSheets && inlinesSheets } with
  | error failure => simp [hpage] at h
  | ok page =>
    refine ⟨page, rfl, ?_⟩
    cases hwrite : (Disk.write file page.html).run d with
    | error fault left => simp [hpage, hwrite] at h
    | ok _ left => simp only [hwrite, writtenLine, String.append_assoc]

/-- A check that ends well and finds the root reports on the page. -/
theorem output_check (hroot : d.leadsToDirectory settings.site.root = true)
    (h : (check d settings).problem? = none) :
    ∃ page warnings, settings.site.page d settings.style = .ok page ∧
      settings.validate d = .ok warnings ∧
      (check d settings).output =
        siteLines settings ++ pageLine page ++ verdict warnings.length := by
  rw [check] at h ⊢
  cases hvalid : settings.validate d with
  | error flaws => simp [hvalid] at h
  | ok warnings =>
    cases hpage : settings.site.page d settings.style with
    | error failure => simp [hvalid, hroot, hpage] at h
    | ok page => exact ⟨page, warnings, rfl, rfl, by simp [hroot]⟩

/-- The count of a page is true exactly if the page is the fallback page, or there are
    no style sheets, or the document has an end of a head. The commands print that
    count. -/
theorem sheetCount_true_iff (settings : Settings) (d : Disk) :
    (∀ style page, settings.site.page d style = .ok page →
      (settings.site.CountsTruly d style page ↔
        page.isFallback = true ∨ settings.site.pageSheets d style = [] ∨
          ∃ text, settings.site.indexText d = .ok text ∧
            Markup.HasHeadEnd (Markup.relativizeAssets text))) ∧
    (∀ inlinesSheets file, (render d settings inlinesSheets (some file)).problem? = none →
      ∃ page, settings.site.page d { settings.style with
          inlinesSheets := settings.style.inlinesSheets && inlinesSheets } = .ok page ∧
        (render d settings inlinesSheets (some file)).errors =
          (if page.isFallback then fallbackWarning settings else "") ++ writtenLine file page) ∧
    (d.leadsToDirectory settings.site.root = true → (check d settings).problem? = none →
      ∃ page warnings, settings.site.page d settings.style = .ok page ∧
        settings.validate d = .ok warnings ∧
        (check d settings).output =
          siteLines settings ++ pageLine page ++ verdict warnings.length) :=
  ⟨fun _ _ => Site.countsTruly_iff, fun _ _ => errors_render, output_check⟩

open Specimen in
/-- The count is true where the sheet is put in. -/
theorem sheetCount_true_headed :
    Specimen.site.page headed topSheets = .ok headedPage ∧
    Specimen.site.CountsTruly headed topSheets headedPage := by
  have hcounts := (sheetCount_true_iff ⟨Specimen.site, topSheets⟩ headed).1 topSheets headedPage
    page_headed
  exact ⟨page_headed, hcounts.2 (.inr (.inr ⟨headedText, indexText_headed, hasHeadEnd_headed⟩))⟩

open Specimen in
/-- The index document of the small site has no head, so its style sheet is not put in,
    and yet the page counts it and the check says so. -/
theorem headless_overcounted :
    Specimen.site.page disk ⟨true, "look.css", "Application"⟩ = .ok ⟨"<p>home</p>", 1, false⟩ ∧
    Specimen.site.indexText disk = .ok "<p>home</p>" ∧
    Markup.relativizeAssets "<p>home</p>" = "<p>home</p>" ∧
    (check disk ⟨Specimen.site, ⟨true, "look.css", "Application"⟩⟩).output =
      "Root:       web\nIndex:      index.html\nText types: html, css\n" ++
        "Page:       ok (1 stylesheet(s) inlined)\n\nConfiguration is valid\n" ∧
    ¬ ∀ (site : Site) (d : Disk) (style : PageStyle) (page : Page),
      site.page d style = .ok page → site.CountsTruly d style page := by
  have hpage : Specimen.site.page disk ⟨true, "look.css", "Application"⟩ =
      .ok ⟨"<p>home</p>", 1, false⟩ := by decide +kernel
  have hindex : Specimen.site.indexText disk = .ok "<p>home</p>" := by decide +kernel
  have hbare : Markup.relativizeAssets "<p>home</p>" = "<p>home</p>" := by decide +kernel
  refine ⟨hpage, hindex, hbare, by decide +kernel, fun hall => ?_⟩
  cases (hall _ _ _ _ hpage).bare (.inl ⟨_, hindex, hbare.symm⟩)

end Command

end Docroot
