import Docroot.Command.Outcome
import Docroot.Proofs.Site.RootPage

/-!
# What a check foretells

The command `check` asks for the index document by its name, while the top of
the site is asked for by an empty request. The two part only over a name that is
denied, and then there is no page and the check fails. So a check that ends well
and finds the root foretells that the top of the site is answered
(`code_reply_top_of_check`): with the index page, or with the file that the index
document leads to.
-/

namespace Docroot

namespace Site

open Failure

variable {settings : Settings} {d : Disk} {warnings : List Settings.Warning} {page : Page}

/-- Under valid settings that have an index page, the top of the site is
    answered. -/
theorem code_reply_top (hvalid : settings.validate d = .ok warnings)
    (hpage : settings.site.page d settings.style = .ok page) :
    (settings.site.reply d settings.style "/").status.code = 200 := by
  obtain ⟨index, hindex, hback⟩ := Settings.exists_index_of_validate hvalid
  obtain ⟨steps, root, hsteps, _⟩ := exists_of_page hpage
  have houtcome := @outcome_resolve_empty settings.site d _ _ hindex hback hsteps
  have hshows := Reply.showsPage_ofPage page
  rw [reply_top]
  cases hresolve : settings.site.resolve d settings.site.index with
  | error failure =>
    have hmissing : outcome (settings.site.resolve d "") = .error .notFound :=
      houtcome.trans (outcome_eq_error_iff.2 ⟨failure, hresolve, kind_of_page hpage hresolve⟩)
    rw [replyTo_of_missing hmissing, namesIndex_empty, if_pos rfl, replyWithPage_of_page hpage]
    exact hshows.code
  | ok asset =>
    have hempty : settings.site.resolve d "" = .ok asset :=
      outcome_eq_ok_iff.1 (houtcome.trans (outcome_eq_ok_iff.2 hresolve))
    cases hplace : settings.site.isIndexPlace d asset.place with
    | true =>
      rw [replyTo_of_isIndexPlace hempty hplace, replyWithPage_of_page hpage]
      exact hshows.code
    | false =>
      obtain ⟨content, _, hreply⟩ := @replyTo_of_asset _ _ _ settings.style _ hempty hplace
      rw [hreply]
      exact (Reply.givesFile_ofFile _ content).code

end Site

namespace Command

variable {d : Disk} {settings : Settings}

/-- A check that ends well has found no flaw and, if the root is there, made the
    index page. -/
theorem page_of_check (hroot : d.leadsToDirectory settings.site.root = true)
    (hcheck : (check d settings).problem? = none) :
    ∃ warnings page, settings.validate d = .ok warnings ∧
      settings.site.page d settings.style = .ok page := by
  rw [check] at hcheck
  cases hvalid : settings.validate d with
  | error flaws => simp [hvalid] at hcheck
  | ok warnings =>
    cases hpage : settings.site.page d settings.style with
    | error failure => simp [hvalid, hroot, hpage] at hcheck
    | ok page => exact ⟨warnings, page, rfl, rfl⟩

/-- If the root is a directory and the check ends well, the top of the site is
    answered. -/
theorem code_reply_top_of_check (hroot : d.leadsToDirectory settings.site.root = true)
    (hcheck : (check d settings).problem? = none) :
    (settings.site.reply d settings.style "/").status.code = 200 := by
  obtain ⟨warnings, page, hvalid, hpage⟩ := page_of_check hroot hcheck
  exact Site.code_reply_top hvalid hpage

open Specimen in
/-- A check of the site whose index document is a link ends well, and the top of
    that site is answered. -/
theorem code_reply_top_of_check_linked :
    linked.leadsToDirectory Specimen.site.root = true ∧
    (check linked ⟨Specimen.site, .default⟩).problem? = none ∧
    (Specimen.site.reply linked .default "/").status.code = 200 := by
  have hroot : linked.leadsToDirectory Specimen.site.root = true := by decide +kernel
  have hcheck : (check linked ⟨Specimen.site, .default⟩).problem?.isNone = true := by
    decide +kernel
  rw [Option.isNone_iff_eq_none] at hcheck
  exact ⟨hroot, hcheck, @code_reply_top_of_check linked ⟨Specimen.site, .default⟩ hroot hcheck⟩

end Command

end Docroot
