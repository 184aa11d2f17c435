import Docroot.Proofs.Site.TextExtensions
import Docroot.Proofs.Specimen
import Docroot.Proofs.Text.Replacing

/-!
# What the index page is made of

The index page is the index document with its references made relative and, where
there are style sheets and the document has a head, one element put in: in front of
the first end of a head, with the texts of the sheets as they are
(`page_of_index`). Putting it in comes last, so the references in a sheet stay as
they are, and an end of a head in it is not taken for one of the document. The
fallback page is shown exactly if the index document is missing.
-/

namespace Docroot

namespace Markup

variable {doc before after : String} {sheets : List String}

/-- The document has an end of a head. -/
def HasHeadEnd (doc : String) : Prop := headEnd.toList <:+: doc.toList

instance (doc : String) : Decidable (HasHeadEnd doc) := inferInstanceAs (Decidable (_ <:+: _))

/-- The two parts are those of a document in front of the first end of a head and from
    there on. -/
structure CutAtHeadEnd (doc before after : String) : Prop where
  append : before ++ after = doc
  atHeadEnd : headEnd.toList <+: after.toList
  first : ∀ xs ys, xs ++ ys = doc.toList → headEnd.toList <+: ys → before.length ≤ xs.length

theorem splitAtFirst_headEnd_iff :
    Text.splitAtFirst headEnd.toList doc.toList = some (before.toList, after.toList) ↔
      CutAtHeadEnd doc before after := by
  rw [Text.splitAtFirst_eq_some_iff (by decide), ← String.toList_append, String.toList_inj,
    String.length_toList]
  exact ⟨fun ⟨happend, hstarts, hfirst⟩ => ⟨happend, hstarts, hfirst⟩,
    fun h => ⟨h.append, h.atHeadEnd, h.first⟩⟩

theorem exists_cutAtHeadEnd (h : HasHeadEnd doc) :
    ∃ before after, CutAtHeadEnd doc before after := by
  cases hcut : Text.splitAtFirst headEnd.toList doc.toList with
  | none => exact absurd h ((Text.splitAtFirst_eq_none_iff (by decide)).1 hcut)
  | some parts =>
    refine ⟨String.ofList parts.1, String.ofList parts.2, splitAtFirst_headEnd_iff.1 ?_⟩
    rw [hcut, String.toList_ofList, String.toList_ofList]

/-- Nothing is put in without sheets or without a head. -/
theorem inlineSheets_of_not (h : sheets = [] ∨ ¬ HasHeadEnd doc) :
    inlineSheets doc sheets = doc := by
  rcases h with rfl | h
  · rfl
  · have hnone := (Text.splitAtFirst_eq_none_iff (by decide)).2 h
    rw [inlineSheets, hnone, ite_self]

/-- Otherwise the sheets come in front of the first end of a head. -/
theorem inlineSheets_of_cut (hsheets : sheets ≠ []) (h : CutAtHeadEnd doc before after) :
    inlineSheets doc sheets = before ++ styleElement sheets ++ after := by
  rw [inlineSheets, if_neg (by simpa using hsheets), splitAtFirst_headEnd_iff.2 h]
  simp only [String.ofList_toList]

end Markup

namespace Site

open Markup

variable {site : Site} {d : Disk} {style : PageStyle} {page : Page} {text request : String}

/-- The text of the index document is that of the file which its name resolves to. -/
theorem exists_asset_of_indexText (h : site.indexText d = .ok text) :
    ∃ asset content, site.resolve d site.index = .ok asset ∧
      d.entryAt? asset.place = some (.file content) ∧ content.text? = some text := by
  obtain ⟨asset, hresolve, hread⟩ := Disk.bind_eq_ok_iff.1 h
  obtain ⟨root, entry, _, hstands, hasset⟩ := resolve_eq_ok hresolve
  cases hasset with
  | text hfile _ htext =>
    exact ⟨_, _, hresolve, hfile, htext.trans (congrArg some (Except.ok.inj hread))⟩
  | @binary place content hfile _ =>
    have hstatus : d.statusAt place = .ok (.file content) :=
      (Disk.statusAt_eq_ok_iff hstands.linkFree).2 ⟨hstands.bytes_lt, hfile⟩
    refine ⟨_, content, hresolve, hfile, ?_⟩
    simp only [hstatus, bind, Except.bind, Entry.readText, Entry.read] at hread
    cases hcontent : content.text? with
    | none => simp [hcontent] at hread
    | some text' => simpa [hcontent] using hread

/-- There is no text because of a missing file exactly if resolving misses one. -/
theorem indexText_eq_notFound_iff : site.indexText d = .error (.notFound request) ↔
    site.resolve d site.index = .error (.notFound request) := by
  rw [indexText]
  cases hresolve : site.resolve d site.index with
  | error failure => simp only [bind, Except.bind, Except.error.injEq]
  | ok asset =>
    refine iff_of_false (fun h => ?_) (fun h => by cases h)
    cases asset with
    | text => cases h
    | binary place size =>
      simp only [bind, Except.bind] at h
      cases hstatus : d.statusAt place with
      | error fault => simp [hstatus] at h
      | ok entry => cases hread : entry.readText <;> simp [hstatus, hread] at h

/-- The page is made of the index document, or is the fallback page because that is
    missing. -/
theorem page_eq_ok_iff : site.page d style = .ok page ↔
    (∃ text, site.indexText d = .ok text ∧
      page = ⟨inlineSheets (relativizeAssets text) (site.pageSheets d style),
        (site.pageSheets d style).length, false⟩) ∨
    (∃ request, site.resolve d site.index = .error (.notFound request)) ∧
      page = ⟨fallbackPage style.title, 0, true⟩ := by
  simp only [← indexText_eq_notFound_iff]
  rw [Site.page]
  cases site.indexText d with
  | ok text => simp [eq_comm]
  | error failure => cases failure <;> simp [eq_comm]

/-- The index page is the index document with relative references, and with one
    element of style sheets in front of its first end of a head if it has one and
    there are sheets. The fallback page is shown exactly if the index document is
    missing. -/
theorem page_of_index (site : Site) (d : Disk) (style : PageStyle) :
    (∀ page, site.page d style = .ok page → page.isFallback = false →
      ∃ asset content text, site.resolve d site.index = .ok asset ∧
        d.entryAt? asset.place = some (.file content) ∧ content.text? = some text ∧
        (site.pageSheets d style = [] ∨ ¬ HasHeadEnd (relativizeAssets text) →
          page.html = relativizeAssets text) ∧
        (site.pageSheets d style ≠ [] → HasHeadEnd (relativizeAssets text) →
          ∃ before after, CutAtHeadEnd (relativizeAssets text) before after ∧
            page.html = before ++ ("<style>" ++ String.join (site.pageSheets d style) ++
              "</style>") ++ after)) ∧
    ∀ page, (site.page d style = .ok page ∧ page.isFallback = true) ↔
      (∃ request, site.resolve d site.index = .error (.notFound request)) ∧
        page = ⟨fallbackPage style.title, 0, true⟩ := by
  refine ⟨fun page hpage hshown => ?_, fun page => ⟨fun ⟨hpage, hshown⟩ => ?_, fun h => ?_⟩⟩
  · rcases page_eq_ok_iff.1 hpage with ⟨text, htext, rfl⟩ | ⟨_, rfl⟩
    · obtain ⟨asset, content, hresolve, hfile, hcontent⟩ := exists_asset_of_indexText htext
      refine ⟨asset, content, text, hresolve, hfile, hcontent, inlineSheets_of_not,
        fun hsheets hhead => ?_⟩
      obtain ⟨before, after, hcut⟩ := exists_cutAtHeadEnd hhead
      exact ⟨before, after, hcut, inlineSheets_of_cut hsheets hcut⟩
    · cases hshown
  · rcases page_eq_ok_iff.1 hpage with ⟨text, _, rfl⟩ | h
    · cases hshown
    · exact h
  · exact ⟨page_eq_ok_iff.2 (.inr h), by rw [h.2]⟩

end Site

namespace Specimen

/-- An index document with two ends of a head. -/
def headedText : String := "<a href=\"/assets/a\"></head></head>"

/-- A style sheet that reads like a part of the document. -/
def headedSheet : String := "/* </head> src=\"/assets/ */"

/-- The page that is made of the two. -/
def headedPage : Page :=
  ⟨"<a href=\"./assets/a\"><style>/* </head> src=\"/assets/ */</style></head></head>", 1, false⟩

/-- A site with the document and the style sheet. -/
def headed : Disk :=
  diskOf [(indexHtml, .file (.ofText headedText)), (lookCss, .file (.ofText headedSheet))]

/-- Every style sheet at the top of the site. -/
def topSheets : PageStyle := ⟨true, "*.css", "Application"⟩

theorem page_headed : site.page headed topSheets = .ok headedPage := by decide +kernel

theorem indexText_headed : site.indexText headed = .ok headedText := by decide +kernel

theorem hasHeadEnd_headed : Markup.HasHeadEnd (Markup.relativizeAssets headedText) := by
  decide +kernel

end Specimen

namespace Site

open Markup

open Specimen in
/-- The sheet is put in as it stands, in front of the first end of a head. -/
theorem page_of_index_headed :
    Specimen.site.page headed topSheets = .ok headedPage ∧
    HasHeadEnd (relativizeAssets headedText) ∧
    ∃ before after, CutAtHeadEnd (relativizeAssets headedText) before after ∧
      headedPage.html =
        before ++ ("<style>" ++ String.join [headedSheet] ++ "</style>") ++ after := by
  have hsheets : Specimen.site.pageSheets headed topSheets = [headedSheet] := by decide +kernel
  obtain ⟨asset, content, text, hresolve, hfile, hcontent, _, hinserted⟩ :=
    (page_of_index Specimen.site headed topSheets).1 _ page_headed rfl
  obtain rfl := Except.ok.inj
    (indexText_headed.symm.trans (indexText_of_resolve hresolve hfile hcontent))
  rw [hsheets] at hinserted
  exact ⟨page_headed, hasHeadEnd_headed, hinserted (List.cons_ne_nil _ _) hasHeadEnd_headed⟩

end Site

end Docroot
