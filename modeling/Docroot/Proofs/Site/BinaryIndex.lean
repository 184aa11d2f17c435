import Docroot.Proofs.Site.Extensions
import Docroot.Proofs.Site.RootPage
import Docroot.Proofs.Specimen

/-!
# The warning about the index document

Validation warns that the index document will be read as a binary asset. Whether
it will be is decided by the extension of its name, as for every file: under valid
settings it is text exactly if that extension is listed, dots in front and the case
of its letters left out of account (`isText_iff_lists`). The warning is about
another extension, since it is given exactly if `html` is not listed
(`binaryIndex_mem_warnings_iff`).

So it tells the truth of an index document in HTML, and of any other exactly if its
extension and `html` are both listed or neither is (`binaryIndex_exact`,
`binaryIndex_misleads`).
-/

namespace Docroot

namespace Settings

variable {settings : Settings} {d : Disk} {n : Name} {extension : String}
  {extensions : List String} {warnings : List Warning}

/-- The extension is one of those of text files, as they are compared. -/
def Lists (settings : Settings) (extension : String) : Prop :=
  ∃ known ∈ settings.site.textExtensions,
    Site.normalizeExtension known = Site.normalizeExtension extension

theorem normalizeExtension_html : Site.normalizeExtension "html" = "html" := by decide

/-- Without flaws, no extension is listed that is nothing but dots. -/
theorem normalizeExtension_ne_empty (h : extensionFlaws extensions = [])
    (hmem : extension ∈ extensions) : Site.normalizeExtension extension ≠ "" := by
  rw [extensionFlaws, List.map_eq_nil_iff, List.filter_eq_nil_iff] at h
  rw [ne_eq, Site.normalizeExtension_eq_empty_iff, ← String.isEmpty_iff]
  exact h extension hmem

/-- Under settings without flaws, a file is text exactly if its name has an extension
    that is listed. -/
theorem isText_iff_lists (h : extensionFlaws settings.site.textExtensions = []) :
    settings.site.isText (some n) = true ↔ ∃ x, n.extension? = some x ∧ settings.Lists x := by
  have hlists : ∀ x, settings.site.hasTextExtension x = true ↔ settings.Lists x := by
    intro x
    rw [Site.hasTextExtension_iff]
    -- The empty extension, which is that of no text file, is not listed anyway.
    refine and_iff_right_of_imp ?_
    rintro ⟨known, hknown, heq⟩
    exact heq ▸ normalizeExtension_ne_empty h hknown
  rw [Site.isText, Option.bind_some]
  cases n.extension? with
  | none => simp
  | some x => simp [hlists]

/-- The warning is given exactly if `html` is not listed. -/
theorem binaryIndex_mem_warnings_iff :
    .binaryIndex ∈ settings.warnings d ↔ ¬ settings.Lists "html" := by
  rw [Settings.warnings, Lists, normalizeExtension_html]
  split_ifs with hany hroot hroot <;> simpa using hany

/-- Under valid settings the index document is warned about exactly if `html` is not
    listed, and is text exactly if its own extension is. The warning tells the truth
    if that is `html`, and else exactly if both extensions are listed or neither
    is. -/
theorem binaryIndex_exact (hvalid : settings.validate d = .ok warnings) :
    ∃ n : Name, n.text = settings.site.index ∧
      (Path.mk settings.site.index).fileName? = some n ∧
      (.binaryIndex ∈ warnings ↔ ¬ settings.Lists "html") ∧
      (settings.site.isText (Path.mk settings.site.index).fileName? = true ↔
        ∃ x, n.extension? = some x ∧ settings.Lists x) ∧
      ((.binaryIndex ∈ warnings ↔
          settings.site.isText (Path.mk settings.site.index).fileName? = false) ↔
        (settings.Lists "html" ↔ ∃ x, n.extension? = some x ∧ settings.Lists x)) ∧
      (∀ x, n.extension? = some x → Site.normalizeExtension x = "html" →
        (.binaryIndex ∈ warnings ↔
          settings.site.isText (Path.mk settings.site.index).fileName? = false)) := by
  obtain ⟨n, hindex, _⟩ := exists_index_of_validate hvalid
  obtain ⟨hflaws, rfl⟩ := flaws_of_validate hvalid
  rw [flaws, List.append_eq_nil_iff, List.append_eq_nil_iff] at hflaws
  have hname : (Path.mk settings.site.index).fileName? = some n := by
    rw [← hindex, Path.fileName?, Path.components_name]
    rfl
  have htext := @isText_iff_lists settings n hflaws.1.2
  have hwarned := @binaryIndex_mem_warnings_iff settings d
  refine ⟨n, hindex, hname, hwarned, hname ▸ htext, ?_, fun x hx hhtml => ?_⟩
  · rw [hname, hwarned, ← Bool.not_eq_true, htext, not_iff_not]
  · have hsame : settings.Lists x ↔ settings.Lists "html" := by
      rw [Lists, Lists, hhtml, normalizeExtension_html]
    rw [hname, hwarned, ← Bool.not_eq_true, htext, not_iff_not, ← hsame]
    simp [hx]

open Specimen in
/-- However the extension is written, an index document in HTML that is text is not
    warned about. -/
theorem binaryIndex_exact_capitals :
    (Settings.mk ⟨⟨"web"⟩, "Start.HTML", [".Html"]⟩ .default).validate disk =
      .ok [.dotInExtension ".Html"] ∧
    Site.isText ⟨⟨"web"⟩, "Start.HTML", [".Html"]⟩ (Path.mk "Start.HTML").fileName? = true := by
  have hvalid : (Settings.mk ⟨⟨"web"⟩, "Start.HTML", [".Html"]⟩ .default).validate disk =
      .ok [.dotInExtension ".Html"] := by decide
  obtain ⟨n, hn, _, _, _, _, htrue⟩ := binaryIndex_exact hvalid
  obtain rfl : n = ⟨"Start.HTML", by decide⟩ := Name.text_injective hn
  have htext := htrue "HTML" (by decide) (by decide +kernel)
  rw [iff_comm, ← Bool.not_eq_true, not_iff_comm] at htext
  exact ⟨hvalid, htext.1 (by simp)⟩

open Specimen in
/-- A text file is announced as a binary asset, and a binary asset is not. -/
theorem binaryIndex_misleads :
    (Settings.mk ⟨⟨"web"⟩, "start.txt", ["txt"]⟩ .default).validate disk = .ok [.binaryIndex] ∧
    Site.isText ⟨⟨"web"⟩, "start.txt", ["txt"]⟩ (Path.mk "start.txt").fileName? = true ∧
    (Settings.mk ⟨⟨"web"⟩, "start.bin", ["html"]⟩ .default).validate disk = .ok [] ∧
    Site.isText ⟨⟨"web"⟩, "start.bin", ["html"]⟩ (Path.mk "start.bin").fileName? = false := by
  decide

end Settings

end Docroot
