import Docroot.Proofs.Request.Reading
import Docroot.Reply
import Docroot.Settings

/-!
# The name of the index document

Settings without flaws name the index document by one plain name. As a path it
leads to the entry of that name and nowhere else, so the place of the index
document at the top of a site is that name in the root (`isIndexPlace_iff`), and
a request that consists of the name asks for the same move, if it is not refused
(`Request.sanitize_name`).
-/

namespace Docroot

variable {n : Name}

namespace Step

theorem textOf_name : textOf [.name n] = n.text := String.ofList_toList

end Step

namespace Path

theorem isAbsolute_name : (Path.mk n.text).isAbsolute = false := by
  rw [← Step.textOf_name]
  exact Step.isAbsolute_textOf

theorem steps_name : (Path.mk n.text).steps = [.name n] := by
  rw [← Step.textOf_name]
  exact Step.steps_textOf

theorem components_name : (Path.mk n.text).components = [.step (.name n)] := by
  rw [← Step.textOf_name]
  exact Step.components_textOf

end Path

namespace Request

/-- A name without a backslash is taken as a request for the entry of that name,
    unless it has a NUL character in it or a drive letter in front. -/
theorem sanitize_name (hback : '\\' ∉ n.text.toList) : sanitize n.text =
    if '\x00' ∈ n.text.toList then .error .nulByte
    else if startsWithDrive n.text.toList = true then .error .absolutePath
    else .ok [.name n] := by
  have hplain : '\x00' ∉ n.text.toList → ∀ s ∈ [Step.name n], IsPlainStep s := by
    rintro hnul s hs
    obtain rfl := List.mem_singleton.1 hs
    exact ⟨hnul, hback⟩
  have htext : sanitize n.text = sanitize (Step.textOf [.name n]) := by rw [Step.textOf_name]
  split_ifs with hnul hdrive
  · rw [sanitize, if_pos (by simpa using hnul)]
  · have habsolute : isAbsolute (Step.textOf [.name n]) = true := by
      rw [isAbsolute, pieces_textOf fun s hs => (hplain hnul s hs).2, Bool.or_eq_true]
      exact .inr hdrive
    rw [htext, sanitize, nul_notMem_textOf (hplain hnul), habsolute]
    rfl
  · rw [htext]
    exact sanitize_textOf (hplain hnul) (Bool.not_eq_true _ ▸ hdrive)

theorem sanitize_name_iff (hback : '\\' ∉ n.text.toList) :
    sanitize n.text = .ok [.name n] ↔
      '\x00' ∉ n.text.toList ∧ startsWithDrive n.text.toList = false := by
  rw [sanitize_name hback]
  split_ifs with hnul hdrive <;> simp_all

end Request

/-- A name without flaws for the index document is a name, and has no
    backslash. -/
theorem Settings.exists_name_of_indexFlaws {index : String} (h : indexFlaws index = []) :
    ∃ n : Name, n.text = index ∧ '\\' ∉ n.text.toList := by
  rw [indexFlaws] at h
  split_ifs at h with hempty hseparator hdots
  rw [not_or] at hdots
  have hplain : ∀ c ∈ index.toList, c ≠ '/' ∧ c ≠ '\\' := by
    simpa [Request.isSeparator] using hseparator
  refine ⟨⟨index, ?_, hdots.1, hdots.2, fun hslash => (hplain _ hslash).1 rfl⟩, rfl,
    fun hback => (hplain _ hback).2 rfl⟩
  simpa using hempty

namespace Site

variable {site : Site} {d : Disk} {root place : Location} {names : List Name} {steps : List Step}

theorem isIndexNames_of_components (hindex : (Path.mk site.index).components = [.step (.name n)]) :
    site.isIndexNames names = true ↔ names = [n] := by
  rw [isIndexNames, hindex, beq_iff_eq, List.map_eq_singleton_iff]
  simp

theorem isIndexNames_iff (hn : n.text = site.index) :
    site.isIndexNames names = true ↔ names = [n] :=
  isIndexNames_of_components (hn ▸ Path.components_name)

/-- The place of the index document at the top of a site is its name in the
    root. -/
theorem isIndexPlace_iff (hn : n.text = site.index) (hhome : site.home d = .ok root) :
    site.isIndexPlace d place = true ↔ place = root ++ [n] := by
  simp only [isIndexPlace, hhome, Location.below?, Location.isWithin, List.isPrefixOf_iff_prefix]
  split_ifs with hprefix
  · obtain ⟨names, rfl⟩ := hprefix
    rw [List.drop_left, Option.any_some, isIndexNames_iff hn, List.append_right_inj]
  · refine ⟨nofun, ?_⟩
    rintro rfl
    exact absurd (List.prefix_append root [n]) hprefix

theorem walkToIndex_eq (hn : n.text = site.index) :
    site.walkToIndex d root = d.walkFrom root [.name n] := by
  rw [walkToIndex, Disk.walkPath, ← hn, Path.isAbsolute_name, Path.steps_name]
  rfl

/-- The name as a request asks for the entry of that name, unless it is
    refused. -/
theorem sanitize_index (hn : n.text = site.index) (hback : '\\' ∉ n.text.toList)
    (h : Request.sanitize site.index = .ok steps) : steps = [.name n] := by
  rw [← hn, Request.sanitize_name hback] at h
  split_ifs at h
  exact (Except.ok.inj h).symm

end Site

end Docroot
