import Docroot.Proofs.Site.Health

/-!
# The empty request

A request of dots and separators alone asks for nothing (`Request.IsIdle`), and
then the index document is due. Its name is taken as it was configured, while the
name in a request is read as every request is, and a request is refused for a NUL
character or a drive letter in front.

Validation keeps separators out of the name, but neither of these two. Without
them the two requests have one outcome; with them the index document is denied to
whoever asks for it by its name, although the empty request may find it
(`idle_eq_index_iff`, `drive_index_denied`).
-/

namespace Docroot

namespace Request

variable {request : String}

/-- The request consists of single dots and separators, and no separator is in
    front. -/
structure IsIdle (request : String) : Prop where
  pieces : ∀ p ∈ Text.pieces isSeparator request.toList, p = [] ∨ p = ['.']
  head : request.toList.head?.any isSeparator = false

/-- An idle request is taken, and asks for nothing. -/
theorem sanitize_of_isIdle (h : IsIdle request) : sanitize request = .ok [] := by
  have hpieces : Request.pieces request = [] := by
    rw [Request.pieces, List.filter_eq_nil_iff]
    intro p hp
    rcases h.pieces p hp with rfl | rfl <;> decide
  have hnul : request.toList.contains '\x00' = false := by
    rw [List.contains_eq_mem, decide_eq_false_iff_not]
    intro hmem
    obtain hseparator | ⟨p, hp, hc⟩ := @Text.mem_pieces_of_mem isSeparator _ _ hmem
    · exact absurd hseparator (by decide)
    · rcases h.pieces p hp with rfl | rfl <;> exact absurd hc (by decide)
  have habsolute : isAbsolute request = false := by
    rw [isAbsolute, hpieces, h.head]
    rfl
  rw [sanitize, hnul, habsolute, hpieces]
  rfl

end Request

namespace Site

open Failure

variable {site : Site} {d : Disk} {request : String} {index : Name}

/-- All requests that ask for nothing have the outcome of the empty one. -/
theorem outcome_resolve_of_sanitize_nil (h : Request.sanitize request = .ok []) :
    outcome (site.resolve d request) = outcome (site.resolve d "") :=
  outcome_resolve_of_walkTo h sanitize_empty fun _ _ => rfl

/-- With a NUL in its name, the index document cannot be read. -/
theorem outcome_resolve_of_hasNul (hindex : index.text = site.index)
    (hnul : index.hasNul = true) (h : Request.sanitize request = .ok []) :
    outcome (site.resolve d request) = .error .unreadable := by
  cases hhome : site.home d with
  | error fault => rw [resolve, h, hhome]; rfl
  | ok root =>
    have hfree := (isPlain_of_home hhome).linkFree
    have hstorable : index.isStorable = false := by
      rw [← Bool.not_eq_true, Name.isStorable_iff, hnul]
      exact fun h => Bool.noConfusion h.2
    have hwalk : site.walkTo d root [] = .ok (root ++ [index]) := by
      rw [← walkFrom_of_not_isStorable hfree hstorable]
      exact walkToIndex_eq hindex
    refine outcome_resolve_of_looksAt h hhome (.here hwalk) (by simp [Location.isWithin])
      (.inr (.inl ?_))
    rw [List.any_append, List.any_cons, hnul]
    simp

/-- Under valid settings, an idle request has the outcome of the index document's
    name exactly if that name has no NUL in it, and has no drive letter in front
    unless the index document is denied in any case. -/
theorem idle_eq_index_iff {settings : Settings} {warnings : List Settings.Warning}
    (hvalid : settings.validate d = .ok warnings) (hidle : Request.IsIdle request) :
    outcome (settings.site.resolve d request) =
        outcome (settings.site.resolve d settings.site.index) ↔
      '\x00' ∉ settings.site.index.toList ∧
        (Request.startsWithDrive settings.site.index.toList = false ∨
          outcome (settings.site.resolve d request) = .error .accessDenied) := by
  obtain ⟨index, hindex, hback⟩ := Settings.exists_index_of_validate hvalid
  have hrequest := Request.sanitize_of_isIdle hidle
  have hname := Request.sanitize_name hback
  rw [hindex] at hname
  split_ifs at hname with hnul hdrive
  · -- Denied by its name, and not to be read without.
    have hhas : index.hasNul = true := by
      rw [Name.hasNul, List.contains_eq_mem, hindex, decide_eq_true hnul]
    rw [outcome_resolve_of_refused hname, outcome_resolve_of_hasNul hindex hhas hrequest]
    exact iff_of_false (by simp) fun h => h.1 hnul
  · rw [outcome_resolve_of_refused hname]
    exact ⟨fun h => ⟨hnul, .inr h⟩, fun h => h.2.resolve_left fun hno => by simp [hno] at hdrive⟩
  · have hempty := @outcome_resolve_empty _ d _ _ hindex hback hname
    exact iff_of_true ((outcome_resolve_of_sanitize_nil hrequest).trans hempty)
      ⟨hnul, .inl (Bool.not_eq_true _ ▸ hdrive)⟩

open Specimen in
/-- Whoever asks the small site for `.\./` is given what the name of its index
    document stands for. -/
theorem idle_eq_index_iff_home :
    (Settings.mk Specimen.site .default).validate disk = .ok [] ∧ Request.IsIdle ".\\./" ∧
    outcome (Specimen.site.resolve disk ".\\./") =
      outcome (Specimen.site.resolve disk "index.html") := by
  have hvalid : (Settings.mk Specimen.site .default).validate disk = .ok [] := by decide +kernel
  have hidle : Request.IsIdle ".\\./" := ⟨by decide, by decide⟩
  exact ⟨hvalid, hidle, (idle_eq_index_iff hvalid hidle).2 ⟨by decide, .inl (by decide)⟩⟩

end Site

namespace Specimen

def driveHtml : Name := ⟨"c:home.html", by decide⟩

/-- The small site with an index document that has a drive letter in front. -/
def driveSite : Site := { site with index := driveHtml.text }

def driveDisk : Disk := diskOf [(driveHtml, .file (.ofText "<p>home</p>"))]

end Specimen

namespace Site

open Failure

open Specimen in
/-- Valid settings may name an index document with a drive letter in front. The
    empty request finds it, and whoever asks for it by its name is denied it. -/
theorem drive_index_denied :
    (Settings.mk driveSite .default).validate driveDisk = .ok [] ∧ Request.IsIdle "" ∧
    driveSite.resolve driveDisk "" = .ok (.text [srv, web, driveHtml] "<p>home</p>") ∧
    driveSite.resolve driveDisk "c:home.html" = .error (.accessDenied "c:home.html") ∧
    outcome (driveSite.resolve driveDisk "") ≠
      outcome (driveSite.resolve driveDisk driveSite.index) := by
  have hfound : driveSite.resolve driveDisk "" =
      .ok (.text [srv, web, driveHtml] "<p>home</p>") := by decide +kernel
  have hdenied : driveSite.resolve driveDisk "c:home.html" =
      .error (.accessDenied "c:home.html") := by decide +kernel
  refine ⟨by decide +kernel, ⟨by decide, by decide⟩, hfound, hdenied, ?_⟩
  change _ ≠ outcome (driveSite.resolve driveDisk "c:home.html")
  rw [hfound, hdenied]
  exact nofun

end Site

end Docroot
