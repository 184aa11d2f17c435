import Docroot.Index.Stylesheets
import Docroot.Proofs.Path.Order
import Docroot.Proofs.Site.Reach

/-!
# Which texts are style sheets

The style sheets of a site are the texts of some of the paths that the pattern
selects, in the order of the paths. But a selected path is not read as it stands.
It is asked for like a request, and a request means more than a path:

* where it leads to a directory, it stands for the index document in there;
* a backslash separates in it, though it can be part of a name.

So the text of a sheet is that of the file which the path is served from as a
request (`stylesheets_of_selected`). That is the file which the path itself leads
to if no name in it has a backslash and it leads to a file. Otherwise it can be
one that the pattern does not select (`stylesheets_of_unselected`).
-/

namespace Docroot

namespace Site

variable {site : Site} {d : Disk} {root place : Location} {request text : String}
  {steps path : List Step} {entry : Entry} {content : Content}

/-- The place that some moves from the root are served from: where they lead, or
    where the index document leads in a directory that they lead to. -/
inductive Serves (site : Site) (d : Disk) (root : Location) (steps : List Step) : Location → Prop
  | itself {place : Location} : site.walkTo d root steps = .ok place →
      Serves site d root steps place
  | index {directory place : Location} : site.walkTo d root steps = .ok directory →
      Stands d root directory .directory → site.walkToIndex d directory = .ok place →
      Serves site d root steps place

theorem locate_eq_ok_iff (hfree : d.LinkFree root) (hentry : entry ≠ .directory) :
    site.locate d root request steps = .ok (place, entry) ↔
      site.Serves d root steps place ∧ Stands d root place entry := by
  constructor
  · intro h
    refine ⟨?_, stands_of_locate hfree h⟩
    rw [locate] at h
    obtain ⟨⟨first, found⟩, hfirst, h⟩ := Disk.bind_eq_ok_iff.1 h
    obtain ⟨hwalk, hstands⟩ := (inspect_eq_ok_iff fun _ => linkFree_of_walkTo hfree).1 hfirst
    cases found with
    | directory =>
      obtain ⟨hindex, _⟩ := (inspect_eq_ok_iff fun _ => hstands.linkFree.walkPath).1 h
      exact .index hwalk hstands hindex
    | file | link | special =>
      obtain ⟨rfl, rfl⟩ := Prod.mk.inj (Except.ok.inj h)
      exact .itself hwalk
  · rintro ⟨hserves, hstands⟩
    cases hserves with
    | itself hwalk => exact locate_of_walkTo hwalk hstands hentry
    | index hwalk hdirectory hindex =>
      rw [locate, Disk.bind_eq_ok_iff]
      refine ⟨_, (inspect_eq_ok_iff fun _ => linkFree_of_walkTo hfree).2 ⟨hwalk, hdirectory⟩, ?_⟩
      exact (inspect_eq_ok_iff fun _ => hdirectory.linkFree.walkPath).2
        ⟨hindex, hstands⟩

/-- The moves are served with this text. -/
def ServesText (site : Site) (d : Disk) (root : Location) (steps : List Step) (text : String) :
    Prop :=
  ∃ place content, site.Serves d root steps place ∧ Stands d root place (.file content) ∧
    content.text? = some text

theorem text?_eq_some_iff : site.text? d request = some text ↔
    ∃ place, site.resolve d request = .ok (.text place text) := by
  rw [text?]
  constructor
  · intro h
    split at h
    · rename_i place content hresolve
      obtain rfl := Option.some.inj h
      exact ⟨place, hresolve⟩
    · cases h
  · rintro ⟨place, h⟩
    rw [h]

theorem ServesText.of_text? (h : site.text? d request = some text) :
    ∃ root steps, site.home d = .ok root ∧ Request.sanitize request = .ok steps ∧
      site.ServesText d root steps text := by
  obtain ⟨place, hresolve⟩ := text?_eq_some_iff.1 h
  obtain ⟨root, steps, entry, hhome, hsteps, hlocate, hasset⟩ := exists_locate_of_resolve hresolve
  have hfree := (isPlain_of_home hhome).linkFree
  have hstands := stands_of_locate hfree hlocate
  cases hasset with
  | text hfile _ htext =>
    obtain rfl := Option.some.inj (hstands.entryAt?.symm.trans hfile)
    have hserves := ((locate_eq_ok_iff hfree (by simp)).1 hlocate).1
    exact ⟨root, steps, hhome, hsteps, place, _, hserves, hstands, htext⟩

/-- What is served where the system finds a regular file is that file. -/
theorem ServesText.text?_of_canonicalize {q : Location} (h : site.ServesText d root path text)
    (hhome : site.home d = .ok root) (hpath : path ≠ [])
    (hq : d.canonicalize (root.path.join ⟨Step.textOf path⟩) = .ok q)
    (hfile : d.entryAt? q = some (.file content)) : content.text? = some text := by
  obtain ⟨place, served, hserves, hstands, htext⟩ := h
  have hwalk := Disk.walkFrom_of_canonicalize (isPlain_of_home hhome).linkFree
    Step.isAbsolute_textOf hq
  rw [Step.steps_textOf] at hwalk
  have hwalkTo : site.walkTo d root path = .ok q := by
    rw [walkTo, if_neg (by simpa using hpath), hwalk]
  cases hserves with
  | itself hplace =>
    obtain rfl := Except.ok.inj (hplace.symm.trans hwalkTo)
    obtain rfl := Entry.file.inj (Option.some.inj (hstands.entryAt?.symm.trans hfile))
    exact htext
  | index hdirectory hplain _ =>
    obtain rfl := Except.ok.inj (hdirectory.symm.trans hwalkTo)
    cases hplain.entryAt?.symm.trans hfile

theorem pairwise_selected (site : Site) (d : Disk) (pattern : String) :
    (site.selected d pattern).Pairwise fun p q => (Step.orderOf p q != .gt) = true := by
  rw [selected]
  cases site.home d with
  | error fault => exact .nil
  | ok root =>
    dsimp only
    cases Glob.Pattern.ofText? (patternBelow root pattern) with
    | none => exact .nil
    | some parsed => exact Step.pairwise_filterMap_below? (Step.pairwise_mergeSort _)

/-- What is made of a list by leaving some of it out can be paired with what it is
    made of. -/
theorem exists_kept {α β : Type} (f : α → Option β) (xs : List α) :
    ∃ kept : List (α × β), (kept.map (·.1)).Sublist xs ∧ kept.map (·.2) = xs.filterMap f ∧
      ∀ x y, (x, y) ∈ kept → f x = some y := by
  induction xs with
  | nil => exact ⟨[], .slnil, rfl, by simp⟩
  | cons x xs ih =>
    obtain ⟨kept, hsublist, hmap, hkept⟩ := ih
    cases hx : f x with
    | none =>
      rw [List.filterMap_cons_none hx]
      exact ⟨kept, hsublist.cons x, hmap, hkept⟩
    | some y =>
      rw [List.filterMap_cons_some hx]
      refine ⟨(x, y) :: kept, hsublist.cons_cons x, congrArg (y :: ·) hmap, ?_⟩
      rintro x' y' hmem
      rcases List.mem_cons.1 hmem with heq | hmem
      · obtain ⟨rfl, rfl⟩ := Prod.mk.inj heq
        exact hx
      · exact hkept x' y' hmem

/-- The style sheets are made of the selected paths, in their order, by keeping
    some of them, each with the text that it is served with as a request. If it
    has no backslash in a name, the request asks for the path itself; and where
    the system then leads the path to a regular file, the text is that file's. -/
theorem stylesheets_of_selected (site : Site) (d : Disk) (pattern : String) :
    (site.selected d pattern).Pairwise (fun p q => (Step.orderOf p q != .gt) = true) ∧
    ∃ kept : List (List Step × String),
      (kept.map (·.1)).Sublist (site.selected d pattern) ∧
      kept.map (·.2) = site.stylesheets d pattern ∧
      ∀ path text, (path, text) ∈ kept → ∃ root steps, site.home d = .ok root ∧
        Request.sanitize (Step.textOf path) = .ok steps ∧ site.ServesText d root steps text ∧
        ((∀ s ∈ path, '\\' ∉ s.text.toList) → steps = path ∧
          ∀ q content, path ≠ [] →
            d.canonicalize (root.path.join ⟨Step.textOf path⟩) = .ok q →
            d.entryAt? q = some (.file content) → content.text? = some text) := by
  obtain ⟨kept, hsublist, hmap, hkept⟩ :=
    exists_kept (fun path => site.text? d (Step.textOf path)) (site.selected d pattern)
  refine ⟨pairwise_selected site d pattern, kept, hsublist, hmap, fun path text hmem => ?_⟩
  obtain ⟨root, steps, hhome, hsteps, hserves⟩ := ServesText.of_text? (hkept path text hmem)
  refine ⟨root, steps, hhome, hsteps, hserves, fun hback => ?_⟩
  obtain rfl := Request.eq_of_sanitize_textOf hback hsteps
  exact ⟨rfl, fun q content hne hq hfile => hserves.text?_of_canonicalize hhome hne hq hfile⟩

open Specimen in
/-- The sheet that is selected through a link is the one behind it. -/
theorem stylesheets_of_selected_look :
    Specimen.site.selected disk "look.css" = [[.name lookCss]] ∧
    ∃ kept : List (List Step × String), (kept.map (·.1)).Sublist [[.name lookCss]] ∧
      kept.map (·.2) = ["p { }"] := by
  have hselected : Specimen.site.selected disk "look.css" = [[.name lookCss]] := by
    decide +kernel
  have hsheets : Specimen.site.stylesheets disk "look.css" = ["p { }"] := by decide +kernel
  obtain ⟨_, kept, hsublist, hmap, _⟩ := stylesheets_of_selected Specimen.site disk "look.css"
  exact ⟨hselected, kept, hselected ▸ hsublist, hmap.trans hsheets⟩

end Site

namespace Specimen

def docsCss : Name := ⟨"index-docs.css", by decide⟩
def sheets : Name := ⟨"sheets", by decide⟩
def backCss : Name := ⟨"a\\b.css", by decide⟩
def a : Name := ⟨"a", by decide⟩
def bCss : Name := ⟨"b.css", by decide⟩

/-- A site with a directory that is named like a style sheet, and with a style
    sheet whose name has a backslash and reads like the path of another. -/
def misnamed : Disk :=
  diskOf
    [(assets, .directory [(docsCss, .directory [(indexHtml, .file (.ofText "<p>docs</p>"))])]),
     (sheets, .directory
       [(backCss, .file (.ofText "p { color: red }")),
        (a, .directory [(bCss, .file (.ofText "p { color: blue }"))])])]

end Specimen

namespace Site

open Specimen in
/-- The directory is selected as the only sheet, and the text is that of the index
    document in it; the sheet with the backslash is selected, and the text is that
    of another. Neither is the text of a file that a selected path leads to. -/
theorem stylesheets_of_unselected :
    Specimen.site.selected misnamed "assets/index-*.css" = [[.name assets, .name docsCss]] ∧
    Specimen.site.stylesheets misnamed "assets/index-*.css" = ["<p>docs</p>"] ∧
    Specimen.site.selected misnamed "sheets/*.css" = [[.name sheets, .name backCss]] ∧
    Specimen.site.stylesheets misnamed "sheets/*.css" = ["p { color: blue }"] ∧
    ∀ pattern ∈ ["assets/index-*.css", "sheets/*.css"],
      ¬ ∀ text ∈ Specimen.site.stylesheets misnamed pattern,
        ∃ path ∈ Specimen.site.selected misnamed pattern, ∃ place content,
          misnamed.canonicalize (Path.join (Location.path [srv, web]) ⟨Step.textOf path⟩) =
            .ok place ∧
          misnamed.entryAt? place = some (.file content) ∧ content.text? = some text := by
  have hdocs : Specimen.site.selected misnamed "assets/index-*.css" =
      [[.name assets, .name docsCss]] := by decide +kernel
  have hdocsText : Specimen.site.stylesheets misnamed "assets/index-*.css" = ["<p>docs</p>"] := by
    decide +kernel
  have hback : Specimen.site.selected misnamed "sheets/*.css" =
      [[.name sheets, .name backCss]] := by decide +kernel
  have hbackText : Specimen.site.stylesheets misnamed "sheets/*.css" =
      ["p { color: blue }"] := by decide +kernel
  refine ⟨hdocs, hdocsText, hback, hbackText, fun pattern hpattern hown => ?_⟩
  rcases List.mem_pair.1 hpattern with rfl | rfl
  · have hplace : misnamed.canonicalize (Path.join (Location.path [srv, web])
        ⟨Step.textOf [.name assets, .name docsCss]⟩) = .ok [srv, web, assets, docsCss] := by
      decide +kernel
    have hentry : misnamed.entryAt? [srv, web, assets, docsCss] = some .directory := by
      decide +kernel
    obtain ⟨path, hpath, place, content, hq, hfile, _⟩ :=
      hown "<p>docs</p>" (hdocsText ▸ List.mem_cons_self)
    obtain rfl := List.mem_singleton.1 (hdocs ▸ hpath)
    obtain rfl := Except.ok.inj (hq.symm.trans hplace)
    cases hfile.symm.trans hentry
  · have hplace : misnamed.canonicalize (Path.join (Location.path [srv, web])
        ⟨Step.textOf [.name sheets, .name backCss]⟩) = .ok [srv, web, sheets, backCss] := by
      decide +kernel
    have hentry : misnamed.entryAt? [srv, web, sheets, backCss] =
        some (.file (.ofText "p { color: red }")) := by decide +kernel
    have hother : (Content.ofText "p { color: red }").text? ≠ some "p { color: blue }" := by
      decide +kernel
    obtain ⟨path, hpath, place, content, hq, hfile, htext⟩ :=
      hown "p { color: blue }" (hbackText ▸ List.mem_cons_self)
    obtain rfl := List.mem_singleton.1 (hback ▸ hpath)
    obtain rfl := Except.ok.inj (hq.symm.trans hplace)
    obtain rfl := Entry.file.inj (Option.some.inj (hfile.symm.trans hentry))
    exact hother htext

end Site

end Docroot
