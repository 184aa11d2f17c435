import Docroot.Proofs.Glob.Hits
import Docroot.Proofs.Site.Confidentiality
import Docroot.Proofs.Site.Sheets

/-!
# The sheets that a pattern matches

Which files become style sheets can be told without requests: of the paths that the
pattern hits, those that lead to a regular file in the root which is text
(`Site.sheetAt?`). That a hit is seen from the root, written as a request and read
again loses nothing, as long as the path means the same both ways
(`Site.SelectsClean`): no name in it has a backslash, it does not start with a drive,
and it leads to no directory. Then the style sheets are the texts of these files, in
the order of the paths, one for each hit (`stylesheets_of_matched`).

A path that the pattern hits more than once is read as often
(`stylesheets_of_repeated`); that takes a pattern with more than one run of `**`, or
with a part that selects `.` as well as names.
-/

namespace Docroot

namespace Site

open Glob Pattern

variable {site : Site} {d : Disk} {root place : Location} {pattern text request : String}
  {path : List Step} {content : Content} {parsed : Pattern}

/-- The text of the sheet at a path from the root: of the regular file that the path
    leads to, if it is in the root and text. -/
def sheetAt? (site : Site) (d : Disk) (root : Location) (path : List Step) : Option String :=
  match d.walkFrom root path with
  | .error _ => none
  | .ok place =>
    if root.isWithin place && site.isText place.getLast? then
      match d.statusAt place with
      | .ok (.file content) => content.text?
      | _ => none
    else none

/-- Every selected path means the same as a request: it has no backslash, does not
    start with a drive, and leads to no directory. -/
structure SelectsClean (site : Site) (d : Disk) (root : Location) (pattern : String) : Prop where
  backslash_notMem : ∀ path ∈ site.selected d pattern, ∀ s ∈ path, '\\' ∉ s.text.toList
  not_startsWithDrive : ∀ path ∈ site.selected d pattern,
    path.head?.any (fun s => Request.startsWithDrive s.text.toList) = false
  not_isDirectory : ∀ path ∈ site.selected d pattern, ∀ place,
    d.walkFrom root path = .ok place → d.isDirectory place = false

theorem sheetAt?_eq_some_iff : site.sheetAt? d root path = some text ↔
    ∃ place content, d.walkFrom root path = .ok place ∧ root.isWithin place = true ∧
      site.isText place.getLast? = true ∧ d.statusAt place = .ok (.file content) ∧
      content.text? = some text := by
  rw [sheetAt?]
  cases hwalk : d.walkFrom root path with
  | error refusal => simp
  | ok place =>
    simp only [Bool.and_eq_true, Except.ok.injEq, exists_and_left, existsAndEq, true_and]
    constructor
    · intro h
      split_ifs at h with hplace
      split at h
      · next content hstatus => exact ⟨hplace.1, hplace.2, content, hstatus, h⟩
      · cases h
    · rintro ⟨hwithin, htext, content, hstatus, hcontent⟩
      rw [if_pos ⟨hwithin, htext⟩, hstatus]
      exact hcontent

/-! ## What is selected -/

theorem exists_of_mem_expand {base : Location} (h : path ∈ parsed.expand d base) :
    ∃ t ∈ select d base parsed.parts (Trail.ofComponents d base []), t.steps = path ∧
      (parsed.directoriesOnly = true → t.isDirectory = true) := by
  rw [expand, List.mem_mergeSort, List.mem_map] at h
  obtain ⟨t, ht, rfl⟩ := h
  obtain ⟨ht, hkept⟩ := List.mem_filter.1 ht
  exact ⟨t, ht, rfl, fun hdirs => by simpa [hdirs] using hkept⟩

/-- Every path that the pattern behind the root hits is the root's with a path of
    stored names behind it. -/
theorem exists_of_mem_expand_patternBelow
    (hparsed : Pattern.ofText? (patternBelow root pattern) = some parsed)
    (h : path ∈ parsed.expand d []) :
    ∃ rest, path = root.map .name ++ rest ∧ ∀ n, .name n ∈ rest → n.isStorable = true := by
  obtain ⟨heads, hheads, hread⟩ := ofText?_patternBelow root pattern
  obtain ⟨below, _, rfl⟩ := Option.map_eq_some_iff.1 (hread.symm.trans hparsed)
  obtain ⟨t, ht, rfl, _⟩ := exists_of_mem_expand h
  obtain ⟨rest, hrest⟩ := isStartOf_of_mem_select_names hheads ht
  obtain ⟨added, hadded, hstorable⟩ := isStartOf_of_mem_select _ _ ht
  have hcomponents : t.components = (root.map fun n => .step (.name n)) ++ rest := hrest.symm
  have hsteps : t.steps = root.map .name ++ rest.filterMap Component.step? := by
    rw [Trail.steps, hcomponents, List.filterMap_append, Component.filterMap_step?_names]
  refine ⟨_, hsteps, fun n hn => hstorable n ?_⟩
  obtain ⟨c, hc, hstep⟩ := List.mem_filterMap.1 hn
  have hname : c = .step (.name n) := by
    cases c with
    | step s => exact congrArg _ (Option.some.inj hstep)
    | root | here => cases hstep
  have hmem : c ∈ t.components := hcomponents ▸ List.mem_append_right _ hc
  rw [hadded] at hmem
  exact hname ▸ hmem

/-- Nothing is lost when the hits are seen from the root. -/
theorem expand_eq_map_selected (hhome : site.home d = .ok root)
    (hparsed : Pattern.ofText? (patternBelow root pattern) = some parsed) :
    parsed.expand d [] = (site.selected d pattern).map (root.map .name ++ ·) := by
  have hselected : site.selected d pattern = (parsed.expand d []).filterMap (Step.below? root) := by
    simp only [selected, hhome, hparsed]
  have hback : ∀ path ∈ parsed.expand d [],
      (Step.below? root path).map (root.map .name ++ ·) = some path := by
    intro path hpath
    obtain ⟨rest, rfl, _⟩ := exists_of_mem_expand_patternBelow hparsed hpath
    rw [Step.below?_eq_some_iff.2 rfl, Option.map_some]
  rw [hselected, List.map_filterMap, List.filterMap_congr hback, List.filterMap_some]

/-- The selected paths are the hits seen from the root, in their order. -/
theorem selected_eq_of_perm {paths : List (List Step)} (hhome : site.home d = .ok root)
    (hparsed : Pattern.ofText? (patternBelow root pattern) = some parsed)
    (hhits : (((select d [] parsed.parts (Trail.ofComponents d [] [])).filter fun trail =>
      !parsed.directoriesOnly || trail.isDirectory).map Trail.steps).Perm
        (paths.map (root.map .name ++ ·)))
    (hpaths : paths.Pairwise fun p q => (Step.orderOf p q != .gt) = true) :
    site.selected d pattern = paths := by
  have hperm : (parsed.expand d []).Perm (paths.map (root.map .name ++ ·)) :=
    (List.mergeSort_perm _ _).trans hhits
  rw [expand_eq_map_selected hhome hparsed] at hperm
  refine Step.eq_of_perm_of_pairwise ?_ (pairwise_selected site d pattern) hpaths
  exact (List.map_perm_map_iff (List.append_right_injective (root.map Step.name))).1 hperm

theorem exists_parsed_of_mem_selected (hhome : site.home d = .ok root)
    (h : path ∈ site.selected d pattern) :
    ∃ parsed, Pattern.ofText? (patternBelow root pattern) = some parsed ∧
      root.map .name ++ path ∈ parsed.expand d [] := by
  cases hparsed : Pattern.ofText? (patternBelow root pattern) with
  | none => simp [selected, hhome, hparsed] at h
  | some parsed =>
    refine ⟨parsed, rfl, ?_⟩
    rw [expand_eq_map_selected hhome hparsed]
    exact List.mem_map_of_mem h

/-- The names of a selected path are stored on the disk, so there is no NUL in them. -/
theorem nul_notMem_of_mem_selected (hhome : site.home d = .ok root)
    (h : path ∈ site.selected d pattern) : ∀ s ∈ path, '\x00' ∉ s.text.toList := by
  obtain ⟨parsed, hparsed, hmem⟩ := exists_parsed_of_mem_selected hhome h
  obtain ⟨rest, hrest, hstorable⟩ := exists_of_mem_expand_patternBelow hparsed hmem
  obtain rfl := List.append_cancel_left hrest
  intro s hs
  cases s with
  | up => decide
  | name n =>
    have hnul := (Name.isStorable_iff.1 (hstorable n hs)).2
    rwa [Name.hasNul, List.contains_eq_mem, decide_eq_false_iff_not] at hnul

/-- A pattern without a second run of `**`, and without a part that selects `.` as
    well as names, selects no path twice. -/
theorem nodup_selected (hparsed : Pattern.ofText? pattern = some parsed)
    (honce : Part.hitOnce parsed.parts = true) : (site.selected d pattern).Nodup := by
  cases hhome : site.home d with
  | error fault => simp only [selected, hhome, List.nodup_nil]
  | ok root =>
    obtain ⟨heads, hheads, hread⟩ := ofText?_patternBelow root pattern
    rw [hparsed, Option.map_some] at hread
    have hsteps := @nodup_steps_select d [] (Trail.ofComponents d [] []) (heads ++ parsed.parts)
      ((Part.hitOnce_append hheads).trans honce)
    have hexpand : (Pattern.expand d [] ⟨heads ++ parsed.parts, parsed.directoriesOnly⟩).Nodup :=
      (List.mergeSort_perm _ _).nodup_iff.2 (hsteps.sublist (List.filter_sublist.map _))
    rw [expand_eq_map_selected hhome hread] at hexpand
    exact List.Nodup.of_map _ hexpand

/-! ## The root itself -/

/-- A pattern without parts is closed by its slash, so it selects directories only. -/
theorem directoriesOnly_of_parts_eq_nil (hparsed : Pattern.ofText? pattern = some parsed)
    (hparts : parsed.parts = []) : parsed.directoriesOnly = true := by
  rw [Pattern.ofText?] at hparsed
  generalize hpieces : Text.pieces (· == '/') (pattern.toList.dropWhile (· == '/')) = pieces
    at hparsed
  obtain ⟨parts, hread, rfl⟩ := Option.map_eq_some_iff.1 hparsed
  obtain rfl : parts = [] := hparts
  by_contra hopen
  rw [if_neg hopen] at hread
  cases pieces with
  | nil => exact Text.pieces_ne_nil hpieces
  | cons piece pieces => simp [List.mapM_cons, Option.bind_eq_some_iff] at hread

/-- Only a directory is hit by its own empty path. -/
theorem isDirectory_of_nil_mem_selected (hhome : site.home d = .ok root)
    (hbytes : root.bytes < maxPathBytes) (h : [] ∈ site.selected d pattern) :
    d.isDirectory root = true := by
  have hroot := isPlain_of_home hhome
  cases hparsed : Pattern.ofText? pattern with
  | none =>
    rw [selected_of_invalid hparsed] at h
    cases h
  | some parsed =>
    rw [selected_eq_expand hhome hroot hbytes hparsed] at h
    obtain ⟨t, ht, hsteps, hdirs⟩ := exists_of_mem_expand h
    have hleads : Trail.leadsToDirectory d root [] = d.isDirectory root := by
      have hview := Trail.leadsToDirectory_eq (sameView_root d root)
        (List.forall_mem_nil fun _ => True)
      rw [← hview, List.append_nil, Trail.leadsToDirectory_of_isPlain hroot hbytes]
    rw [← hleads]
    by_contra hnot
    rw [Bool.not_eq_true] at hnot
    cases hparts : parsed.parts with
    | nil =>
      rw [hparts] at ht
      have hdirectory := hdirs (directoriesOnly_of_parts_eq_nil hparsed hparts)
      rw [List.mem_singleton.1 ht] at hdirectory
      exact absurd hdirectory (by simp [Trail.ofComponents, hnot])
    | cons part parts =>
      rw [hparts] at ht
      have hlonger := length_steps_lt_of_mem_select hnot ht
      rw [hsteps] at hlonger
      exact absurd hlonger (Nat.not_lt_zero _)

/-! ## Sheets as requests -/

/-- Nothing is read from a root that is too deep. -/
theorem text?_of_long (hhome : site.home d = .ok root) (hlong : maxPathBytes ≤ root.bytes) :
    site.text? d request = none := by
  rw [Option.eq_none_iff_forall_ne_some]
  intro text htext
  obtain ⟨place, hresolve⟩ := text?_eq_some_iff.1 htext
  obtain ⟨root', entry, hhome', hstands, _⟩ := resolve_eq_ok hresolve
  obtain rfl := Except.ok.inj (hhome.symm.trans hhome')
  have hstarts : root <+: place := List.isPrefixOf_iff_prefix.1 hstands.isWithin
  exact absurd (Location.bytes_lt_of_prefix hstarts hstands.bytes_lt) (Nat.not_lt.2 hlong)

theorem sheetAt?_of_long (hhome : site.home d = .ok root) (hlong : maxPathBytes ≤ root.bytes) :
    site.sheetAt? d root path = none := by
  rw [Option.eq_none_iff_forall_ne_some]
  intro text htext
  obtain ⟨place, content, hwalk, hwithin, _, hstatus, _⟩ := sheetAt?_eq_some_iff.1 htext
  have hfree : d.LinkFree place := (isPlain_of_home hhome).linkFree.walk hwalk
  have hstarts : root <+: place := List.isPrefixOf_iff_prefix.1 hwithin
  exact absurd (Location.bytes_lt_of_prefix hstarts ((Disk.statusAt_eq_ok_iff hfree).1 hstatus).1)
    (Nat.not_lt.2 hlong)

/-- A path that means the same as a request is read as a request. -/
theorem text?_textOf (hhome : site.home d = .ok root) (hpath : path ≠ [])
    (hsteps : Request.sanitize (Step.textOf path) = .ok path)
    (hdir : ∀ place, d.walkFrom root path = .ok place → d.isDirectory place = false) :
    site.text? d (Step.textOf path) = site.sheetAt? d root path := by
  have hfree := (isPlain_of_home hhome).linkFree
  have hwalkTo : site.walkTo d root path = d.walkFrom root path := by
    rw [walkTo, if_neg (by simpa using hpath)]
  refine Option.ext fun text => ?_
  rw [text?_eq_some_iff, sheetAt?_eq_some_iff]
  constructor
  · rintro ⟨place, hresolve⟩
    obtain ⟨root', steps, entry, hhome', hread, hlocate, hasset⟩ :=
      exists_locate_of_resolve hresolve
    obtain rfl := Except.ok.inj (hhome.symm.trans hhome')
    obtain rfl := Except.ok.inj (hsteps.symm.trans hread)
    have hstands := stands_of_locate hfree hlocate
    cases hasset with
    | @text _ content _ hfile htext hcontent =>
      obtain rfl := Option.some.inj (hstands.entryAt?.symm.trans hfile)
      cases ((locate_eq_ok_iff hfree (by simp)).1 hlocate).1 with
      | itself hwalk =>
        exact ⟨place, content, hwalkTo ▸ hwalk, hstands.isWithin, htext,
          (Disk.statusAt_eq_ok_iff hstands.linkFree).2 ⟨hstands.bytes_lt, hfile⟩, hcontent⟩
      | index hwalk hdirectory _ =>
        have hnot := hdir _ (hwalkTo ▸ hwalk)
        rw [Disk.isDirectory_iff.2 hdirectory.entryAt?] at hnot
        cases hnot
  · rintro ⟨place, content, hwalk, hwithin, htext, hstatus, hcontent⟩
    obtain ⟨hbytes, hfile⟩ := (Disk.statusAt_eq_ok_iff (hfree.walk hwalk)).1 hstatus
    obtain ⟨asset, hresolve, rfl, hasset⟩ := resolve_of_walkFrom hsteps hpath hhome hwalk hwithin
      hbytes hfile fun _ => Option.isSome_of_eq_some hcontent
    cases hasset with
    | text hfile' _ hcontent' =>
      obtain rfl := Entry.file.inj (Option.some.inj (hfile.symm.trans hfile'))
      obtain rfl := Option.some.inj (hcontent.symm.trans hcontent')
      exact ⟨_, hresolve⟩
    | binary _ hbinary => cases htext.symm.trans hbinary

theorem stylesheets_eq_filterMap_sheetAt? (hhome : site.home d = .ok root)
    (hclean : site.SelectsClean d root pattern) :
    site.stylesheets d pattern = (site.selected d pattern).filterMap (site.sheetAt? d root) := by
  refine List.filterMap_congr fun path hpath => ?_
  rcases Nat.lt_or_ge root.bytes maxPathBytes with hbytes | hlong
  · have hne : path ≠ [] := by
      rintro rfl
      have hnot := hclean.not_isDirectory [] hpath root Disk.walk_nil
      rw [isDirectory_of_nil_mem_selected hhome hbytes hpath] at hnot
      cases hnot
    have hplain : ∀ s ∈ path, Request.IsPlainStep s := fun s hs =>
      ⟨nul_notMem_of_mem_selected hhome hpath s hs, hclean.backslash_notMem path hpath s hs⟩
    exact text?_textOf hhome hne
      (Request.sanitize_textOf hplain (hclean.not_startsWithDrive path hpath))
      (hclean.not_isDirectory path hpath)
  · rw [text?_of_long hhome hlong, sheetAt?_of_long hhome hlong]

/-- The style sheets that a pattern selects are read from the files that the selected
    paths lead to, one for each hit of the pattern, in the order of the paths. No hit
    is lost when it is seen from the root, and the order in which directories list
    their entries does not matter. -/
theorem stylesheets_of_matched (site : Site) (d : Disk) (pattern : String) :
    (∀ fault, site.home d = .error fault → site.stylesheets d pattern = []) ∧
    (∀ root, site.home d = .ok root → site.SelectsClean d root pattern →
      (∀ parsed, Pattern.ofText? (patternBelow root pattern) = some parsed →
        parsed.expand d [] = (site.selected d pattern).map (root.map .name ++ ·)) ∧
      site.stylesheets d pattern =
        (site.selected d pattern).filterMap (site.sheetAt? d root)) ∧
    (site.selected d pattern).Pairwise (fun p q => (Step.orderOf p q != .gt) = true) ∧
    (∀ parsed, Pattern.ofText? pattern = some parsed → Part.hitOnce parsed.parts = true →
      (site.selected d pattern).Nodup) ∧
    ∀ e : Disk, e.workingDirectory = d.workingDirectory →
      (∀ place, e.entryAt? place = d.entryAt? place) →
      site.stylesheets e pattern = site.stylesheets d pattern := by
  refine ⟨fun fault hhome => ?_, fun root hhome hclean => ⟨fun parsed hparsed => ?_, ?_⟩,
    pairwise_selected site d pattern, fun parsed hparsed honce => ?_, fun e hdir hentries => ?_⟩
  · simp only [stylesheets, selected, hhome, List.filterMap_nil]
  · exact expand_eq_map_selected hhome hparsed
  · exact stylesheets_eq_filterMap_sheetAt? hhome hclean
  · exact nodup_selected hparsed honce
  · have hsame : site.SameInside e d :=
      ⟨⟨hdir, fun place => congrArg _ (hentries place)⟩, fun _ _ place _ => hentries place⟩
    exact hsame.stylesheets_eq pattern

open Specimen in
/-- Of two links that the pattern hits, the one that leads nowhere is left out. -/
theorem stylesheets_of_matched_links :
    Specimen.site.home disk = .ok [srv, web] ∧
    Specimen.site.SelectsClean disk [srv, web] "[fl]*" ∧
    Specimen.site.selected disk "[fl]*" = [[.name first], [.name lookCss]] ∧
    Specimen.site.stylesheets disk "[fl]*" =
      [[.name first], [.name lookCss]].filterMap (Specimen.site.sheetAt? disk [srv, web]) ∧
    Specimen.site.stylesheets disk "[fl]*" = ["p { }"] ∧
    (Specimen.site.selected disk "[fl]*").Nodup := by
  have hhome : Specimen.site.home disk = .ok [srv, web] := by decide +kernel
  have hparsed : Pattern.ofText? (patternBelow [srv, web] "[fl]*") =
      some ⟨[.exact (.step (.name srv)), .exact (.step (.name web)),
        .wild [.within [('f', 'f'), ('l', 'l')], .run]], false⟩ := by decide +kernel
  have hselected : Specimen.site.selected disk "[fl]*" = [[.name first], [.name lookCss]] :=
    selected_eq_of_perm hhome hparsed (by decide +kernel) (by decide +kernel)
  have hfirst : disk.walkFrom [srv, web] [.name first] = .ok [etc, gone] := by decide +kernel
  have hlook : disk.walkFrom [srv, web] [.name lookCss] = .ok [srv, web, assets, appCss] := by
    decide +kernel
  have hclean : Specimen.site.SelectsClean disk [srv, web] "[fl]*" := by
    constructor <;> rw [hselected]
    · decide
    · decide
    · intro path hpath place hplace
      rcases List.mem_pair.1 hpath with rfl | rfl
      · obtain rfl := Except.ok.inj (hfirst.symm.trans hplace)
        decide +kernel
      · obtain rfl := Except.ok.inj (hlook.symm.trans hplace)
        decide +kernel
  have honce : ((Pattern.ofText? "[fl]*").map fun parsed => Part.hitOnce parsed.parts) =
      some true := by decide +kernel
  obtain ⟨parsed, hread, hparts⟩ := Option.map_eq_some_iff.1 honce
  have htexts : Specimen.site.stylesheets disk "[fl]*" = ["p { }"] := by
    rw [stylesheets, hselected]
    decide +kernel
  obtain ⟨-, hsheets, -, hnodup, -⟩ := stylesheets_of_matched Specimen.site disk "[fl]*"
  refine ⟨hhome, hclean, hselected, ?_, htexts, hnodup parsed hread hparts⟩
  exact hselected ▸ (hsheets _ hhome hclean).2

end Site

namespace Specimen

/-- A style sheet in a directory under another of the same name. -/
def nested : Disk :=
  diskOf [(a, .directory [(a, .directory [(bCss, .file (.ofText "p { }"))])])]

end Specimen

namespace Site

open Glob Pattern

open Specimen in
/-- The pattern hits the one sheet twice, since each of its runs of `**` can take the
    inner directory, and so the sheet is read twice. -/
theorem stylesheets_of_repeated :
    Specimen.site.home nested = .ok [srv, web] ∧
    Specimen.site.SelectsClean nested [srv, web] "**/a/**/b.css" ∧
    Specimen.site.selected nested "**/a/**/b.css" =
      [[.name a, .name a, .name bCss], [.name a, .name a, .name bCss]] ∧
    Specimen.site.stylesheets nested "**/a/**/b.css" = ["p { }", "p { }"] ∧
    ¬ ∀ (site : Site) (d : Disk) (root : Location) (pattern : String),
      site.home d = .ok root → site.SelectsClean d root pattern →
      site.stylesheets d pattern =
        (site.selected d pattern).dedup.filterMap (site.sheetAt? d root) := by
  have hhome : Specimen.site.home nested = .ok [srv, web] := by decide +kernel
  have hparsed : Pattern.ofText? (patternBelow [srv, web] "**/a/**/b.css") =
      some ⟨[.exact (.step (.name srv)), .exact (.step (.name web)), .anyDepth,
        .exact (.step (.name a)), .anyDepth, .exact (.step (.name bCss))], false⟩ := by
    decide +kernel
  have hselected : Specimen.site.selected nested "**/a/**/b.css" =
      [[.name a, .name a, .name bCss], [.name a, .name a, .name bCss]] :=
    selected_eq_of_perm hhome hparsed (by decide +kernel) (by decide +kernel)
  have hwalk : nested.walkFrom [srv, web] [.name a, .name a, .name bCss] =
      .ok [srv, web, a, a, bCss] := by decide +kernel
  have hclean : Specimen.site.SelectsClean nested [srv, web] "**/a/**/b.css" := by
    constructor <;> rw [hselected]
    · decide
    · decide
    · intro path hpath place hplace
      obtain rfl : path = [.name a, .name a, .name bCss] := by simpa using hpath
      obtain rfl := Except.ok.inj (hwalk.symm.trans hplace)
      decide +kernel
  have hsheets : Specimen.site.stylesheets nested "**/a/**/b.css" = ["p { }", "p { }"] := by
    rw [stylesheets, hselected]
    decide +kernel
  refine ⟨hhome, hclean, hselected, hsheets, fun hall => ?_⟩
  have honce := hall _ _ _ _ hhome hclean
  rw [hsheets, hselected] at honce
  have hlength := congrArg List.length honce
  have hle := List.length_filterMap_le (Specimen.site.sheetAt? nested [srv, web])
    [[Step.name a, .name a, .name bCss], [.name a, .name a, .name bCss]].dedup
  have hdedup : [[Step.name a, .name a, .name bCss], [.name a, .name a, .name bCss]].dedup =
      [[.name a, .name a, .name bCss]] := by decide
  rw [hdedup] at hlength hle
  exact absurd (hlength.trans_le hle) (by decide)

end Site

end Docroot
