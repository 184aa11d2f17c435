import Docroot.Proofs.Request.Grammar
import Docroot.Proofs.Site.Escape
import Docroot.Proofs.Site.Health

/-!
# Requests for directories

A request for a directory stands for the index document in it. The index document
is walked to from the directory, with all hops and a second look at whether the
root was left; asked for by its name behind the directory's, it is walked to in one
go. Where no link on the way to the directory leads nowhere, both are one walk
(`walkTo_concat_index`) and so have one outcome, unless the index document is a
directory itself (`outcome_resolve_directory`).

Both are denied if the walk leaves the root. If nothing is at its end, or what is
neither a file nor a directory, both should be missing; they are if that place is
not out of reach (`resolve_directory_exact`, `long_index_unreadable`).
-/

namespace Docroot

namespace Site

open Failure

variable {site : Site} {d : Disk} {root place directory : Location} {request : String}
  {steps : List Step} {index : Name}

/-- What is at the end of the walk is what is located, unless it is a directory in
    the root. -/
theorem locate_eq_inspect (hfree : d.LinkFree root)
    (h : ∀ place, site.walkTo d root steps = .ok place → root.isWithin place = true →
      d.isDirectory place = false) :
    site.locate d root request steps = inspect d root request (site.walkTo d root steps) := by
  rw [locate]
  cases hinspect : inspect d root request (site.walkTo d root steps) with
  | error failure => rfl
  | ok found =>
    obtain ⟨place, entry⟩ := found
    obtain ⟨hwalk, hstands⟩ := (inspect_eq_ok_iff fun _ => linkFree_of_walkTo hfree).1 hinspect
    cases entry with
    | directory =>
      have hno := h place hwalk hstands.isWithin
      rw [Disk.isDirectory_iff.2 hstands.entryAt?] at hno
      cases hno
    | file | link | special => rfl

/-- A request that leads to a place in the root where nothing is, or what is
    neither a file nor a directory, is missing unless the place is out of reach. -/
theorem outcome_resolve_of_missing (hsteps : Request.sanitize request = .ok steps)
    (hhome : site.home d = .ok root) (hwalk : site.walkTo d root steps = .ok place)
    (hwithin : root.isWithin place = true)
    (hentry : d.entryAt? place = none ∨ d.entryAt? place = some .special) :
    outcome (site.resolve d request) = .error .notFound ↔ ¬ d.OutOfReach place := by
  have hroot := (isPlain_of_home hhome).linkFree
  have hfree := linkFree_of_walkTo hroot hwalk
  constructor
  · intro h hreach
    rw [outcome_resolve_of_looksAt hsteps hhome (.here hwalk) hwithin hreach] at h
    cases h
  · intro hreach
    obtain ⟨entry, hstatus⟩ | ⟨fault, hfault, hmissing⟩ :=
      Disk.statusAt_of_not_outOfReach hfree hreach
    · obtain ⟨hbytes, hfound⟩ := (Disk.statusAt_eq_ok_iff hfree).1 hstatus
      obtain rfl : entry = .special := by simpa [hfound] using hentry
      rw [resolve_eq_locate hsteps hhome,
        locate_of_walkTo hwalk ⟨hfree, hwithin, hbytes, hfound⟩ (by simp)]
      rfl
    · have hinspect : inspect d root request (.ok place) = .error (.notFound request) := by
        rcases hmissing with rfl | rfl <;> simp [inspect, hwithin, hfault]
      rw [resolve_eq_locate hsteps hhome, locate, hwalk, hinspect]
      rfl

theorem sanitize_append_index (hindex : index.text = site.index)
    (hplain : Request.IsPlainStep (.name index)) (hsteps : Request.sanitize request = .ok steps)
    (hne : steps ≠ []) :
    Request.sanitize (request ++ "/" ++ site.index) = .ok (steps ++ [.name index]) := by
  have happended := @Request.sanitize_append_step request steps (.name index) hsteps hne hplain
  rwa [Step.text, hindex] at happended

/-- Where no link on the way to a directory leads nowhere, the walk to the index
    document behind the directory is the walk to it from there. -/
theorem walkTo_concat_index (hindex : index.text = site.index)
    (hwalk : d.walk 0 root steps = .ok directory) :
    site.walkTo d root (steps ++ [.name index]) = site.walkToIndex d directory := by
  rw [walkTo, if_neg (by simp), walkToIndex_eq hindex, Disk.walkFrom, Disk.walk_append hwalk]
  rfl

/-- A directory whose own path is out of reach has an index document that is out of
    reach as well, wherever a link in its place may lead. -/
theorem walkToIndex_of_le (hindex : index.text = site.index)
    (hbytes : maxPathBytes ≤ directory.bytes) :
    site.walkToIndex d directory = .ok (directory ++ [index]) ∧
      d.OutOfReach (directory ++ [index]) := by
  have hlong : maxPathBytes ≤ Location.bytes (directory ++ [index]) := by
    rw [Location.bytes_append]
    exact Nat.le_add_right_of_le hbytes
  rw [walkToIndex_eq hindex, Disk.walkFrom, Disk.walk_name (Disk.linkTarget?_of_le hlong),
    Disk.walk_nil]
  exact ⟨rfl, .inl hlong⟩

theorem walkTo_of_walk (hne : steps ≠ []) (hwalk : d.walk 0 root steps = .ok directory) :
    site.walkTo d root steps = .ok directory := by
  have hwalked := @Disk.walk_append d Disk.maxHops root directory [] steps hwalk
  rw [List.append_nil, Disk.walk_nil] at hwalked
  rw [walkTo, if_neg (by simpa using hne), Disk.walkFrom, hwalked]

/-- A request for a directory and a request for the index document in it have one
    outcome, unless a directory in the root stands in place of the document. -/
theorem outcome_resolve_directory (hindex : index.text = site.index)
    (hplain : Request.IsPlainStep (.name index)) (hhome : site.home d = .ok root)
    (hsteps : Request.sanitize request = .ok steps) (hne : steps ≠ [])
    (hwalk : d.walk 0 root steps = .ok directory)
    (hwithin : root.isWithin directory = true) (hdir : d.isDirectory directory = true)
    (hleaf : ∀ place, site.walkToIndex d directory = .ok place → root.isWithin place = true →
      d.isDirectory place = false) :
    outcome (site.resolve d request) =
      outcome (site.resolve d (request ++ "/" ++ site.index)) := by
  have hroot := (isPlain_of_home hhome).linkFree
  have hfirst : site.walkTo d root steps = .ok directory := walkTo_of_walk hne hwalk
  have hsteps' := sanitize_append_index hindex hplain hsteps hne
  have hsecond := @walkTo_concat_index site d root directory steps index hindex hwalk
  rcases Nat.lt_or_ge directory.bytes maxPathBytes with hbytes | hbytes
  · have hstands : Stands d root directory .directory :=
      ⟨linkFree_of_walkTo hroot hfirst, hwithin, hbytes, Disk.isDirectory_iff.1 hdir⟩
    rw [resolve_eq_locate hsteps hhome, resolve_eq_locate hsteps' hhome,
      locate_of_directory hfirst hstands, locate_eq_inspect hroot (hsecond ▸ hleaf), hsecond]
    exact outcome_bind_congr outcome_inspect fun _ => outcome_assetAt
  · -- The system is not even asked for the directory, nor for anything in it.
    obtain ⟨hplace, hreach⟩ := @walkToIndex_of_le site d directory index hindex hbytes
    have hinside : root.isWithin (directory ++ [index]) = true := by
      rw [Location.isWithin, List.isPrefixOf_iff_prefix] at hwithin ⊢
      exact hwithin.trans (List.prefix_append directory [index])
    rw [outcome_resolve_of_looksAt hsteps hhome (.here hfirst) hwithin (.inl hbytes),
      outcome_resolve_of_looksAt hsteps' hhome (.here (hsecond.trans hplace)) hinside hreach]

/-- Let a request lead to a directory in the root, and no link on the way lead
    nowhere. The request and the request for the index document in the directory
    have one outcome, unless the document is a directory. Both are denied if the
    index document is not in the root, and missing if nothing stands in its place, or
    what is neither a file nor a directory, unless that place is out of reach. -/
theorem resolve_directory_exact (hindex : index.text = site.index)
    (hback : '\\' ∉ index.text.toList) (hnul : '\x00' ∉ index.text.toList)
    (hhome : d.canonicalize site.root = .ok root)
    (hsteps : Request.sanitize request = .ok steps) (hne : steps ≠ [])
    (hwalk : d.walk 0 root steps = .ok directory) (hwithin : root.isWithin directory = true)
    (hdir : d.isDirectory directory = true) :
    ((∀ place, site.walkToIndex d directory = .ok place → d.isDirectory place = false) →
      outcome (site.resolve d request) =
        outcome (site.resolve d (request ++ "/" ++ site.index))) ∧
    ((∀ place, site.walkToIndex d directory = .ok place → root.isWithin place = false) →
      outcome (site.resolve d request) = .error .accessDenied ∧
      outcome (site.resolve d (request ++ "/" ++ site.index)) = .error .accessDenied) ∧
    ∀ place, site.walkToIndex d directory = .ok place → root.isWithin place = true →
      d.entryAt? place = none ∨ d.entryAt? place = some .special →
      (outcome (site.resolve d request) = .error .notFound ↔ ¬ d.OutOfReach place) ∧
      (outcome (site.resolve d (request ++ "/" ++ site.index)) = .error .notFound ↔
        ¬ d.OutOfReach place) := by
  have hplain : Request.IsPlainStep (.name index) := ⟨hnul, hback⟩
  have hsame := outcome_resolve_directory hindex hplain hhome hsteps hne hwalk hwithin hdir
  have hsteps' := sanitize_append_index hindex hplain hsteps hne
  have hsecond := @walkTo_concat_index site d root directory steps index hindex hwalk
  refine ⟨fun hleaf => hsame fun place hplace _ => hleaf place hplace, fun hout => ?_,
    fun place hplace hinside hentry => ?_⟩
  · have hdenied : outcome (site.resolve d (request ++ "/" ++ site.index)) =
        .error .accessDenied := by
      rw [resolve_of_outside hsteps' hhome (hsecond ▸ hout)]
      rfl
    rw [hsame fun place hplace hinside => absurd hinside (by simp [hout place hplace])]
    exact ⟨hdenied, hdenied⟩
  · have hmissing := outcome_resolve_of_missing hsteps' hhome (hsecond.trans hplace) hinside hentry
    rw [hsame fun p hp _ => ?_]
    · exact ⟨hmissing, hmissing⟩
    · obtain rfl := Except.ok.inj (hplace.symm.trans hp)
      rw [← Bool.not_eq_true, Disk.isDirectory_iff]
      rcases hentry with h | h <;> simp [h]

open Specimen in
/-- Through a link to the directory, a sheet that stands for it is given to both. -/
theorem resolve_directory_exact_round :
    outcome (Site.resolve { Specimen.site with index := "app.css" } disk "./round") =
      .ok (.text [srv, web, assets, appCss] "p { }") ∧
    outcome (Site.resolve { Specimen.site with index := "app.css" } disk "./round") =
      outcome (Site.resolve { Specimen.site with index := "app.css" } disk "./round/app.css") := by
  have hhome : disk.canonicalize Specimen.site.root = .ok [srv, web] := by decide
  have hsteps : Request.sanitize "./round" = .ok [.name round] := by decide
  have hwalk : disk.walk 0 [srv, web] [.name round] = .ok [srv, web, assets] := by decide
  have hplace : Site.walkToIndex { Specimen.site with index := "app.css" } disk
      [srv, web, assets] = .ok [srv, web, assets, appCss] := by
    have hlink : disk.linkTarget? ([srv, web, assets] ++ [appCss]) = none := by decide
    rw [@walkToIndex_eq appCss _ _ _ rfl, Disk.walkFrom, Disk.walk_name hlink, Disk.walk_nil]
    rfl
  obtain ⟨hsame, _, _⟩ := @resolve_directory_exact { Specimen.site with index := "app.css" } disk
    [srv, web] [srv, web, assets] "./round" [.name round] appCss rfl (by decide) (by decide) hhome
    hsteps (by simp) hwalk (by decide) (by decide)
  refine ⟨by decide +kernel, hsame fun place h => ?_⟩
  obtain rfl := Except.ok.inj (hplace.symm.trans h)
  decide

end Site

namespace Specimen

/-- The small site with an index document whose name is too long for a directory. -/
def longSite : Site := { site with index := (letters 255).text }

end Specimen

namespace Site

open Failure

open Specimen in
/-- In a site whose index document has too long a name, neither that nor the
    directory it is missing in is answered as missing. -/
theorem long_index_unreadable :
    disk.canonicalize longSite.root = .ok [srv, web] ∧
    Request.sanitize "assets" = .ok [.name assets] ∧
    disk.walk 0 [srv, web] [.name assets] = .ok [srv, web, assets] ∧
    disk.isDirectory [srv, web, assets] = true ∧
    (letters 255).text = longSite.index ∧
    '\x00' ∉ (letters 255).text.toList ∧ '\\' ∉ (letters 255).text.toList ∧
    longSite.walkToIndex disk [srv, web, assets] = .ok [srv, web, assets, letters 255] ∧
    disk.entryAt? [srv, web, assets, letters 255] = none ∧
    outcome (longSite.resolve disk "assets") = .error .unreadable ∧
    outcome (longSite.resolve disk ("assets" ++ "/" ++ longSite.index)) = .error .unreadable := by
  have hhome : disk.canonicalize longSite.root = .ok [srv, web] := by decide
  have hsteps : Request.sanitize "assets" = .ok [.name assets] := by decide
  have hwalk : disk.walk 0 [srv, web] [.name assets] = .ok [srv, web, assets] := by decide
  have hdir : disk.isDirectory [srv, web, assets] = true := by decide
  have hindex : (letters 255).text = longSite.index := rfl
  obtain ⟨hnul, hback⟩ := isPlainStep_letters 255
  have hstorable : (letters 255).isStorable = false := by
    rw [Name.isStorable, bytes_letters]
    rfl
  have hplace : longSite.walkToIndex disk [srv, web, assets] =
      .ok ([srv, web, assets] ++ [letters 255]) := by
    have hfree := (isPlain_of_home hhome).linkFree.walk hwalk
    rw [walkToIndex_eq hindex, walkFrom_of_not_isStorable hfree hstorable]
  have hentry : disk.entryAt? ([srv, web, assets] ++ [letters 255]) = none := by
    by_contra h
    obtain ⟨entry, hentry⟩ := Option.ne_none_iff_exists'.1 h
    rw [(Disk.of_entryAt?_concat hentry).2] at hstorable
    cases hstorable
  have hreach : disk.OutOfReach ([srv, web, assets] ++ [letters 255]) :=
    .inr (.inr ⟨_, _, List.prefix_rfl, hdir, by rw [bytes_letters]; decide⟩)
  have hfirst := outcome_resolve_of_looksAt hsteps hhome
    (.index (walkTo_of_walk (by simp) hwalk) (by decide) hdir hplace) (by decide) hreach
  have hsecond := outcome_resolve_of_looksAt
    (sanitize_append_index hindex (isPlainStep_letters 255) hsteps (by simp)) hhome
    (.here ((walkTo_concat_index hindex hwalk).trans hplace)) (by decide) hreach
  exact ⟨hhome, hsteps, hwalk, hdir, hindex, hnul, hback, hplace, hentry, hfirst, hsecond⟩

end Site

end Docroot
