import Docroot.Proofs.Disk.OutOfReach
import Docroot.Proofs.Request.Encoding
import Docroot.Proofs.Site.Reach
import Docroot.Proofs.Site.RootPage

/-!
# Sites in good health

A site is in good health when its root is a directory and every file in it is
text in UTF-8 (`Site.IsHealthy`). Nothing in it is unreadable then, and no
request should be answered as if the site were broken.

One kind of request is: one that leads to a place in the root that the system
does not look for anything at, since a name or the path is too long
(`Site.Overreaches`). Nothing can be there, yet the answer is not that nothing
was found (`reply_serverError_iff`, `long_name_serverError`).
-/

namespace Docroot

namespace Failure

variable {α β : Type} {result : Except Failure α} {f : α → Except Failure β} {k : Kind}

/-- Two stages fail in a way if the first does, or if the second does with what
    came out of the first. -/
theorem outcome_bind_eq_error_iff : outcome (result >>= f) = .error k ↔
    outcome result = .error k ∨ ∃ a, result = .ok a ∧ outcome (f a) = .error k := by
  cases result with
  | error failure =>
    have hbind : (Except.error failure >>= f) = .error failure := rfl
    simp [hbind, outcome, Except.mapError]
  | ok a =>
    have hbind : (Except.ok a >>= f) = f a := rfl
    simp [hbind, outcome, Except.mapError]

end Failure

namespace Reply

theorem code_ofFailure_eq_iff {failure : Failure} :
    (ofFailure failure).status.code = 500 ↔ failure.kind = .unreadable := by
  change (Status.ofKind failure.kind).code = 500 ↔ _
  cases failure.kind <;> decide

end Reply

namespace Site

open Failure

variable {site : Site} {d : Disk} {root place : Location} {request : String} {steps : List Step}
  {style : PageStyle} {content : Content} {index : Name}

/-- The root is a directory, and the files in it are text. -/
structure IsHealthy (site : Site) (d : Disk) (root : Location) : Prop where
  canonicalize : d.canonicalize site.root = .ok root
  isDirectory : d.isDirectory root = true
  isSome_text? : ∀ place content, root.isWithin place = true →
    d.entryAt? place = some (.file content) → content.text?.isSome

/-- The places that are looked at for moves from the root: where they lead, and
    from a directory in the root where its index document leads. -/
inductive LooksAt (site : Site) (d : Disk) (root : Location) (steps : List Step) : Location → Prop
  | here {place : Location} : site.walkTo d root steps = .ok place →
      site.LooksAt d root steps place
  | index {directory place : Location} : site.walkTo d root steps = .ok directory →
      root.isWithin directory = true → d.isDirectory directory = true →
      site.walkToIndex d directory = .ok place → site.LooksAt d root steps place

/-- The request leads to a place in the root that is out of reach. -/
def Overreaches (site : Site) (d : Disk) (root : Location) (request : String) : Prop :=
  ∃ steps place, Request.sanitize request = .ok steps ∧ site.LooksAt d root steps place ∧
    root.isWithin place = true ∧ d.OutOfReach place

/-! ## Resolving -/

/-- An inspection fails to read exactly what is in the root and out of reach. -/
theorem outcome_inspect_unreadable_iff {walked : Except Refusal Location}
    (hfree : ∀ p, walked = .ok p → d.LinkFree p) :
    outcome (inspect d root request walked) = .error .unreadable ↔
      ∃ place, walked = .ok place ∧ root.isWithin place = true ∧ d.OutOfReach place := by
  cases walked with
  | error refusal => simp [inspect, outcome, Except.mapError, kind]
  | ok p =>
    simp only [Except.ok.injEq, exists_eq_left']
    rw [← Disk.statusAt_fault_iff (hfree p rfl), inspect]
    cases root.isWithin p with
    | false => simp [outcome, Except.mapError, kind]
    | true =>
      cases hstatus : d.statusAt p with
      | ok entry => simp [outcome, Except.mapError]
      | error fault =>
        cases fault <;> simp [outcome, Except.mapError, kind, Fault.IsMissing]

/-- What is located cannot be read exactly if one of the places that are looked at
    is in the root and out of reach. -/
theorem outcome_locate_unreadable_iff (hfree : d.LinkFree root) :
    outcome (site.locate d root request steps) = .error .unreadable ↔
      ∃ place, site.LooksAt d root steps place ∧ root.isWithin place = true ∧
        d.OutOfReach place := by
  have hwalk : ∀ p, site.walkTo d root steps = .ok p → d.LinkFree p := fun _ =>
    linkFree_of_walkTo hfree
  rw [locate, outcome_bind_eq_error_iff, outcome_inspect_unreadable_iff hwalk]
  constructor
  · rintro (⟨place, hplace, hwithin, hreach⟩ | ⟨⟨first, entry⟩, hfirst, h⟩)
    · exact ⟨place, .here hplace, hwithin, hreach⟩
    · obtain ⟨hwalked, hstands⟩ := (inspect_eq_ok_iff hwalk).1 hfirst
      cases entry with
      | directory =>
        obtain ⟨place, hplace, hwithin, hreach⟩ := (outcome_inspect_unreadable_iff
          fun _ => hstands.linkFree.walkPath).1 h
        exact ⟨place, .index hwalked hstands.isWithin (Disk.isDirectory_iff.2 hstands.entryAt?)
          hplace, hwithin, hreach⟩
      | file | link | special => cases h
  · rintro ⟨place, hplace | ⟨hwalked, hdirectory, hdir, hplace⟩, hwithin, hreach⟩
    · exact .inl ⟨place, hplace, hwithin, hreach⟩
    · -- The directory may be out of reach itself; then its index document is not
      -- even asked for.
      rename_i directory
      have hfreeDir := hwalk _ hwalked
      by_cases hbytes : directory.bytes < maxPathBytes
      · refine .inr ⟨(directory, .directory), ?_, ?_⟩
        · rw [inspect_eq_ok_iff hwalk]
          exact ⟨hwalked, hfreeDir, hdirectory, hbytes, Disk.isDirectory_iff.1 hdir⟩
        · exact (outcome_inspect_unreadable_iff fun _ => hfreeDir.walkPath).2
            ⟨place, hplace, hwithin, hreach⟩
      · exact .inl ⟨directory, hwalked, hdirectory, .inl (Nat.not_lt.1 hbytes)⟩

/-- A request that leads to a place in the root which is out of reach cannot be
    read. -/
theorem outcome_resolve_of_looksAt (hsteps : Request.sanitize request = .ok steps)
    (hhome : site.home d = .ok root) (hlooks : site.LooksAt d root steps place)
    (hwithin : root.isWithin place = true) (hreach : d.OutOfReach place) :
    outcome (site.resolve d request) = .error .unreadable := by
  rw [resolve_eq_locate hsteps hhome, outcome_bind_eq_error_iff,
    outcome_locate_unreadable_iff (isPlain_of_home hhome).linkFree]
  exact .inl ⟨place, hlooks, hwithin, hreach⟩

/-- In a site in good health, what a request resolves to cannot be read exactly if
    the request overreaches. -/
theorem outcome_resolve_unreadable_iff (hhealthy : site.IsHealthy d root) :
    outcome (site.resolve d request) = .error .unreadable ↔ site.Overreaches d root request := by
  have hhome : site.home d = .ok root := hhealthy.canonicalize
  have hfree := (isPlain_of_home hhome).linkFree
  cases hsteps : Request.sanitize request with
  | error refusal => simp [resolve, Overreaches, hsteps, outcome, Except.mapError, kind]
  | ok steps =>
    simp only [Overreaches, hsteps, Except.ok.injEq, existsAndEq, true_and]
    rw [resolve_eq_locate hsteps hhome, outcome_bind_eq_error_iff,
      outcome_locate_unreadable_iff hfree, or_iff_left_iff_imp]
    rintro ⟨⟨place, entry⟩, hlocate, h⟩
    -- What was located is a file of the root if anything is made of it, hence text.
    have hstands := stands_of_locate hfree hlocate
    cases entry with
    | directory | link | special => cases h
    | file content =>
      obtain ⟨text, htext⟩ := Option.isSome_iff_exists.1
        (hhealthy.isSome_text? place content hstands.isWithin hstands.entryAt?)
      simp only [assetAt, htext] at h
      split at h <;> cases h

/-! ## The page -/

theorem readText_file {text : String} (h : content.text? = some text) :
    Entry.readText (.file content) = .ok text := by
  simp only [Entry.readText, Entry.read, bind, Except.bind, h]

/-- In a site in good health, what an asset is made of can be read as text. -/
theorem exists_readText (hhealthy : site.IsHealthy d root) {asset : Asset}
    (hresolve : site.resolve d request = .ok asset) :
    ∃ text, (d.statusAt asset.place >>= Entry.readText) = .ok text := by
  obtain ⟨root', entry, hhome, hstands, hasset⟩ := resolve_eq_ok hresolve
  obtain rfl := Except.ok.inj (hhome.symm.trans hhealthy.canonicalize)
  have hfile : ∃ content, d.entryAt? asset.place = some (.file content) := by
    cases hasset with
    | text hfile | binary hfile => exact ⟨_, hfile⟩
  obtain ⟨content, hfile⟩ := hfile
  obtain ⟨text, htext⟩ := Option.isSome_iff_exists.1
    (hhealthy.isSome_text? _ content hstands.isWithin hfile)
  have hstatus : d.statusAt asset.place = .ok (.file content) :=
    (Disk.statusAt_eq_ok_iff hstands.linkFree).2 ⟨hstands.bytes_lt, hfile⟩
  refine ⟨text, ?_⟩
  rw [hstatus]
  exact readText_file htext

/-- In a site in good health, the page cannot be made for want of a document that
    can be read exactly if the name of the index document overreaches. -/
theorem outcome_page_unreadable_iff (hhealthy : site.IsHealthy d root) :
    outcome (site.page d style) = .error .unreadable ↔ site.Overreaches d root site.index := by
  have htext : outcome (site.indexText d) = .error .unreadable ↔
      outcome (site.resolve d site.index) = .error .unreadable := by
    rw [indexText, outcome_bind_eq_error_iff, or_iff_left_iff_imp]
    rintro ⟨asset, hasset, h⟩
    cases asset with
    | text place content => cases h
    | binary place size =>
      obtain ⟨text, hread⟩ := exists_readText hhealthy hasset
      change (d.statusAt place >>= Entry.readText) = .ok text at hread
      simp only [hread] at h
      cases h
  rw [← outcome_resolve_unreadable_iff hhealthy, ← htext, page]
  cases site.indexText d with
  | ok html => simp [outcome, Except.mapError]
  | error failure => cases failure <;> simp [outcome, Except.mapError, kind]

theorem code_replyWithPage_iff (hhealthy : site.IsHealthy d root) :
    (site.replyWithPage d style).status.code = 500 ↔ site.Overreaches d root site.index := by
  rw [← @outcome_page_unreadable_iff _ _ _ style hhealthy]
  cases hpage : site.page d style with
  | ok page =>
    rw [replyWithPage_of_page hpage, (Reply.showsPage_ofPage page).code]
    simp [outcome, Except.mapError]
  | error failure =>
    rw [replyWithPage, hpage, outcome_eq_error_iff]
    simp [Reply.code_ofFailure_eq_iff]

/-- The name of an index document that is a file of its own does not overreach. -/
theorem not_overreaches_index (hindex : index.text = site.index)
    (hback : '\\' ∉ index.text.toList)
    (hstands : Stands d root (root ++ [index]) (.file content)) :
    ¬ site.Overreaches d root site.index := by
  have hstatus : d.statusAt (root ++ [index]) = .ok (.file content) :=
    (Disk.statusAt_eq_ok_iff hstands.linkFree).2 ⟨hstands.bytes_lt, hstands.entryAt?⟩
  have hwalk : d.walkFrom root [.name index] = .ok (root ++ [index]) :=
    @Disk.walk_of_linkFree d _ root [index] hstands.linkFree
  rintro ⟨steps, place, hsteps, hplace, _, hreach⟩
  obtain rfl := sanitize_index hindex hback hsteps
  cases hplace with
  | here hwalked =>
    obtain rfl := Except.ok.inj (hwalk.symm.trans hwalked)
    obtain ⟨fault, hfault, _⟩ := Disk.statusAt_of_outOfReach hreach
    rw [hstatus] at hfault
    cases hfault
  | index hwalked _ hdir _ =>
    obtain rfl := Except.ok.inj (hwalk.symm.trans hwalked)
    have hentry := Disk.isDirectory_iff.1 hdir
    rw [hstands.entryAt?] at hentry
    cases hentry

/-! ## Replies -/

/-- In a site in good health, a request is answered as if the site were broken
    exactly if it overreaches, or leads to nothing and is answered with the page,
    and the name of the index document overreaches. -/
theorem code_replyTo_iff (hindex : index.text = site.index) (hback : '\\' ∉ index.text.toList)
    (hhealthy : site.IsHealthy d root) :
    (site.replyTo d style request).status.code = 500 ↔
      site.Overreaches d root request ∨
        outcome (site.resolve d request) = .error .notFound ∧ site.namesIndex request = true ∧
          site.Overreaches d root site.index := by
  have hhome : site.home d = .ok root := hhealthy.canonicalize
  rw [← outcome_resolve_unreadable_iff hhealthy]
  cases hresolve : site.resolve d request with
  | ok asset =>
    refine iff_of_false ?_ (by simp [outcome, Except.mapError])
    cases hplace : site.isIndexPlace d asset.place with
    | true =>
      obtain ⟨root', entry, hhome', hstands, hasset⟩ := resolve_eq_ok hresolve
      obtain rfl := Except.ok.inj (hhome.symm.trans hhome')
      rw [replyTo_of_isIndexPlace hresolve hplace, code_replyWithPage_iff hhealthy]
      rw [isIndexPlace_iff hindex hhome] at hplace
      cases hasset with
      | text hfile | binary hfile =>
        obtain rfl := Option.some.inj (hstands.entryAt?.symm.trans hfile)
        obtain rfl := hplace
        exact not_overreaches_index hindex hback hstands
    | false =>
      obtain ⟨content, _, hreply⟩ := @replyTo_of_asset _ _ _ style _ hresolve hplace
      rw [hreply, (Reply.givesFile_ofFile _ content).code]
      decide
  | error failure =>
    have hkind : ∀ k, outcome (.error failure : Except Failure Asset) = .error k ↔
        failure.kind = k := by simp [outcome, Except.mapError]
    rw [hkind, hkind, ← @code_replyWithPage_iff _ _ _ style hhealthy, replyTo, hresolve]
    dsimp only
    split_ifs with hpage
    · simp [hpage]
    · rw [Reply.code_ofFailure_eq_iff]
      exact ⟨.inl, fun h => h.resolve_right fun h => hpage ⟨h.1, h.2.1⟩⟩

/-- A name that no entry can have leads from the root to a place of its own. -/
theorem walkFrom_of_not_isStorable (hfree : d.LinkFree root) {n : Name}
    (hn : n.isStorable = false) : d.walkFrom root [.name n] = .ok (root ++ [n]) := by
  have hnone : d.targetAt? (root ++ [n]) = none := by
    rw [Disk.targetAt?, Option.bind_eq_none_iff]
    intro entry hentry
    rw [(Disk.of_entryAt?_concat hentry).2] at hn
    cases hn
  exact @Disk.walk_of_linkFree d _ root [n] (hfree.concat fun _ => hnone)

/-- A name that is too long for the root is a request that overreaches. -/
theorem overreaches_of_long_name (hhealthy : site.IsHealthy d root) {n : Name}
    (hplain : Request.IsPlainStep (.name n))
    (hdrive : Request.startsWithDrive n.text.toList = false) (hn : Name.maxBytes < n.bytes) :
    site.Overreaches d root n.text := by
  have hfree := (isPlain_of_home hhealthy.canonicalize).linkFree
  have hsteps : Request.sanitize n.text = .ok [.name n] :=
    (Request.sanitize_name_iff hplain.2).2 ⟨hplain.1, hdrive⟩
  have hstorable : n.isStorable = false := by
    rw [← Bool.not_eq_true, Name.isStorable_iff]
    exact fun h => absurd hn (Nat.not_lt.2 h.1)
  refine ⟨[.name n], root ++ [n], hsteps, .here ?_, ?_, .inr (.inr ?_)⟩
  · exact walkFrom_of_not_isStorable hfree hstorable
  · simp [Location.isWithin]
  · exact ⟨root, n, List.prefix_rfl, hhealthy.isDirectory, hn⟩

/-- Let the settings be valid and the site in good health. A request fails for
    something that cannot be read exactly if it overreaches; and a target is
    answered as if the site were broken exactly if its request does, or if it is
    answered with the page for want of anything else, and the name of the index
    document does. -/
theorem reply_serverError_iff {settings : Settings} {warnings : List Settings.Warning}
    (hvalid : settings.validate d = .ok warnings) (hhealthy : settings.site.IsHealthy d root) :
    (∀ request, (∃ failure, settings.site.resolve d request = .error failure ∧
        failure.kind = .unreadable) ↔ settings.site.Overreaches d root request) ∧
    ∀ target, (settings.site.reply d settings.style target).status.code = 500 ↔
      ∃ request, Request.ofTarget? target = some request ∧
        (settings.site.Overreaches d root request ∨
          (∃ failure, settings.site.resolve d request = .error failure ∧
            failure.kind = .notFound) ∧ settings.site.namesIndex request = true ∧
            settings.site.Overreaches d root settings.site.index) := by
  obtain ⟨index, hindex, hback⟩ := Settings.exists_index_of_validate hvalid
  refine ⟨fun request => ?_, fun target => ?_⟩
  · rw [← outcome_eq_error_iff, outcome_resolve_unreadable_iff hhealthy]
  · simp only [← outcome_eq_error_iff]
    cases htarget : Request.ofTarget? target with
    | none =>
      have hcode : Reply.invalid.status.code ≠ 500 := by decide
      rw [reply, htarget]
      exact iff_of_false hcode (by simp)
    | some request =>
      rw [reply_of_request htarget, code_replyTo_iff hindex hback hhealthy]
      simp

end Site

namespace Specimen

/-- A site with nothing but its index document. -/
def lone : Disk := diskOf [(indexHtml, .file (.ofText "<p>home</p>"))]

theorem eq_of_entryAt?_lone {place : Location} {content : Content}
    (h : lone.entryAt? place = some (.file content)) : content = .ofText "<p>home</p>" := by
  obtain ⟨node, hnode, hentry⟩ := Option.map_eq_some_iff.1 h
  have hfile : node.entry ≠ .directory := by
    rw [hentry]
    exact nofun
  obtain ⟨_, hsrv⟩ := Node.exists_find?_of_singleton hnode hfile
  obtain ⟨_, hweb⟩ := Node.exists_find?_of_singleton hsrv hfile
  obtain ⟨rest, hindex⟩ := Node.exists_find?_of_singleton hweb hfile
  cases rest with
  | nil =>
    obtain rfl := Option.some.inj hindex
    exact (Entry.file.inj hentry).symm
  | cons n rest => simp [Node.find?, Node.entries] at hindex

theorem isHealthy_lone : Specimen.site.IsHealthy lone [srv, web] where
  canonicalize := by decide +kernel
  isDirectory := by decide +kernel
  isSome_text? place content _ h := by
    rw [eq_of_entryAt?_lone h]
    decide +kernel

theorem isFileName_replicate (k : Nat) :
    IsFileName (String.ofList (List.replicate (k + 1) 'a')) := by
  refine ⟨?_, ?_, ?_, ?_⟩ <;> simp [← String.toList_inj, List.replicate_succ]

/-- The letter `a`, once more than so many times. -/
def letters (k : Nat) : Name :=
  ⟨String.ofList (List.replicate (k + 1) 'a'), isFileName_replicate k⟩

theorem toList_letters (k : Nat) : (letters k).text.toList = List.replicate (k + 1) 'a' :=
  String.toList_ofList

theorem bytes_letters (k : Nat) : (letters k).bytes = k + 1 := by
  change (String.ofList (List.replicate (k + 1) 'a')).utf8ByteSize = k + 1
  induction k + 1 with
  | zero => rfl
  | succ k ih =>
    have hcons : String.ofList (List.replicate (k + 1) 'a') =
        String.singleton 'a' ++ String.ofList (List.replicate k 'a') := by
      rw [← String.toList_inj]
      simp [List.replicate_succ]
    rw [hcons, String.utf8ByteSize_append, ih, String.utf8ByteSize_singleton, Nat.add_comm]
    rfl

/-- So many letters ask for the entry of that name. -/
theorem isPlainStep_letters (k : Nat) : Request.IsPlainStep (.name (letters k)) := by
  rw [Request.IsPlainStep, Step.text, toList_letters]
  simp [List.mem_replicate]

theorem startsWithDrive_letters (k : Nat) :
    Request.startsWithDrive (letters k).text.toList = false := by
  rw [toList_letters]
  cases k <;> rfl

/-- Behind a slash, they are the target that asks for it. -/
theorem ofTarget?_letters (k : Nat) :
    Request.ofTarget? ("/" ++ (letters k).text) = some (letters k).text := by
  have htarget : Request.IsTargetOf (letters k).text ("/" ++ (letters k).text) := by
    refine ⟨1, (letters k).text.toList, [], by simp, Request.encodes_self ?_, by simp⟩
    rw [toList_letters, List.all_replicate]
    simp
  rw [Request.ofTarget?_of_isTargetOf htarget, Request.withoutSlashes, toList_letters]
  rfl

theorem overreaches_letters : Specimen.site.Overreaches lone [srv, web] (letters 255).text :=
  Site.overreaches_of_long_name isHealthy_lone (isPlainStep_letters 255)
    (startsWithDrive_letters 255) (by rw [bytes_letters]; decide)

end Specimen

namespace Site

open Failure

open Specimen in
/-- In the site with nothing but its index document, a name of 256 letters
    overreaches, so it is answered as if the site were broken; a short name does
    not. -/
theorem reply_serverError_iff_letters :
    (Settings.mk Specimen.site .default).validate lone = .ok [] ∧
    Specimen.site.IsHealthy lone [srv, web] ∧
    (Specimen.site.reply lone .default ("/" ++ (letters 255).text)).status.code = 500 ∧
    ¬ Specimen.site.Overreaches lone [srv, web] "gone" := by
  have hvalid : (Settings.mk Specimen.site .default).validate lone = .ok [] := by decide +kernel
  obtain ⟨hresolve, hreply⟩ := reply_serverError_iff hvalid isHealthy_lone
  refine ⟨hvalid, isHealthy_lone, ?_, ?_⟩
  · exact (hreply _).2 ⟨_, ofTarget?_letters 255, .inl overreaches_letters⟩
  · have hgone : Specimen.site.resolve lone "gone" = .error (.notFound "gone") := by
      decide +kernel
    rw [← hresolve "gone"]
    rintro ⟨failure, hfailure, hkind⟩
    obtain rfl := Except.error.inj (hgone.symm.trans hfailure)
    cases hkind

open Specimen in
/-- A site in good health under valid settings, whose index document has a name
    that can be stored, answers as if it were broken when it is asked for a name of
    256 letters, although nothing is there. -/
theorem long_name_serverError :
    (Settings.mk Specimen.site .default).validate lone = .ok [] ∧
    Specimen.site.IsHealthy lone [srv, web] ∧
    indexHtml.text = Specimen.site.index ∧ indexHtml.isStorable = true ∧
    (letters 255).bytes = 256 ∧ lone.entryAt? [srv, web, letters 255] = none ∧
    (∃ failure, Specimen.site.resolve lone (letters 255).text = .error failure ∧
      failure.kind = .unreadable) ∧
    (Specimen.site.reply lone .default ("/" ++ (letters 255).text)).status.code = 500 := by
  have hback : '\\' ∉ indexHtml.text.toList := by decide
  refine ⟨by decide +kernel, isHealthy_lone, rfl, by decide +kernel, bytes_letters 255, ?_, ?_, ?_⟩
  · by_contra h
    obtain ⟨entry, hentry⟩ := Option.ne_none_iff_exists'.1 h
    have hshort := (@Disk.checks_of_entryAt? lone [srv, web] _ _ hentry).2
    rw [bytes_letters] at hshort
    exact hshort (by decide)
  · exact outcome_eq_error_iff.1
      ((outcome_resolve_unreadable_iff isHealthy_lone).2 overreaches_letters)
  · rw [reply_of_request (ofTarget?_letters 255), code_replyTo_iff rfl hback isHealthy_lone]
    exact .inl overreaches_letters

end Site

end Docroot
