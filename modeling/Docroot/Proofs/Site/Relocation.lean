import Docroot.Proofs.Glob.Relocation
import Docroot.Proofs.Site.Escape
import Docroot.Proofs.Site.Sheets
import Docroot.Reply

/-!
# A site in another place

Neither the name nor the place of the root matters to what is served. Let the same
tree stand in two places, with links that do not lead out of it, and let a site be
served from both, its root spelled in whatever way. Then it is the same site
(`Site.served_alike_elsewhere`):

* a request resolves to the file at the same place in the tree, or fails for the same
  reason (`Relocated.resolve_related`);
* a pattern selects the same paths, with the same texts (`Relocated.stylesheets_eq`);
* the index page and the replies are the same (`Relocated.page_related`,
  `Relocated.reply_eq`).

Only `..` can tell the places apart, since it can lead to the root's parent and back
in by the root's own name. So what asks for `..` must not leave the root on its way,
be it a request, a selected path that is read as one, or the path of the index
document; an index document that does is found in one place and denied in the other
(`Site.climbing_index_told_apart`). And no path may be too long in one of them.
-/

namespace Docroot

/-- The same failure, at the same place if it names one. -/
inductive Failure.Moved (root root' : Location) : Failure → Failure → Prop
  | accessDenied (request : String) :
      Moved root root' (.accessDenied request) (.accessDenied request)
  | notFound (request : String) : Moved root root' (.notFound request) (.notFound request)
  | unreadable (p : Location) (fault : Fault) :
      Moved root root' (.unreadable (Location.text (root ++ p)) fault)
        (.unreadable (Location.text (root' ++ p)) fault)

/-- The same file at the same place. -/
inductive Asset.Moved (root root' : Location) : Asset → Asset → Prop
  | text (p : Location) (content : String) :
      Moved root root' (.text (root ++ p) content) (.text (root' ++ p) content)
  | binary (p : Location) (size : Nat) :
      Moved root root' (.binary (root ++ p) size) (.binary (root' ++ p) size)

theorem Failure.Moved.kind_eq {root root' : Location} {x y : Failure}
    (h : Failure.Moved root root' x y) : x.kind = y.kind := by
  cases h <;> rfl

namespace Site

/-- The site with its root spelled by another path. -/
def withRoot (site : Site) (root : Path) : Site := { site with root := root }

/-- The same entry at the same place. -/
inductive Found (root root' : Location) : Location × Entry → Location × Entry → Prop
  | intro (p : Location) (entry : Entry) : Found root root' (root ++ p, entry) (root' ++ p, entry)

/-- No path is too long on the way that some moves from the root stand for, nor on
    the way to the index document if they lead to a directory. -/
structure KeepsShort (site : Site) (d : Disk) (root : Location) (steps : List Step) : Prop where
  moves : d.StaysShort root (site.movesFor steps)
  index : ∀ q, d.Reaches root (site.movesFor steps) q [] → d.isDirectory q = true →
    d.StaysShort q (Path.mk site.index).steps

theorem KeepsShort.of_way {site : Site} {d : Disk} {root : Location} {steps : List Step}
    {fuel : Nat} (h : ∃ way ∈ d.way? fuel root (site.movesFor steps), ∀ x ∈ way,
      (x.1.ahead x.2).bytes < maxPathBytes ∧ (x.2 = [] → d.isDirectory x.1 = false)) :
    site.KeepsShort d root steps := by
  obtain ⟨way, hway, hall⟩ := h
  refine ⟨Disk.always_of_way hway fun x hx => (hall x hx).1, fun q hq hdir => ?_⟩
  have hfile := (hall _ (hq.mem_way hway)).2 rfl
  rw [hdir] at hfile
  cases hfile

/-- If the request asks for `..`, it still does not leave the root on its way, and no
    path on its way is too long, in either place. -/
structure Portable (site : Site) (d : Disk) (root : Location) (e : Disk) (root' : Location)
    (request : String) : Prop where
  staysIn : ∀ steps, Request.sanitize request = .ok steps → .up ∈ steps →
    d.StaysIn root root steps ∧ e.StaysIn root' root' steps
  keepsShort : ∀ steps, Request.sanitize request = .ok steps → site.KeepsShort d root steps
  keepsShort' : ∀ steps, Request.sanitize request = .ok steps → site.KeepsShort e root' steps

theorem Portable.of_steps {site : Site} {d e : Disk} {root root' : Location} {request : String}
    {steps : List Step} (hsteps : Request.sanitize request = .ok steps) (hup : .up ∉ steps)
    (hshort : site.KeepsShort d root steps) (hshort' : site.KeepsShort e root' steps) :
    site.Portable d root e root' request := by
  have heq : ∀ {asked}, Request.sanitize request = .ok asked → steps = asked :=
    fun h => Except.ok.inj (hsteps.symm.trans h)
  refine ⟨fun asked h hmem => ?_, fun asked h => heq h ▸ hshort, fun asked h => heq h ▸ hshort'⟩
  exact absurd (heq h ▸ hmem) hup

/-- The pattern has no dot in front of a part, paths that lead somewhere in the tree
    are short enough to be looked up, and what is selected makes portable requests. -/
structure PortablePattern (site : Site) (d : Disk) (root : Location) (e : Disk) (root' : Location)
    (pattern : String) : Prop where
  dotFree : Glob.DotFree pattern
  pathsStayShort : d.PathsStayShort root
  pathsStayShort' : e.PathsStayShort root'
  portable : ∀ path ∈ site.selected d pattern, site.Portable d root e root' (Step.textOf path)

/-- So is the index page if its index document and its style sheets are. -/
structure PortablePage (site : Site) (d : Disk) (root : Location) (e : Disk) (root' : Location)
    (style : PageStyle) : Prop where
  index : site.Portable d root e root' site.index
  sheets : style.inlinesSheets = true → site.PortablePattern d root e root' style.sheetPattern

/-- A site is served from two places where the same tree stands, and the path of its
    index document, if there is a `..` in it, does not leave the tree from any
    directory. -/
structure Relocated (site : Site) (d : Disk) (root : Location) (other : Path) (e : Disk)
    (root' : Location) : Prop extends d.Relocated root e root' where
  home : d.canonicalize site.root = .ok root
  home' : e.canonicalize other = .ok root'
  index_staysIn : .up ∈ (Path.mk site.index).steps → ∀ p, d.isDirectory (root ++ p) = true →
    d.StaysIn root (root ++ p) (Path.mk site.index).steps ∧
      e.StaysIn root' (root' ++ p) (Path.mk site.index).steps

variable {site : Site} {d e : Disk} {root root' place p q : Location} {other : Path}
  {request pattern target : String} {steps : List Step} {style : PageStyle}

@[simp] theorem locate_withRoot :
    (site.withRoot other).locate d root request steps = site.locate d root request steps := rfl

/-! ## Walks -/

theorem reaches_of_walkPath {path : Path} (hfree : d.LinkFree place)
    (hshort : d.StaysShort place path.steps) (h : d.walkPath place path = .ok q) :
    d.Reaches place path.steps q [] ∧ q.bytes < maxPathBytes := by
  rw [Disk.walkPath] at h
  split_ifs at h
  exact Disk.reaches_of_walkFrom hfree hshort h

theorem KeepsShort.reaches (hshort : site.KeepsShort d root steps) (hfree : d.LinkFree root)
    (h : site.walkTo d root steps = .ok q) :
    d.Reaches root (site.movesFor steps) q [] ∧ q.bytes < maxPathBytes := by
  have hmoves := hshort.moves
  rw [walkTo] at h
  rw [movesFor] at hmoves ⊢
  split_ifs at h hmoves ⊢
  · exact reaches_of_walkPath hfree hmoves h
  · exact Disk.reaches_of_walkFrom hfree hmoves h

namespace Relocated

theorem linkFree (h : site.Relocated d root other e root') : d.LinkFree root :=
  (Disk.isPlain_of_isDirectory h.isDirectory).linkFree

theorem linkFree' (h : site.Relocated d root other e root') : e.LinkFree root' :=
  (Disk.isPlain_of_isDirectory h.isDirectory').linkFree

theorem walkToIndex_related (h : site.Relocated d root other e root')
    (hdir : d.isDirectory (root ++ p) = true) (hfree : d.LinkFree (root ++ p))
    (hfree' : e.LinkFree (root' ++ p))
    (hshort : d.StaysShort (root ++ p) (Path.mk site.index).steps)
    (hshort' : e.StaysShort (root' ++ p) (Path.mk site.index).steps) :
    Except.Related Eq (Location.Moved root root') (site.walkToIndex d (root ++ p))
      (site.walkToIndex e (root' ++ p)) := by
  have hstaysIn := h.linksStayIn.staysIn_of_up fun hup => (h.index_staysIn hup p hdir).1
  have hstaysIn' := h.linksStayIn'.staysIn_of_up fun hup => (h.index_staysIn hup p hdir).2
  rw [walkToIndex, walkToIndex, Disk.walkPath, Disk.walkPath]
  split_ifs
  · exact .error rfl
  · exact h.walk_related hfree hfree' ⟨hstaysIn, hstaysIn', fun _ => hshort, fun _ => hshort'⟩

theorem walkTo_related (h : site.Relocated d root other e root')
    (hup : .up ∈ steps → d.StaysIn root root steps ∧ e.StaysIn root' root' steps)
    (hshort : site.KeepsShort d root steps) (hshort' : site.KeepsShort e root' steps) :
    Except.Related Eq (Location.Moved root root') (site.walkTo d root steps)
      (site.walkTo e root' steps) := by
  have hmoves := hshort.moves
  have hmoves' := hshort'.moves
  have hindex := @walkToIndex_related _ _ _ _ _ [] _ h
  simp only [List.append_nil] at hindex
  rw [movesFor] at hmoves hmoves'
  rw [walkTo, walkTo]
  split_ifs at hmoves hmoves' ⊢
  · exact hindex h.isDirectory h.linkFree h.linkFree' hmoves hmoves'
  · exact h.walkFrom_related hup hmoves hmoves'

/-! ## Requests -/

theorem inspect_related (h : site.Relocated d root other e root')
    {walked walked' : Except Refusal Location}
    (hwalk : Except.Related Eq (Location.Moved root root') walked walked')
    (hbytes : ∀ q, walked = .ok q → q.bytes < maxPathBytes)
    (hbytes' : ∀ q, walked' = .ok q → q.bytes < maxPathBytes) :
    Except.Related (Failure.Moved root root') (Found root root')
      (inspect d root request walked) (inspect e root' request walked') := by
  cases hwalk with
  | error _ => exact .error (.accessDenied request)
  | ok hmoved =>
    obtain ⟨p⟩ := hmoved
    have hstatus := h.statusAt_eq (hbytes _ rfl) (hbytes' _ rfl)
    have hwithin : ∀ root : Location, root.isWithin (root ++ p) = true :=
      fun root => List.isPrefixOf_iff_prefix.2 (List.prefix_append root p)
    simp only [inspect, hwithin, hstatus, Bool.not_true, Bool.false_eq_true, if_false]
    cases e.statusAt (root' ++ p) with
    | ok entry => exact .ok (.intro p entry)
    | error fault =>
      cases fault with
      | notFound | notDirectory => exact .error (.notFound request)
      | isDirectory | nameTooLong | tooManyLinks | noDevice | nulByte | notUtf8 =>
        exact .error (.unreadable p _)

theorem locate_related (h : site.Relocated d root other e root')
    (hup : .up ∈ steps → d.StaysIn root root steps ∧ e.StaysIn root' root' steps)
    (hshort : site.KeepsShort d root steps) (hshort' : site.KeepsShort e root' steps) :
    Except.Related (Failure.Moved root root') (Found root root')
      (site.locate d root request steps) (site.locate e root' request steps) := by
  have hinspect := @inspect_related _ _ _ _ _ _ request h _ _
    (h.walkTo_related hup hshort hshort') (fun q hq => (hshort.reaches h.linkFree hq).2)
    (fun q hq => (hshort'.reaches h.linkFree' hq).2)
  rw [locate, locate]
  refine hinspect.bind fun found found' hfound hfound' hsame => ?_
  obtain ⟨p, entry⟩ := hsame
  cases entry with
  | file | link | special => exact .ok (.intro p _)
  | directory =>
    obtain ⟨hwalk, hstands⟩ :=
      (inspect_eq_ok_iff fun _ => linkFree_of_walkTo h.linkFree).1 hfound
    obtain ⟨hwalk', hstands'⟩ :=
      (inspect_eq_ok_iff fun _ => linkFree_of_walkTo h.linkFree').1 hfound'
    have hdir := Disk.isDirectory_iff.2 hstands.entryAt?
    have hindex := hshort.index _ (hshort.reaches h.linkFree hwalk).1 hdir
    have hindex' := hshort'.index _ (hshort'.reaches h.linkFree' hwalk').1
      (Disk.isDirectory_iff.2 hstands'.entryAt?)
    exact h.inspect_related
      (h.walkToIndex_related hdir hstands.linkFree hstands'.linkFree hindex hindex')
      (fun q hq => (reaches_of_walkPath hstands.linkFree hindex hq).2)
      (fun q hq => (reaches_of_walkPath hstands'.linkFree hindex' hq).2)

/-- A file is not at the place of the root itself, so it is called the same in both
    places. -/
theorem getLast?_eq_of_file (h : site.Relocated d root other e root') {content : Content}
    (hfile : d.entryAt? (root ++ p) = some (.file content)) :
    (root ++ p).getLast? = (root' ++ p).getLast? := by
  have hp : p ≠ [] := by
    rintro rfl
    rw [List.append_nil, Disk.isDirectory_iff.1 h.isDirectory] at hfile
    cases hfile
  rw [List.getLast?_append_of_ne_nil _ hp, List.getLast?_append_of_ne_nil _ hp]

theorem assetAt_related (h : site.Relocated d root other e root') {entry : Entry}
    (hentry : d.entryAt? (root ++ p) = some entry) :
    Except.Related (Failure.Moved root root') (Asset.Moved root root')
      (site.assetAt request (root ++ p) entry) (site.assetAt request (root' ++ p) entry) := by
  cases entry with
  | directory | link | special => exact .error (.notFound request)
  | file content =>
    rw [assetAt, assetAt, h.getLast?_eq_of_file hentry]
    split_ifs
    · cases content.text? with
      | none => exact .error (.unreadable p _)
      | some text => exact .ok (.text p text)
    · exact .ok (.binary p _)

theorem resolve_related (h : site.Relocated d root other e root')
    (hrequest : site.Portable d root e root' request) :
    Except.Related (Failure.Moved root root') (Asset.Moved root root')
      (site.resolve d request) ((site.withRoot other).resolve e request) := by
  have hhome' : (site.withRoot other).home e = .ok root' := h.home'
  cases hsteps : Request.sanitize request with
  | error refusal =>
    rw [resolve, resolve, hsteps]
    exact .error (.accessDenied request)
  | ok steps =>
    rw [resolve_eq_locate hsteps h.home, resolve_eq_locate hsteps hhome', locate_withRoot]
    have hlocate := @locate_related _ _ _ _ _ _ request _ h (hrequest.staysIn steps hsteps)
      (hrequest.keepsShort steps hsteps) (hrequest.keepsShort' steps hsteps)
    refine hlocate.bind fun found found' hfound hfound' hsame => ?_
    obtain ⟨p, entry⟩ := hsame
    exact h.assetAt_related (stands_of_locate h.linkFree hfound).entryAt?

/-! ## Style sheets and pages -/

theorem text?_eq (h : site.Relocated d root other e root')
    (hrequest : site.Portable d root e root' request) :
    site.text? d request = (site.withRoot other).text? e request := by
  rw [text?, text?]
  rcases (h.resolve_related hrequest).ok_or_error with ⟨_, _, hd, he, hasset⟩ | ⟨_, _, hd, he, _⟩
  · rw [hd, he]
    cases hasset <;> rfl
  · rw [hd, he]

theorem selected_eq (h : site.Relocated d root other e root')
    (hpattern : site.PortablePattern d root e root' pattern) :
    site.selected d pattern = (site.withRoot other).selected e pattern := by
  have hhome' : (site.withRoot other).home e = .ok root' := h.home'
  cases hparsed : Glob.Pattern.ofText? pattern with
  | none => rw [selected_of_invalid hparsed, selected_of_invalid hparsed]
  | some parsed =>
    rw [selected_eq_expand h.home (isPlain_of_home h.home) hpattern.pathsStayShort.root hparsed,
      selected_eq_expand hhome' (isPlain_of_home hhome') hpattern.pathsStayShort'.root hparsed]
    exact Glob.Pattern.expand_eq_of_relocated h.toRelocated hpattern.pathsStayShort
      hpattern.pathsStayShort' hpattern.dotFree hparsed

theorem stylesheets_eq (h : site.Relocated d root other e root')
    (hpattern : site.PortablePattern d root e root' pattern) :
    site.stylesheets d pattern = (site.withRoot other).stylesheets e pattern := by
  rw [stylesheets, stylesheets, ← h.selected_eq hpattern]
  exact List.filterMap_congr fun path hpath => h.text?_eq (hpattern.portable path hpath)

theorem indexText_related (h : site.Relocated d root other e root')
    (hindex : site.Portable d root e root' site.index) :
    Except.Related (Failure.Moved root root') Eq (site.indexText d)
      ((site.withRoot other).indexText e) := by
  rw [indexText, indexText]
  refine (h.resolve_related hindex).bind fun asset asset' hasset hasset' hsame => ?_
  obtain ⟨_, _, _, hstands, _⟩ := resolve_eq_ok hasset
  obtain ⟨_, _, _, hstands', _⟩ := resolve_eq_ok hasset'
  cases hsame with
  | text p content => exact .ok rfl
  | binary p size =>
    dsimp only
    rw [h.statusAt_eq hstands.bytes_lt hstands'.bytes_lt]
    cases e.statusAt (root' ++ p) >>= Entry.readText with
    | ok text => exact .ok rfl
    | error fault => exact .error (.unreadable p fault)

theorem pageSheets_eq (h : site.Relocated d root other e root')
    (hpage : site.PortablePage d root e root' style) :
    site.pageSheets d style = (site.withRoot other).pageSheets e style := by
  rw [pageSheets, pageSheets]
  split_ifs with hinlines
  · exact h.stylesheets_eq (hpage.sheets hinlines)
  · rfl

theorem page_related (h : site.Relocated d root other e root')
    (hpage : site.PortablePage d root e root' style) :
    Except.Related (Failure.Moved root root') Eq (site.page d style)
      ((site.withRoot other).page e style) := by
  rw [page, page, h.pageSheets_eq hpage]
  rcases (h.indexText_related hpage.index).ok_or_error with
    ⟨html, _, hd, he, rfl⟩ | ⟨_, _, hd, he, hfailure⟩
  · rw [hd, he]
    exact .ok rfl
  · rw [hd, he]
    cases hfailure with
    | notFound => exact .ok rfl
    | accessDenied request => exact .error (.accessDenied request)
    | unreadable p fault => exact .error (.unreadable p fault)

/-! ## Replies -/

theorem replyWithPage_eq (h : site.Relocated d root other e root')
    (hpage : site.PortablePage d root e root' style) :
    site.replyWithPage d style = (site.withRoot other).replyWithPage e style := by
  rw [replyWithPage, replyWithPage]
  rcases (h.page_related hpage).ok_or_error with ⟨page, _, hd, he, rfl⟩ | ⟨_, _, hd, he, hfailure⟩
  · rw [hd, he]
  · rw [hd, he]
    dsimp only
    rw [Reply.ofFailure, Reply.ofFailure, hfailure.kind_eq]

theorem isIndexPlace_eq (h : site.Relocated d root other e root') :
    site.isIndexPlace d (root ++ p) = (site.withRoot other).isIndexPlace e (root' ++ p) := by
  have hhome : site.home d = .ok root := h.home
  have hhome' : (site.withRoot other).home e = .ok root' := h.home'
  have hbelow : ∀ root : Location, Location.below? root (root ++ p) = some p := by
    intro root
    rw [Location.below?, Location.isWithin,
      if_pos (List.isPrefixOf_iff_prefix.2 (List.prefix_append root p)), List.drop_left]
  simp only [isIndexPlace, hhome, hhome', hbelow]
  rfl

theorem replyTo_eq (h : site.Relocated d root other e root')
    (hpage : site.PortablePage d root e root' style)
    (hrequest : site.Portable d root e root' request) :
    site.replyTo d style request = (site.withRoot other).replyTo e style request := by
  have hnames : (site.withRoot other).namesIndex request = site.namesIndex request := rfl
  rw [replyTo, replyTo, h.replyWithPage_eq hpage, hnames]
  rcases (h.resolve_related hrequest).ok_or_error with
    ⟨asset, asset', hd, he, hsame⟩ | ⟨failure, failure', hd, he, hfailure⟩
  · obtain ⟨_, _, _, hstands, hasset⟩ := resolve_eq_ok hd
    obtain ⟨_, _, _, hstands', _⟩ := resolve_eq_ok he
    have hindex : site.isIndexPlace d asset.place =
        (site.withRoot other).isIndexPlace e asset'.place := by
      cases hsame <;> exact h.isIndexPlace_eq
    rw [hd, he]
    dsimp only
    rw [hindex]
    cases hsame with
    | text p content =>
      cases hasset with
      | text hfile => simp only [Reply.ofFile, h.getLast?_eq_of_file hfile]
    | binary p size =>
      have hstatus : d.statusAt (root ++ p) = e.statusAt (root' ++ p) :=
        h.statusAt_eq hstands.bytes_lt hstands'.bytes_lt
      cases hasset with
      | binary hfile => simp only [hstatus, Reply.ofFile, h.getLast?_eq_of_file hfile]
  · rw [hd, he]
    dsimp only
    have hkind : failure.kind = failure'.kind := hfailure.kind_eq
    rw [hkind, Reply.ofFailure, Reply.ofFailure, hkind]

theorem reply_eq (h : site.Relocated d root other e root')
    (hpage : site.PortablePage d root e root' style)
    (htarget : ∀ request, Request.ofTarget? target = some request →
      site.Portable d root e root' request) :
    site.reply d style target = (site.withRoot other).reply e style target := by
  rw [reply, reply]
  cases hrequest : Request.ofTarget? target with
  | none => rfl
  | some request => exact h.replyTo_eq hpage (htarget request hrequest)

/-- A place in the tree is seen in the same way from the root. -/
theorem relative?_eq (h : site.Relocated d root other e root') :
    site.relative? d (Location.path (root ++ p)) =
      (site.withRoot other).relative? e (Location.path (root' ++ p)) := by
  have hhome : site.home d = .ok root := h.home
  have hhome' : (site.withRoot other).home e = .ok root' := h.home'
  simp only [relative?, hhome, hhome', Location.relativeTo?_path]

end Relocated

/-- Served from another place where the same tree stands, a site is the same. What
    requests resolve to is at the same place in the tree, or missing for the same
    reason; the style sheets, the page and the replies are equal. -/
theorem served_alike_elsewhere (h : site.Relocated d root other e root') :
    (∀ request, site.Portable d root e root' request →
      Except.Related (Failure.Moved root root') (Asset.Moved root root')
        (site.resolve d request) ((site.withRoot other).resolve e request)) ∧
    (∀ p, site.relative? d (Location.path (root ++ p)) =
      (site.withRoot other).relative? e (Location.path (root' ++ p))) ∧
    (∀ pattern, site.PortablePattern d root e root' pattern →
      site.stylesheets d pattern = (site.withRoot other).stylesheets e pattern) ∧
    ∀ style, site.PortablePage d root e root' style →
      Except.Related (Failure.Moved root root') Eq (site.page d style)
        ((site.withRoot other).page e style) ∧
      ∀ target, (∀ request, Request.ofTarget? target = some request →
          site.Portable d root e root' request) →
        site.reply d style target = (site.withRoot other).reply e style target := by
  refine ⟨fun request hrequest => ?_, fun p => ?_, fun pattern hpattern => ?_,
    fun style hpage => ⟨?_, fun target htarget => ?_⟩⟩
  · exact h.resolve_related hrequest
  · exact h.relative?_eq
  · exact h.stylesheets_eq hpattern
  · exact h.page_related hpage
  · exact h.reply_eq hpage htarget

end Site

/-! ## A tree with a link in two places -/

namespace Specimen

/-- The entries of a site with one link, which does not leave it. -/
def movableEntries : List (Name × Node) :=
  [(indexHtml, .file (.ofText "<p>home</p>")),
   (appCss, .file (.ofText "p { }")),
   (lookCss, .link ⟨"app.css"⟩)]

/-- The site below `/srv/web`. -/
def movable : Disk := diskOf movableEntries

def starred : Name := ⟨"w[e]b *", by decide⟩

/-- The same site below a directory whose name reads like a pattern. -/
def starredDisk : Disk := ⟨[(starred, .directory movableEntries)], []⟩

variable {d : Disk} {root : Location}

theorem mem_movableEntries {n : Name} {p : Location} {entry : Entry}
    (h : d.tree.find? root = some (.directory movableEntries))
    (hentry : d.entryAt? (root ++ n :: p) = some entry) :
    p = [] ∧ (n, entry) ∈ movableEntries.map (Prod.map id Node.entry) := by
  rw [Disk.entryAt?_of_find? h] at hentry
  obtain ⟨below, hbelow, rfl⟩ := Option.map_eq_some_iff.1 hentry
  obtain ⟨hp, hmem⟩ := Node.mem_of_find?_of_flat (by simp [movableEntries, Node.entries]) hbelow
  exact ⟨hp, List.mem_map_of_mem hmem⟩

/-- The one link is that to the style sheet. -/
theorem link_movableEntries {p : Location} {target : Path}
    (h : d.tree.find? root = some (.directory movableEntries))
    (hlink : d.entryAt? (root ++ p) = some (.link target)) :
    p = [lookCss] ∧ target = ⟨"app.css"⟩ := by
  cases p with
  | nil =>
    rw [Disk.entryAt?_of_find? h] at hlink
    cases hlink
  | cons n p =>
    obtain ⟨rfl, hmem⟩ := mem_movableEntries h hlink
    simpa [movableEntries, Node.entry] using hmem

theorem linksStayIn_movableEntries
    (h : d.tree.find? root = some (.directory movableEntries)) : d.LinksStayIn root where
  isAbsolute p target hlink := by
    obtain ⟨_, rfl⟩ := link_movableEntries h hlink
    decide
  staysIn p n target hlink := by
    rw [List.append_assoc] at hlink
    obtain ⟨hp, rfl⟩ := link_movableEntries h hlink
    obtain ⟨rfl, _⟩ := @List.append_inj' _ p [n] [] [lookCss] hp rfl
    have hsteps : (Path.mk "app.css").steps = [.name appCss] := by decide +kernel
    rw [hsteps]
    intro q left hq
    cases hq with
    | refl => exact List.prefix_append root []
    | name _ hrest =>
      cases hrest
      rw [List.append_assoc]
      exact List.prefix_append root _
    | link hsome _ =>
      rw [List.append_assoc] at hsome
      have hname := (link_movableEntries h (Disk.targetAt?_eq_some_iff.1 hsome)).1
      exact absurd hname (by decide)

theorem pathsStayShort_movableEntries (h : d.tree.find? root = some (.directory movableEntries))
    (hbytes : root.bytes < 3000) : d.PathsStayShort root := by
  intro rule hrule names q hq
  have hcreates : rule.createsLast = false := by
    rcases List.mem_pair.1 hrule with rfl | rfl <;> rfl
  have hadmits : ∀ place, rule.admits place = true := by
    rcases List.mem_pair.1 hrule with rfl | rfl <;> exact fun _ => rfl
  cases names with
  | nil =>
    rw [List.append_nil]
    exact Nat.lt_trans hbytes (by decide)
  | cons n names =>
    obtain ⟨_, hsome⟩ := Disk.entryAt?_of_follow_name hcreates hq
    obtain ⟨entry, hentry⟩ := Option.isSome_iff_exists.1 hsome
    cases names with
    | nil =>
      have hn := (Name.isStorable_iff.1 (Disk.of_entryAt?_concat hentry).2).1
      rw [Location.bytes_append, Location.bytes_cons, Location.bytes_nil]
      simp only [Name.maxBytes, maxPathBytes] at hn ⊢
      omega
    | cons m names =>
      -- The first name is that of a file, or of the link to one.
      exfalso
      have hmem := (mem_movableEntries h hentry).2
      rw [List.map_cons] at hq
      simp only [movableEntries, List.map_cons, List.map_nil, Prod.map_apply, id, Node.entry,
        List.mem_cons, List.not_mem_nil, Prod.mk.injEq, or_false] at hmem
      rcases hmem with ⟨rfl, rfl⟩ | ⟨rfl, rfl⟩ | ⟨rfl, rfl⟩
      · rw [Disk.follow_name_of_entry (hadmits _) hentry rfl, List.map_cons,
          Disk.follow_name_of_file hentry] at hq
        cases hq
      · rw [Disk.follow_name_of_entry (hadmits _) hentry rfl, List.map_cons,
          Disk.follow_name_of_file hentry] at hq
        cases hq
      · have hfile : d.entryAt? (root ++ [appCss]) = some (.file (.ofText "p { }")) := by
          rw [Disk.entryAt?_of_find? h]
          rfl
        have hfollows : rule.follows (.step (.name m) ::
            names.map fun n => .step (.name n)) = true := by simp [Lookup.follows]
        have hanchor : (Path.mk "app.css").anchor root = root := if_neg (by decide)
        have hbody : (Path.mk "app.css").body = [.step (.name appCss)] := by decide +kernel
        rw [show maxLinks = 39 + 1 from rfl, Disk.follow_name_of_link (hadmits _) hentry,
          List.map_cons, if_pos hfollows, hanchor, hbody] at hq
        dsimp only at hq
        rw [List.singleton_append, Disk.follow_name_of_entry (hadmits _) hfile rfl,
          Disk.follow_name_of_file hfile] at hq
        cases hq

theorem find?_movable : movable.tree.find? [srv, web] = some (.directory movableEntries) := rfl

theorem find?_starredDisk :
    starredDisk.tree.find? [starred] = some (.directory movableEntries) := rfl

theorem relocated_movable : movable.Relocated [srv, web] starredDisk [starred] where
  isDirectory := by decide +kernel
  entryAt?_eq p := by
    rw [Disk.entryAt?_of_find? find?_movable, Disk.entryAt?_of_find? find?_starredDisk]
  linksStayIn := linksStayIn_movableEntries find?_movable
  linksStayIn' := linksStayIn_movableEntries find?_starredDisk

/-- The root below that directory, as it could be spelled. -/
def starredRoot : Path := ⟨"./w[e]b */../w[e]b */"⟩

/-- A page with the one style sheet that is a link. -/
def lookStyle : PageStyle := ⟨true, "l*.css", "Application"⟩

/-- Requests for everything in the tree, and what they ask for. -/
def movableRequests : List (String × List Step) :=
  [("", []), ("index.html", [.name indexHtml]), ("app.css", [.name appCss]),
   ("look.css", [.name lookCss])]

theorem portable_movable : ∀ asked ∈ movableRequests,
    site.Portable movable [srv, web] starredDisk [starred] asked.1 := by
  have hsteps : ∀ asked ∈ movableRequests,
      Request.sanitize asked.1 = .ok asked.2 ∧ .up ∉ asked.2 := by decide +kernel
  have hways : ∀ asked ∈ movableRequests,
      ∃ way ∈ movable.way? 9 [srv, web] (site.movesFor asked.2), ∀ x ∈ way,
        (x.1.ahead x.2).bytes < maxPathBytes ∧ (x.2 = [] → movable.isDirectory x.1 = false) := by
    decide +kernel
  have hways' : ∀ asked ∈ movableRequests,
      ∃ way ∈ starredDisk.way? 9 [starred] (site.movesFor asked.2), ∀ x ∈ way,
        (x.1.ahead x.2).bytes < maxPathBytes ∧
          (x.2 = [] → starredDisk.isDirectory x.1 = false) := by
    decide +kernel
  intro asked hasked
  obtain ⟨hread, hup⟩ := hsteps asked hasked
  exact .of_steps hread hup (.of_way (hways asked hasked)) (.of_way (hways' asked hasked))

end Specimen

namespace Site

open Specimen in
/-- The site is the same below a directory whose name reads like a pattern, however
    the root is spelled. -/
theorem served_alike_elsewhere_starred :
    Except.Related (Failure.Moved [srv, web] [starred]) (Asset.Moved [srv, web] [starred])
      (Specimen.site.resolve movable "look.css")
      ((Specimen.site.withRoot starredRoot).resolve starredDisk "look.css") ∧
    Specimen.site.stylesheets movable "l*.css" =
      (Specimen.site.withRoot starredRoot).stylesheets starredDisk "l*.css" ∧
    Specimen.site.reply movable lookStyle "/" =
      (Specimen.site.withRoot starredRoot).reply starredDisk lookStyle "/" := by
  have hindex : .up ∉ (Path.mk Specimen.site.index).steps := by decide +kernel
  have hsite : Specimen.site.Relocated movable [srv, web] starredRoot starredDisk [starred] :=
    ⟨relocated_movable, by decide +kernel, by decide +kernel, fun hup => absurd hup hindex⟩
  have hselected : Specimen.site.selected movable "l*.css" = [[.name lookCss]] := by
    decide +kernel
  have hpattern :
      Specimen.site.PortablePattern movable [srv, web] starredDisk [starred] "l*.css" := by
    refine ⟨by decide, pathsStayShort_movableEntries find?_movable (by decide),
      pathsStayShort_movableEntries find?_starredDisk (by decide), fun path hpath => ?_⟩
    obtain rfl := List.mem_singleton.1 (hselected ▸ hpath)
    exact portable_movable ("look.css", [.name lookCss]) (by decide +kernel)
  have hpage : Specimen.site.PortablePage movable [srv, web] starredDisk [starred] lookStyle :=
    ⟨portable_movable ("index.html", [.name indexHtml]) (by decide +kernel), fun _ => hpattern⟩
  have htarget : Request.ofTarget? "/" = some "" := by decide +kernel
  obtain ⟨hresolve, _, hsheets, hpages⟩ := served_alike_elsewhere hsite
  refine ⟨?_, ?_, ?_⟩
  · exact hresolve "look.css" (portable_movable ("look.css", [.name lookCss]) (by decide +kernel))
  · exact hsheets "l*.css" hpattern
  · refine (hpages _ hpage).2 "/" fun request hrequest => ?_
    obtain rfl := Option.some.inj (htarget.symm.trans hrequest)
    exact portable_movable ("", []) (by decide +kernel)

end Site

namespace Specimen

/-- A site whose index document is reached by way of the parent of the root. -/
def climbing : Site := ⟨⟨"web"⟩, "../web/index.html", ["html", "css"]⟩

end Specimen

namespace Site

open Specimen in
/-- An index document that is reached by way of the root's parent is found only where
    the root has the right name. -/
theorem climbing_index_told_apart :
    movable.Relocated [srv, web] starredDisk [starred] ∧
    movable.canonicalize climbing.root = .ok [srv, web] ∧
    starredDisk.canonicalize starredRoot = .ok [starred] ∧
    (Request.sanitize "" = .ok [] ∧ climbing.KeepsShort movable [srv, web] [] ∧
      climbing.KeepsShort starredDisk [starred] []) ∧
    climbing.resolve movable "" = .ok (.text [srv, web, indexHtml] "<p>home</p>") ∧
    (climbing.withRoot starredRoot).resolve starredDisk "" = .error (.accessDenied "") ∧
    ¬ Except.Related (Failure.Moved [srv, web] [starred]) (Asset.Moved [srv, web] [starred])
      (climbing.resolve movable "") ((climbing.withRoot starredRoot).resolve starredDisk "") := by
  have hfound : climbing.resolve movable "" = .ok (.text [srv, web, indexHtml] "<p>home</p>") := by
    decide +kernel
  have hdenied : (climbing.withRoot starredRoot).resolve starredDisk "" =
      .error (.accessDenied "") := by decide +kernel
  have hways : ∃ way ∈ movable.way? 9 [srv, web] (climbing.movesFor []), ∀ x ∈ way,
      (x.1.ahead x.2).bytes < maxPathBytes ∧ (x.2 = [] → movable.isDirectory x.1 = false) := by
    decide +kernel
  have hways' : ∃ way ∈ starredDisk.way? 9 [starred] (climbing.movesFor []), ∀ x ∈ way,
      (x.1.ahead x.2).bytes < maxPathBytes ∧
        (x.2 = [] → starredDisk.isDirectory x.1 = false) := by
    decide +kernel
  refine ⟨relocated_movable, by decide +kernel, by decide +kernel,
    ⟨by decide +kernel, .of_way hways, .of_way hways'⟩, hfound, hdenied, ?_⟩
  rw [hfound, hdenied]
  exact nofun

end Site

end Docroot
