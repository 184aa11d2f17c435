import Docroot.Proofs.Site.Containment
import Docroot.Proofs.Site.IndexName

/-!
# What is sent

Every target is answered, in one of three ways that no reply mixes
(`reply_integrity`):

* the index page is sent (`Site.SendsPage`);
* a regular file in the root is sent, byte for byte, and it is not the index
  document at the top of the site (`Site.SendsFile`);
* the target is refused with one of four fixed sentences (`Reply.Refuses`), so
  that a refusal tells nothing about the target or the disk.

A reply could only come to nothing on a header that cannot be written down, and
none has such a one (`Reply.CanBeSent`): the media types are all plain text.
-/

namespace Docroot

namespace MediaType

/-- Headers are written in visible ASCII and spaces. -/
def IsHeader (text : String) : Prop :=
  ∀ b ∈ text.toUTF8.data.toList, 32 ≤ b.toNat ∧ b.toNat ≤ 126

-- Along the bytes of the text, not over all the bytes there are.
instance (text : String) : Decidable (IsHeader text) := List.decidableBAll _ _

theorem IsHeader.append {text behind : String} (h : IsHeader text) (hbehind : IsHeader behind) :
    IsHeader (text ++ behind) := by
  intro b hb
  rw [String.toUTF8_eq_toByteArray, String.toByteArray_append, ByteArray.data_append,
    Array.toList_append, List.mem_append] at hb
  exact hb.elim (h b) (hbehind b)

theorem isHeader_table : ∀ row ∈ table, IsHeader row.1 := by decide +kernel

theorem isHeader_header {type : String} (h : IsHeader type) : IsHeader (header type) := by
  rw [header]
  split_ifs
  · exact h.append (by decide)
  · exact h

theorem isHeader_headerOf (name? : Option Name) : IsHeader (headerOf name?) := by
  refine isHeader_header ?_
  rw [ofName]
  cases htype : (name?.bind Name.extension?).bind ofExtension? with
  | none =>
    have hunknown : IsHeader unknown := by decide
    exact hunknown
  | some type =>
    obtain ⟨extension, _, htype⟩ := Option.bind_eq_some_iff.1 htype
    rw [ofExtension?, Option.map_eq_some_iff] at htype
    obtain ⟨row, hrow, rfl⟩ := htype
    exact isHeader_table row (List.mem_of_find?_eq_some hrow)

end MediaType

namespace Reply

/-- The headers of the reply can be written down. -/
structure CanBeSent (reply : Reply) : Prop where
  contentType : MediaType.IsHeader reply.contentType
  cacheControl : ∀ text, reply.cacheControl? = some text → MediaType.IsHeader text

/-- The reply shows a page, which is to be asked for anew each time. -/
structure ShowsPage (page : Page) (reply : Reply) : Prop where
  code : reply.status.code = 200
  contentType : reply.contentType = "text/html; charset=utf-8"
  cacheControl : reply.cacheControl? = some "no-cache"
  body : reply.body = page.html.toUTF8

/-- The reply gives out the content of the file at a place, which may be kept for
    an hour. -/
structure GivesFile (place : Location) (content : Content) (reply : Reply) : Prop where
  code : reply.status.code = 200
  contentType : reply.contentType = MediaType.headerOf place.getLast?
  cacheControl : reply.cacheControl? = some "public, max-age=3600"
  body : reply.body = content.bytes

/-- The sentences of refusal, each with the code of its status. -/
def refusals : List (Nat × String) :=
  [(400, "Invalid path"), (403, "Access denied"), (404, "File not found"),
   (500, "Failed to read file")]

/-- The reply is one of the sentences of refusal, with nothing said about how
    long it may be kept. -/
structure Refuses (reply : Reply) : Prop where
  contentType : reply.contentType = "text/plain; charset=utf-8"
  cacheControl : reply.cacheControl? = none
  sentence : ∃ code sentence, (code, sentence) ∈ refusals ∧ reply.status.code = code ∧
    reply.body = sentence.toUTF8

theorem showsPage_ofPage (page : Page) : (ofPage page).ShowsPage page := ⟨rfl, rfl, rfl, rfl⟩

theorem givesFile_ofFile (place : Location) (content : Content) :
    (ofFile place content.bytes).GivesFile place content := ⟨rfl, rfl, rfl, rfl⟩

theorem refuses_invalid : invalid.Refuses :=
  ⟨rfl, rfl, 400, "Invalid path", by simp [refusals], rfl, rfl⟩

theorem refuses_ofFailure (failure : Failure) : (ofFailure failure).Refuses := by
  refine ⟨rfl, rfl, (Status.ofKind failure.kind).code, failure.kind.message, ?_, rfl, rfl⟩
  cases failure.kind <;> simp [refusals, Status.ofKind, Status.code, Failure.Kind.message]

theorem code_ofFailure (failure : Failure) : (ofFailure failure).status.code ≠ 400 := by
  change (Status.ofKind failure.kind).code ≠ 400
  cases failure.kind <;> exact nofun

variable {reply : Reply} {page : Page} {place : Location} {content : Content}

theorem ShowsPage.canBeSent (h : reply.ShowsPage page) : reply.CanBeSent := by
  refine ⟨?_, fun text htext => ?_⟩
  · rw [h.contentType]
    decide
  · obtain rfl := Option.some.inj (h.cacheControl.symm.trans htext)
    decide

theorem GivesFile.canBeSent (h : reply.GivesFile place content) : reply.CanBeSent := by
  refine ⟨?_, fun text htext => ?_⟩
  · rw [h.contentType]
    exact MediaType.isHeader_headerOf _
  · obtain rfl := Option.some.inj (h.cacheControl.symm.trans htext)
    decide

theorem Refuses.canBeSent (h : reply.Refuses) : reply.CanBeSent := by
  refine ⟨?_, fun text htext => ?_⟩
  · rw [h.contentType]
    decide
  · cases h.cacheControl.symm.trans htext

theorem ShowsPage.not_givesFile (h : reply.ShowsPage page) : ¬ reply.GivesFile place content := by
  intro hfile
  have hcaching := h.cacheControl.symm.trans hfile.cacheControl
  exact absurd (Option.some.inj hcaching) (by decide)

theorem Refuses.not_showsPage (h : reply.Refuses) : ¬ reply.ShowsPage page := by
  intro hpage
  have hcaching := h.cacheControl.symm.trans hpage.cacheControl
  cases hcaching

theorem Refuses.not_givesFile (h : reply.Refuses) : ¬ reply.GivesFile place content := by
  intro hfile
  have hcaching := h.cacheControl.symm.trans hfile.cacheControl
  cases hcaching

end Reply

/-- The text of a file has the bytes of the file. -/
theorem Content.toUTF8_of_text? {content : Content} {text : String}
    (h : content.text? = some text) : text.toUTF8 = content.bytes := by
  rw [text?, String.fromUTF8?] at h
  split_ifs at h
  rw [← Option.some.inj h]
  rfl

/-- A target is a request exactly if the bytes of its path are UTF-8. -/
theorem Request.ofTarget?_eq_none_iff {target : String} : ofTarget? target = none ↔
    ¬ (percentDecode
      (target.toList.takeWhile fun c => c != '?' && c != '#')).toByteArray.IsValidUTF8 := by
  have hpath : (fun c : Char => c != '?' && c != '#') = fun c => !endsPath c := by
    funext c
    rw [endsPath, Bool.not_or]
    rfl
  rw [ofTarget?, Option.map_eq_none_iff, String.fromUTF8?, hpath]
  split_ifs with hvalid <;> simp [hvalid]

namespace Site

variable {site : Site} {d : Disk} {root place : Location} {request target : String}
  {style : PageStyle} {asset : Asset} {index : Name}

/-- The reply shows the index page of the site. -/
def SendsPage (site : Site) (d : Disk) (style : PageStyle) (reply : Reply) : Prop :=
  ∃ page, site.page d style = .ok page ∧ reply.ShowsPage page

/-- The reply gives out a regular file, from its canonical place in the root, and
    that place is not the one of the index document. -/
def SendsFile (site : Site) (d : Disk) (index : Name) (reply : Reply) : Prop :=
  ∃ root place content, d.canonicalize site.root = .ok root ∧
    d.canonicalize place.path = .ok place ∧ root.isWithin place = true ∧
    place ≠ root ++ [index] ∧ d.entryAt? place = some (.file content) ∧
    reply.GivesFile place content

variable {reply : Reply}

theorem SendsFile.exists_givesFile (h : site.SendsFile d index reply) :
    ∃ place content, reply.GivesFile place content := by
  obtain ⟨_, place, content, _, _, _, _, _, hgives⟩ := h
  exact ⟨place, content, hgives⟩

theorem replyWithPage_of_page {page : Page} (h : site.page d style = .ok page) :
    site.replyWithPage d style = .ofPage page := by
  rw [replyWithPage, h]

/-- The reply with the page shows it, or tells of a failure. -/
theorem replyWithPage_cases :
    site.SendsPage d style (site.replyWithPage d style) ∨
      ∃ failure, site.replyWithPage d style = .ofFailure failure := by
  cases hpage : site.page d style with
  | ok page =>
    rw [replyWithPage_of_page hpage]
    exact .inl ⟨page, hpage, Reply.showsPage_ofPage page⟩
  | error failure =>
    rw [replyWithPage, hpage]
    exact .inr ⟨failure, rfl⟩

/-- An asset at the place of the index document is answered with the page. -/
theorem replyTo_of_isIndexPlace (hasset : site.resolve d request = .ok asset)
    (hplace : site.isIndexPlace d asset.place = true) :
    site.replyTo d style request = site.replyWithPage d style := by
  rw [replyTo, hasset]
  simp only [hplace, if_true]

/-- An asset elsewhere than at the place of the index document is sent as it
    is. -/
theorem replyTo_of_asset (hasset : site.resolve d request = .ok asset)
    (hplace : site.isIndexPlace d asset.place = false) :
    ∃ content, d.entryAt? asset.place = some (.file content) ∧
      site.replyTo d style request = .ofFile asset.place content.bytes := by
  obtain ⟨root, entry, hhome, hstands, hmade⟩ := resolve_eq_ok hasset
  rw [replyTo, hasset]
  cases hmade with
  | @text place content text hfile _ htext =>
    refine ⟨content, hfile, ?_⟩
    simp only [hplace, ← Content.toUTF8_of_text? htext]
    rfl
  | @binary place content hfile _ =>
    have hstatus : d.statusAt place = .ok (.file content) :=
      (Disk.statusAt_eq_ok_iff hstands.linkFree).2 ⟨hstands.bytes_lt, hfile⟩
    refine ⟨content, hfile, ?_⟩
    simp only [hplace, hstatus]
    rfl

/-- The answer to a request: the page, a file, or what tells of a failure. -/
theorem replyTo_cases (hindex : index.text = site.index) :
    site.SendsPage d style (site.replyTo d style request) ∨
      site.SendsFile d index (site.replyTo d style request) ∨
      ∃ failure, site.replyTo d style request = .ofFailure failure := by
  cases hresolve : site.resolve d request with
  | ok asset =>
    cases hplace : site.isIndexPlace d asset.place with
    | true =>
      rw [replyTo_of_isIndexPlace hresolve hplace]
      exact replyWithPage_cases.imp_right .inr
    | false =>
      obtain ⟨root, entry, hhome, hstands, _⟩ := resolve_eq_ok hresolve
      obtain ⟨content, hfile, hreply⟩ := @replyTo_of_asset _ _ _ style _ hresolve hplace
      have hne : asset.place ≠ root ++ [index] := by
        rw [ne_eq, ← isIndexPlace_iff hindex hhome, hplace]
        exact Bool.false_ne_true
      rw [hreply]
      exact .inr (.inl ⟨root, asset.place, content, hhome, hstands.canonicalize_path,
        hstands.isWithin, hne, hfile, Reply.givesFile_ofFile _ _⟩)
  | error failure =>
    rw [replyTo, hresolve]
    dsimp only
    split_ifs
    · exact replyWithPage_cases.imp_right .inr
    · exact .inr (.inr ⟨failure, rfl⟩)

/-- No request is answered as if it were none. -/
theorem code_replyTo (hindex : index.text = site.index) :
    (site.replyTo d style request).status.code ≠ 400 := by
  rcases @replyTo_cases site d request style index hindex with ⟨_, _, hpage⟩ | hfile | ⟨failure, h⟩
  · rw [hpage.code]
    decide
  · obtain ⟨_, _, hgives⟩ := hfile.exists_givesFile
    rw [hgives.code]
    decide
  · rw [h]
    exact Reply.code_ofFailure failure

/-- The answer to a target: the page, a file, or a refusal. -/
theorem reply_cases (hindex : index.text = site.index) :
    site.SendsPage d style (site.reply d style target) ∨
      site.SendsFile d index (site.reply d style target) ∨
      (site.reply d style target).Refuses := by
  cases htarget : Request.ofTarget? target with
  | none =>
    rw [reply, htarget]
    exact .inr (.inr Reply.refuses_invalid)
  | some request =>
    rw [reply, htarget]
    refine replyTo_cases hindex |>.imp_right (Or.imp_right ?_)
    rintro ⟨failure, h⟩
    dsimp only
    rw [h]
    exact Reply.refuses_ofFailure failure

/-- Every target is answered, with the index page, with a file other than the
    index document, or with a refusal, and never with two of them at once. A
    target is refused as no request exactly if the bytes that its path stands for
    are not UTF-8. -/
theorem reply_integrity (hindex : index.text = site.index) (d : Disk) (style : PageStyle)
    (target : String) :
    (site.reply d style target).CanBeSent ∧
    (site.SendsPage d style (site.reply d style target) ∨
      site.SendsFile d index (site.reply d style target) ∨
      (site.reply d style target).Refuses) ∧
    ¬ (site.SendsPage d style (site.reply d style target) ∧
      site.SendsFile d index (site.reply d style target)) ∧
    ¬ (site.SendsPage d style (site.reply d style target) ∧
      (site.reply d style target).Refuses) ∧
    ¬ (site.SendsFile d index (site.reply d style target) ∧
      (site.reply d style target).Refuses) ∧
    ((site.reply d style target).status.code = 400 ↔
      ¬ (Request.percentDecode
        (target.toList.takeWhile fun c => c != '?' && c != '#')).toByteArray.IsValidUTF8) := by
  have hcases := @reply_cases site d target style index hindex
  refine ⟨?_, hcases, ?_, ?_, ?_, ?_⟩
  · rcases hcases with ⟨_, _, hpage⟩ | hfile | hrefuses
    · exact hpage.canBeSent
    · obtain ⟨_, _, hgives⟩ := hfile.exists_givesFile
      exact hgives.canBeSent
    · exact hrefuses.canBeSent
  · rintro ⟨⟨_, _, hpage⟩, hfile⟩
    obtain ⟨_, _, hgives⟩ := hfile.exists_givesFile
    exact hpage.not_givesFile hgives
  · rintro ⟨⟨_, _, hpage⟩, hrefuses⟩
    exact hrefuses.not_showsPage hpage
  · rintro ⟨hfile, hrefuses⟩
    obtain ⟨_, _, hgives⟩ := hfile.exists_givesFile
    exact hrefuses.not_givesFile hgives
  · rw [← Request.ofTarget?_eq_none_iff]
    cases htarget : Request.ofTarget? target with
    | none =>
      rw [reply, htarget]
      exact iff_of_true rfl rfl
    | some request =>
      rw [reply, htarget]
      exact iff_of_false (code_replyTo hindex) (Option.some_ne_none request)

open Specimen in
/-- A target with a query, a detour and two links on its way is answered with the
    sheet below the root. -/
theorem reply_integrity_look :
    indexHtml.text = Specimen.site.index ∧
    Specimen.site.SendsFile disk indexHtml
      (Specimen.site.reply disk .default "/round/../look.css?v=1") := by
  have hreply : Specimen.site.reply disk .default "/round/../look.css?v=1" =
      ⟨.ok, "text/css; charset=utf-8", some "public, max-age=3600", "p { }".toUTF8⟩ := by
    decide +kernel
  refine ⟨rfl, ?_⟩
  have hindex : indexHtml.text = Specimen.site.index := rfl
  obtain ⟨_, hcases, _⟩ := reply_integrity hindex disk .default "/round/../look.css?v=1"
  rcases hcases with
    ⟨page, _, hpage⟩ | hfile | hrefuses
  · exact absurd hpage.cacheControl (by rw [hreply]; decide)
  · exact hfile
  · exact absurd hrefuses.cacheControl (by rw [hreply]; exact nofun)

end Site

end Docroot
