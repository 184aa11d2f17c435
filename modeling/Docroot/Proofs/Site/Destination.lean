import Docroot.Proofs.Site.Outcome
import Docroot.Proofs.Specimen
import Docroot.Settings

/-!
# Replies by destination

What a target is answered with should depend on nothing but the place it leads
to, however that place is spelled. Resolving does depend on nothing else, and so
does the reply, save in one case: where nothing is found, the index page is sent
to a request that names the index document when links are left out of account
(`Site.namesIndex`). Two spellings of one place are told apart exactly if nothing
is found there and one of them alone names the index document in this sense
(`reply_eq_iff_of_same_place`, `spellings_told_apart`).
-/

namespace Docroot.Site

open Failure

variable {site : Site} {d : Disk} {root place : Location} {target target' request request' : String}
  {steps steps' : List Step} {style : PageStyle}

/-- Requests that lead to the same place have the same outcome. -/
theorem outcome_resolve_of_same_place (hsteps : Request.sanitize request = .ok steps)
    (hsteps' : Request.sanitize request' = .ok steps') (hhome : site.home d = .ok root)
    (hwalk : site.walkTo d root steps = .ok place)
    (hwalk' : site.walkTo d root steps' = .ok place) :
    outcome (site.resolve d request) = outcome (site.resolve d request') := by
  refine outcome_resolve_of_walkTo hsteps hsteps' fun r hr => ?_
  obtain rfl := Except.ok.inj (hhome.symm.trans hr)
  rw [hwalk, hwalk']

/-- The index page and the word that something is missing are told apart by
    their status. -/
theorem eq_of_reply_of_missing {names names' : Bool}
    (h : (if names then site.replyWithPage d style
        else .plain .notFound Failure.Kind.notFound.message) =
      if names' then site.replyWithPage d style
        else .plain .notFound Failure.Kind.notFound.message) : names = names' := by
  have hpage := @status_replyWithPage site d style
  cases names <;> cases names'
  · rfl
  · exact absurd (congrArg Reply.status h).symm hpage
  · exact absurd (congrArg Reply.status h) hpage
  · rfl

/-- Two targets that lead to the same place have the same reply exactly if
    something other than "not found" comes of it, or both or neither name the
    index document by their names alone. -/
theorem reply_eq_iff_of_same_place (htarget : Request.ofTarget? target = some request)
    (htarget' : Request.ofTarget? target' = some request')
    (hsteps : Request.sanitize request = .ok steps)
    (hsteps' : Request.sanitize request' = .ok steps')
    (hhome : d.canonicalize site.root = .ok root)
    (hwalk : site.walkTo d root steps = .ok place)
    (hwalk' : site.walkTo d root steps' = .ok place) :
    site.reply d style target = site.reply d style target' ↔
      ∀ failure, site.resolve d request = .error failure → failure.kind = .notFound →
        site.namesIndex request = site.namesIndex request' := by
  have houtcome := outcome_resolve_of_same_place hsteps hsteps' hhome hwalk hwalk'
  rw [reply_of_request htarget, reply_of_request htarget']
  constructor
  · intro h failure hfailure hkind
    have hmissing := outcome_eq_error_iff.2 ⟨failure, hfailure, hkind⟩
    rw [replyTo_of_missing hmissing, replyTo_of_missing (houtcome.symm.trans hmissing)] at h
    exact eq_of_reply_of_missing h
  · intro h
    refine replyTo_congr houtcome fun hmissing => ?_
    obtain ⟨failure, hfailure, hkind⟩ := outcome_eq_error_iff.1 hmissing
    exact h failure hfailure hkind

open Specimen in
/-- A sheet has the same reply under its own name and through two links. -/
theorem reply_eq_iff_of_same_place_look :
    Specimen.site.reply disk .default "/look.css?v=1" =
      Specimen.site.reply disk .default "//round/./app.css" := by
  have hhome : disk.canonicalize Specimen.site.root = .ok [srv, web] := by decide +kernel
  have hlook : Request.ofTarget? "/look.css?v=1" = some "look.css" := by decide +kernel
  have happ : Request.ofTarget? "//round/./app.css" = some "round/./app.css" := by decide +kernel
  have hlookSteps : Request.sanitize "look.css" = .ok [.name lookCss] := by decide +kernel
  have happSteps : Request.sanitize "round/./app.css" = .ok [.name round, .name appCss] := by
    decide +kernel
  have hlookWalk : Specimen.site.walkTo disk [srv, web] [.name lookCss] =
      .ok [srv, web, assets, appCss] := by decide +kernel
  have happWalk : Specimen.site.walkTo disk [srv, web] [.name round, .name appCss] =
      .ok [srv, web, assets, appCss] := by decide +kernel
  have hfound : Specimen.site.resolve disk "look.css" =
      .ok (.text [srv, web, assets, appCss] "p { }") := by decide +kernel
  refine (reply_eq_iff_of_same_place hlook happ hlookSteps happSteps hhome hlookWalk happWalk).2 ?_
  intro failure hfailure
  rw [hfound] at hfailure
  cases hfailure

end Docroot.Site

namespace Docroot.Specimen

def docs : Name := ⟨"docs", by decide⟩
def deep : Name := ⟨"deep", by decide⟩
def short : Name := ⟨"short", by decide⟩

/-- A site with a link to a directory below another that has no index document. -/
def shortcut : Disk :=
  diskOf
    [(indexHtml, .file (.ofText "<p>home</p>")),
     (docs, .directory [(deep, .directory [])]),
     (short, .link ⟨"docs/deep"⟩)]

end Docroot.Specimen

namespace Docroot.Site

open Specimen in
/-- Two targets lead to the same missing place, and settings without flaws answer
    one with the index page of the whole site and the other not at all: the
    parent of what the link `short` leads to is not the parent of the link. -/
theorem spellings_told_apart :
    (Settings.mk Specimen.site .default).flaws = [] ∧
    shortcut.canonicalize Specimen.site.root = .ok [srv, web] ∧
    Request.ofTarget? "/short/../index.html" = some "short/../index.html" ∧
    Request.sanitize "short/../index.html" = .ok [.name short, .up, .name indexHtml] ∧
    Specimen.site.walkTo shortcut [srv, web] [.name short, .up, .name indexHtml] =
      .ok [srv, web, docs, indexHtml] ∧
    Request.ofTarget? "/docs/index.html" = some "docs/index.html" ∧
    Request.sanitize "docs/index.html" = .ok [.name docs, .name indexHtml] ∧
    Specimen.site.walkTo shortcut [srv, web] [.name docs, .name indexHtml] =
      .ok [srv, web, docs, indexHtml] ∧
    Specimen.site.reply shortcut .default "/short/../index.html" =
      ⟨.ok, "text/html; charset=utf-8", some "no-cache", "<p>home</p>".toUTF8⟩ ∧
    Specimen.site.reply shortcut .default "/docs/index.html" =
      ⟨.notFound, "text/plain; charset=utf-8", none, "File not found".toUTF8⟩ := by
  decide +kernel

end Docroot.Site
