import Docroot.Proofs.Request.Encoding
import Docroot.Proofs.Site.Outcome
import Docroot.Proofs.Specimen

/-!
# Replies to encoded requests

How a request is spelled in a target plays no part in the answer: all targets
that ask for a request have the reply to that request
(`reply_independent_of_encoding`). So a request that is denied is denied in
every spelling, be the `..`, the separators or the drive letter in it encoded or
not.
-/

namespace Docroot.Site

open Failure Request

variable {site : Site} {d : Disk} {style : PageStyle} {request target target' : String}

theorem reply_of_isTargetOf (h : IsTargetOf request target) :
    site.reply d style target = site.replyTo d style (withoutSlashes request) :=
  reply_of_request (ofTarget?_of_isTargetOf h)

theorem code_replyTo_of_denied (h : outcome (site.resolve d request) = .error .accessDenied) :
    (site.replyTo d style request).status.code = 403 := by
  obtain ⟨failure, hfailure, hkind⟩ := outcome_eq_error_iff.1 h
  simp only [replyTo, hfailure, hkind, reduceCtorEq, false_and, if_false]
  rw [Reply.ofFailure, hkind]
  rfl

/-- Targets that ask for one request have one reply, the one to that request
    without the slashes it starts with; and it is a denial if the request is
    denied. -/
theorem reply_independent_of_encoding (h : IsTargetOf request target)
    (h' : IsTargetOf request target') :
    site.reply d style target = site.reply d style target' ∧
    site.reply d style target = site.replyTo d style (withoutSlashes request) ∧
    (outcome (site.resolve d (withoutSlashes request)) = .error .accessDenied →
      (site.reply d style target).status.code = 403) := by
  refine ⟨?_, reply_of_isTargetOf h, fun hdenied => ?_⟩
  · rw [reply_of_isTargetOf h, reply_of_isTargetOf h']
  · rw [reply_of_isTargetOf h]
    exact code_replyTo_of_denied hdenied

open Specimen in
/-- A request that leads out of the root is denied, whether its dots or its
    slashes are encoded, and with a query or a fragment behind. -/
theorem reply_independent_of_encoding_parent :
    IsTargetOf "../etc/passwd" "/%2e./etc/passwd?v=1" ∧
    IsTargetOf "../etc/passwd" "..%2Fetc/passwd#top" ∧
    Specimen.site.reply disk .default "/%2e./etc/passwd?v=1" =
      Specimen.site.reply disk .default "..%2Fetc/passwd#top" ∧
    (Specimen.site.reply disk .default "/%2e./etc/passwd?v=1").status.code = 403 := by
  have hdots : IsTargetOf "../etc/passwd" "/%2e./etc/passwd?v=1" := by
    refine ⟨1, "%2e./etc/passwd".toList, ['?', 'v', '=', '1'], by decide +kernel, ?_, ?_⟩
    · have hdot : Escapes "%2e".toList (String.utf8EncodeChar '.') :=
        .cons (by decide) (by decide) .nil
      have hrest : Encodes "./etc/passwd".toList "./etc/passwd".toList :=
        encodes_self (by decide)
      exact .escaped hdot hrest
    · exact fun c hc => .inl (Option.some.inj hc).symm
  have hslash : IsTargetOf "../etc/passwd" "..%2Fetc/passwd#top" := by
    refine ⟨0, "..%2Fetc/passwd".toList, ['#', 't', 'o', 'p'], by decide +kernel, ?_, ?_⟩
    · have hslash : Escapes "%2F".toList (String.utf8EncodeChar '/') :=
        .cons (by decide) (by decide) .nil
      have hrest : Encodes "etc/passwd".toList "etc/passwd".toList := encodes_self (by decide)
      exact .plain (by decide) (.plain (by decide) (.escaped hslash hrest))
    · exact fun c hc => .inr (Option.some.inj hc).symm
  obtain ⟨hreply, _, hdenied⟩ :=
    @reply_independent_of_encoding Specimen.site disk .default _ _ _ hdots hslash
  exact ⟨hdots, hslash, hreply, hdenied (by decide +kernel)⟩

end Docroot.Site
