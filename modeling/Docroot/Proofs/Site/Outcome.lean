import Docroot.Proofs.Site.Resolving
import Docroot.Reply

/-!
# Outcomes

The *outcome* of a request is the asset that it resolves to, or the kind of
failure, without the request in whose words the failure is told. It depends on
the request only through its walk (`outcome_resolve_of_walkTo`), and but for the
missing index document the reply depends on the request only through its outcome
(`replyTo_congr`).
-/

namespace Docroot

namespace Failure

/-- What came out, but of a failure only its kind. -/
def outcome {α : Type} (result : Except Failure α) : Except Kind α := result.mapError kind

variable {α β : Type} {result result' : Except Failure α} {a : α} {k : Kind}

/-- Stages with the same outcomes have the same outcome one behind the other. -/
theorem outcome_bind_congr {f g : α → Except Failure β} (h : outcome result = outcome result')
    (hfg : ∀ a, outcome (f a) = outcome (g a)) :
    outcome (result >>= f) = outcome (result' >>= g) := by
  have hbind : ∀ (x : Except Failure α) (f : α → Except Failure β),
      outcome (x >>= f) = outcome x >>= fun a => outcome (f a) := by
    intro x f
    cases x <;> rfl
  rw [hbind, hbind, h, funext hfg]

theorem outcome_eq_ok_iff : outcome result = .ok a ↔ result = .ok a := by
  cases result <;> simp [outcome, Except.mapError]

theorem outcome_eq_error_iff : outcome result = .error k ↔ ∃ f, result = .error f ∧ f.kind = k := by
  cases result <;> simp [outcome, Except.mapError]

end Failure

namespace Site

open Failure

variable {site : Site} {d : Disk} {root place : Location} {request request' : String}
  {steps steps' : List Step} {style : PageStyle} {asset : Asset} {page : Page} {failure : Failure}

/-! ## Resolving -/

/-- An inspection tells of its failures in the words of the request, and of
    nothing else. -/
theorem outcome_inspect {walked : Except Refusal Location} :
    outcome (inspect d root request walked) = outcome (inspect d root request' walked) := by
  cases walked with
  | error refusal => rfl
  | ok place =>
    simp only [inspect]
    split_ifs
    · rfl
    · split <;> rfl

theorem outcome_assetAt {entry : Entry} :
    outcome (site.assetAt request place entry) = outcome (site.assetAt request' place entry) := by
  cases entry with
  | file content => rfl
  | directory | link | special => rfl

/-- A request that is refused is denied. -/
theorem outcome_resolve_of_refused {refusal : Refusal}
    (h : Request.sanitize request = .error refusal) :
    outcome (site.resolve d request) = .error .accessDenied := by
  rw [resolve, h]
  rfl

/-- Requests with the same walk have the same outcome. -/
theorem outcome_resolve_of_walkTo (hsteps : Request.sanitize request = .ok steps)
    (hsteps' : Request.sanitize request' = .ok steps')
    (hwalk : ∀ root, site.home d = .ok root →
      site.walkTo d root steps = site.walkTo d root steps') :
    outcome (site.resolve d request) = outcome (site.resolve d request') := by
  cases hhome : site.home d with
  | error fault => rw [resolve, resolve, hsteps, hsteps', hhome]
  | ok root =>
    rw [resolve_eq_locate hsteps hhome, resolve_eq_locate hsteps' hhome, locate, locate,
      ← hwalk root hhome]
    refine outcome_bind_congr (outcome_bind_congr outcome_inspect ?_) fun _ => outcome_assetAt
    rintro ⟨place, entry⟩
    cases entry with
    | directory => exact outcome_inspect
    | file | link | special => rfl

/-! ## Replies -/

theorem reply_of_request {target : String} (h : Request.ofTarget? target = some request) :
    site.reply d style target = site.replyTo d style request := by
  rw [reply, h]

theorem kind_ne_of_page (h : site.page d style = .error failure) : failure.kind ≠ .notFound := by
  rw [page] at h
  split at h
  · cases h
  · cases h
  · rename_i f hother _
    obtain rfl := Except.error.inj h
    cases f with
    | notFound request => exact absurd rfl (hother request)
    | accessDenied | unreadable => exact nofun

/-- The reply with the index page never tells that something is missing. -/
theorem status_replyWithPage : (site.replyWithPage d style).status ≠ .notFound := by
  rw [replyWithPage]
  split
  · exact nofun
  · rename_i f hpage
    have hkind := kind_ne_of_page hpage
    rw [Reply.ofFailure]
    cases hf : f.kind with
    | notFound => exact absurd hf hkind
    | accessDenied | unreadable => exact nofun

/-- A request that has something missing for its outcome is answered with the
    page if it names the index document. -/
theorem replyTo_of_missing (h : outcome (site.resolve d request) = .error .notFound) :
    site.replyTo d style request =
      if site.namesIndex request then site.replyWithPage d style
      else .plain .notFound Failure.Kind.notFound.message := by
  obtain ⟨f, hf, hkind⟩ := outcome_eq_error_iff.1 h
  simp only [replyTo, hf, hkind, true_and, Reply.ofFailure]
  rfl

/-- Requests with one outcome have one reply, but for one that names the index
    document where something is missing. -/
theorem replyTo_congr (h : outcome (site.resolve d request) = outcome (site.resolve d request'))
    (hnames : outcome (site.resolve d request) = .error .notFound →
      site.namesIndex request = site.namesIndex request') :
    site.replyTo d style request = site.replyTo d style request' := by
  cases hresolve : outcome (site.resolve d request) with
  | ok asset =>
    have hresolve' := h.symm.trans hresolve
    rw [outcome_eq_ok_iff] at hresolve hresolve'
    rw [replyTo, replyTo, hresolve, hresolve']
  | error k =>
    by_cases hk : k = .notFound
    · subst hk
      rw [replyTo_of_missing hresolve, replyTo_of_missing (h.symm.trans hresolve), hnames hresolve]
    · obtain ⟨f, hf, rfl⟩ := outcome_eq_error_iff.1 hresolve
      obtain ⟨g, hg, hkind⟩ := outcome_eq_error_iff.1 (h.symm.trans hresolve)
      simp only [replyTo, hf, hg, hkind, hk, false_and, if_false, Reply.ofFailure]

end Site

end Docroot
