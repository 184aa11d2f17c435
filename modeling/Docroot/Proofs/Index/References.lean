import Docroot.Index.Markup
import Docroot.Proofs.Text.Replacing
import Mathlib.Algebra.BigOperators.Group.List.Basic
import Mathlib.Algebra.GroupWithZero.Nat
import Mathlib.Data.List.Infix

/-!
# Making references relative

A reference that starts at the top of the host is cut in two behind its quote: its
*head* ends in the quote, its *tail* starts with the slash. Its relative form has a
dot between the two, so what making references relative should do is told without
replacing anything: put a dot in front of each slash that a reference surrounds
(`Markup.dotted`). The three references are written out for this (`references`),
apart from the forms that are replaced.

Replacing goes through the text once for each reference. That nothing is missed and
nothing done twice rests on the shape of the references (`Reference.IsRooted`), which
is decided for the three:

* the occurrences of one reference do not overlap, so that replacing them one after
  the other meets all of them (`replaceAll_eq_dotted`);
* a dot that was put in neither makes nor breaks an occurrence of another reference,
  because no tail ends in a dot or has a slash behind a quote or a dot, and no head
  has a slash (`dotted_dotted`).

So replacing the references in turn is the same as putting in all dots at once, in
whatever order they come and however often (`relativizeAssets_exact`).
-/

namespace Docroot.Markup

/-- A reference that starts at the top of the host, cut behind its quote. -/
structure Reference where
  /-- The name of an attribute with the quote that opens its value. -/
  head : List Char
  /-- The start of the value. -/
  tail : List Char
  deriving DecidableEq

namespace Reference

/-- The reference with this text. -/
def ofText (text : List Char) : Reference :=
  ⟨text.takeWhile (· ≠ '/'), text.dropWhile (· ≠ '/')⟩

/-- The reference as it stands in a document. -/
def text (r : Reference) : List Char := r.head ++ r.tail

/-- The reference seen from the document. -/
def relative (r : Reference) : List Char := r.head ++ '.' :: r.tail

/-- The reference stands around the place between two parts of a text. The part in
    front is given last character first. -/
def Surrounds (r : Reference) (before rest : List Char) : Prop :=
  r.head.reverse <+: before ∧ r.tail <+: rest

instance (r : Reference) (before rest : List Char) : Decidable (r.Surrounds before rest) :=
  inferInstanceAs (Decidable (_ ∧ _))

/-- The number of places in a text that the reference surrounds. -/
def cuts (r : Reference) : List Char → List Char → Nat
  | _, [] => 0
  | before, c :: rest =>
    (if r.Surrounds before (c :: rest) then 1 else 0) + r.cuts (c :: before) rest

/-- What the references have in common. -/
@[mk_iff]
structure IsRooted (r : Reference) : Prop where
  notMem_head : '/' ∉ r.head
  getLast?_head : r.head.getLast? = some '"'
  head?_tail : r.tail.head? = some '/'
  isChain_tail : r.tail.IsChain fun a b => b = '/' → a ≠ '"' ∧ a ≠ '.'
  getLast?_tail : r.tail.getLast? ≠ some '.'
  length_le : r.head.length ≤ r.tail.length
  not_suffix : ∀ x ∈ r.head.inits, x ≠ [] → ¬ x <:+ r.tail

instance (r : Reference) : Decidable r.IsRooted :=
  decidable_of_iff _ (isRooted_iff r).symm

/-- No place is surrounded by both references. -/
def Apart (r s : Reference) : Prop :=
  (¬ r.head <:+ s.head ∧ ¬ s.head <:+ r.head) ∨ (¬ r.tail <+: s.tail ∧ ¬ s.tail <+: r.tail)

instance (r s : Reference) : Decidable (r.Apart s) :=
  inferInstanceAs (Decidable (_ ∨ _))

end Reference

/-- The references that are to be made relative. -/
def references : List Reference :=
  [⟨"href=\"".toList, "/favicon.ico\"".toList⟩,
   ⟨"src=\"".toList, "/assets/".toList⟩,
   ⟨"href=\"".toList, "/assets/".toList⟩]

/-- The text with a dot in front of each place that a reference surrounds. What stands
    in front of the text is given last character first. -/
def dotted (refs : List Reference) : List Char → List Char → List Char
  | _, [] => []
  | before, c :: rest =>
    if ∃ r ∈ refs, r.Surrounds before (c :: rest) then
      '.' :: c :: dotted refs (c :: before) rest
    else c :: dotted refs (c :: before) rest

/-- The text with each form found replaced by the one put, in the given order. -/
def replaceEach (forms : List (String × String)) (text : List Char) : List Char :=
  forms.foldl (fun text (found, put) => Text.replaceAll found.toList put.toList text) text

variable {r s : Reference} {refs refs' : List Reference} {before before' rest text : List Char}
  {a c : Char}

/-! ## Places that a reference surrounds -/

theorem Reference.IsRooted.head_ne_nil (hr : r.IsRooted) : r.head ≠ [] := by
  intro hnil
  have hlast := hr.getLast?_head
  rw [hnil] at hlast
  cases hlast

theorem Reference.IsRooted.text_ne_nil (hr : r.IsRooted) : r.text ≠ [] :=
  List.append_ne_nil_of_left_ne_nil hr.head_ne_nil r.tail

theorem Reference.IsRooted.exists_cons (hr : r.IsRooted) (h : r.Surrounds before rest) :
    ∃ before' rest', before = '"' :: before' ∧ rest = '/' :: rest' := by
  obtain ⟨head, hhead⟩ := List.getLast?_eq_some_iff.1 hr.getLast?_head
  obtain ⟨tail, htail⟩ := List.head?_eq_some_iff.1 hr.head?_tail
  obtain ⟨⟨xs, rfl⟩, ⟨ys, rfl⟩⟩ := h
  exact ⟨head.reverse ++ xs, tail ++ ys, by simp [hhead], by simp [htail]⟩

theorem Reference.Apart.not_surrounds (h : r.Apart s) (hr : r.Surrounds before rest) :
    ¬ s.Surrounds before rest := by
  intro hs
  rcases h with ⟨hrs, hsr⟩ | ⟨hrs, hsr⟩
  · rcases List.prefix_or_prefix_of_prefix hr.1 hs.1 with hle | hle
    · exact hrs (List.reverse_prefix.1 hle)
    · exact hsr (List.reverse_prefix.1 hle)
  · exact (List.prefix_or_prefix_of_prefix hr.2 hs.2).elim hrs hsr

@[simp] theorem dotted_nil : dotted refs before [] = [] := rfl

theorem dotted_of_surrounds (hr : r ∈ refs) (h : r.Surrounds before (c :: rest)) :
    dotted refs before (c :: rest) = '.' :: c :: dotted refs (c :: before) rest := by
  rw [dotted, if_pos ⟨r, hr, h⟩]

theorem dotted_of_not_surrounds (h : ∀ r ∈ refs, ¬ r.Surrounds before (c :: rest)) :
    dotted refs before (c :: rest) = c :: dotted refs (c :: before) rest := by
  rw [dotted, if_neg fun ⟨r, hr, hsurrounds⟩ => h r hr hsurrounds]

/-- With no references there is nothing to do. -/
theorem dotted_nil_left : dotted [] before text = text := by
  induction text generalizing before with
  | nil => rfl
  | cons c rest ih => rw [dotted_of_not_surrounds (by simp), ih]

/-- Neither the order of the references matters nor how often they are listed. -/
theorem dotted_congr (h : ∀ r, r ∈ refs ↔ r ∈ refs') :
    dotted refs before text = dotted refs' before text := by
  induction text generalizing before with
  | nil => rfl
  | cons c rest ih => simp only [dotted, h, ih]

section Rooted

variable (hrefs : ∀ r ∈ refs, r.IsRooted)

include hrefs

theorem dotted_of_ne_slash (hc : c ≠ '/') :
    dotted refs before (c :: rest) = c :: dotted refs (c :: before) rest := by
  refine dotted_of_not_surrounds fun r hr hsurrounds => ?_
  obtain ⟨_, _, _, hcons⟩ := (hrefs r hr).exists_cons hsurrounds
  exact hc (List.cons.inj hcons).1

theorem dotted_of_ne_quote (ha : a ≠ '"') :
    dotted refs (a :: before) (c :: rest) = c :: dotted refs (c :: a :: before) rest := by
  refine dotted_of_not_surrounds fun r hr hsurrounds => ?_
  obtain ⟨_, _, hcons, _⟩ := (hrefs r hr).exists_cons hsurrounds
  exact ha (List.cons.inj hcons).1

/-- Nothing is put into a part without slashes. -/
theorem dotted_append_of_notMem {part : List Char} (h : '/' ∉ part) :
    dotted refs before (part ++ rest) = part ++ dotted refs (part.reverse ++ before) rest := by
  induction part generalizing before with
  | nil => rfl
  | cons c part ih =>
    obtain ⟨hc, hpart⟩ := List.ne_and_not_mem_of_not_mem_cons h
    rw [List.cons_append, dotted_of_ne_slash hrefs hc.symm, ih hpart, List.reverse_cons,
      List.append_assoc]
    rfl

/-- Nothing is put into a part whose slashes do not stand behind quotes. -/
theorem dotted_append_of_isChain {part : List Char}
    (h : (a :: part).IsChain fun a b => b = '/' → a ≠ '"' ∧ a ≠ '.') :
    dotted refs (a :: before) (part ++ rest) =
      part ++ dotted refs (part.reverse ++ a :: before) rest := by
  induction part generalizing a before with
  | nil => rfl
  | cons c part ih =>
    obtain ⟨hstep, hpart⟩ := List.isChain_cons_cons.1 h
    have hkeep : dotted refs (a :: before) (c :: (part ++ rest)) =
        c :: dotted refs (c :: a :: before) (part ++ rest) := by
      by_cases hc : c = '/'
      · exact dotted_of_ne_quote hrefs (hstep hc).1
      · exact dotted_of_ne_slash hrefs hc
    rw [List.cons_append, hkeep, ih hpart, List.reverse_cons, List.append_assoc]
    rfl

end Rooted

/-! ## One reference -/

/-- No occurrence of the reference starts in the part in front and ends behind it. -/
def Reference.Clear (r : Reference) (before rest : List Char) : Prop :=
  ∀ xs ys, xs ++ ys = r.head → xs ≠ [] → xs.reverse <+: before → ¬ ys ++ r.tail <+: rest

theorem Reference.Clear.nil : r.Clear [] rest := by
  intro xs ys _ hxs hstarts
  exact absurd (by simpa using hstarts) hxs

theorem Reference.Clear.not_surrounds (h : r.Clear before rest) (hr : r.IsRooted) :
    ¬ r.Surrounds before rest := by
  rintro ⟨hhead, htail⟩
  exact h r.head [] (List.append_nil _) hr.head_ne_nil hhead htail

/-- One character further on the part in front is still clear, unless an occurrence
    starts at that character. -/
theorem Reference.Clear.cons (h : r.Clear before (c :: rest)) (htext : ¬ r.text <+: c :: rest) :
    r.Clear (c :: before) rest := by
  intro xs ys hcut hne hxs hys
  obtain ⟨zs, b, rfl⟩ := (List.eq_nil_or_concat' xs).resolve_left hne
  rw [List.reverse_append, List.reverse_singleton, List.singleton_append,
    List.cons_prefix_cons] at hxs
  obtain ⟨rfl, hzs⟩ := hxs
  have hhead : zs ++ b :: ys = r.head := by rw [← hcut, List.append_assoc]; rfl
  have hrest : b :: ys ++ r.tail <+: b :: rest := List.cons_prefix_cons.2 ⟨rfl, hys⟩
  by_cases hnil : zs = []
  · rw [hnil, List.nil_append] at hhead
    exact htext (by rwa [Reference.text, ← hhead])
  · exact h zs (b :: ys) hhead hnil hzs hrest

/-- Behind an occurrence the part in front is clear: the occurrences of a reference
    do not overlap. -/
theorem Reference.IsRooted.clear (hr : r.IsRooted) :
    r.Clear (r.tail.reverse ++ before) rest := by
  intro xs ys hcut hne hxs
  have hle : xs.reverse.length ≤ r.tail.reverse.length := by
    have := congrArg List.length hcut
    have := hr.length_le
    simp only [List.length_append, List.length_reverse] at *
    omega
  have hsuffix : xs <:+ r.tail :=
    List.reverse_prefix.1 (List.prefix_of_prefix_length_le hxs (List.prefix_append _ _) hle)
  exact absurd hsuffix
    (hr.not_suffix xs ((List.mem_inits xs r.head).2 ⟨ys, hcut⟩) hne)

/-- The dot goes between the head and the tail of an occurrence. -/
theorem dotted_text_append (hr : r.IsRooted) :
    dotted [r] before (r.text ++ rest) =
      r.relative ++ dotted [r] (r.tail.reverse ++ (r.head.reverse ++ before)) rest := by
  have hrefs : ∀ s ∈ [r], s.IsRooted := by simpa using hr
  obtain ⟨tail, htail⟩ := List.head?_eq_some_iff.1 hr.head?_tail
  have hsurrounds : r.Surrounds (r.head.reverse ++ before) ('/' :: (tail ++ rest)) :=
    ⟨List.prefix_append _ _, by rw [htail]; exact List.prefix_append _ _⟩
  have hchain := hr.isChain_tail
  rw [htail] at hchain
  calc dotted [r] before (r.text ++ rest)
      = dotted [r] before (r.head ++ ('/' :: (tail ++ rest))) := by
        rw [Reference.text, htail, List.append_assoc]; rfl
    _ = r.head ++ dotted [r] (r.head.reverse ++ before) ('/' :: (tail ++ rest)) :=
        dotted_append_of_notMem hrefs hr.notMem_head
    _ = r.head ++ '.' :: '/' ::
          dotted [r] ('/' :: (r.head.reverse ++ before)) (tail ++ rest) := by
        rw [dotted_of_surrounds List.mem_cons_self hsurrounds]
    _ = r.head ++ '.' :: '/' ::
          (tail ++ dotted [r] (tail.reverse ++ '/' :: (r.head.reverse ++ before)) rest) := by
        rw [dotted_append_of_isChain hrefs hchain]
    _ = r.relative ++ dotted [r] (r.tail.reverse ++ (r.head.reverse ++ before)) rest := by
        simp [Reference.relative, htail]

/-- Replacing the occurrences of a reference puts the dots in. The induction is on the
    length of the text: behind an occurrence it goes on after the whole of it. -/
theorem replaceAll_eq_dotted (hr : r.IsRooted) (hclear : r.Clear before rest) :
    Text.replaceAll r.text r.relative rest = dotted [r] before rest := by
  induction hlength : rest.length using Nat.strong_induction_on generalizing before rest with
  | _ length ih =>
    subst hlength
    by_cases htext : r.text <+: rest
    · obtain ⟨rest, rfl⟩ := htext
      have hlt : rest.length < (r.text ++ rest).length := by
        rw [List.length_append]
        exact Nat.lt_add_of_pos_left (List.length_pos_iff.2 hr.text_ne_nil)
      rw [Text.replaceAll_append hr.text_ne_nil, dotted_text_append hr, ih _ hlt hr.clear rfl]
    · cases rest with
      | nil => rfl
      | cons c rest =>
        have hkeep : ∀ s ∈ [r], ¬ s.Surrounds before (c :: rest) := by
          simpa using hclear.not_surrounds hr
        rw [Text.replaceAll_cons htext, dotted_of_not_surrounds hkeep,
          ih _ (Nat.lt_succ_self _) (hclear.cons htext) rfl]

/-! ## Several references -/

/-- The second text is the first with dots in front of some of its slashes, both given
    last character first. -/
inductive Dots : List Char → List Char → Prop
  | nil : Dots [] []
  | keep {b : Char} {xs ys : List Char} : Dots xs ys → Dots (b :: xs) (b :: ys)
  | dot {xs ys : List Char} : Dots xs ys → Dots ('/' :: xs) ('/' :: '.' :: ys)

/-- A part without slashes shows no difference. -/
theorem Dots.prefix_iff (h : Dots before before') {part : List Char} (hpart : '/' ∉ part) :
    part <+: before' ↔ part <+: before := by
  induction h generalizing part with
  | nil => rfl
  | keep _ ih =>
    cases part with
    | nil => simp
    | cons c part =>
      rw [List.cons_prefix_cons, List.cons_prefix_cons,
        ih (List.not_mem_of_not_mem_cons hpart)]
  | dot _ _ =>
    cases part with
    | nil => simp
    | cons c part =>
      have hc : c ≠ '/' := (List.ne_of_not_mem_cons hpart).symm
      simp [List.cons_prefix_cons, hc]

/-- A part in which no slash stands behind a quote or a dot, and which does not end in
    a dot, starts with dots put in exactly if it starts without them. -/
theorem prefix_dotted_iff (hrefs : ∀ r ∈ refs, r.IsRooted) {part : List Char}
    (hchain : (a :: part).IsChain fun a b => b = '/' → a ≠ '"' ∧ a ≠ '.')
    (hlast : part.getLast? ≠ some '.') :
    part <+: dotted refs (a :: before) rest ↔ part <+: rest := by
  induction part generalizing a before rest with
  | nil => simp
  | cons b part ih =>
    cases rest with
    | nil => rfl
    | cons c rest =>
      obtain ⟨hstep, hpart⟩ := List.isChain_cons_cons.1 hchain
      by_cases hcut : ∃ r ∈ refs, r.Surrounds (a :: before) (c :: rest)
      · -- A dot comes first, and the part starts neither with it nor with the slash.
        obtain ⟨r, hr, hsurrounds⟩ := hcut
        obtain ⟨_, _, hquote, hslash⟩ := (hrefs r hr).exists_cons hsurrounds
        obtain ⟨rfl, -⟩ := List.cons.inj hquote
        obtain ⟨rfl, -⟩ := List.cons.inj hslash
        rw [dotted_of_surrounds hr hsurrounds, List.cons_prefix_cons, List.cons_prefix_cons]
        constructor
        · rintro ⟨rfl, hnext⟩
          cases part with
          | nil => exact absurd rfl hlast
          | cons e part =>
            obtain ⟨rfl, -⟩ := List.cons_prefix_cons.1 hnext
            exact absurd rfl ((List.isChain_cons_cons.1 hpart).1 rfl).2
        · rintro ⟨rfl, -⟩
          exact absurd rfl (hstep rfl).1
      · have hlast' : part.getLast? ≠ some '.' := by
          cases part with
          | nil => simp
          | cons e part => simpa using hlast
        rw [dotted_of_not_surrounds fun r hr h => hcut ⟨r, hr, h⟩, List.cons_prefix_cons,
          List.cons_prefix_cons]
        exact and_congr_right fun hbc => ih (hbc ▸ hpart) hlast'

/-- Dots that were put in before a place and behind it make no difference to whether a
    reference surrounds it. -/
theorem surrounds_dotted_iff (hr : r.IsRooted) (hrefs : ∀ r ∈ refs, r.IsRooted)
    (h : Dots before before') :
    r.Surrounds before' (c :: dotted refs (c :: before) rest) ↔
      r.Surrounds before (c :: rest) := by
  have hhead : r.head.reverse <+: before' ↔ r.head.reverse <+: before :=
    h.prefix_iff (by simpa using hr.notMem_head)
  obtain ⟨tail, htail⟩ := List.head?_eq_some_iff.1 hr.head?_tail
  have hchain := hr.isChain_tail
  have hlast := hr.getLast?_tail
  rw [htail] at hchain hlast
  have hlast' : tail.getLast? ≠ some '.' := by
    cases tail with
    | nil => simp
    | cons b tail => simpa using hlast
  rw [Reference.Surrounds, Reference.Surrounds, hhead, htail, List.cons_prefix_cons,
    List.cons_prefix_cons]
  refine and_congr_right fun _ => and_congr_right fun hc => ?_
  exact prefix_dotted_iff hrefs (hc ▸ hchain) hlast'

/-- Dots put in for one reference after those for others are the dots for all of them. -/
theorem dotted_dotted (hr : r.IsRooted) (hrefs : ∀ r ∈ refs, r.IsRooted)
    (h : Dots before before') :
    dotted [r] before' (dotted refs before rest) = dotted (r :: refs) before rest := by
  have hone : ∀ s ∈ [r], s.IsRooted := by simpa using hr
  induction rest generalizing before before' with
  | nil => rfl
  | cons c rest ih =>
    by_cases hcut : ∃ s ∈ refs, s.Surrounds before (c :: rest)
    · obtain ⟨s, hs, hsurrounds⟩ := hcut
      obtain ⟨_, _, _, hslash⟩ := (hrefs s hs).exists_cons hsurrounds
      obtain ⟨rfl, -⟩ := List.cons.inj hslash
      rw [dotted_of_surrounds hs hsurrounds,
        dotted_of_surrounds (List.mem_cons_of_mem r hs) hsurrounds,
        dotted_of_ne_slash hone (by decide), dotted_of_ne_quote hone (by decide), ih h.dot]
    · have hnot : ∀ s ∈ refs, ¬ s.Surrounds before (c :: rest) := fun s hs h => hcut ⟨s, hs, h⟩
      rw [dotted_of_not_surrounds hnot]
      by_cases hsurrounds : r.Surrounds before (c :: rest)
      · rw [dotted_of_surrounds List.mem_cons_self hsurrounds,
          dotted_of_surrounds List.mem_cons_self
            ((surrounds_dotted_iff hr hrefs h).2 hsurrounds),
          ih h.keep]
      · have hone' : ∀ s ∈ [r], ¬ s.Surrounds before'
            (c :: dotted refs (c :: before) rest) := by
          simpa using mt (surrounds_dotted_iff hr hrefs h).1 hsurrounds
        have hall : ∀ s ∈ r :: refs, ¬ s.Surrounds before (c :: rest) := by
          simpa [hsurrounds] using hnot
        rw [dotted_of_not_surrounds hone', dotted_of_not_surrounds hall, ih h.keep]

/-! ## Counting -/

theorem sum_surrounds (hrefs : refs.Pairwise Reference.Apart) :
    (refs.map fun r => if r.Surrounds before rest then 1 else 0).sum =
      if ∃ r ∈ refs, r.Surrounds before rest then 1 else 0 := by
  induction refs with
  | nil => simp
  | cons r refs ih =>
    obtain ⟨hapart, hrefs⟩ := List.pairwise_cons.1 hrefs
    by_cases hr : r.Surrounds before rest
    · have hnone : ¬ ∃ s ∈ refs, s.Surrounds before rest :=
        fun ⟨s, hs, hsurrounds⟩ => (hapart s hs).not_surrounds hr hsurrounds
      rw [List.map_cons, List.sum_cons, ih hrefs, if_pos hr, if_neg hnone,
        if_pos ⟨r, List.mem_cons_self, hr⟩]
    · simp [ih hrefs, hr]

/-- A text grows by the number of places that a reference surrounds. -/
theorem length_dotted (before text : List Char) (hrefs : refs.Pairwise Reference.Apart) :
    (dotted refs before text).length =
      text.length + (refs.map fun r => r.cuts before text).sum := by
  induction text generalizing before with
  | nil => simp [Reference.cuts]
  | cons c rest ih =>
    simp only [Reference.cuts, List.sum_map_add, sum_surrounds hrefs, dotted]
    split_ifs with hcut <;> simp only [List.length_cons, ih] <;> omega

/-- A place that is counted with the last character of the head is counted one
    character earlier with the tail. -/
theorem Reference.cuts_concat {head tail : List Char} (htail : tail ≠ []) :
    cuts ⟨head ++ [c], tail⟩ before text =
      (if Surrounds ⟨head ++ [c], tail⟩ before text then 1 else 0) +
        cuts ⟨head, c :: tail⟩ before text := by
  induction text generalizing before with
  | nil => simp [cuts, Surrounds, htail]
  | cons b rest ih =>
    have hmove : Surrounds ⟨head ++ [c], tail⟩ (b :: before) rest ↔
        Surrounds ⟨head, c :: tail⟩ before (b :: rest) := by
      simp only [Surrounds, List.reverse_append, List.reverse_singleton,
        List.singleton_append, List.cons_prefix_cons]
      tauto
    simp only [cuts, ih, hmove]

/-- The places that a reference surrounds are as many as its occurrences. The
    induction takes the head apart from its end, so that the place moves to where the
    occurrence starts. -/
theorem Reference.cuts_eq_occurrences {head tail : List Char} (htail : tail ≠ []) :
    cuts ⟨head, tail⟩ [] text = Text.occurrences (head ++ tail) text := by
  induction head using List.reverseRecOn generalizing tail with
  | nil =>
    have hstart : ∀ before, cuts ⟨[], tail⟩ before text = Text.occurrences tail text := by
      induction text with
      | nil => exact fun _ => rfl
      | cons c rest ih =>
        intro before
        simp [cuts, Text.occurrences, Surrounds, ih, List.isPrefixOf_iff_prefix]
    exact hstart []
  | append_singleton head c ih =>
    have hnone : ¬ Surrounds ⟨head ++ [c], tail⟩ [] text := by simp [Surrounds]
    rw [cuts_concat htail, if_neg hnone, Nat.zero_add, ih (List.cons_ne_nil c tail),
      List.append_assoc]
    rfl

theorem Reference.IsRooted.cuts_eq_occurrences (hr : r.IsRooted) :
    r.cuts [] text = Text.occurrences r.text text := by
  refine Reference.cuts_eq_occurrences fun hnil => ?_
  have hhead := hr.head?_tail
  rw [hnil] at hhead
  cases hhead

/-! ## The references that are made relative -/

theorem isRooted_of_mem_references : ∀ r ∈ references, r.IsRooted := by
  decide

theorem pairwise_apart_references : references.Pairwise Reference.Apart := by
  decide

/-- The forms that are replaced are those of the three references. -/
theorem map_ofText_relativeForms :
    relativeForms.map (fun form => Reference.ofText form.1.toList) = references := by
  decide

/-- What is found is the text of a reference, and what is put is its relative form. -/
theorem relativeForms_eq : ∀ form ∈ relativeForms,
    form.1.toList = (Reference.ofText form.1.toList).text ∧
      form.2.toList = (Reference.ofText form.1.toList).relative := by
  decide

theorem ofText_mem_references {form : String × String} (h : form ∈ relativeForms) :
    .ofText form.1.toList ∈ references :=
  map_ofText_relativeForms ▸ List.mem_map_of_mem h

theorem replaceEach_cons {form : String × String} {forms : List (String × String)} :
    replaceEach (form :: forms) text =
      replaceEach forms (Text.replaceAll form.1.toList form.2.toList text) := rfl

theorem replaceEach_append {forms forms' : List (String × String)} :
    replaceEach (forms ++ forms') text = replaceEach forms' (replaceEach forms text) :=
  List.foldl_append

theorem replaceAll_dotted (hr : r.IsRooted) (hrefs : ∀ r ∈ refs, r.IsRooted) :
    Text.replaceAll r.text r.relative (dotted refs [] text) = dotted (r :: refs) [] text := by
  rw [replaceAll_eq_dotted hr .nil, dotted_dotted hr hrefs .nil]

/-- Replacing one reference after the other collects their dots. -/
theorem replaceEach_dotted (text : List Char) {forms : List (String × String)}
    (hforms : ∀ form ∈ forms, form ∈ relativeForms) (hrefs : ∀ r ∈ refs, r.IsRooted) :
    replaceEach forms (dotted refs [] text) =
      dotted ((forms.map fun form => .ofText form.1.toList).reverse ++ refs) [] text := by
  induction forms generalizing refs with
  | nil => rfl
  | cons form forms ih =>
    obtain ⟨hform, hforms⟩ := List.forall_mem_cons.1 hforms
    obtain ⟨hfound, hput⟩ := relativeForms_eq form hform
    have hr := isRooted_of_mem_references _ (ofText_mem_references hform)
    have hrefs' := List.forall_mem_cons.2 ⟨hr, hrefs⟩
    rw [replaceEach_cons, hfound, hput, replaceAll_dotted hr hrefs, ih hforms hrefs',
      List.map_cons, List.reverse_cons, List.append_assoc]
    rfl

/-- Replacing the references in whatever order, and however often, puts in the same
    dots. -/
theorem replaceEach_eq_dotted (text : List Char) {forms : List (String × String)}
    (hforms : ∀ form, form ∈ forms ↔ form ∈ relativeForms) :
    replaceEach forms text = dotted references [] text := by
  have hfold := replaceEach_dotted text (fun form => (hforms form).1)
    (List.forall_mem_nil Reference.IsRooted)
  rw [dotted_nil_left, List.append_nil] at hfold
  rw [hfold]
  refine dotted_congr fun r => ?_
  simp only [← map_ofText_relativeForms, List.mem_reverse, List.mem_map, hforms]

theorem toList_relativizeAssets {html : String} :
    (relativizeAssets html).toList = dotted references [] html.toList := by
  rw [relativizeAssets, String.toList_ofList]
  exact replaceEach_eq_dotted _ fun _ => Iff.rfl

/-- A second time there is nothing to put in. -/
theorem dotted_references_dotted :
    dotted references [] (dotted references [] text) = dotted references [] text := by
  have hone (text : List Char) : replaceEach relativeForms text = dotted references [] text :=
    replaceEach_eq_dotted text fun _ => Iff.rfl
  have htwice : ∀ form, form ∈ relativeForms ++ relativeForms ↔ form ∈ relativeForms :=
    fun form => by rw [List.mem_append, or_self_iff]
  calc dotted references [] (dotted references [] text)
      = replaceEach relativeForms (replaceEach relativeForms text) := by rw [hone, hone]
    _ = replaceEach (relativeForms ++ relativeForms) text := replaceEach_append.symm
    _ = dotted references [] text := replaceEach_eq_dotted text htwice

/-- With the dots put in, no reference is left. -/
theorem not_infix_dotted_references (hr : r ∈ references) :
    ¬ r.text <:+: dotted references [] text := by
  have hrooted := isRooted_of_mem_references r hr
  have hfixed : dotted [r] [] (dotted references [] text) = dotted references [] text := by
    rw [dotted_dotted hrooted isRooted_of_mem_references .nil]
    exact dotted_congr fun s => List.mem_cons.trans (or_iff_right_of_imp fun h => h ▸ hr)
  have hlength := length_dotted [] (dotted references [] text)
    (List.pairwise_singleton Reference.Apart r)
  rw [hfixed, List.map_singleton, List.sum_singleton, hrooted.cuts_eq_occurrences] at hlength
  intro hinfix
  have := Text.occurrences_pos hrooted.text_ne_nil hinfix
  omega

/-- Making references relative puts a dot in front of each slash that a reference
    surrounds and changes nothing else: the document grows by the number of their
    occurrences. No occurrence is left, the references can be replaced in any order,
    and a second time there is nothing to do. -/
theorem relativizeAssets_exact (html : String) :
    (relativizeAssets html).toList = dotted
      [⟨"href=\"".toList, "/favicon.ico\"".toList⟩, ⟨"src=\"".toList, "/assets/".toList⟩,
       ⟨"href=\"".toList, "/assets/".toList⟩] [] html.toList ∧
    (relativizeAssets html).length = html.length +
      (Text.occurrences "href=\"/favicon.ico\"".toList html.toList +
        Text.occurrences "src=\"/assets/".toList html.toList +
        Text.occurrences "href=\"/assets/".toList html.toList) ∧
    (∀ found ∈ ["href=\"/favicon.ico\"", "src=\"/assets/", "href=\"/assets/"],
      ¬ found.toList <:+: (relativizeAssets html).toList) ∧
    (∀ forms : List (String × String), forms.Perm
        [("href=\"/favicon.ico\"", "href=\"./favicon.ico\""),
         ("src=\"/assets/", "src=\"./assets/"), ("href=\"/assets/", "href=\"./assets/")] →
      replaceEach forms html.toList = (relativizeAssets html).toList) ∧
    relativizeAssets (relativizeAssets html) = relativizeAssets html := by
  refine ⟨toList_relativizeAssets, ?_, fun found hfound => ?_, fun forms hperm => ?_, ?_⟩
  · have hcuts : (references.map fun r => r.cuts [] html.toList) =
        references.map fun r => Text.occurrences r.text html.toList :=
      List.map_congr_left fun r hr => (isRooted_of_mem_references r hr).cuts_eq_occurrences
    rw [← String.length_toList, ← String.length_toList, toList_relativizeAssets,
      length_dotted _ _ pairwise_apart_references, hcuts]
    simp only [references, List.map_cons, List.map_nil, List.sum_cons, List.sum_nil, Nat.add_zero,
      Nat.add_assoc]
    rfl
  · have htexts : ["href=\"/favicon.ico\"", "src=\"/assets/", "href=\"/assets/"].map
        String.toList = references.map Reference.text := by decide
    obtain ⟨r, hr, htext⟩ := List.mem_map.1 (htexts ▸ List.mem_map_of_mem hfound)
    rw [toList_relativizeAssets, ← htext]
    exact not_infix_dotted_references hr
  · rw [toList_relativizeAssets]
    exact replaceEach_eq_dotted _ fun _ => hperm.mem_iff
  · rw [← String.toList_inj, toList_relativizeAssets, toList_relativizeAssets,
      dotted_references_dotted]

/-- The references may stand side by side, inside a longer name and inside one another's
    values. What only looks like one stays as it is. -/
theorem relativizeAssets_exact_adjacent :
    relativizeAssets
      "<a data-href=\"/favicon.ico\"src=\"/assets/href=\"/assets/\"/assets/ src='/assets/'>" =
      "<a data-href=\"./favicon.ico\"src=\"./assets/href=\"./assets/\"/assets/ src='/assets/'>" := by
  rw [← String.toList_inj, (relativizeAssets_exact _).1]
  decide

end Docroot.Markup
