import Docroot.Text.Pieces
import Mathlib.Data.List.Infix

/-!
# Finding and replacing

`Text.replaceAll` goes on behind an occurrence that it has replaced
(`replaceAll_append`) and passes a character at which none starts
(`replaceAll_cons`). `Text.splitAtFirst` cuts before the first occurrence and
nowhere else (`splitAtFirst_eq_some_iff`). How often a pattern occurs is counted by
the places where it starts (`Text.occurrences`).
-/

namespace Docroot.Text

/-- The number of places in a text at which a pattern starts. -/
def occurrences (pattern : List Char) : List Char → Nat
  | [] => 0
  | c :: cs => (if pattern.isPrefixOf (c :: cs) then 1 else 0) + occurrences pattern cs

variable {pattern replacement text before after rest : List Char} {c : Char} {skip : Nat}

theorem occurrences_pos (hpattern : pattern ≠ []) (h : pattern <:+: text) :
    0 < occurrences pattern text := by
  induction text with
  | nil => exact absurd (List.infix_nil.1 h) hpattern
  | cons c cs ih =>
    rw [occurrences]
    rcases List.infix_cons_iff.1 h with h | h
    · rw [if_pos (List.isPrefixOf_iff_prefix.2 h)]
      omega
    · have := ih h
      omega

/-! ## Replacing -/

theorem replaceAfter_eq_drop :
    replaceAfter pattern replacement skip text =
      replaceAll pattern replacement (text.drop skip) := by
  induction text generalizing skip with
  | nil => simp [replaceAfter, replaceAll]
  | cons c cs ih =>
    cases skip with
    | zero => rfl
    | succ skip => rw [replaceAfter, ih, List.drop_succ_cons]

/-- An occurrence in front is replaced, and the text behind it for itself. -/
theorem replaceAll_append (hpattern : pattern ≠ []) :
    replaceAll pattern replacement (pattern ++ rest) =
      replacement ++ replaceAll pattern replacement rest := by
  obtain ⟨c, cs, rfl⟩ := List.exists_cons_of_ne_nil hpattern
  have hstarts : (c :: cs).isPrefixOf (c :: (cs ++ rest)) = true :=
    List.isPrefixOf_iff_prefix.2 (List.prefix_append (c :: cs) rest)
  rw [List.cons_append, replaceAll, replaceAfter, if_pos hstarts, replaceAfter_eq_drop,
    List.length_cons, Nat.add_sub_cancel, List.drop_left]

/-- A character at which no occurrence starts stays as it is. -/
theorem replaceAll_cons (h : ¬ pattern <+: c :: rest) :
    replaceAll pattern replacement (c :: rest) = c :: replaceAll pattern replacement rest := by
  rw [← List.isPrefixOf_iff_prefix] at h
  rw [replaceAll, replaceAfter, if_neg h]
  rfl

/-- One character is replaced wherever it stands. -/
theorem replaceAll_singleton :
    replaceAll [c] replacement text = text.flatMap fun x => if x = c then replacement else [x] := by
  induction text with
  | nil => rfl
  | cons x xs ih =>
    rw [List.flatMap_cons, ← ih]
    by_cases hx : x = c
    · rw [if_pos hx, hx]
      exact replaceAll_append (List.cons_ne_nil c [])
    · rw [if_neg hx]
      exact replaceAll_cons (by simpa using Ne.symm hx)

/-! ## The first occurrence -/

theorem splitAtFirst_eq_none_iff (hpattern : pattern ≠ []) :
    splitAtFirst pattern text = none ↔ ¬ pattern <:+: text := by
  induction text with
  | nil => simp [splitAtFirst, hpattern]
  | cons c cs ih =>
    rw [splitAtFirst, List.infix_cons_iff, not_or, ← ih, ← List.isPrefixOf_iff_prefix]
    split_ifs with hstarts <;> simp [hstarts]

/-- A text is cut before an occurrence of the pattern, and none starts earlier. -/
theorem splitAtFirst_eq_some_iff (hpattern : pattern ≠ []) :
    splitAtFirst pattern text = some (before, after) ↔
      before ++ after = text ∧ pattern <+: after ∧
        ∀ xs ys, xs ++ ys = text → pattern <+: ys → before.length ≤ xs.length := by
  induction text generalizing before with
  | nil =>
    have hempty : pattern.isEmpty = false := by simpa using hpattern
    rw [splitAtFirst, hempty]
    simp only [Bool.false_eq_true, if_false, reduceCtorEq, false_iff]
    rintro ⟨hnil, hstarts, _⟩
    rw [(List.append_eq_nil_iff.1 hnil).2, List.prefix_nil] at hstarts
    exact hpattern hstarts
  | cons c cs ih =>
    rw [splitAtFirst]
    split_ifs with hstarts
    · rw [List.isPrefixOf_iff_prefix] at hstarts
      constructor
      · rintro heq
        obtain ⟨rfl, rfl⟩ := Prod.mk.inj (Option.some.inj heq)
        exact ⟨rfl, hstarts, fun _ _ _ _ => Nat.zero_le _⟩
      · rintro ⟨hcut, _, hfirst⟩
        obtain rfl := List.length_eq_zero_iff.1 (Nat.le_zero.1 (hfirst [] _ rfl hstarts))
        rw [List.nil_append] at hcut
        rw [hcut]
    · rw [List.isPrefixOf_iff_prefix] at hstarts
      simp only [Option.map_eq_some_iff, Prod.exists, Prod.mk.injEq]
      constructor
      · rintro ⟨xs, ys, hsplit, rfl, rfl⟩
        obtain ⟨rfl, hys, hfirst⟩ := ih.1 hsplit
        refine ⟨rfl, hys, fun us vs hcut hvs => ?_⟩
        cases us with
        | nil => exact absurd (hcut ▸ hvs) hstarts
        | cons u us =>
          exact Nat.succ_le_succ (hfirst us vs (List.cons.inj hcut).2 hvs)
      · rintro ⟨hcut, hafter, hfirst⟩
        cases before with
        | nil => exact absurd (hcut ▸ hafter) hstarts
        | cons b before =>
          obtain ⟨rfl, hrest⟩ := List.cons.inj hcut
          refine ⟨before, after, ih.2 ⟨hrest, hafter, fun us vs hus hvs => ?_⟩, rfl, rfl⟩
          exact Nat.le_of_succ_le_succ (hfirst (b :: us) vs (congrArg (b :: ·) hus) hvs)

/-- A part in front that does not have the first character of the pattern is passed. -/
theorem splitAtFirst_append_of_notMem (hpattern : pattern.head? = some c) (h : c ∉ before) :
    splitAtFirst pattern (before ++ (pattern ++ rest)) = some (before, pattern ++ rest) := by
  obtain ⟨cs, rfl⟩ := List.head?_eq_some_iff.1 hpattern
  rw [splitAtFirst_eq_some_iff (List.cons_ne_nil c cs)]
  refine ⟨rfl, List.prefix_append _ _, fun xs ys hcut hstarts => ?_⟩
  obtain ⟨behind, rfl⟩ := hstarts
  rcases List.append_eq_append_iff.1 hcut with ⟨zs, rfl, hzs⟩ | ⟨zs, rfl, _⟩
  · cases zs with
    | nil => simp
    | cons z zs =>
      -- An occurrence that starts earlier starts within the part in front.
      obtain ⟨rfl, _⟩ := List.cons.inj hzs
      simp at h
  · simp

end Docroot.Text
