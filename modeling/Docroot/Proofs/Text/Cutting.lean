import Docroot.Text.Pieces

/-!
# Cutting and joining

`Text.pieces` cuts a text as the library cuts lists (`pieces_eq_splitOnP`), and
undoes `Text.join`: a text cut at a separator is cut into what stood before it and
what stood behind it (`pieces_append_cons`), so pieces without separators come back
as they were joined (`pieces_join`).
-/

namespace Docroot.Text

variable {separates : Char → Bool} {s : Char} {xs ys : List Char} {ps : List (List Char)}

/-- A text is cut at its separators as every list is. -/
theorem pieces_eq_splitOnP : pieces separates xs = xs.splitOnP separates := by
  induction xs with
  | nil => rfl
  | cons c xs ih =>
    rw [pieces, List.splitOnP_cons_eq_if_modifyHead, ih]
    obtain ⟨p, ps, hpieces⟩ := List.exists_cons_of_ne_nil (List.splitOnP_ne_nil separates xs)
    simp only [hpieces, List.modifyHead_cons]

theorem pieces_ne_nil : pieces separates xs ≠ [] := by
  rw [pieces_eq_splitOnP]
  exact List.splitOnP_ne_nil separates xs

theorem pieces_of_forall (h : ∀ c ∈ xs, separates c = false) : pieces separates xs = [xs] := by
  rw [pieces_eq_splitOnP]
  exact List.splitOnP_eq_singleton h

/-- A separator ends the pieces before it and starts those behind it. -/
theorem pieces_append_cons (hs : separates s = true) :
    pieces separates (xs ++ s :: ys) = pieces separates xs ++ pieces separates ys := by
  simp only [pieces_eq_splitOnP]
  exact List.splitOnP_append_cons xs ys hs

/-- A text in front that has no separator grows into the first piece. -/
theorem exists_pieces_append (h : ∀ c ∈ xs, separates c = false) : ∃ p ps,
    pieces separates ys = p :: ps ∧ pieces separates (xs ++ ys) = (xs ++ p) :: ps := by
  induction xs with
  | nil =>
    obtain ⟨p, ps, hpieces⟩ := List.exists_cons_of_ne_nil (@pieces_ne_nil separates ys)
    exact ⟨p, ps, hpieces, hpieces⟩
  | cons c xs ih =>
    obtain ⟨p, ps, hys, hpieces⟩ := ih fun c' hc' => h c' (List.mem_cons_of_mem c hc')
    refine ⟨p, ps, hys, ?_⟩
    rw [List.cons_append, pieces, h c List.mem_cons_self, hpieces]
    rfl

/-- A text that starts with no separator has a first piece that is not empty. -/
theorem exists_pieces_cons {c : Char} (hc : separates c = false) :
    ∃ p ps, pieces separates (c :: xs) = (c :: p) :: ps := by
  obtain ⟨p, ps, _, hpieces⟩ := @exists_pieces_append separates [c] xs (by simpa using hc)
  exact ⟨p, ps, hpieces⟩

/-- A piece is made of characters of the text that are no separators. -/
theorem of_mem_pieces {p : List Char} {c : Char} (hp : p ∈ pieces separates xs) (hc : c ∈ p) :
    c ∈ xs ∧ separates c = false := by
  induction xs generalizing p with
  | nil =>
    rw [pieces, List.mem_singleton] at hp
    exact absurd (hp ▸ hc) List.not_mem_nil
  | cons x xs ih =>
    obtain ⟨q, qs, hpieces⟩ := List.exists_cons_of_ne_nil (@pieces_ne_nil separates xs)
    rw [hpieces] at ih
    have hlater : ∀ p ∈ q :: qs, c ∈ p → c ∈ x :: xs ∧ separates c = false := fun p hp hc =>
      (ih hp hc).imp_left (List.mem_cons_of_mem x)
    by_cases hx : separates x = true
    · rw [pieces, if_pos hx, List.mem_cons, hpieces] at hp
      rcases hp with rfl | hp
      · exact absurd hc List.not_mem_nil
      · exact hlater p hp hc
    · rw [pieces, if_neg hx, hpieces] at hp
      rcases List.mem_cons.1 hp with rfl | hp
      · rcases List.mem_cons.1 hc with rfl | hc
        · exact ⟨List.mem_cons_self, by simpa using hx⟩
        · exact hlater q List.mem_cons_self hc
      · exact hlater p (List.mem_cons_of_mem q hp) hc

theorem notMem_of_mem_pieces {p : List Char} (hs : separates s = true)
    (hp : p ∈ pieces separates xs) : s ∉ p := by
  intro hc
  rw [(of_mem_pieces hp hc).2] at hs
  cases hs

/-- Every character of a text is a separator or in a piece. -/
theorem mem_pieces_of_mem {c : Char} (hc : c ∈ xs) :
    separates c = true ∨ ∃ p ∈ pieces separates xs, c ∈ p := by
  induction xs with
  | nil => exact absurd hc List.not_mem_nil
  | cons x xs ih =>
    obtain ⟨q, qs, hpieces⟩ := List.exists_cons_of_ne_nil (@pieces_ne_nil separates xs)
    rw [hpieces] at ih
    by_cases hx : separates x = true
    · rw [pieces, if_pos hx, hpieces]
      rcases List.mem_cons.1 hc with rfl | hc
      · exact .inl hx
      · exact (ih hc).imp_right fun ⟨p, hp, h⟩ => ⟨p, List.mem_cons_of_mem _ hp, h⟩
    · rw [pieces, if_neg hx, hpieces]
      rcases List.mem_cons.1 hc with rfl | hc
      · exact .inr ⟨c :: q, List.mem_cons_self, List.mem_cons_self⟩
      · -- The first piece behind `x` has grown by it, the others are as they were.
        refine (ih hc).imp_right fun ⟨p, hp, h⟩ => ?_
        rcases List.mem_cons.1 hp with rfl | hp
        · exact ⟨x :: p, List.mem_cons_self, List.mem_cons_of_mem x h⟩
        · exact ⟨p, List.mem_cons_of_mem _ hp, h⟩

/-- Separators in front are dropped with pieces that are empty. -/
theorem mem_pieces_of_mem_dropWhile {p : List Char}
    (h : p ∈ pieces separates (xs.dropWhile separates)) : p ∈ pieces separates xs := by
  induction xs with
  | nil => exact h
  | cons c xs ih =>
    by_cases hc : separates c = true
    · rw [List.dropWhile_cons_of_pos hc] at h
      rw [pieces, if_pos hc]
      exact List.mem_cons_of_mem _ (ih h)
    · rwa [List.dropWhile_cons_of_neg hc] at h

/-- Pieces with a separator before each of them come back before those that follow. -/
theorem pieces_flatMap_append (hs : separates s = true)
    (h : ∀ p ∈ ps, ∀ c ∈ p, separates c = false) :
    pieces separates ((ps.flatMap fun p => s :: p) ++ s :: ys) =
      [] :: (ps ++ pieces separates ys) := by
  induction ps with
  | nil => simp [pieces, hs]
  | cons p ps ih =>
    have hp := pieces_of_forall (h p List.mem_cons_self)
    have hrest := ih fun q hq => h q (List.mem_cons_of_mem p hq)
    obtain ⟨zs, hzs⟩ : ∃ zs, (ps.flatMap fun p => s :: p) ++ s :: ys = s :: zs := by
      cases ps <;> simp
    have hcons : ∀ ys, pieces separates (s :: ys) = [] :: pieces separates ys :=
      fun ys => if_pos hs
    rw [hzs, hcons] at hrest
    rw [List.flatMap_cons, List.append_assoc, hzs, List.cons_append, hcons, pieces_append_cons hs,
      hp, (List.cons.inj hrest).2]
    rfl

/-- Pieces without separators come back as they were joined. -/
theorem pieces_join (hs : separates s = true) (hps : ps ≠ [])
    (h : ∀ p ∈ ps, ∀ c ∈ p, separates c = false) : pieces separates (join [s] ps) = ps := by
  induction ps with
  | nil => exact absurd rfl hps
  | cons p ps ih =>
    have hp := pieces_of_forall (h p List.mem_cons_self)
    cases ps with
    | nil => exact hp
    | cons q ps =>
      have hrest := ih (List.cons_ne_nil q ps) fun r hr => h r (List.mem_cons_of_mem p hr)
      rw [join, List.append_assoc, List.singleton_append, pieces_append_cons hs, hp, hrest]
      rfl

/-- The last piece is joined with a separator before it. -/
theorem join_concat {p : List Char} (hps : ps ≠ []) :
    join xs (ps ++ [p]) = join xs ps ++ xs ++ p := by
  induction ps with
  | nil => exact absurd rfl hps
  | cons q ps ih =>
    cases ps with
    | nil => simp [join]
    | cons r ps =>
      have hrest := ih (List.cons_ne_nil r ps)
      rw [List.cons_append] at hrest
      simp only [List.cons_append, join, hrest, List.append_assoc]

theorem mem_of_mem_join {c : Char} (h : c ∈ join xs ps) : c ∈ xs ∨ ∃ p ∈ ps, c ∈ p := by
  induction ps with
  | nil => exact absurd h List.not_mem_nil
  | cons p ps ih =>
    cases ps with
    | nil => exact .inr ⟨p, List.mem_cons_self, h⟩
    | cons q ps =>
      rw [join, List.append_assoc, List.mem_append, List.mem_append] at h
      rcases h with h | h | h
      · exact .inr ⟨p, List.mem_cons_self, h⟩
      · exact .inl h
      · obtain hxs | ⟨r, hr, hc⟩ := ih h
        · exact .inl hxs
        · exact .inr ⟨r, List.mem_cons_of_mem p hr, hc⟩

/-- A separator before the joined pieces is one before each piece. -/
theorem cons_join_eq_flatMap (hps : ps ≠ []) : s :: join [s] ps = ps.flatMap fun p => s :: p := by
  induction ps with
  | nil => exact absurd rfl hps
  | cons p ps ih =>
    cases ps with
    | nil => simp [join]
    | cons q ps =>
      rw [List.flatMap_cons, ← ih (List.cons_ne_nil q ps)]
      simp [join]

end Docroot.Text
