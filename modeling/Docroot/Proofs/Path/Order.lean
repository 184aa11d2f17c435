import Docroot.Path
import Mathlib.Data.List.Basic

/-!
# Paths in order

The order of paths is that of lists of names, in which going up comes before
every name (`Step.orderOf_eq_compare`). Two paths that are not before each other
are the same path, so a list of paths has only one sorted form, and sorting
forgets the order in which they were listed (`Step.mergeSort_eq_of_perm`). It does
not matter from where paths are seen (`Step.pairwise_filterMap_below?`).
-/

namespace Docroot.Step

/-- What a move is ordered by: the text of its name, and nothing for the parent,
    which comes first. -/
def orderKey : Step → Option String
  | up => none
  | name n => some n.text

theorem orderKey_injective : Function.Injective orderKey := by
  rintro (_ | ⟨a, _⟩) (_ | ⟨b, _⟩) h
  · rfl
  · cases h
  · cases h
  · cases h
    rfl

theorem order_eq_compare (a b : Step) : a.order b = compare a.orderKey b.orderKey := by
  cases a <;> cases b <;> rfl

theorem orderOf_eq_compare (as bs : List Step) :
    orderOf as bs = compare (as.map orderKey) (bs.map orderKey) := by
  induction as generalizing bs with
  | nil => cases bs <;> rfl
  | cons a as ih =>
    cases bs with
    | nil => rfl
    | cons b bs =>
      rw [orderOf, order_eq_compare, ih, List.map_cons, List.map_cons, List.compare_cons_cons]

@[simp] theorem orderOf_append (path as bs : List Step) :
    orderOf (path ++ as) (path ++ bs) = orderOf as bs := by
  induction path with
  | nil => rfl
  | cons s path ih =>
    have hs : s.order s = .eq := (order_eq_compare s s).trans Std.ReflCmp.compare_self
    rw [List.cons_append, List.cons_append, orderOf, hs, ih]
    rfl

/-- The path comes before the other or is the same. -/
theorem orderOf_ne_gt_iff {as bs : List Step} :
    (orderOf as bs != .gt) = true ↔ (compare (as.map orderKey) (bs.map orderKey)).isLE = true := by
  rw [orderOf_eq_compare, bne_iff_ne, Ordering.isLE_iff_ne_gt]

theorem eq_of_orderOf_ne_gt {as bs : List Step} (hab : (orderOf as bs != .gt) = true)
    (hba : (orderOf bs as != .gt) = true) : as = bs := by
  have hkeys := Std.OrientedCmp.isLE_antisymm (orderOf_ne_gt_iff.1 hab) (orderOf_ne_gt_iff.1 hba)
  exact List.map_injective_iff.2 orderKey_injective (Std.LawfulEqOrd.eq_of_compare hkeys)

theorem orderOf_ne_gt_trans {as bs cs : List Step} (hab : (orderOf as bs != .gt) = true)
    (hbc : (orderOf bs cs != .gt) = true) : (orderOf as cs != .gt) = true :=
  orderOf_ne_gt_iff.2
    (Std.TransOrd.isLE_trans (orderOf_ne_gt_iff.1 hab) (orderOf_ne_gt_iff.1 hbc))

theorem orderOf_ne_gt_total (as bs : List Step) :
    (orderOf as bs != .gt || orderOf bs as != .gt) = true := by
  rw [Bool.or_eq_true, orderOf_ne_gt_iff, orderOf_ne_gt_iff,
    ← Std.OrientedCmp.isGE_iff_isLE]
  cases compare (bs.map orderKey) (as.map orderKey) <;> simp

theorem pairwise_mergeSort (xs : List (List Step)) :
    (xs.mergeSort fun a b => orderOf a b != .gt).Pairwise
      fun a b => (orderOf a b != .gt) = true := by
  refine List.pairwise_mergeSort ?_ ?_ xs
  · exact fun _ _ _ => orderOf_ne_gt_trans
  · exact orderOf_ne_gt_total

/-- The same paths have one order only, since no two of them tie. -/
theorem eq_of_perm_of_pairwise {xs ys : List (List Step)} (h : xs.Perm ys)
    (hxs : xs.Pairwise fun a b => (orderOf a b != .gt) = true)
    (hys : ys.Pairwise fun a b => (orderOf a b != .gt) = true) : xs = ys :=
  h.eq_of_pairwise (fun _ _ _ _ => eq_of_orderOf_ne_gt) hxs hys

/-- Sorted, a list of paths shows nothing of the order it was listed in. -/
theorem mergeSort_eq_of_perm {xs ys : List (List Step)} (h : xs.Perm ys) :
    (xs.mergeSort fun a b => orderOf a b != .gt) = ys.mergeSort fun a b => orderOf a b != .gt := by
  refine eq_of_perm_of_pairwise ?_ (pairwise_mergeSort xs) (pairwise_mergeSort ys)
  exact (List.mergeSort_perm xs _).trans (h.trans (List.mergeSort_perm ys _).symm)

/-! ## Paths seen from a place -/

theorem below?_eq_some_iff {base : Location} {steps rest : List Step} :
    below? base steps = some rest ↔ steps = base.map .name ++ rest := by
  rw [below?]
  split_ifs with hprefix
  · obtain ⟨tail, rfl⟩ := List.isPrefixOf_iff_prefix.1 hprefix
    rw [← @List.length_map _ _ base Step.name, List.drop_left, Option.some.injEq,
      List.append_cancel_left_eq]
  · simp only [false_iff]
    rintro rfl
    exact hprefix (List.isPrefixOf_iff_prefix.2 (List.prefix_append _ _))

/-- Paths in their order stay in it when they are seen from a place. -/
theorem pairwise_filterMap_below? {base : Location} {paths : List (List Step)}
    (h : paths.Pairwise fun a b => (orderOf a b != .gt) = true) :
    (paths.filterMap (below? base)).Pairwise fun a b => (orderOf a b != .gt) = true := by
  refine h.filterMap _ fun a b hab as has bs hbs => ?_
  rwa [below?_eq_some_iff.1 has, below?_eq_some_iff.1 hbs, orderOf_append] at hab

end Docroot.Step
