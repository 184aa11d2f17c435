import Docroot.Proofs.Path.Written

/-!
# Reading written moves

Moves that are written with slashes between them are read back as they were,
both as a path (`steps_textOf`) and as a request (`sanitize_textOf`), as long as
nothing in them means something else in a request: a NUL, a backslash in a name,
or a drive letter in front. So written, the names between two places are how the
one is seen from the other (`Location.relativeTo?_path`).
-/

namespace Docroot

namespace Step

variable {steps : List Step}

theorem toList_textOf :
    (textOf steps).toList = Text.join ['/'] (steps.map fun s => s.text.toList) :=
  String.toList_ofList

theorem slash_notMem_text (s : Step) : '/' ∉ s.text.toList := by
  cases s with
  | up => decide
  | name n => exact n.slash_notMem

theorem isIdle_text (s : Step) : Path.isIdle s.text.toList = false := by
  cases s with
  | up => rfl
  | name n => simp [Path.isIdle, text, n.toList_ne_nil, n.toList_ne_dot]

theorem componentOfPiece?_text (s : Step) : Component.ofPiece? s.text.toList = some (.step s) := by
  cases s with
  | up => rfl
  | name n => exact Component.ofPiece?_toList n

/-- Written moves start with the first of them, and so with no slash. -/
theorem head?_textOf_cons (s : Step) (rest : List Step) :
    ∃ c cs more, s.text.toList = c :: cs ∧ (textOf (s :: rest)).toList = c :: more := by
  obtain ⟨c, cs, hchars⟩ := List.exists_cons_of_ne_nil (l := s.text.toList) (by
    cases s with
    | up => decide
    | name n => exact n.toList_ne_nil)
  cases rest with
  | nil => exact ⟨c, cs, cs, hchars, by rw [toList_textOf, List.map_singleton, Text.join, hchars]⟩
  | cons t rest =>
    refine ⟨c, cs, cs ++ '/' :: Text.join ['/'] ((t :: rest).map fun s => s.text.toList),
      hchars, ?_⟩
    rw [toList_textOf, List.map_cons, List.map_cons, Text.join, hchars]
    simp

theorem isAbsolute_textOf : (Path.mk (textOf steps)).isAbsolute = false := by
  cases steps with
  | nil => rfl
  | cons s rest =>
    obtain ⟨c, cs, more, hs, htext⟩ := head?_textOf_cons s rest
    have hc : c ≠ '/' := by
      rintro rfl
      exact s.slash_notMem_text (hs ▸ List.mem_cons_self)
    simpa [Path.isAbsolute, htext] using hc

theorem segments_textOf : (Path.mk (textOf steps)).segments = steps.map .step := by
  rcases eq_or_ne steps [] with rfl | hsteps
  · decide
  · have hpieces := @Text.pieces_join (· == '/') '/' (steps.map fun s => s.text.toList) rfl
      (by simpa using hsteps) (by
        intro p hp c hc
        obtain ⟨s, _, rfl⟩ := List.mem_map.1 hp
        rw [beq_eq_false_iff_ne]
        rintro rfl
        exact s.slash_notMem_text hc)
    have hread : (Component.ofPiece? ∘ fun s : Step => s.text.toList) =
        some ∘ Component.step := funext componentOfPiece?_text
    rw [Path.segments, Path.pieces, toList_textOf, hpieces, List.filterMap_map, hread,
      List.filterMap_eq_map]

/-- Written moves are read back as the moves of a path. -/
theorem steps_textOf : (Path.mk (textOf steps)).steps = steps := by
  rw [Path.steps, segments_textOf, List.filterMap_map]
  exact List.filterMap_some

/-- They are all that the path consists of. -/
theorem components_textOf : (Path.mk (textOf steps)).components = steps.map .step := by
  have hfilter : (steps.map Component.step).filter (· != .here) = steps.map .step := by
    rw [List.filter_eq_self]
    simp
  rw [Path.components, isAbsolute_textOf, segments_textOf]
  cases steps <;> exact hfilter

end Step

/-! ## Places seen from further up -/

theorem Path.dropPieces_append {xs ys : List (List Char)} (hxs : ∀ x ∈ xs, isIdle x = false)
    (hys : ∀ y ∈ ys, isIdle y = false) : dropPieces xs.length (xs ++ ys) = ys := by
  induction xs with
  | nil =>
    cases ys with
    | nil => rfl
    | cons y ys => simp [dropPieces, hys y List.mem_cons_self]
  | cons x xs ih =>
    rw [List.length_cons, List.cons_append, dropPieces, hxs x List.mem_cons_self]
    exact ih fun x hx => hxs x (List.mem_cons_of_mem _ hx)

theorem Location.components_path {place : Location} :
    place.path.components = .root :: place.map fun n => .step (.name n) := by
  rw [Path.components, isAbsolute_path, if_pos rfl, segments_path, List.filter_eq_self.2 (by simp)]

/-- A place is seen from one above it by way of the names between them. -/
theorem Location.relativeTo?_path (root p : Location) :
    root.path.relativeTo? (Location.path (root ++ p)) = some ⟨Step.textOf (p.map .name)⟩ := by
  have hidle : ∀ {place : Location}, ∀ x ∈ place.map fun n => n.text.toList,
      Path.isIdle x = false := by
    intro place x hx
    obtain ⟨n, _, rfl⟩ := List.mem_map.1 hx
    exact (Step.name n).isIdle_text
  have hwithin : root.path.isWithin (Location.path (root ++ p)) = true := by
    rw [Path.isWithin, components_path, components_path, List.map_append, ← List.cons_append]
    exact List.isPrefixOf_iff_prefix.2 (List.prefix_append _ _)
  have hlength : root.path.steps.length = (root.map fun n => n.text.toList).length := by
    rw [Path.steps, segments_path, Component.filterMap_step?_names, List.length_map,
      List.length_map]
  have hdrop : Path.dropPieces root.path.steps.length (Location.path (root ++ p)).pieces =
      p.map fun n => n.text.toList := by
    rcases eq_or_ne (root ++ p) [] with hnil | hne
    · obtain ⟨rfl, rfl⟩ := List.append_eq_nil_iff.1 hnil
      decide
    · have hempty : ∀ count ps, Path.dropPieces count ([] :: ps) = Path.dropPieces count ps := by
        intro count ps
        cases count <;> rfl
      rw [pieces_path hne, hempty, hlength, List.map_append, Path.dropPieces_append hidle hidle]
  have hlast : ((p.map fun n => n.text.toList).reverse.dropWhile Path.isIdle).reverse =
      p.map fun n => n.text.toList := by
    cases hreverse : (p.map fun n => n.text.toList).reverse with
    | nil => simpa using hreverse
    | cons x xs =>
      have hx : Path.isIdle x = false :=
        hidle x (List.mem_reverse.1 (hreverse ▸ List.mem_cons_self))
      rw [List.dropWhile_cons_of_neg (by simp [hx]), ← hreverse, List.reverse_reverse]
  rw [Path.relativeTo?, isAbsolute_path, hwithin, Bool.and_self, if_pos rfl, hdrop]
  dsimp only
  rw [hlast, Step.textOf, List.map_map]
  rfl

namespace Request

variable {steps : List Step}

/-- The move means the same in a request as on a disk: its name has no NUL and
    no backslash. -/
def IsPlainStep (s : Step) : Prop := '\x00' ∉ s.text.toList ∧ '\\' ∉ s.text.toList

theorem not_isSeparator_of_mem {s : Step} (hs : '\\' ∉ s.text.toList) :
    ∀ c ∈ s.text.toList, isSeparator c = false := by
  intro c hc
  rw [isSeparator, Bool.or_eq_false_iff, beq_eq_false_iff_ne, beq_eq_false_iff_ne]
  constructor
  · rintro rfl
    exact s.slash_notMem_text hc
  · rintro rfl
    exact hs hc

theorem pieces_textOf (hback : ∀ s ∈ steps, '\\' ∉ s.text.toList) :
    pieces (Step.textOf steps) = steps.map fun s => s.text.toList := by
  rcases eq_or_ne steps [] with rfl | hsteps
  · decide
  · have hpieces := @Text.pieces_join isSeparator '/' (steps.map fun s => s.text.toList) rfl
      (by simpa using hsteps) (by
        intro p hp c hc
        obtain ⟨s, hs, rfl⟩ := List.mem_map.1 hp
        exact not_isSeparator_of_mem (hback s hs) c hc)
    rw [pieces, Step.toList_textOf, hpieces, List.filter_eq_self]
    intro p hp
    obtain ⟨s, _, rfl⟩ := List.mem_map.1 hp
    rw [s.isIdle_text]
    rfl

theorem nul_notMem_textOf (hplain : ∀ s ∈ steps, IsPlainStep s) :
    (Step.textOf steps).toList.contains '\x00' = false := by
  rw [Step.toList_textOf, List.contains_eq_mem, decide_eq_false_iff_not]
  intro h
  obtain h | ⟨p, hp, hc⟩ := Text.mem_of_mem_join h
  · exact absurd h (by decide)
  · obtain ⟨s, hs, rfl⟩ := List.mem_map.1 hp
    exact (hplain s hs).1 hc

theorem filterMap_ofPiece?_text :
    (steps.map fun s => s.text.toList).filterMap Step.ofPiece? = steps := by
  have hread : (Step.ofPiece? ∘ fun s : Step => s.text.toList) = some := funext Step.ofPiece?_text
  rw [List.filterMap_map, hread, List.filterMap_some]

/-- Written moves are read back as those that a request asks for. -/
theorem sanitize_textOf (hplain : ∀ s ∈ steps, IsPlainStep s)
    (hdrive : steps.head?.any (fun s => startsWithDrive s.text.toList) = false) :
    sanitize (Step.textOf steps) = .ok steps := by
  have hpieces := pieces_textOf fun s hs => (hplain s hs).2
  have habsolute : isAbsolute (Step.textOf steps) = false := by
    rw [isAbsolute, hpieces]
    cases steps with
    | nil => rfl
    | cons s rest =>
      obtain ⟨c, cs, more, hs, htext⟩ := Step.head?_textOf_cons s rest
      have hc : isSeparator c = false :=
        not_isSeparator_of_mem (hplain s List.mem_cons_self).2 c (hs ▸ List.mem_cons_self)
      simpa [htext, hc] using hdrive
  rw [sanitize, nul_notMem_textOf hplain, habsolute, hpieces, filterMap_ofPiece?_text]
  rfl

/-- Written moves without a backslash are read as they are or not at all. -/
theorem eq_of_sanitize_textOf {asked : List Step} (hback : ∀ s ∈ steps, '\\' ∉ s.text.toList)
    (h : sanitize (Step.textOf steps) = .ok asked) : asked = steps := by
  rw [sanitize, pieces_textOf hback, filterMap_ofPiece?_text] at h
  split_ifs at h
  exact (Except.ok.inj h).symm

end Request

end Docroot
