import Docroot.Proofs.Path.Written
import Docroot.Proofs.Specimen
import Docroot.Site
import Mathlib.Data.List.DropRight

/-!
# Paths within others

One path is within another when its components start with those of the other. So
a name that only starts like the last name of a base does not lead into it
(`Path.not_isWithin_sibling`), which a comparison of texts would take it to do.

What is left of a path behind a base is cut out of its text, piece by piece
(`Path.relativeTo?`), and means the moves behind those of the base
(`steps_of_relativeTo?`). Joined to the base again it has the components of the
path (`components_join_of_relativeTo?`). Both are put together in
`Site.relative_exact`.
-/

namespace Docroot

/-- Without the top of the tree, the moves are all components but dots. -/
theorem Component.map_step_filterMap_step? {comps : List Component} (h : .root ∉ comps) :
    (comps.filterMap step?).map .step = comps.filter (· != .here) := by
  induction comps with
  | nil => rfl
  | cons c comps ih =>
    rw [List.mem_cons, not_or] at h
    cases c with
    | root => exact absurd rfl h.1
    | here => exact ih h.2
    | step s => exact congrArg (.step s :: ·) (ih h.2)

namespace Path

variable {base p q r : Path} {piece : List Char} {ps rest : List (List Char)} {count : Nat}

/-! ## Components -/

theorem components_of_isAbsolute (hp : p.isAbsolute = true) :
    p.components = .root :: p.steps.map .step := by
  rw [components, if_pos hp, steps, Component.map_step_filterMap_step? p.root_notMem_segments]

/-- The top of the tree is no component of a relative path. -/
theorem root_notMem_components (hp : p.isAbsolute = false) : .root ∉ p.components := by
  have hfilter : ∀ {comps : List Component}, .root ∉ comps → .root ∉ comps.filter (· != .here) :=
    fun h hmem => h (List.mem_of_mem_filter hmem)
  have hroot := p.root_notMem_segments
  rw [components, hp, if_neg Bool.false_ne_true]
  split
  · rename_i rest hsegments
    rw [hsegments, List.mem_cons, not_or] at hroot
    rw [List.mem_cons, not_or]
    exact ⟨hroot.1, hfilter hroot.2⟩
  · exact hfilter hroot

/-- Only an absolute path is within an absolute one. -/
theorem isAbsolute_of_isWithin (hbase : base.isAbsolute = true)
    (h : base.isWithin p = true) : p.isAbsolute = true := by
  by_contra hp
  rw [Bool.not_eq_true] at hp
  rw [isWithin, List.isPrefixOf_iff_prefix, components_of_isAbsolute hbase] at h
  exact root_notMem_components hp (h.subset List.mem_cons_self)

theorem isWithin_iff_steps (hbase : base.isAbsolute = true) (hp : p.isAbsolute = true) :
    base.isWithin p = true ↔ base.steps <+: p.steps := by
  have hinjective : Function.Injective Component.step := fun _ _ h => Component.step.inj h
  rw [isWithin, List.isPrefixOf_iff_prefix, components_of_isAbsolute hbase,
    components_of_isAbsolute hp, List.cons_prefix_cons, and_iff_right rfl,
    List.prefix_map_iff_of_injective hinjective]

/-! ## Siblings -/

/-- The text of the path ends in a name, and not in a slash or a dot. -/
def EndsInName (p : Path) : Prop :=
  ∃ (front : List Char) (n : Name), p.text.toList = front ++ n.text.toList ∧
    (front = [] ∨ front.getLast? = some '/')

/-- Paths that part at a move have the same components before it. -/
theorem exists_components_append {front rest rest' : List Component} {s t : Step}
    (habsolute : p.isAbsolute = q.isAbsolute) (hp : p.segments = front ++ .step s :: rest)
    (hq : q.segments = front ++ .step t :: rest') :
    ∃ before, p.components = before ++ .step s :: rest.filter (· != .here) ∧
      q.components = before ++ .step t :: rest'.filter (· != .here) := by
  rw [components, components, ← habsolute, hp, hq]
  cases p.isAbsolute with
  | true => exact ⟨.root :: front.filter (· != .here), by simp⟩
  | false =>
    rcases front with _ | ⟨_ | _ | s', front⟩
    · exact ⟨[], by simp⟩
    · exact ⟨.root :: front.filter (· != .here), by simp⟩
    · exact ⟨.here :: front.filter (· != .here), by simp⟩
    · exact ⟨.step s' :: front.filter (· != .here), by simp⟩

/-- What is written behind the last name of a path grows the last piece, up to the
    next slash, and leaves the others alone. -/
theorem exists_pieces_of_endsInName (h : base.EndsInName) :
    ∃ (n : Name) (front : List (List Char)), ∀ behind : String, ∃ p ps,
      Text.pieces (· == '/') behind.toList = p :: ps ∧
      (Path.mk (base.text ++ behind)).pieces = front ++ (n.text.toList ++ p) :: ps := by
  obtain ⟨before, n, htext, hbefore⟩ := h
  have hname : ∀ c ∈ n.text.toList, (c == '/') = false := fun c hc =>
    beq_eq_false_iff_ne.2 fun h => n.slash_notMem (h ▸ hc)
  rcases hbefore with rfl | hslash
  · refine ⟨n, [], fun behind => ?_⟩
    obtain ⟨p, ps, hbehind, hpieces⟩ :=
      @Text.exists_pieces_append (· == '/') n.text.toList behind.toList hname
    refine ⟨p, ps, hbehind, ?_⟩
    rw [pieces, String.toList_append, htext, List.nil_append, hpieces, List.nil_append]
  · obtain ⟨before, rfl⟩ := List.getLast?_eq_some_iff.1 hslash
    refine ⟨n, Text.pieces (· == '/') before, fun behind => ?_⟩
    obtain ⟨p, ps, hbehind, hpieces⟩ :=
      @Text.exists_pieces_append (· == '/') n.text.toList behind.toList hname
    refine ⟨p, ps, hbehind, ?_⟩
    rw [pieces, String.toList_append, htext, List.append_assoc, List.append_assoc,
      List.singleton_append, Text.pieces_append_cons rfl, hpieces]

/-- A name that has grown is a move still, and another one. -/
theorem exists_step_of_grown {n : Name} {c : Char} {cs : List Char}
    (hslash : '/' ∉ n.text.toList ++ c :: cs) :
    ∃ s, s ≠ .name n ∧ Component.ofPiece? (n.text.toList ++ c :: cs) = some (.step s) := by
  have hdot : n.text.toList ++ c :: cs ≠ ['.'] := by
    obtain ⟨first, rest, hname⟩ := List.exists_cons_of_ne_nil n.toList_ne_nil
    simp [hname]
  obtain ⟨s, hs, htext⟩ := Step.exists_ofPiece? (by simp) hdot hslash
  refine ⟨s, ?_, by rw [Component.ofPiece?, if_neg hdot, hs]; rfl⟩
  rintro rfl
  simp [Step.text] at htext

/-- A path whose text goes on from the last name of a base, with no slash between,
    is not within the base. -/
theorem not_isWithin_sibling {behind : String} (hbase : base.EndsInName) (hne : behind ≠ "")
    (hslash : behind.toList.head? ≠ some '/') :
    base.isWithin ⟨base.text ++ behind⟩ = false := by
  obtain ⟨n, front, hpieces⟩ := exists_pieces_of_endsInName hbase
  have hsegments : base.segments = front.filterMap Component.ofPiece? ++ [.step (.name n)] := by
    obtain ⟨p, ps, hnil, hbase⟩ := hpieces ""
    obtain ⟨rfl, rfl⟩ := List.cons.inj hnil
    rw [String.append_empty, List.append_nil] at hbase
    simp [segments, hbase]
  obtain ⟨c, cs, hbehind⟩ := List.exists_cons_of_ne_nil (l := behind.toList) (by simpa using hne)
  obtain ⟨w, more, hw⟩ := @Text.exists_pieces_cons (· == '/') cs c (by simpa [hbehind] using hslash)
  obtain ⟨p, ps, hp, hlonger⟩ := hpieces behind
  rw [hbehind, hw] at hp
  obtain ⟨rfl, rfl⟩ := List.cons.inj hp
  have hgrown : '/' ∉ n.text.toList ++ c :: w := by
    have hmem : n.text.toList ++ c :: w ∈ (Path.mk (base.text ++ behind)).pieces := by
      rw [hlonger]
      simp
    exact Text.notMem_of_mem_pieces rfl hmem
  obtain ⟨s, hs, hcomponent⟩ := exists_step_of_grown hgrown
  have hsegments' : (Path.mk (base.text ++ behind)).segments =
      front.filterMap Component.ofPiece? ++ .step s :: more.filterMap Component.ofPiece? := by
    rw [segments, hlonger, List.filterMap_append, List.filterMap_cons_some hcomponent]
  have habsolute : base.isAbsolute = (Path.mk (base.text ++ behind)).isAbsolute := by
    obtain ⟨before, n, htext, _⟩ := hbase
    obtain ⟨first, rest, hfirst⟩ := List.exists_cons_of_ne_nil
      (List.append_ne_nil_of_right_ne_nil before n.toList_ne_nil)
    rw [isAbsolute, isAbsolute, String.toList_append, htext, hfirst]
    rfl
  -- Both have the same components up to the last name of the base, and part there.
  obtain ⟨before, hbefore, hlater⟩ := exists_components_append habsolute hsegments hsegments'
  rw [← Bool.not_eq_true, isWithin, List.isPrefixOf_iff_prefix, hbefore, hlater,
    List.prefix_append_right_inj, List.filter_nil, List.cons_prefix_cons]
  exact fun h => hs (Component.step.inj h.1).symm

/-! ## What is left behind a base -/

/-- The moves that pieces between slashes stand for. -/
def stepsOf (pieces : List (List Char)) : List Step :=
  (pieces.filterMap Component.ofPiece?).filterMap Component.step?

theorem stepsOf_append (ps qs : List (List Char)) :
    stepsOf (ps ++ qs) = stepsOf ps ++ stepsOf qs := by
  simp [stepsOf]

theorem stepsOf_cons_of_isIdle (h : isIdle piece = true) : stepsOf (piece :: ps) = stepsOf ps := by
  rw [isIdle, Bool.or_eq_true, List.isEmpty_iff, beq_iff_eq] at h
  rcases h with rfl | rfl <;> rfl

theorem exists_stepsOf_cons (h : isIdle piece = false) (hslash : '/' ∉ piece) :
    ∃ s, ∀ ps, stepsOf (piece :: ps) = s :: stepsOf ps := by
  rw [isIdle, Bool.or_eq_false_iff, List.isEmpty_eq_false_iff, beq_eq_false_iff_ne] at h
  obtain ⟨s, hs, _⟩ := Step.exists_ofPiece? h.1 h.2 hslash
  have hcomponent : Component.ofPiece? piece = some (.step s) := by
    rw [Component.ofPiece?, if_neg h.2, hs]
    rfl
  refine ⟨s, fun ps => ?_⟩
  rw [stepsOf, List.filterMap_cons_some hcomponent]
  rfl

/-- Dropping pieces drops their moves. -/
theorem stepsOf_dropPieces (h : ∀ piece ∈ ps, '/' ∉ piece) :
    stepsOf (dropPieces count ps) = (stepsOf ps).drop count := by
  induction ps generalizing count with
  | nil => simp [dropPieces, stepsOf]
  | cons piece ps ih =>
    have hrest := fun count => @ih count fun p hp => h p (List.mem_cons_of_mem piece hp)
    cases hidle : isIdle piece with
    | true =>
      rw [stepsOf_cons_of_isIdle hidle, ← hrest]
      cases count <;> simp only [dropPieces, hidle, if_true]
    | false =>
      obtain ⟨s, hs⟩ := exists_stepsOf_cons hidle (h piece List.mem_cons_self)
      cases count with
      | zero => simp only [dropPieces, hidle, Bool.false_eq_true, if_false, List.drop_zero]
      | succ count =>
        rw [hs, List.drop_succ_cons, ← hrest]
        simp only [dropPieces, hidle, Bool.false_eq_true, if_false]

/-- What is left starts with a piece that asks for something. -/
theorem isIdle_of_dropPieces (h : dropPieces count ps = piece :: rest) : isIdle piece = false := by
  induction ps generalizing count with
  | nil =>
    rw [dropPieces] at h
    cases h
  | cons p ps ih =>
    cases hidle : isIdle p with
    | true => cases count <;> rw [dropPieces, if_pos hidle] at h <;> exact ih h
    | false =>
      cases count with
      | zero =>
        rw [dropPieces, if_neg (by simp [hidle])] at h
        exact (List.cons.inj h).1 ▸ hidle
      | succ count =>
        rw [dropPieces, if_neg (by simp [hidle])] at h
        exact ih h

/-- What is left was there before. -/
theorem dropPieces_subset : dropPieces count ps ⊆ ps := by
  induction ps generalizing count with
  | nil =>
    rw [dropPieces]
    exact List.Subset.refl []
  | cons p ps ih =>
    have hdropped : ∀ {count}, dropPieces count ps ⊆ p :: ps := fun {count} =>
      List.subset_cons_of_subset p (@ih count)
    cases count <;> rw [dropPieces] <;> split_ifs
    · exact hdropped
    · exact List.Subset.refl _
    · exact hdropped
    · exact hdropped

/-- Idle pieces at the end ask for nothing. -/
theorem stepsOf_rdropWhile (ps : List (List Char)) :
    stepsOf (ps.rdropWhile isIdle) = stepsOf ps := by
  induction ps using List.reverseRecOn with
  | nil => rfl
  | append_singleton ps piece ih =>
    by_cases hidle : isIdle piece = true
    · rw [List.rdropWhile_concat_pos _ _ _ hidle, ih, stepsOf_append, stepsOf_cons_of_isIdle hidle]
      exact (List.append_nil _).symm
    · rw [List.rdropWhile_concat_neg _ _ _ hidle]

/-- What is left of a path behind a base is written as the pieces of the path behind
    those of the base, up to the last that asks for something. -/
theorem relativeTo?_eq (h : base.relativeTo? p = some r) :
    r.text.toList =
      Text.join ['/'] ((dropPieces base.steps.length p.pieces).rdropWhile isIdle) := by
  rw [relativeTo?] at h
  split_ifs at h
  rw [← Option.some.inj h]
  exact String.toList_ofList

/-- A path that is written as pieces, the first of which is not idle, is relative and
    asks for what the pieces stand for. -/
theorem steps_of_join (htext : r.text.toList = Text.join ['/'] ps)
    (hslash : ∀ piece ∈ ps, '/' ∉ piece) (hfirst : ∀ piece ∈ ps.head?, isIdle piece = false) :
    r.isAbsolute = false ∧ r.steps = stepsOf ps := by
  cases ps with
  | nil =>
    obtain rfl : r = ⟨""⟩ := by
      cases r
      simpa [Text.join] using htext
    exact ⟨rfl, rfl⟩
  | cons piece ps =>
    have hpieces : r.pieces = piece :: ps := by
      rw [pieces, htext]
      refine Text.pieces_join rfl (List.cons_ne_nil piece ps) fun q hq c hc => ?_
      exact beq_eq_false_iff_ne.2 fun h => hslash q hq (h ▸ hc)
    refine ⟨?_, by rw [← hpieces]; rfl⟩
    -- The first piece of an absolute path is the empty one before its slash.
    rw [isAbsolute, beq_eq_false_iff_ne]
    intro hhead
    obtain ⟨cs, hcs⟩ := List.head?_eq_some_iff.1 hhead
    rw [pieces, hcs, Text.pieces, if_pos (by rfl)] at hpieces
    have hidle := hfirst piece rfl
    rw [← (List.cons.inj hpieces).1] at hidle
    cases hidle

/-- What is left of a path behind a base is relative, and asks for the moves behind
    those of the base. -/
theorem steps_of_relativeTo? (h : base.relativeTo? p = some r) :
    r.isAbsolute = false ∧ r.steps = p.steps.drop base.steps.length := by
  have hp : ∀ piece ∈ p.pieces, '/' ∉ piece := fun _ => Text.notMem_of_mem_pieces rfl
  obtain ⟨behind, hkept⟩ :=
    List.rdropWhile_prefix isIdle (l := dropPieces base.steps.length p.pieces)
  obtain ⟨hrelative, hsteps⟩ := steps_of_join (relativeTo?_eq h)
    (fun piece hpiece => hp piece (dropPieces_subset (hkept ▸ List.mem_append_left behind hpiece)))
    fun piece hpiece => by
      obtain ⟨rest, hrest⟩ := List.head?_eq_some_iff.1 hpiece
      rw [hrest] at hkept
      exact isIdle_of_dropPieces hkept.symm
  rw [stepsOf_rdropWhile, stepsOf_dropPieces hp] at hsteps
  exact ⟨hrelative, hsteps⟩

/-- What is left of a path behind a base is there exactly if the path is within the
    base. -/
theorem isSome_relativeTo?_iff (hbase : base.isAbsolute = true) :
    (base.relativeTo? p).isSome ↔ base.isWithin p = true := by
  rw [relativeTo?, hbase, Bool.true_and]
  split_ifs with h <;> simp [h]

/-- Joined to the base again, what is left has the components of the path. -/
theorem components_join_of_relativeTo? (hbase : base.isAbsolute = true)
    (h : base.relativeTo? p = some r) : (base.join r).components = p.components := by
  have hwithin := (isSome_relativeTo?_iff hbase).1 (Option.isSome_of_eq_some h)
  have hp := isAbsolute_of_isWithin hbase hwithin
  obtain ⟨hrelative, hrest⟩ := steps_of_relativeTo? h
  have hsteps : (base.join r).steps = p.steps := by
    have hsplit := List.prefix_iff_eq_append.1 ((isWithin_iff_steps hbase hp).1 hwithin)
    rw [← hsplit, ← hrest, steps, segments_join hrelative, List.filterMap_append]
    rfl
  rw [components_of_isAbsolute ((isAbsolute_join_eq hrelative).trans hbase),
    components_of_isAbsolute hp, hsteps]

end Path

namespace Site

variable {site : Site} {d : Disk}

theorem relative?_eq {root : Location} (h : site.home d = .ok root) (p : Path) :
    site.relative? d p = root.path.relativeTo? p := by
  rw [relative?, h]

/-- A path is within another exactly if its components start with those of the
    other, which is an order but for how the components are written. So nothing that
    is written behind the last name of a path leads into it, but behind a slash. A
    path is relative to a site exactly if it is within the place of the root, and
    then joins with that place to the components it has. -/
theorem relative_exact (site : Site) (d : Disk) (b p q : Path) :
    (b.isWithin p = true ↔ b.components <+: p.components) ∧
    b.isWithin b = true ∧
    (b.isWithin p = true → p.isWithin q = true → b.isWithin q = true) ∧
    (b.isWithin p = true → p.isWithin b = true → b.components = p.components) ∧
    (b.EndsInName → ∀ s t : String, s ≠ "" → s.toList.head? ≠ some '/' →
      b.isWithin ⟨b.text ++ s ++ t⟩ = false) ∧
    ((site.relative? d p).isSome ↔
      ∃ root, d.canonicalize site.root = .ok root ∧ root.path.isWithin p = true) ∧
    (∀ root r, d.canonicalize site.root = .ok root → site.relative? d p = some r →
      (root.path.join r).components = p.components ∧ .root ∉ r.components) := by
  have hiff : ∀ p q : Path, p.isWithin q = true ↔ p.components <+: q.components := fun p q =>
    List.isPrefixOf_iff_prefix
  refine ⟨hiff b p, (hiff b b).2 List.prefix_rfl, fun hp hq => ?_, fun hp hb => ?_,
    fun hb s t hs hslash => ?_, ?_, fun root r hroot hr => ?_⟩
  · exact (hiff b q).2 (((hiff b p).1 hp).trans ((hiff p q).1 hq))
  · have hlater := (hiff b p).1 hp
    exact hlater.eq_of_length_le ((hiff p b).1 hb).length_le
  · obtain ⟨c, cs, hcs⟩ := List.exists_cons_of_ne_nil (l := s.toList) (by simpa using hs)
    rw [String.append_assoc]
    exact Path.not_isWithin_sibling hb (by simp [← String.toList_eq_nil_iff, hcs])
      (by simpa [hcs] using hslash)
  · change _ ↔ ∃ root, site.home d = .ok root ∧ root.path.isWithin p = true
    cases hhome : site.home d with
    | error fault => simp [relative?, hhome]
    | ok root =>
      rw [relative?_eq hhome, Path.isSome_relativeTo?_iff Location.isAbsolute_path]
      simp
  · rw [relative?_eq hroot] at hr
    exact ⟨Path.components_join_of_relativeTo? Location.isAbsolute_path hr,
      Path.root_notMem_components (Path.steps_of_relativeTo? hr).1⟩

open Specimen in
/-- What is left behind the root is cut out of a text with idle pieces in it, and a
    directory whose name only starts like the root is not within it. -/
theorem relative_exact_assets :
    (Path.mk "/srv/web").isWithin ⟨"/srv/web-evil/index.html"⟩ = false ∧
    disk.canonicalize Specimen.site.root = .ok [srv, web] ∧
    Specimen.site.relative? disk ⟨"/srv/./web//assets/./app.css/"⟩ = some ⟨"assets/./app.css"⟩ ∧
    ((Location.path [srv, web]).join ⟨"assets/./app.css"⟩).components =
      (Path.mk "/srv/./web//assets/./app.css/").components ∧
    .root ∉ (Path.mk "assets/./app.css").components := by
  have hroot : disk.canonicalize Specimen.site.root = .ok [srv, web] := by decide
  have hleft : Specimen.site.relative? disk ⟨"/srv/./web//assets/./app.css/"⟩ =
      some ⟨"assets/./app.css"⟩ := by decide
  have hname : (Path.mk "/srv/web").EndsInName := ⟨"/srv/".toList, web, by decide, .inr (by decide)⟩
  obtain ⟨_, _, _, _, hsibling, _, hjoined⟩ := relative_exact Specimen.site disk ⟨"/srv/web"⟩
    ⟨"/srv/./web//assets/./app.css/"⟩ ⟨""⟩
  refine ⟨?_, hroot, hleft, hjoined _ _ hroot hleft⟩
  exact hsibling hname "-evil" "/index.html" (by decide) (by decide)

end Site

end Docroot
