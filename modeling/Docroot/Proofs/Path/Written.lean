import Docroot.Proofs.Disk.Following
import Docroot.Proofs.Text.Cutting

/-!
# Paths of locations

The text of a location, read as a path, leads the system through the names of
the location and nothing else (`Location.segments_path`), so a lookup of the
path is the lookup of the location (`Disk.lookup_path`). A relative path joined
to it is gone through from there (`Path.exists_route_join`).
-/

namespace Docroot

/-! ## Pieces of names -/

namespace Name

theorem text_injective : Function.Injective text := by
  rintro ⟨a, _⟩ ⟨b, _⟩ h
  simpa using h

theorem ofText?_text (n : Name) : ofText? n.text = some n := by
  rw [ofText?]
  exact dif_pos n.isFileName

theorem slash_notMem (n : Name) : '/' ∉ n.text.toList := n.isFileName.2.2.2

theorem toList_ne_nil (n : Name) : n.text.toList ≠ [] := by
  intro h
  exact n.isFileName.1 (String.toList_injective h)

theorem toList_ne_dot (n : Name) : n.text.toList ≠ ['.'] := by
  intro h
  exact n.isFileName.2.1 (String.toList_injective h)

theorem toList_ne_dots (n : Name) : n.text.toList ≠ ['.', '.'] := by
  intro h
  exact n.isFileName.2.2.1 (String.toList_injective h)

end Name

namespace Step

@[simp] theorem ofPiece?_toList (n : Name) : ofPiece? n.text.toList = some (.name n) := by
  rw [ofPiece?, if_neg n.toList_ne_dots, String.ofList_toList, Name.ofText?_text]
  rfl

@[simp] theorem ofPiece?_text (s : Step) : ofPiece? s.text.toList = some s := by
  cases s with
  | up => rfl
  | name n => exact ofPiece?_toList n

/-- A piece between slashes that is neither empty nor a dot is a move, written as
    the piece is. -/
theorem exists_ofPiece? {piece : List Char} (hne : piece ≠ []) (hdot : piece ≠ ['.'])
    (hslash : '/' ∉ piece) : ∃ s, ofPiece? piece = some s ∧ s.text.toList = piece := by
  rw [ofPiece?]
  split_ifs with hdots
  · exact ⟨up, rfl, hdots ▸ rfl⟩
  · have hname : IsFileName (String.ofList piece) := by
      refine ⟨?_, ?_, ?_, by rwa [String.toList_ofList]⟩ <;>
        rw [ne_eq, ← String.toList_inj, String.toList_ofList] <;> assumption
    exact ⟨name ⟨_, hname⟩, by rw [Name.ofText?, dif_pos hname]; rfl, String.toList_ofList⟩

end Step

namespace Component

@[simp] theorem ofPiece?_toList (n : Name) : ofPiece? n.text.toList = some (.step (.name n)) := by
  rw [ofPiece?, if_neg n.toList_ne_dot, Step.ofPiece?_toList]
  rfl

@[simp] theorem ofPiece?_nil : ofPiece? [] = none := by decide

/-- A piece between slashes asks for something unless it is empty. -/
theorem isSome_ofPiece? {piece : List Char} (hne : piece ≠ []) (hslash : '/' ∉ piece) :
    (ofPiece? piece).isSome := by
  rw [ofPiece?]
  split_ifs with hdot
  · rfl
  · obtain ⟨s, hs, _⟩ := Step.exists_ofPiece? hne hdot hslash
    rw [hs]
    rfl

end Component

/-- A relative path that is not empty has something to go through. -/
theorem Path.body_ne_nil {p : Path} (hp : p.isAbsolute = false) (htext : p.text.isEmpty = false) :
    p.body ≠ [] := by
  cases hchars : p.text.toList with
  | nil =>
    rw [String.toList_eq_nil_iff.1 hchars] at htext
    cases htext
  | cons c cs =>
    have hc : (c == '/') = false := by simpa [isAbsolute, hchars] using hp
    obtain ⟨piece, pieces, hpieces⟩ := @Text.exists_pieces_cons (· == '/') cs c hc
    have hmem : c :: piece ∈ p.pieces := by
      rw [Path.pieces, hchars, hpieces]
      exact List.mem_cons_self
    have hslash : '/' ∉ c :: piece := Text.notMem_of_mem_pieces rfl hmem
    obtain ⟨comp, hcomp⟩ :=
      Option.isSome_iff_exists.1 (Component.isSome_ofPiece? (List.cons_ne_nil c piece) hslash)
    have hsegments : comp ∈ p.segments := List.mem_filterMap.2 ⟨_, hmem, hcomp⟩
    exact List.append_ne_nil_of_left_ne_nil (List.ne_nil_of_mem hsegments) _

/-! ## The path of a location -/

namespace Location

variable {place : Location}

theorem toList_text :
    place.text.toList = '/' :: Text.join ['/'] (place.map fun n => n.text.toList) :=
  String.toList_ofList

theorem toList_text_of_ne_nil (hplace : place ≠ []) :
    place.text.toList = place.flatMap fun n => '/' :: n.text.toList := by
  rw [toList_text, Text.cons_join_eq_flatMap (by simpa using hplace), List.flatMap_map]

@[simp] theorem isAbsolute_path : place.path.isAbsolute = true := by
  simp [Path.isAbsolute, path, toList_text]

theorem pieces_path (hplace : place ≠ []) :
    place.path.pieces = [] :: place.map fun n => n.text.toList := by
  rw [Path.pieces, path, toList_text, ← List.nil_append ('/' :: _),
    @Text.pieces_append_cons (· == '/') '/' _ _ rfl,
    @Text.pieces_join (· == '/') '/' _ rfl (by simpa using hplace)]
  · rfl
  · intro p hp c hc
    obtain ⟨n, _, rfl⟩ := List.mem_map.1 hp
    rw [beq_eq_false_iff_ne]
    rintro rfl
    exact n.slash_notMem hc

/-- The path of a location asks for the names of the location. -/
theorem segments_path : place.path.segments = place.map fun n => .step (.name n) := by
  rcases eq_or_ne place [] with rfl | hplace
  · decide
  · rw [Path.segments, pieces_path hplace, List.filterMap_cons_none Component.ofPiece?_nil,
      List.filterMap_map]
    have hpiece : (Component.ofPiece? ∘ fun n : Name => n.text.toList) =
        some ∘ fun n => .step (.name n) := funext Component.ofPiece?_toList
    rw [hpiece, List.filterMap_eq_map]

theorem getLast?_text (hplace : place ≠ []) : place.text.toList.getLast? ≠ some '/' := by
  rcases List.eq_nil_or_concat place with rfl | ⟨above, n, rfl⟩
  · exact absurd rfl hplace
  · rw [toList_text_of_ne_nil hplace, List.concat_eq_append, List.flatMap_append,
      List.flatMap_singleton]
    intro h
    rw [List.getLast?_append, List.getLast?_cons,
      List.getLast?_eq_some_getLast n.toList_ne_nil] at h
    exact n.slash_notMem (Option.some.inj h ▸ List.getLast_mem n.toList_ne_nil)

theorem hasNul_path : place.path.hasNul = place.any Name.hasNul := by
  rcases eq_or_ne place [] with rfl | hplace
  · decide
  · rw [Path.hasNul, path, toList_text_of_ne_nil hplace, Bool.eq_iff_iff]
    simp [Name.hasNul]

theorem utf8ByteSize_text (hplace : place ≠ []) : place.text.utf8ByteSize = place.bytes := by
  have htext : place.text = String.ofList (place.flatMap fun n => '/' :: n.text.toList) := by
    rw [← toList_text_of_ne_nil hplace, String.ofList_toList]
  -- As a list of characters the text can be taken apart name by name, down to no
  -- name at all; the path of no name still has a slash.
  rw [htext]
  clear htext hplace
  induction place with
  | nil => rfl
  | cons n place ih =>
    have hcons : String.ofList ('/' :: n.text.toList) = String.singleton '/' ++ n.text := by
      rw [← String.toList_inj]
      simp
    rw [List.flatMap_cons, String.ofList_append, String.utf8ByteSize_append, ih, hcons,
      String.utf8ByteSize_append, String.utf8ByteSize_singleton, ← List.singleton_append,
      bytes_append, Nat.add_comm _ n.text.utf8ByteSize]
    rfl

theorem route_path (hplace : place ≠ []) :
    place.path.route = .root :: place.map fun n => .step (.name n) := by
  have hlast : (place.path.text.toList.getLast? == some '/') = false :=
    beq_eq_false_iff_ne.2 (getLast?_text hplace)
  rw [Path.route, isAbsolute_path, segments_path, hlast]
  simp

end Location

/-- A lookup of the path of a location is a lookup of the location. -/
theorem Disk.lookup_path {d : Disk} {rule : Lookup} {place : Location} :
    d.lookup rule place.path = d.lookupAt rule place := by
  have hempty : place.path.text.isEmpty = false := by
    simp [Location.path, ← String.toList_eq_nil_iff, Location.toList_text]
  rcases eq_or_ne place [] with rfl | hplace
  · have hbytes : ∀ bytes < 2, rule.admitsBytes bytes = true := by
      intro bytes h
      simp only [Lookup.admitsBytes, maxPathBytes, Bool.or_eq_true]
      exact .inr (decide_eq_true (by omega))
    have hroute : (Location.path []).route = [.root, .here] := by decide
    rw [lookup, lookupAt, hempty, Location.hasNul_path, hbytes _ (by decide), hbytes _ (by decide),
      hroute, follow_root, follow_here]
    simp
  · rw [lookup, lookupAt, hempty, Location.hasNul_path, Location.route_path hplace, follow_root,
      Location.path, Location.utf8ByteSize_text hplace]
    cases rule.admitsBytes place.bytes <;> cases place.any Name.hasNul <;> rfl

theorem Disk.canonicalize_path {d : Disk} {place : Location} :
    d.canonicalize place.path = d.canonicalizeAt place := lookup_path

/-- What a path canonically leads to is there and is no link. -/
theorem Disk.isPlain_of_canonicalize {d : Disk} {p : Path} {place : Location}
    (h : d.canonicalize p = .ok place) : d.IsPlain place := by
  rw [canonicalize, lookup] at h
  split_ifs at h with hnul hempty hbytes
  cases habsolute : p.isAbsolute with
  | true =>
    rw [Path.route_eq, habsolute, if_pos rfl, List.singleton_append, follow_root] at h
    obtain ⟨_, _, hfinds⟩ := finds_of_follow p.root_notMem_body h
    exact hfinds.isPlain (.inr (isPlain_of_isDirectory isDirectory_nil))
  | false =>
    rw [Path.route_of_relative habsolute] at h
    obtain ⟨_, _, hfinds⟩ := finds_of_follow p.root_notMem_body h
    exact hfinds.isPlain (.inl (Path.body_ne_nil habsolute (by simpa using hempty)))

theorem Disk.bytes_lt_of_canonicalize {d : Disk} {p : Path} {place : Location}
    (hp : p.isAbsolute = true) (h : d.canonicalize p = .ok place) :
    place.bytes < maxPathBytes := by
  rw [canonicalize, lookup] at h
  split_ifs at h
  rw [Path.route_eq, hp, if_pos rfl, List.singleton_append, follow_root] at h
  obtain ⟨_, _, hfinds⟩ := finds_of_follow p.root_notMem_body h
  exact hfinds.bytes_lt (by decide)

/-! ## Joined paths -/

namespace Path

/-- The path that is gone through from another, with a slash between them unless
    there is one. An absolute path starts anew. -/
def join (base p : Path) : Path :=
  if p.isAbsolute then p
  else if base.text.isEmpty || base.text.toList.getLast? == some '/' then ⟨base.text ++ p.text⟩
  else ⟨base.text ++ "/" ++ p.text⟩

variable {place : Location} {base p : Path}

/-- A relative path is put behind the other with a slash between them, unless one
    is there or nothing is. -/
theorem toList_join (hp : p.isAbsolute = false) :
    ∃ between, (base.join p).text.toList = base.text.toList ++ between ++ p.text.toList ∧
      (between = ['/'] ∨
        between = [] ∧ (base.text.toList = [] ∨ base.text.toList.getLast? = some '/')) := by
  rw [join, if_neg (by simp [hp])]
  split_ifs with h
  · refine ⟨[], by simp, .inr ⟨rfl, ?_⟩⟩
    rw [Bool.or_eq_true, String.isEmpty_iff, beq_iff_eq] at h
    exact h.imp_left fun h => by rw [h]; rfl
  · exact ⟨['/'], by simp, .inl rfl⟩

/-- A joined path starts where the first of its parts does. -/
theorem isAbsolute_join_eq (hp : p.isAbsolute = false) :
    (base.join p).isAbsolute = base.isAbsolute := by
  obtain ⟨between, htext, hbetween⟩ := @toList_join base p hp
  rw [isAbsolute, isAbsolute, htext, List.append_assoc, List.head?_append]
  cases hbase : base.text.toList with
  | cons c cs => rfl
  | nil =>
    obtain rfl | ⟨rfl, _⟩ := hbetween
    · exact absurd htext (by simp [join, hp, String.toList_eq_nil_iff.1 hbase])
    · exact hp

theorem isAbsolute_join (hp : p.isAbsolute = false) : (place.path.join p).isAbsolute = true :=
  (isAbsolute_join_eq hp).trans Location.isAbsolute_path

/-- A joined path asks for what its parts ask for. -/
theorem segments_join (hp : p.isAbsolute = false) :
    (base.join p).segments = base.segments ++ p.segments := by
  have hcut : ∀ before behind : List Char,
      (Text.pieces (· == '/') (before ++ '/' :: behind)).filterMap Component.ofPiece? =
        (Text.pieces (· == '/') before).filterMap Component.ofPiece? ++
          (Text.pieces (· == '/') behind).filterMap Component.ofPiece? := by
    intro before behind
    rw [Text.pieces_append_cons rfl, List.filterMap_append]
  obtain ⟨between, htext, rfl | ⟨rfl, hbase | hbase⟩⟩ := @toList_join base p hp
  · simp only [segments, pieces, htext, List.append_assoc, List.singleton_append, hcut]
  · simp [segments, pieces, htext, hbase, Text.pieces]
  · obtain ⟨before, hbefore⟩ := List.getLast?_eq_some_iff.1 hbase
    have hnil : (Text.pieces (· == '/') []).filterMap Component.ofPiece? = [] := by decide
    simp only [segments, pieces, htext, hbefore, List.append_nil, List.append_assoc,
      List.singleton_append, hcut, hnil]

/-- What a joined path asks of the system: the names of the location, then the
    moves of the path that was joined, with nothing between or behind them but
    `.`. -/
theorem exists_route_join (hp : p.isAbsolute = false) :
    ∃ tail, (place.path.join p).route = .root :: (place.map fun n => .step (.name n)) ++ tail ∧
      tail.filterMap Component.step? = p.steps ∧ .root ∉ tail := by
  refine ⟨p.segments ++
    if (place.path.join p).text.toList.getLast? == some '/' then [.here] else [], ?_,
    p.filterMap_step?_segments _, p.root_notMem_segments_append _⟩
  rw [route, isAbsolute_join hp, segments_join hp, Location.segments_path]
  simp

end Path

end Docroot
