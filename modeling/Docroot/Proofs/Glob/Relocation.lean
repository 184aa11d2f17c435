import Docroot.Proofs.Glob.Escape
import Docroot.Proofs.Walk.Relocation
import Mathlib.Data.Set.List

/-!
# Patterns in a relocated tree

A pattern selects below a relocated tree what it selects below the other place
(`Pattern.expand_eq_of_relocated`). Two things are asked for. Every path of names
that leads somewhere in the tree must be short enough to be looked up in both
places (`Disk.PathsStayShort`), since otherwise it is left out in the deeper one. And
no part of the pattern may start with a dot (`DotFree`): such a part can select `..`,
and the root's parent is not in the tree.
-/

namespace Docroot

/-- Every path of names that leads somewhere from the root, the end of it followed or
    not, is short enough to be looked up. -/
def Disk.PathsStayShort (d : Disk) (root : Location) : Prop :=
  ∀ rule ∈ [Lookup.status, Lookup.linkStatus], ∀ (names : List Name) (q : Location),
    d.follow rule maxLinks root (names.map fun n => .step (.name n)) = .ok q →
    (root ++ names).bytes < maxPathBytes

theorem Disk.PathsStayShort.root {d : Disk} {root : Location} (h : d.PathsStayShort root) :
    root.bytes < maxPathBytes := by
  have hroot := h .status List.mem_cons_self [] root follow_nil
  rwa [List.append_nil] at hroot

theorem Disk.Relocated.alikeBelow {d e : Disk} {root root' p : Location}
    (h : d.Relocated root e root') : d.AlikeBelow e (root ++ p) (root' ++ p) := by
  intro r
  rw [List.append_assoc, List.append_assoc, h.entryAt?_eq]

namespace Glob

/-- No part of the pattern starts with a dot. -/
def DotFree (pattern : String) : Prop :=
  ∀ piece ∈ Text.pieces (· == '/') pattern.toList, piece.head? ≠ some '.'

instance (pattern : String) : Decidable (DotFree pattern) := by
  unfold DotFree; infer_instance

/-- A name as a component. -/
def IsName (c : Component) : Prop := c ∈ Set.range fun n => Component.step (.name n)

theorem exists_names {components : List Component} (h : ∀ c ∈ components, IsName c) :
    ∃ names : List Name, (names.map fun n => .step (.name n)) = components := by
  have hrange : components ∈ Set.range (List.map fun n => Component.step (.name n)) := by
    rw [Set.range_list_map]
    exact h
  exact hrange

/-! ## The parts of a pattern without dots -/

variable {piece : List Char} {pattern : String} {parsed : Pattern} {part : Part} {budget : Nat}

/-- The tokens of a part start with a dot only if the part does. -/
theorem head?_of_tokensWithin {tokens : List Token}
    (h : tokensWithin budget piece = some (.char '.' :: tokens)) : piece.head? = some '.' := by
  rw [tokensWithin.eq_def] at h
  split at h
  case h_8 c rest _ _ _ _ =>
    obtain ⟨_, _, hcons⟩ := Option.map_eq_some_iff.1 h
    obtain rfl := Token.char.inj (List.cons.inj hcons).1
    rfl
  all_goals simp [Option.bind_eq_some_iff] at h

theorem isName_of_ofPiece? {c : Component} (hdot : piece.head? ≠ some '.')
    (h : Component.ofPiece? piece = some c) : IsName c := by
  have hhere : piece ≠ ['.'] := by rintro rfl; exact hdot rfl
  have hup : piece ≠ ['.', '.'] := by rintro rfl; exact hdot rfl
  rw [Component.ofPiece?, if_neg hhere, Step.ofPiece?, if_neg hup, Option.map_map] at h
  obtain ⟨n, _, rfl⟩ := Option.map_eq_some_iff.1 h
  exact ⟨n, rfl⟩

theorem exists_dot_of_startsWithDot {tokens : List Token}
    (h : (Part.wild tokens).startsWithDot = true) : ∃ rest, tokens = .char '.' :: rest := by
  rw [Part.startsWithDot.eq_def] at h
  split at h
  · rename_i rest heq
    exact ⟨rest, Part.wild.inj heq⟩
  · cases h

theorem keepsTo_of_ofPiece? (hdot : piece.head? ≠ some '.') (h : Part.ofPiece? piece = some part) :
    part.KeepsTo IsName := by
  rw [Part.ofPiece?] at h
  split_ifs at h
  · cases h
    intro hstarts
    cases hstarts
  · obtain ⟨tokens, htokens, rfl⟩ := Option.map_eq_some_iff.1 h
    split_ifs
    · cases hc : Component.ofPiece? piece with
      | none =>
        intro hstarts
        cases hstarts
      | some c => exact isName_of_ofPiece? hdot hc
    · intro hstarts
      obtain ⟨rest, rfl⟩ := exists_dot_of_startsWithDot hstarts
      exact absurd (head?_of_tokensWithin htokens) hdot

theorem exists_of_mem_mapM {α β : Type} {f : α → Option β} {xs : List α} {ys : List β} {y : β}
    (h : xs.mapM f = some ys) (hy : y ∈ ys) : ∃ x ∈ xs, f x = some y := by
  induction xs generalizing ys with
  | nil =>
    cases h
    cases hy
  | cons x xs ih =>
    rw [List.mapM_cons] at h
    obtain ⟨z, hz, h⟩ := Option.bind_eq_some_iff.1 h
    obtain ⟨zs, hzs, h⟩ := Option.bind_eq_some_iff.1 h
    cases h
    rcases List.mem_cons.1 hy with rfl | hy
    · exact ⟨x, List.mem_cons_self, hz⟩
    · obtain ⟨w, hw, hfw⟩ := ih hzs hy
      exact ⟨w, List.mem_cons_of_mem x hw, hfw⟩

theorem DotFree.keepsTo (h : DotFree pattern) (hparsed : Pattern.ofText? pattern = some parsed) :
    ∀ part ∈ parsed.parts, part.KeepsTo IsName := by
  intro part hpart
  obtain ⟨parts, hparts, rfl⟩ := Option.map_eq_some_iff.1 hparsed
  obtain ⟨piece, hpiece, hof⟩ := exists_of_mem_mapM hparts hpart
  refine keepsTo_of_ofPiece? (h piece (Text.mem_pieces_of_mem_dropWhile ?_)) hof
  split_ifs at hpiece
  · exact List.dropLast_subset _ hpiece
  · exact hpiece

/-! ## The view from both roots -/

variable {d e : Disk} {root root' : Location} {names : List Name} {rule : Lookup}

theorem Trail.lookup_names (hdir : d.isDirectory root = true) (hroot : root.bytes < maxPathBytes) :
    lookup d root rule (names.map fun n => .step (.name n)) =
      if maxPathBytes ≤ (root ++ names).bytes then .error .nameTooLong
      else d.follow rule maxLinks root (names.map fun n => .step (.name n)) := by
  rw [lookup, pathBytes_names, Location.bytes_append, Disk.follow_of_isDirectory hdir hroot]

theorem Trail.lookup_related (h : d.Relocated root e root') (hshort : d.PathsStayShort root)
    (hshort' : e.PathsStayShort root') (hrule : rule ∈ [Lookup.status, Lookup.linkStatus]) :
    Except.Related (fun _ _ => True) (Location.Moved root root')
      (lookup d root rule (names.map fun n => .step (.name n)))
      (lookup e root' rule (names.map fun n => .step (.name n))) := by
  have hlimits : rule.limitsPlaces = false := by
    rcases List.mem_pair.1 hrule with rfl | rfl <;> rfl
  rw [lookup_names h.isDirectory hshort.root, lookup_names h.isDirectory' hshort'.root]
  rcases (h.follow_names_related hlimits).ok_or_error with
    ⟨p, q, hp, hq, hmoved⟩ | ⟨f, g, hf, hg, _⟩
  · rw [if_neg (Nat.not_le.2 (hshort rule hrule names p hp)),
      if_neg (Nat.not_le.2 (hshort' rule hrule names q hq)), hp, hq]
    exact .ok hmoved
  · rw [hf, hg]
    split_ifs <;> exact .error trivial

theorem sameView_of_relocated (h : d.Relocated root e root') (hshort : d.PathsStayShort root)
    (hshort' : e.PathsStayShort root') : SameView d root [] e root' IsName where
  name n := ⟨n, rfl⟩
  status components hcomponents := by
    obtain ⟨names, rfl⟩ := exists_names hcomponents
    rw [List.nil_append]
    rcases (Trail.lookup_related h hshort hshort' List.mem_cons_self).ok_or_error with
      ⟨_, _, hp, hq, ⟨p⟩⟩ | ⟨f, g, hf, hg, _⟩
    · exact .inl ⟨_, _, hp, hq, h.alikeBelow⟩
    · exact .inr ⟨f, g, hf, hg⟩
  linkStatus components hcomponents := by
    obtain ⟨names, rfl⟩ := exists_names hcomponents
    rw [List.nil_append]
    exact (Trail.lookup_related h hshort hshort' (by simp)).toBool_eq

/-- A pattern without dots in front selects the same paths below both roots. -/
theorem Pattern.expand_eq_of_relocated (h : d.Relocated root e root')
    (hshort : d.PathsStayShort root) (hshort' : e.PathsStayShort root') (hdots : DotFree pattern)
    (hparsed : Pattern.ofText? pattern = some parsed) :
    parsed.expand d root = parsed.expand e root' :=
  expand_eq_of_sameView (sameView_of_relocated h hshort hshort') (hdots.keepsTo hparsed)

end Glob

end Docroot
