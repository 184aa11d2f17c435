import Docroot.Index.Stylesheets
import Docroot.Proofs.Glob.View
import Docroot.Proofs.Path.Written
import Mathlib.Data.List.DropRight
import Mathlib.Data.List.Nodup

/-!
# Patterns behind the path of a root

The path of the root is put in front of a pattern as a text, and what is selected
is seen from the root again. The names of the root may have any characters in
them, those that stand for something else in a pattern included: each name is
escaped, and so is read as a part that stands for this name alone
(`exists_part_of_name`). These parts select the place of the root and nothing else
(`Pattern.select_names`), so the pattern behind them selects what it selects below
the root (`Site.selected_eq_expand`).
-/

namespace Docroot

namespace Glob

/-! ## Escaped texts -/

/-- The token that stands for a character of an escaped text. -/
def tokenOf (c : Char) : Token := if isSpecial c then .within [(c, c)] else .char c

variable {c x : Char} {text rest : List Char} {budget : Nat}

theorem escapeChars_cons : escapeChars (c :: text) =
    (if isSpecial c then ['[', c, ']'] else [c]) ++ escapeChars text := by
  rw [escapeChars, escapeChars, List.flatMap_cons]

theorem escapeChars_append {text' : List Char} :
    escapeChars (text ++ text') = escapeChars text ++ escapeChars text' :=
  List.flatMap_append

/-- A text in which every character stands for itself is left as it is. -/
theorem escapeChars_of_forall (h : ∀ c ∈ text, isSpecial c = false) : escapeChars text = text := by
  induction text with
  | nil => rfl
  | cons c text ih =>
    rw [escapeChars_cons, h c List.mem_cons_self, ih fun c hc => h c (List.mem_cons_of_mem _ hc)]
    rfl

theorem ne_of_not_isSpecial (h : isSpecial c = false) : c ≠ '?' ∧ c ≠ '*' ∧ c ≠ '[' := by
  refine ⟨?_, ?_, ?_⟩ <;>
  · rintro rfl
    revert h
    decide

/-- The tokens of an escaped text are those of its characters. -/
theorem tokensWithin_escapeChars (h : text.length ≤ budget) :
    tokensWithin budget (escapeChars text) = some (text.map tokenOf) := by
  induction text generalizing budget with
  | nil => cases budget <;> rfl
  | cons c text ih =>
    cases budget with
    | zero => cases h
    | succ budget =>
      have hrest := @ih budget (Nat.le_of_succ_le_succ h)
      rw [escapeChars_cons]
      cases hc : isSpecial c with
      | true =>
        have hnot : c ≠ '!' := by
          rintro rfl
          revert hc
          decide
        have hclass : classAndRest? (c :: ']' :: escapeChars text) =
            some ([c], escapeChars text) := by simp [classAndRest?]
        change tokensWithin (budget + 1) ('[' :: c :: ']' :: escapeChars text) = _
        rw [tokensWithin.eq_7 budget _ (by simp [hnot]), hclass]
        simp [hrest, tokenOf, hc, rangesOf]
      | false =>
        obtain ⟨hany, hstar, hopen⟩ := ne_of_not_isSpecial hc
        change tokensWithin (budget + 1) (c :: escapeChars text) = _
        rw [tokensWithin.eq_8 budget c _ hany (fun _ h => absurd h hstar) hstar
          (fun _ h => absurd h hopen) hopen, hrest]
        simp [tokenOf, hc]

theorem length_le_length_escapeChars : text.length ≤ (escapeChars text).length := by
  induction text with
  | nil => exact Nat.le_refl 0
  | cons c text ih =>
    rw [escapeChars_cons]
    split_ifs <;> simp <;> omega

theorem tokens?_escapeChars : tokens? (escapeChars text) = some (text.map tokenOf) :=
  tokensWithin_escapeChars length_le_length_escapeChars

theorem accepts_tokenOf : (tokenOf c).accepts x = true ↔ x = c := by
  rw [tokenOf]
  split_ifs
  · simp only [Token.accepts, inRanges, List.any_cons, List.any_nil, Bool.or_false,
      Bool.and_eq_true, decide_eq_true_eq]
    exact ⟨fun h => Char.le_antisymm h.2 h.1, fun h => h ▸ ⟨Char.le_refl _, Char.le_refl _⟩⟩
  · simp only [Token.accepts, decide_eq_true_eq]
    exact eq_comm

theorem matchesText_map_tokenOf {xs : List Char} :
    matchesText (text.map tokenOf) xs = true ↔ xs = text := by
  have hrun : ∀ c, tokenOf c ≠ .run := by
    intro c
    rw [tokenOf]
    split_ifs <;> exact nofun
  induction text generalizing xs with
  | nil => cases xs <;> simp [matchesText]
  | cons c text ih =>
    cases xs with
    | nil => simp [matchesText.eq_3 _ _ (hrun c)]
    | cons x xs =>
      rw [List.map_cons, matchesText.eq_4 _ _ _ _ (hrun c), Bool.and_eq_true, accepts_tokenOf,
        List.cons.injEq]
      exact and_congr_right fun _ => ih

/-! ## Escaped names -/

/-- The part stands for this name and for nothing else. -/
inductive Part.StandsFor (n : Name) : Part → Prop
  | exact : StandsFor n (.exact (.step (.name n)))
  | wild {tokens : List Token} : (∀ text, matchesText tokens text = true ↔ text = n.text.toList) →
      StandsFor n (.wild tokens)

theorem escapeChars_ne_stars : escapeChars text ≠ ['*', '*'] := by
  cases text with
  | nil => exact nofun
  | cons c text =>
    rw [escapeChars_cons]
    cases hc : isSpecial c with
    | true => simp
    | false => simp [(ne_of_not_isSpecial hc).2.1]

/-- An escaped name is read as a part that stands for it. -/
theorem exists_part_of_name (n : Name) :
    ∃ part, Part.ofPiece? (escapeChars n.text.toList) = some part ∧ part.StandsFor n := by
  rw [Part.ofPiece?, if_neg escapeChars_ne_stars, tokens?_escapeChars, Option.map_some]
  split_ifs with hliteral
  · have hplain : ∀ c ∈ n.text.toList, isSpecial c = false := by
      intro c hc
      have htoken := List.all_eq_true.1 hliteral _ (List.mem_map_of_mem hc)
      by_contra h
      rw [tokenOf, if_pos (by simpa using h)] at htoken
      cases htoken
    rw [escapeChars_of_forall hplain, Component.ofPiece?_toList]
    exact ⟨_, rfl, .exact⟩
  · exact ⟨_, rfl, .wild fun _ => matchesText_map_tokenOf⟩

/-! ## The pattern below a root -/

theorem slash_notMem_escapeChars (n : Name) : '/' ∉ escapeChars n.text.toList := by
  intro h
  obtain ⟨c, hc, hmem⟩ := List.mem_flatMap.1 h
  have hslash : c ≠ '/' := fun heq => n.slash_notMem (heq ▸ hc)
  split_ifs at hmem <;> simp [hslash.symm] at hmem

theorem escapeChars_ne_nil (n : Name) : escapeChars n.text.toList ≠ [] := by
  intro h
  have hlength := @length_le_length_escapeChars n.text.toList
  rw [h, List.length_nil, Nat.le_zero, List.length_eq_zero_iff] at hlength
  exact n.toList_ne_nil hlength

theorem escapeChars_text {root : Location} (hroot : root ≠ []) :
    escapeChars root.text.toList =
      (root.map fun n => escapeChars n.text.toList).flatMap fun p => '/' :: p := by
  rw [Location.toList_text_of_ne_nil hroot]
  clear hroot
  induction root with
  | nil => rfl
  | cons n root ih =>
    rw [List.flatMap_cons, List.cons_append, escapeChars_cons, escapeChars_append, ih]
    rfl

theorem toList_patternBelow {root : Location} {pattern : String} :
    (Site.patternBelow root pattern).toList =
      escapeChars root.text.toList ++ '/' :: pattern.toList.dropWhile (· == '/') := by
  simp [Site.patternBelow, escape]

/-- The pattern below a root is cut into the names of the root and the pieces of
    the pattern. -/
theorem pieces_patternBelow (root : Location) (pattern : String) :
    Text.pieces (· == '/') ((Site.patternBelow root pattern).toList.dropWhile (· == '/')) =
      (root.map fun n => escapeChars n.text.toList) ++
        Text.pieces (· == '/') (pattern.toList.dropWhile (· == '/')) := by
  rw [toList_patternBelow]
  rcases eq_or_ne root [] with rfl | hroot
  · have hslash : escapeChars (Location.text []).toList = ['/'] := by decide
    rw [hslash]
    rw [List.cons_append, List.nil_append, List.dropWhile_cons_of_pos rfl,
      List.dropWhile_cons_of_pos rfl, List.dropWhile_idempotent]
    rfl
  · have hseparates : ∀ p ∈ root.map (fun n => escapeChars n.text.toList), ∀ c ∈ p,
        (c == '/') = false := by
      intro p hp c hc
      obtain ⟨n, _, rfl⟩ := List.mem_map.1 hp
      rw [beq_eq_false_iff_ne]
      rintro rfl
      exact slash_notMem_escapeChars n hc
    have hpieces := @Text.pieces_flatMap_append (· == '/') '/'
      (pattern.toList.dropWhile (· == '/')) _ rfl hseparates
    rw [escapeChars_text hroot]
    -- One slash stands in front, and no second one, since no name is empty.
    obtain ⟨n, names, rfl⟩ := List.exists_cons_of_ne_nil hroot
    obtain ⟨c, cs, hn⟩ := List.exists_cons_of_ne_nil (escapeChars_ne_nil n)
    have hc : c ≠ '/' := by
      rintro rfl
      exact slash_notMem_escapeChars n (hn ▸ List.mem_cons_self)
    rw [List.map_cons, List.flatMap_cons, hn, List.cons_append, List.cons_append,
      List.cons_append] at hpieces ⊢
    rw [Text.pieces, if_pos (beq_self_eq_true _)] at hpieces
    rw [List.dropWhile_cons_of_pos rfl, List.cons_append,
      List.dropWhile_cons_of_neg (by simpa using hc)]
    exact (List.cons.inj hpieces).2

/-- The names of a root are read as parts that stand for them. -/
theorem exists_parts_of_location (root : Location) :
    ∃ parts, (root.map fun n => escapeChars n.text.toList).mapM Part.ofPiece? = some parts ∧
      List.Forall₂ Part.StandsFor root parts := by
  induction root with
  | nil => exact ⟨[], rfl, .nil⟩
  | cons n root ih =>
    obtain ⟨part, hpart, hstands⟩ := exists_part_of_name n
    obtain ⟨parts, hparts, hrest⟩ := ih
    refine ⟨part :: parts, ?_, .cons hstands hrest⟩
    rw [List.map_cons, List.mapM_cons, hpart, hparts]
    rfl

/-- The pattern below a root is read as that of the root's names before the
    pattern's own parts, and not at all if the pattern is not. -/
theorem ofText?_patternBelow (root : Location) (pattern : String) :
    ∃ parts, List.Forall₂ Part.StandsFor root parts ∧
      Pattern.ofText? (Site.patternBelow root pattern) =
        (Pattern.ofText? pattern).map fun parsed =>
          ⟨parts ++ parsed.parts, parsed.directoriesOnly⟩ := by
  obtain ⟨parts, hparts, hstands⟩ := exists_parts_of_location root
  refine ⟨parts, hstands, ?_⟩
  have hne : Text.pieces (· == '/') (pattern.toList.dropWhile (· == '/')) ≠ [] :=
    Text.pieces_ne_nil
  rw [Pattern.ofText?, Pattern.ofText?, pieces_patternBelow]
  generalize Text.pieces (· == '/') (pattern.toList.dropWhile (· == '/')) = pieces at hne ⊢
  have hlast : ((root.map fun n => escapeChars n.text.toList) ++ pieces).getLast? =
      pieces.getLast? := by
    rw [List.getLast?_append, List.getLast?_eq_some_getLast hne]
    rfl
  have hclosed : ∀ closed : Bool,
      (if closed then ((root.map fun n => escapeChars n.text.toList) ++ pieces).dropLast
        else (root.map fun n => escapeChars n.text.toList) ++ pieces) =
      (root.map fun n => escapeChars n.text.toList) ++
        if closed then pieces.dropLast else pieces := by
    intro closed
    rw [List.dropLast_append_of_ne_nil hne]
    cases closed <;> rfl
  simp only [hlast, hclosed, List.mapM_append, hparts]
  cases (if (pieces.getLast? == some []) = true then pieces.dropLast else pieces).mapM
    Part.ofPiece? <;> rfl

/-! ## Selecting through the root -/

namespace Trail

theorem pathBytes_append {as bs : List Component} :
    pathBytes (as ++ bs) = pathBytes as + pathBytes bs := by
  induction as with
  | nil => exact (Nat.zero_add _).symm
  | cons a as ih =>
    change componentBytes a + pathBytes (as ++ bs) = componentBytes a + pathBytes as + pathBytes bs
    rw [ih, Nat.add_assoc]

theorem pathBytes_names (place : Location) :
    pathBytes (place.map fun n => .step (.name n)) = place.bytes := by
  induction place with
  | nil => rfl
  | cons n place ih =>
    rw [Location.bytes_cons, ← ih]
    rfl

variable {d : Disk} {place : Location} {rule : Lookup}

/-- A plain path is looked up at its own place. -/
theorem lookup_of_isPlain (hrule : rule.createsLast = false) (h : d.IsPlain place)
    (hbytes : place.bytes < maxPathBytes) :
    lookup d [] rule (place.map fun n => .step (.name n)) = .ok place := by
  have hlength : ¬ maxPathBytes ≤ Location.bytes [] + pathBytes
      (place.map fun n => .step (.name n)) := by
    rw [pathBytes_names, Location.bytes_nil, Nat.zero_add]
    exact Nat.not_le.2 hbytes
  obtain ⟨entry, hentry, _⟩ := id h
  rw [lookup, if_neg hlength, List.map_nil, List.nil_append, ← List.append_nil (place.map _),
    Disk.follow_linkFree_eq_ok_iff hrule h.linkFree hbytes, Disk.follow_nil]
  exact ⟨Option.isSome_of_eq_some hentry, rfl⟩

theorem leadsToDirectory_of_isPlain (h : d.IsPlain place) (hbytes : place.bytes < maxPathBytes) :
    leadsToDirectory d [] (place.map fun n => .step (.name n)) = d.isDirectory place := by
  rw [leadsToDirectory, lookup_of_isPlain rfl h hbytes]

theorem isThere_of_isPlain (h : d.IsPlain place) (hbytes : place.bytes < maxPathBytes) :
    isThere d [] (place.map fun n => .step (.name n)) = true := by
  rw [isThere, lookup_of_isPlain rfl h hbytes]
  rfl

end Trail

namespace Pattern

variable {d : Disk} {place : Location} {n : Name} {part : Part} {parts heads : List Part}
  {names : List Name}

/-- Of the names in a directory, tokens that stand for one name of it match that
    name alone. -/
theorem filter_names_of_standsFor {tokens : List Token}
    (htokens : ∀ text, matchesText tokens text = true ↔ text = n.text.toList)
    (hn : n ∈ d.names place) :
    ((d.names place).filter fun m => (Part.wild tokens).matchesName m) = [n] := by
  have hmatches : ∀ m, (Part.wild tokens).matchesName m = (m == n) := by
    intro m
    rw [Bool.eq_iff_iff, beq_iff_eq]
    refine (htokens _).trans ⟨fun h => Name.text_injective (String.toList_injective h), ?_⟩
    rintro rfl
    rfl
  simp only [hmatches]
  rw [List.filter_beq, List.count_eq_one_of_mem Disk.nodup_names hn]
  rfl

theorem matchesText_eq_false_of_standsFor {tokens : List Token} {text : List Char}
    (htokens : ∀ text, matchesText tokens text = true ↔ text = n.text.toList)
    (htext : n.text.toList ≠ text) : matchesText tokens text = false := by
  rw [← Bool.not_eq_true, htokens]
  exact htext.symm

/-- Tokens that stand for a name stand for neither `.` nor `..`. -/
theorem dotTrails_of_standsFor {base : Location} {trail : Trail} {tokens : List Token}
    (htokens : ∀ text, matchesText tokens text = true ↔ text = n.text.toList) :
    dotTrails d base (.wild tokens) trail = [] := by
  have hdot : matchesText tokens ['.'] = false :=
    matchesText_eq_false_of_standsFor htokens n.toList_ne_dot
  have hdots : matchesText tokens ['.', '.'] = false :=
    matchesText_eq_false_of_standsFor htokens n.toList_ne_dots
  simp [dotTrails, Part.matchesPiece, hdot, hdots]

/-- A part that stands for a name selects the entry of this name. -/
theorem select_cons_of_standsFor (hpart : part.StandsFor n) (hplain : d.IsPlain (place ++ [n]))
    (hbytes : (place ++ [n]).bytes < maxPathBytes) :
    select d [] (part :: parts) ⟨place.map fun n => .step (.name n), true⟩ =
      select d [] parts
        ⟨(place ++ [n]).map fun n => .step (.name n), d.isDirectory (place ++ [n])⟩ := by
  have hnext : (place.map fun n => Component.step (.name n)) ++ [.step (.name n)] =
      (place ++ [n]).map fun n => .step (.name n) := by rw [List.map_append, List.map_singleton]
  cases hpart with
  | exact =>
    rw [select]
    simp only [hnext, Trail.isThere_of_isPlain hplain hbytes, if_true, Trail.ofComponents,
      Trail.leadsToDirectory_of_isPlain hplain hbytes]
  | @wild tokens htokens =>
    obtain ⟨entry, hentry, htarget⟩ := id hplain
    have hdir : d.isDirectory place = true := (Disk.of_entryAt?_concat hentry).1
    have hprefix : place <+: place ++ [n] := List.prefix_append _ _
    have hlookup : Trail.lookup d [] .status (place.map fun n => .step (.name n)) = .ok place :=
      Trail.lookup_of_isPlain rfl (hplain.of_prefix hprefix)
        (Location.bytes_lt_of_prefix hprefix hbytes)
    have hn : n ∈ d.names place := Disk.mem_names_iff.2 (Option.isSome_of_eq_some hentry)
    have hentryTrail : Trail.entryTrail d [] ⟨place.map fun n => .step (.name n), true⟩ place n =
        ⟨(place ++ [n]).map fun n => .step (.name n), d.isDirectory (place ++ [n])⟩ := by
      rw [Trail.entryTrail, hnext, Disk.isDirectory, hentry]
      cases entry with
      | link target => cases htarget
      | file | directory | special => rfl
    rw [select, dotTrails_of_standsFor htokens, List.append_nil, Trail.entries, Trail.listing?,
      if_pos rfl, hlookup]
    simp only [Option.getD_some, List.filter_map, Function.comp_def, List.map_map]
    rw [filter_names_of_standsFor htokens hn]
    simp [hentryTrail]

/-- Parts that stand for names select the place of these names. -/
theorem select_names (hheads : List.Forall₂ Part.StandsFor names heads)
    (hplain : d.IsPlain (place ++ names))
    (hbytes : Location.bytes (place ++ names) < maxPathBytes) :
    select d [] (heads ++ parts) ⟨place.map fun n => .step (.name n), d.isDirectory place⟩ =
      select d [] parts
        ⟨(place ++ names).map fun n => .step (.name n), d.isDirectory (place ++ names)⟩ := by
  induction hheads generalizing place with
  | nil => rw [List.append_nil, List.nil_append]
  | @cons n part names heads hpart _ ih =>
    obtain ⟨entry, hentry, _⟩ := id hplain
    have hdir : d.isDirectory place = true :=
      Disk.isDirectory_of_entryAt?_append hentry (List.cons_ne_nil n names)
    rw [List.append_cons] at hplain hbytes ⊢
    have hprefix : place ++ [n] <+: place ++ [n] ++ names := List.prefix_append _ _
    rw [List.cons_append, hdir, select_cons_of_standsFor hpart (hplain.of_prefix hprefix)
      (Location.bytes_lt_of_prefix hprefix hbytes)]
    exact ih hplain hbytes

/-- The places below a root are the same whether their paths start at the top or at
    the root. -/
theorem sameView_root (d : Disk) (root : Location) :
    SameView d [] (root.map fun n => .step (.name n)) d root fun _ => True := by
  have hlookup : ∀ rule components, Trail.lookup d [] rule
      ((root.map fun n => .step (.name n)) ++ components) =
        Trail.lookup d root rule components := by
    intro rule components
    rw [Trail.lookup, Trail.lookup, Trail.pathBytes_append, Trail.pathBytes_names,
      Location.bytes_nil, Nat.zero_add]
    rfl
  refine ⟨fun _ => trivial, fun components _ => ?_, fun components _ => by rw [hlookup]⟩
  rw [hlookup]
  cases hfound : Trail.lookup d root .status components with
  | ok place => exact .inl ⟨place, place, rfl, rfl, .refl d place⟩
  | error fault => exact .inr ⟨fault, fault, rfl, rfl⟩

/-- Behind the parts that stand for a root, a pattern selects what it selects below
    the root. -/
theorem select_root_perm {root : Location}
    (hheads : List.Forall₂ Part.StandsFor root heads) (hroot : d.IsPlain root)
    (hbytes : root.bytes < maxPathBytes) :
    (select d [] (heads ++ parts) (Trail.ofComponents d [] [])).Perm
      ((select d root parts (Trail.ofComponents d root [])).map
        (Trail.behind (root.map fun n => .step (.name n)))) := by
  have htop : Trail.ofComponents d [] [] =
      ⟨([] : Location).map fun n => .step (.name n), d.isDirectory []⟩ := rfl
  have hstart : ∀ c ∈ ([] : List Component), (fun _ => True) c := by simp
  have hbehind := Trail.ofComponents_eq (sameView_root d root) hstart
  rw [List.append_nil, Trail.ofComponents, Trail.leadsToDirectory_of_isPlain hroot hbytes]
    at hbehind
  rw [htop, @select_names d [] parts heads root hheads hroot hbytes, List.nil_append, hbehind]
  exact select_perm (sameView_root d root) parts _ (fun part _ => part.keepsTo_true) hstart

end Pattern

end Glob

namespace Site

open Glob Pattern

variable {site : Site} {d : Disk} {root : Location} {pattern : String} {parsed : Pattern}

/-- Whatever the names of the root are, the paths that are selected below it are
    those that the pattern stands for there. -/
theorem selected_eq_expand (hhome : site.home d = .ok root) (hroot : d.IsPlain root)
    (hbytes : root.bytes < maxPathBytes) (hparsed : Pattern.ofText? pattern = some parsed) :
    site.selected d pattern = parsed.expand d root := by
  obtain ⟨heads, hheads, hread⟩ := ofText?_patternBelow root pattern
  have hselected : site.selected d pattern =
      (Pattern.expand d [] ⟨heads ++ parsed.parts, parsed.directoriesOnly⟩).filterMap
        (Step.below? root) := by
    simp only [selected, hhome, hread, hparsed, Option.map_some]
  rw [hselected]
  refine Step.eq_of_perm_of_pairwise ?_
    (Step.pairwise_filterMap_below? (Step.pairwise_mergeSort _)) (Step.pairwise_mergeSort _)
  have hbelow : Step.below? root ∘ Trail.steps ∘
      Trail.behind (root.map fun n => .step (.name n)) = some ∘ Trail.steps := by
    funext trail
    refine Step.below?_eq_some_iff.2 ?_
    rw [Function.comp_apply, Trail.steps, Trail.components_behind, List.filterMap_append,
      Component.filterMap_step?_names]
    rfl
  have hselect : (select d [] (heads ++ parsed.parts) (Trail.ofComponents d [] [])).Perm _ :=
    select_root_perm hheads hroot hbytes
  have hcounts := hselect.filter fun trail => !parsed.directoriesOnly || trail.isDirectory
  -- Below the root, what was selected from the top is what is selected from there.
  refine ((List.mergeSort_perm _ _).filterMap _).trans ?_
  refine ((hcounts.map Trail.steps).filterMap (Step.below? root)).trans ?_
  rw [List.filter_map, List.map_map, List.filterMap_map, hbelow, List.filterMap_eq_map]
  exact (List.mergeSort_perm _ _).symm

/-- An invalid pattern selects nothing, whatever the root is. -/
theorem selected_of_invalid (h : Pattern.ofText? pattern = none) :
    site.selected d pattern = [] := by
  cases hhome : site.home d with
  | error fault => simp only [selected, hhome]
  | ok root =>
    obtain ⟨_, _, hread⟩ := ofText?_patternBelow root pattern
    simp only [selected, hhome, hread, h, Option.map_none]

end Site

end Docroot
