import Docroot.Proofs.Request.Reading
import Mathlib.Data.List.Forall2

/-!
# The grammar of requests

What `Request.sanitize` takes, said about the text of a request alone. Its
*segments* are what stands between two separators, but for nothing and single
dots (`Request.segments`). A request is refused for a NUL character, else if it
starts at the top of a tree (`Request.StartsAtTop`), and else it asks for its
segments, each taken as a move. Put behind each other as paths, the segments
neither merge nor start anew (`Path.gather_segments`).

Whatever leaves the segments and the start of a request alone leaves the outcome
alone (`sanitize_congr`): the kind of each separator, repeated separators, and
single dots behind a separator. Together this is `sanitize_exact`.
-/

namespace Docroot

variable {separates : Char → Bool} {c : Char} {xs ys piece : List Char} {ps : List (List Char)}

namespace Text

/-- Which separator stands where makes no difference to the pieces. -/
theorem pieces_eq_of_forall₂
    (h : List.Forall₂ (fun c c' => c = c' ∨ separates c = true ∧ separates c' = true) xs ys) :
    pieces separates xs = pieces separates ys := by
  induction h with
  | nil => rfl
  | @cons c c' _ _ hc _ ih =>
    obtain rfl | ⟨hc, hc'⟩ := hc
    · rw [pieces, pieces, ih]
    · rw [pieces, pieces, if_pos hc, if_pos hc', ih]

end Text

/-! ## Segments as moves -/

namespace Step

/-- Pieces that are neither empty nor dots are moves one by one. -/
theorem map_text_filterMap_ofPiece? (h : ∀ p ∈ ps, p ≠ [] ∧ p ≠ ['.'] ∧ '/' ∉ p) :
    (ps.filterMap ofPiece?).map (fun s => s.text.toList) = ps := by
  induction ps with
  | nil => rfl
  | cons p ps ih =>
    obtain ⟨hne, hdot, hslash⟩ := h p List.mem_cons_self
    obtain ⟨s, hs, htext⟩ := exists_ofPiece? hne hdot hslash
    rw [List.filterMap_cons_some hs, List.map_cons, htext,
      ih fun q hq => h q (List.mem_cons_of_mem p hq)]

end Step

namespace Path

/-- The path that is made by putting segments behind each other, one at a time. -/
def gather (segments : List (List Char)) : Path :=
  segments.foldl (fun p segment => p.join ⟨String.ofList segment⟩) ⟨""⟩

/-- Segments that are put behind each other are joined by slashes. -/
theorem toList_gather (h : ∀ p ∈ ps, p ≠ [] ∧ '/' ∉ p) :
    (gather ps).text.toList = Text.join ['/'] ps := by
  -- From the last segment, which finds the others joined before it.
  induction ps using List.reverseRecOn with
  | nil => rfl
  | append_singleton ps piece ih =>
    have hbefore := ih fun p hp => h p (List.mem_append_left _ hp)
    obtain ⟨hne, hslash⟩ := h piece (List.mem_append_right _ List.mem_cons_self)
    have hrelative : (Path.mk (String.ofList piece)).isAbsolute = false := by
      obtain ⟨c, cs, rfl⟩ := List.exists_cons_of_ne_nil hne
      rw [isAbsolute, String.toList_ofList, List.head?_cons, beq_eq_false_iff_ne]
      exact fun hc => hslash (Option.some.inj hc ▸ List.mem_cons_self)
    have hgather : gather (ps ++ [piece]) = (gather ps).join ⟨String.ofList piece⟩ := by
      rw [gather, List.foldl_append]
      rfl
    rw [hgather, join, if_neg (by simp [hrelative])]
    rcases List.eq_nil_or_concat ps with rfl | ⟨front, last, rfl⟩
    · exact String.toList_ofList
    · rw [List.concat_eq_append] at hbefore h ⊢
      obtain ⟨hlastne, hlast⟩ := h last (by simp)
      have hend : (gather (front ++ [last])).text.toList.getLast? = last.getLast? := by
        rcases eq_or_ne front [] with rfl | hfront
        · rw [hbefore]
          rfl
        · rw [hbefore, Text.join_concat hfront, List.getLast?_append_of_ne_nil _ hlastne]
      rw [if_neg]
      · rw [Text.join_concat (by simp), ← hbefore]
        simp
      · rw [Bool.or_eq_true, String.isEmpty_iff, beq_iff_eq, hend, ← String.toList_eq_nil_iff,
          ← List.getLast?_eq_none_iff, hend, List.getLast?_eq_none_iff]
        rintro (hnil | hc)
        · exact hlastne hnil
        · exact hlast (List.mem_of_getLast? hc)

end Path

namespace Request

variable {raw raw' : String} {steps : List Step}

/-- What stands between two separators of a request, but for nothing and single
    dots. -/
def segments (raw : String) : List (List Char) :=
  (raw.toList.splitOnP isSeparator).filter fun segment => segment ≠ [] ∧ segment ≠ ['.']

/-- The request starts at the top of a tree: with a separator, or its first segment
    with an ASCII letter and a colon. -/
def StartsAtTop (raw : String) : Prop :=
  (∃ c rest, raw.toList = c :: rest ∧ isSeparator c = true) ∨
    ∃ letter rest more, ('A' ≤ letter ∧ letter ≤ 'Z' ∨ 'a' ≤ letter ∧ letter ≤ 'z') ∧
      segments raw = (letter :: ':' :: rest) :: more

theorem pieces_eq_segments (raw : String) : pieces raw = segments raw := by
  rw [pieces, segments, Text.pieces_eq_splitOnP]
  congr 1
  funext segment
  rw [Bool.eq_iff_iff]
  simp [Path.isIdle]

/-- A segment is one of the pieces between two separators. -/
theorem mem_pieces_of_mem_segments (h : piece ∈ segments raw) :
    piece ∈ Text.pieces isSeparator raw.toList ∧ piece ≠ [] ∧ piece ≠ ['.'] := by
  rw [segments, ← Text.pieces_eq_splitOnP] at h
  obtain ⟨hpiece, hidle⟩ := List.mem_filter.1 h
  exact ⟨hpiece, of_decide_eq_true hidle⟩

theorem of_mem_segments (h : piece ∈ segments raw) : piece ≠ [] ∧ piece ≠ ['.'] ∧ '/' ∉ piece := by
  obtain ⟨hpiece, hne, hdot⟩ := mem_pieces_of_mem_segments h
  exact ⟨hne, hdot, Text.notMem_of_mem_pieces rfl hpiece⟩

theorem startsWithDrive_iff : startsWithDrive piece = true ↔
    ∃ letter rest, ('A' ≤ letter ∧ letter ≤ 'Z' ∨ 'a' ≤ letter ∧ letter ≤ 'z') ∧
      piece = letter :: ':' :: rest := by
  have hletter : ∀ c, isDriveLetter c = true ↔ 'A' ≤ c ∧ c ≤ 'Z' ∨ 'a' ≤ c ∧ c ≤ 'z' := by
    intro c
    change (decide ('A' ≤ c ∧ c ≤ 'Z') || (decide ('a' ≤ c) && decide (c ≤ 'z'))) = true ↔ _
    simp
  constructor
  · intro h
    unfold startsWithDrive at h
    split at h
    · exact ⟨_, _, (hletter _).1 h, rfl⟩
    · cases h
  · rintro ⟨letter, rest, hmem, rfl⟩
    exact (hletter letter).2 hmem

theorem isAbsolute_iff : isAbsolute raw = true ↔ StartsAtTop raw := by
  rw [isAbsolute, Bool.or_eq_true, StartsAtTop, pieces_eq_segments]
  refine or_congr ?_ ?_
  · cases raw.toList <;> simp
  · cases segments raw with
    | nil => simp
    | cons segment more =>
      rw [List.head?_cons, Option.any_some, startsWithDrive_iff]
      simp

/-- A request is taken for some moves exactly if nothing forbids it and its
    segments are these moves as they are written. -/
theorem sanitize_eq_ok_iff : sanitize raw = .ok steps ↔
    '\x00' ∉ raw.toList ∧ ¬ StartsAtTop raw ∧
      steps.map (fun s => s.text.toList) = segments raw := by
  rw [sanitize, ← isAbsolute_iff, pieces_eq_segments]
  split_ifs with hnul htop
  · simp_all
  · simp_all
  · rw [Except.ok.injEq]
    have hread := @Step.map_text_filterMap_ofPiece? (segments raw) fun _ => of_mem_segments
    refine ⟨?_, ?_⟩
    · rintro rfl
      exact ⟨by simpa using hnul, htop, hread⟩
    · rintro ⟨_, _, hsteps⟩
      rw [← hsteps, filterMap_ofPiece?_text]

/-- Put behind each other, the segments are the path of the moves. -/
theorem gather_segments (h : sanitize raw = .ok steps) :
    Path.gather (segments raw) = ⟨Step.textOf steps⟩ := by
  have htext := Path.toList_gather fun p hp =>
    ⟨(@of_mem_segments _ raw hp).1, (of_mem_segments hp).2.2⟩
  rw [← (sanitize_eq_ok_iff.1 h).2.2, ← Step.toList_textOf, String.toList_inj] at htext
  rw [← (sanitize_eq_ok_iff.1 h).2.2, ← htext]

/-- What a request asks for, its path asks for as well. -/
theorem sanitize_textOf_of_sanitize (h : sanitize raw = .ok steps) :
    sanitize (Step.textOf steps) = .ok steps := by
  obtain ⟨hnul, htop, hsteps⟩ := sanitize_eq_ok_iff.1 h
  have hpiece : ∀ s ∈ steps, s.text.toList ∈ Text.pieces isSeparator raw.toList := fun s hs =>
    (mem_pieces_of_mem_segments (hsteps ▸ List.mem_map_of_mem hs)).1
  refine sanitize_textOf (fun s hs => ⟨fun hc => ?_, fun hc => ?_⟩) ?_
  · exact hnul (Text.of_mem_pieces (hpiece s hs) hc).1
  · exact Text.notMem_of_mem_pieces rfl (hpiece s hs) hc
  · rw [← Bool.not_eq_true]
    intro hdrive
    refine htop (isAbsolute_iff.1 ?_)
    rw [isAbsolute, pieces_eq_segments, ← hsteps, List.head?_map, Option.any_map, Bool.or_eq_true]
    exact .inr hdrive

/-! ## Requests with the same segments -/

/-- The outcome depends on whether there is a NUL, on the first character, and on
    the segments. -/
theorem sanitize_congr (hnul : '\x00' ∈ raw.toList ↔ '\x00' ∈ raw'.toList)
    (hhead : raw.toList.head?.any isSeparator = raw'.toList.head?.any isSeparator)
    (hpieces : pieces raw = pieces raw') : sanitize raw = sanitize raw' := by
  have hcontains : raw.toList.contains '\x00' = raw'.toList.contains '\x00' := by
    rw [Bool.eq_iff_iff]
    simpa using hnul
  rw [sanitize, sanitize, isAbsolute, isAbsolute, hcontains, hhead, hpieces]

/-- Which of the two separators is written makes no difference. -/
theorem sanitize_of_exchanged (h : List.Forall₂
      (fun c c' => c = c' ∨ isSeparator c = true ∧ isSeparator c' = true) raw.toList raw'.toList) :
    sanitize raw = sanitize raw' := by
  refine sanitize_congr ?_ ?_ ?_
  · generalize raw.toList = xs, raw'.toList = ys at h
    induction h with
    | nil => rfl
    | @cons c c' _ _ hc _ ih =>
      have hne : ∀ c, isSeparator c = true → '\x00' ≠ c := by
        rintro _ h rfl
        cases h
      obtain rfl | ⟨hc, hc'⟩ := hc
      · rw [List.mem_cons, List.mem_cons, ih]
      · simp only [List.mem_cons, hne c hc, hne c' hc', false_or, ih]
  · generalize raw.toList = xs, raw'.toList = ys at h
    cases h with
    | nil => rfl
    | cons hc _ =>
      obtain rfl | ⟨hc, hc'⟩ := hc
      · rfl
      · simp [hc, hc']
  · rw [pieces, pieces, Text.pieces_eq_of_forall₂ h]

/-- Idle pieces behind a separator are passed over. -/
theorem sanitize_insert {before after : List Char} {s t : Char} {idle : List Char}
    (hraw : raw.toList = before ++ s :: after) (hs : isSeparator s = true)
    (ht : isSeparator t = true) (hidle : idle = [] ∨ idle = ['.']) :
    sanitize (String.ofList (before ++ s :: (idle ++ t :: after))) = sanitize raw := by
  have hone : Text.pieces isSeparator idle = [idle] := by
    rcases hidle with rfl | rfl <;> rfl
  have hnot : Path.isIdle idle = true := by
    rcases hidle with rfl | rfl <;> rfl
  have hne : '\x00' ≠ t := by
    rintro rfl
    cases ht
  have hmem : '\x00' ∉ idle := by
    rcases hidle with rfl | rfl <;> decide
  refine sanitize_congr ?_ ?_ ?_
  · simp [hraw, hne, hmem]
  · cases before <;> simp [hraw]
  · rw [pieces, pieces, String.toList_ofList, hraw, Text.pieces_append_cons hs,
      Text.pieces_append_cons hs, Text.pieces_append_cons ht, hone]
    simp [hnot]

/-- A separator behind a request adds the pieces behind it. -/
theorem pieces_append_cons {s : Char} {behind : List Char} (hs : isSeparator s = true)
    (hraw : raw'.toList = raw.toList ++ s :: behind) : pieces raw' =
      pieces raw ++ (Text.pieces isSeparator behind).filter fun piece => !Path.isIdle piece := by
  rw [pieces, pieces, hraw, Text.pieces_append_cons hs, List.filter_append]

/-- So are idle pieces behind a request, unless they are all of it. -/
theorem sanitize_append_idle {s : Char} {idle : List Char} (hne : raw.toList ≠ [])
    (hs : isSeparator s = true) (hidle : idle = [] ∨ idle = ['.'])
    (hraw : raw'.toList = raw.toList ++ s :: idle) : sanitize raw' = sanitize raw := by
  have hnul : '\x00' ≠ s := by
    rintro rfl
    cases hs
  obtain ⟨c, cs, hcs⟩ := List.exists_cons_of_ne_nil hne
  refine sanitize_congr ?_ ?_ ?_
  · rcases hidle with rfl | rfl <;> simp [hraw, hnul]
  · rw [hraw, hcs]
    rfl
  · rw [pieces_append_cons hs hraw]
    rcases hidle with rfl | rfl <;> exact List.append_nil _

/-- A move behind a request for something is asked for behind it. -/
theorem sanitize_append_step {s : Step} (h : sanitize raw = .ok steps) (hne : steps ≠ [])
    (hs : IsPlainStep s) : sanitize (raw ++ "/" ++ s.text) = .ok (steps ++ [s]) := by
  have htext : (raw ++ "/" ++ s.text).toList = raw.toList ++ '/' :: s.text.toList := by simp
  have hone : Text.pieces isSeparator s.text.toList = [s.text.toList] :=
    Text.pieces_of_forall (not_isSeparator_of_mem hs.2)
  have hpieces : pieces (raw ++ "/" ++ s.text) = pieces raw ++ [s.text.toList] := by
    rw [pieces_append_cons rfl htext, hone]
    simp [s.isIdle_text]
  obtain ⟨hnul, htop, hsteps⟩ := sanitize_eq_ok_iff.1 h
  rw [← pieces_eq_segments] at hsteps
  have hsome : pieces raw ≠ [] := by simpa [← hsteps] using hne
  have hchars : raw.toList ≠ [] := by
    intro hnil
    rw [pieces, hnil] at hsome
    exact hsome rfl
  have habsolute : isAbsolute (raw ++ "/" ++ s.text) = isAbsolute raw := by
    rw [isAbsolute, isAbsolute, hpieces, htext, List.head?_append_of_ne_nil _ hchars,
      List.head?_append_of_ne_nil _ hsome]
  rw [sanitize_eq_ok_iff, ← isAbsolute_iff, habsolute, isAbsolute_iff, ← pieces_eq_segments,
    hpieces, List.map_append, hsteps]
  exact ⟨by simp [htext, hnul, hs.1], htop, rfl⟩

/-! ## What is taken -/

/-- A request is refused for a NUL in it, else for where it starts, and for nothing
    else. What is taken is a relative path of its segments, in their order, and is
    taken again as it is. Neither the kind of the separators matters, nor idle
    pieces behind a separator or behind the whole of a request. -/
theorem sanitize_exact (raw : String) :
    (sanitize raw = .error .nulByte ↔ '\x00' ∈ raw.toList) ∧
    (sanitize raw = .error .absolutePath ↔ '\x00' ∉ raw.toList ∧ StartsAtTop raw) ∧
    ('\x00' ∉ raw.toList → ¬ StartsAtTop raw → ∃ steps, sanitize raw = .ok steps ∧
      steps.map (fun s => s.text.toList) = segments raw ∧
      Path.gather (segments raw) = ⟨Step.textOf steps⟩ ∧
      (Path.mk (Step.textOf steps)).isAbsolute = false ∧
      (Path.mk (Step.textOf steps)).components = steps.map .step ∧
      sanitize (Step.textOf steps) = .ok steps) ∧
    (∀ raw' : String, List.Forall₂
        (fun c c' => c = c' ∨ isSeparator c = true ∧ isSeparator c' = true)
        raw.toList raw'.toList →
      sanitize raw' = sanitize raw) ∧
    (∀ (before after : String) (s : Char), isSeparator s = true →
      raw = before ++ String.singleton s ++ after → ∀ idle ∈ ["/", "./"],
      sanitize (before ++ String.singleton s ++ idle ++ after) = sanitize raw) ∧
    (raw ≠ "" → ∀ idle ∈ ["/", "/."], sanitize (raw ++ idle) = sanitize raw) := by
  refine ⟨?_, ?_, fun hnul htop => ?_, fun raw' h => (sanitize_of_exchanged h).symm, ?_, ?_⟩
  · rw [sanitize]
    split_ifs with hnul <;> simpa using hnul
  · rw [sanitize, ← isAbsolute_iff]
    split_ifs with hnul htop <;> simp_all
  · have hread := @Step.map_text_filterMap_ofPiece? (segments raw) fun _ => of_mem_segments
    have hsteps := sanitize_eq_ok_iff.2 ⟨hnul, htop, hread⟩
    exact ⟨_, hsteps, hread, gather_segments hsteps, Step.isAbsolute_textOf,
      Step.components_textOf, sanitize_textOf_of_sanitize hsteps⟩
  · intro before after s hs hraw idle hidle
    have htext : raw.toList = before.toList ++ s :: after.toList := by simp [hraw]
    have hinsert := fun piece => @sanitize_insert raw before.toList after.toList s '/' piece
      htext hs rfl
    simp only [List.mem_cons, List.not_mem_nil, or_false] at hidle
    rcases hidle with rfl | rfl
    · rw [← hinsert [] (.inl rfl)]
      congr 1
      simp [← String.toList_inj]
    · rw [← hinsert ['.'] (.inr rfl)]
      congr 1
      simp [← String.toList_inj]
  · intro hne idle hidle
    have hraw : raw.toList ≠ [] := by simpa using hne
    simp only [List.mem_cons, List.not_mem_nil, or_false] at hidle
    rcases hidle with rfl | rfl
    · exact @sanitize_append_idle raw _ '/' [] hraw rfl (.inl rfl) (by simp)
    · exact @sanitize_append_idle raw _ '/' ['.'] hraw rfl (.inr rfl) (by simp)

/-- A drive letter that no request may start with is part of a name further on, and
    both separators and idle pieces may be mixed. -/
theorem sanitize_exact_notes :
    '\x00' ∉ ".\\docs//../c:notes".toList ∧ ¬ StartsAtTop ".\\docs//../c:notes" ∧
    (∃ steps, sanitize ".\\docs//../c:notes" = .ok steps ∧
      steps.map (fun s => s.text.toList) = ["docs".toList, "..".toList, "c:notes".toList] ∧
      sanitize (Step.textOf steps) = .ok steps) ∧
    sanitize "./docs\\/..\\c:notes" = sanitize ".\\docs//../c:notes" ∧
    sanitize ".\\./docs//../c:notes" = sanitize ".\\docs//../c:notes" ∧
    sanitize ".\\docs//../c:notes/." = sanitize ".\\docs//../c:notes" := by
  have hnul : '\x00' ∉ ".\\docs//../c:notes".toList := by decide
  have htop : ¬ StartsAtTop ".\\docs//../c:notes" := by
    rw [← isAbsolute_iff]
    decide
  have hsegments : segments ".\\docs//../c:notes" =
      ["docs".toList, "..".toList, "c:notes".toList] := by decide
  obtain ⟨_, _, htaken, hexchanged, hinserted, happended⟩ :=
    sanitize_exact ".\\docs//../c:notes"
  obtain ⟨steps, hsteps, htexts, _, _, _, hagain⟩ := htaken hnul htop
  refine ⟨hnul, htop, ⟨steps, hsteps, htexts.trans hsegments, hagain⟩, ?_, ?_, ?_⟩
  · exact hexchanged "./docs\\/..\\c:notes" (by decide)
  · exact hinserted "." "docs//../c:notes" '\\' rfl (by decide) "./" (by decide)
  · exact happended (by decide) "/." (by decide)

end Request

end Docroot
