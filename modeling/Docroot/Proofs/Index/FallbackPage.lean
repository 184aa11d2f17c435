import Docroot.Index.Markup
import Docroot.Proofs.Text.Replacing
import Mathlib.Data.List.Infix
import Mathlib.Logic.Function.Basic

/-!
# The heading of the fallback page

The title of the fallback page is a text, and no markup gets into the page with it: a
character that means something to markup is written as its entity. The characters are
replaced one after the other, and each replacement goes through what those before it
have put. This is the same as replacing all of them at once, because no entity has a
character in it that is replaced later (`foldl_replaceAll`): the ampersand, with
which all entities start, is replaced first.

So every ampersand of the heading starts an entity (`exists_entity_of_suffix`), and
reading the entities gives the title back (`unescape_flatMap_written`). What stands in
the first heading of the page is the title as it was written (`heading?_fallbackPage`),
hence pages are different if their titles are (`fallbackPage_exact`).
-/

namespace Docroot.Markup

/-- A character as it is written if those of a table are replaced by their entities. -/
def written (forms : List (Char × String)) (c : Char) : List Char :=
  match forms.lookup c with
  | some entity => entity.toList
  | none => [c]

/-- The text that is written with the entities `&amp;`, `&lt;`, `&gt;` and `&quot;`. -/
def unescape : List Char → List Char
  | '&' :: 'a' :: 'm' :: 'p' :: ';' :: rest => '&' :: unescape rest
  | '&' :: 'l' :: 't' :: ';' :: rest => '<' :: unescape rest
  | '&' :: 'g' :: 't' :: ';' :: rest => '>' :: unescape rest
  | '&' :: 'q' :: 'u' :: 'o' :: 't' :: ';' :: rest => '"' :: unescape rest
  | c :: rest => c :: unescape rest
  | [] => []

/-- What stands in the first heading of a document. -/
def heading? (html : List Char) : Option (List Char) :=
  ((Text.splitAtFirst "<h1>".toList html).map Prod.snd).bind fun opened =>
    (Text.splitAtFirst "</h1>".toList (opened.drop 4)).map Prod.fst

/-- The fallback page up to the text of its heading. -/
def fallbackTop : String := "<div style=\"text-align: center; padding: 50px;\">\n<h1>"

/-- The fallback page behind the text of its heading. -/
def fallbackBottom : String :=
  "</h1>\n<p>Application files not found. Check that the front-end build succeeded.</p>\n</div>\n"

variable {forms : List (Char × String)} {c x : Char} {text rest after : List Char}

/-! ## Replacing in turn and at once -/

theorem written_cons {entity : String} :
    written ((x, entity) :: forms) c = if c = x then entity.toList else written forms c := by
  by_cases h : c = x
  · simp [written, h]
  · simp [written, List.lookup_cons, beq_eq_false_iff_ne.2 h, h]

/-- A character of the table is written as its entity, and any other as it is. -/
theorem written_cases (forms : List (Char × String)) (c : Char) :
    (∃ form ∈ forms, form.1 = c ∧ written forms c = form.2.toList) ∨
      (∀ form ∈ forms, form.1 ≠ c) ∧ written forms c = [c] := by
  induction forms with
  | nil => exact .inr ⟨by simp, rfl⟩
  | cons form forms ih =>
    rw [written_cons]
    by_cases h : c = form.1
    · rw [if_pos h]
      exact .inl ⟨form, List.mem_cons_self, h.symm, rfl⟩
    · rw [if_neg h]
      refine ih.imp (fun ⟨form', hmem, h'⟩ => ⟨form', List.mem_cons_of_mem form hmem, h'⟩)
        fun ⟨hforms, hc⟩ => ⟨List.forall_mem_cons.2 ⟨Ne.symm h, hforms⟩, hc⟩

theorem flatMap_written_of_forall (h : ∀ c ∈ text, ∀ form ∈ forms, form.1 ≠ c) :
    text.flatMap (written forms) = text := by
  induction text with
  | nil => rfl
  | cons c text ih =>
    obtain ⟨hc, htext⟩ := List.forall_mem_cons.1 h
    rw [List.flatMap_cons, ih htext]
    rcases written_cases forms c with ⟨form, hform, heq, _⟩ | ⟨_, hwritten⟩
    · exact absurd heq (hc form hform)
    · rw [hwritten, List.singleton_append]

/-- Replacing characters one after the other is replacing all at once, if what was put
    before has no character in it that is replaced later. -/
theorem foldl_replaceAll
    (hforms : forms.Pairwise fun form later => later.1 ∉ form.2.toList) :
    forms.foldl (fun text (c, entity) => Text.replaceAll [c] entity.toList text) text =
      text.flatMap (written forms) := by
  induction forms generalizing text with
  | nil => exact (List.flatMap_singleton' text).symm
  | cons form forms ih =>
    obtain ⟨x, entity⟩ := form
    obtain ⟨hform, hforms⟩ := List.pairwise_cons.1 hforms
    rw [List.foldl_cons, ih hforms]
    change (Text.replaceAll [x] entity.toList text).flatMap (written forms) = _
    rw [Text.replaceAll_singleton, List.flatMap_assoc]
    congr 1
    funext c
    rw [written_cons]
    by_cases hc : c = x
    · rw [if_pos hc, if_pos hc]
      exact flatMap_written_of_forall fun y hy later hlater h => hform later hlater (h ▸ hy)
    · rw [if_neg hc, if_neg hc, List.flatMap_singleton]

theorem toList_escape (title : String) :
    (escape title).toList = title.toList.flatMap (written entities) := by
  rw [escape, String.toList_ofList]
  exact foldl_replaceAll (by decide)

/-- A title that looks like an entity is shown as it is. -/
example : escape "&lt;" = "&amp;lt;" := by decide

/-! ## Entities -/

theorem ampersand_mem_entities : ('&', "&amp;") ∈ entities := List.mem_cons_self

/-- An entity starts with an ampersand, and has no other character in it that is
    replaced. -/
theorem head_tail_of_mem_entities : ∀ form ∈ entities, form.2.toList.head? = some '&' ∧
    ∀ later ∈ entities, later.1 ∉ form.2.toList.tail := by
  decide

theorem exists_of_mem_entities {form : Char × String} (hform : form ∈ entities) :
    ∃ name, form.2.toList = '&' :: name ∧ ∀ later ∈ entities, later.1 ∉ name := by
  obtain ⟨hhead, htail⟩ := head_tail_of_mem_entities form hform
  obtain ⟨name, hname⟩ := List.head?_eq_some_iff.1 hhead
  exact ⟨name, hname, by rwa [hname] at htail⟩

/-- Of the characters that are replaced, only ampersands are left. -/
theorem notMem_flatMap_written {form : Char × String} (hform : form ∈ entities)
    (hne : form.1 ≠ '&') : form.1 ∉ text.flatMap (written entities) := by
  intro hmem
  obtain ⟨c, _, hc⟩ := List.mem_flatMap.1 hmem
  rcases written_cases entities c with ⟨entity, hentity, _, hwritten⟩ | ⟨hplain, hwritten⟩
  · obtain ⟨name, hname, hrest⟩ := exists_of_mem_entities hentity
    rw [hwritten, hname] at hc
    exact (List.mem_cons.1 hc).elim hne (hrest form hform)
  · rw [hwritten] at hc
    exact hplain form hform (List.mem_singleton.1 hc)

theorem suffix_of_suffix_append (h : c :: after <:+ text ++ rest) (hc : c ∉ text) :
    c :: after <:+ rest := by
  induction text with
  | nil => exact h
  | cons x text ih =>
    obtain ⟨hne, hnotMem⟩ := List.ne_and_not_mem_of_not_mem_cons hc
    rw [List.cons_append, List.suffix_cons_iff] at h
    exact ih (h.resolve_left fun h => hne (List.cons.inj h).1) hnotMem

/-- Every ampersand starts an entity. -/
theorem exists_entity_of_suffix (h : '&' :: after <:+ text.flatMap (written entities)) :
    ∃ form ∈ entities, form.2.toList <+: '&' :: after := by
  induction text with
  | nil => simp at h
  | cons c text ih =>
    rw [List.flatMap_cons] at h
    rcases written_cases entities c with ⟨form, hform, _, hwritten⟩ | ⟨hplain, hwritten⟩
    · obtain ⟨name, hname, hrest⟩ := exists_of_mem_entities hform
      rw [hwritten, hname, List.cons_append, List.suffix_cons_iff] at h
      rcases h with h | h
      · exact ⟨form, hform, by rw [h, hname]; exact List.prefix_append ('&' :: name) _⟩
      · exact ih (suffix_of_suffix_append h (hrest _ ampersand_mem_entities))
    · rw [hwritten, List.singleton_append, List.suffix_cons_iff] at h
      refine ih (h.resolve_left fun h => ?_)
      exact hplain _ ampersand_mem_entities (List.cons.inj h).1

/-! ## Reading entities -/

theorem unescape_cons (hc : c ≠ '&') : unescape (c :: rest) = c :: unescape rest := by
  rw [unescape] <;> simp [hc]

theorem unescape_entity_append :
    ∀ form ∈ entities, unescape (form.2.toList ++ rest) = form.1 :: unescape rest := by
  simp [entities, unescape]

/-- Reading the entities gives back the text that was written with them. -/
theorem unescape_flatMap_written : unescape (text.flatMap (written entities)) = text := by
  induction text with
  | nil => rfl
  | cons c text ih =>
    rw [List.flatMap_cons]
    rcases written_cases entities c with ⟨form, hform, rfl, hwritten⟩ | ⟨hplain, hwritten⟩
    · rw [hwritten, unescape_entity_append form hform, ih]
    · have hc : c ≠ '&' := (hplain _ ampersand_mem_entities).symm
      rw [hwritten, List.singleton_append, unescape_cons hc, ih]

/-! ## The page -/

theorem toList_fallbackPage (title : String) : (fallbackPage title).toList =
    fallbackTop.toList ++ ((escape title).toList ++ fallbackBottom.toList) := by
  change (fallbackTop ++ escape title ++ fallbackBottom).toList = _
  rw [String.toList_append, String.toList_append, List.append_assoc]

/-- The page opens its heading itself. -/
theorem splitAtFirst_fallbackTop_append :
    (Text.splitAtFirst "<h1>".toList (fallbackTop.toList ++ rest)).map Prod.snd =
      some ("<h1>".toList ++ rest) := rfl

/-- A text without markup does not close the heading. -/
theorem splitAtFirst_append_fallbackBottom (h : '<' ∉ text) :
    (Text.splitAtFirst "</h1>".toList (text ++ fallbackBottom.toList)).map Prod.fst =
      some text := by
  obtain ⟨rest, hrest⟩ : ∃ rest, fallbackBottom.toList = "</h1>".toList ++ rest := ⟨_, rfl⟩
  rw [hrest, Text.splitAtFirst_append_of_notMem (by decide) h, Option.map_some]

theorem heading?_fallbackPage (title : String) :
    heading? (fallbackPage title).toList = some (escape title).toList := by
  have hplain : '<' ∉ (escape title).toList := by
    have hform : ('<', "&lt;") ∈ entities := by decide
    rw [toList_escape]
    exact notMem_flatMap_written hform (by decide)
  rw [heading?, toList_fallbackPage, splitAtFirst_fallbackTop_append, Option.bind_some,
    List.drop_left' (by decide), splitAtFirst_append_fallbackBottom hplain]

/-- The fallback page is the same for all titles but for the text of its heading. There,
    only ampersands are left of the characters that mean something to markup, each
    starts an entity, and reading the entities gives back the title. -/
theorem fallbackPage_exact :
    (∀ title : String, ∃ text : String,
      fallbackPage title = fallbackTop ++ text ++ fallbackBottom ∧
      heading? (fallbackPage title).toList = some text.toList ∧
      (∀ c ∈ ['<', '>', '"'], c ∉ text.toList) ∧
      (∀ after, '&' :: after <:+ text.toList →
        ∃ entity ∈ ["&amp;", "&lt;", "&gt;", "&quot;"], entity.toList <+: '&' :: after) ∧
      unescape text.toList = title.toList) ∧
    Function.Injective fallbackPage := by
  have hread : ∀ title, unescape (escape title).toList = title.toList := fun title => by
    rw [toList_escape, unescape_flatMap_written]
  refine ⟨fun title => ⟨escape title, rfl, heading?_fallbackPage title, ?_, ?_, hread title⟩,
    fun title title' h => ?_⟩
  · have hreplaced : ∀ c ∈ ['<', '>', '"'], ∃ form ∈ entities, form.1 = c ∧ form.1 ≠ '&' := by
      simp [entities]
    intro c hc
    obtain ⟨form, hform, rfl, hne⟩ := hreplaced c hc
    rw [toList_escape]
    exact notMem_flatMap_written hform hne
  · intro after hafter
    rw [toList_escape] at hafter
    obtain ⟨form, hform, hstarts⟩ := exists_entity_of_suffix hafter
    exact ⟨form.2, List.mem_map_of_mem (f := Prod.snd) hform, hstarts⟩
  · have hheading := congrArg (heading? ·.toList) h
    simp only [heading?_fallbackPage] at hheading
    rw [← String.toList_inj, ← hread, Option.some.inj hheading, hread]

end Docroot.Markup
