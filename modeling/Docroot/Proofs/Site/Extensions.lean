import Docroot.Proofs.Site.TextExtensions
import Docroot.Settings
import Mathlib.Data.List.DropRight
import Mathlib.Data.List.TakeWhile
import Mathlib.Logic.Relation

/-!
# Which files are text

A file is text if its name ends in a dot and one of the extensions that are listed for
text files (`isText_iff`). The dot must not be the first character of the name, and the
extension is compared without the dots in front of it in the list and without regard to
the case of ASCII letters (`Text.SameButCase`).

So a list can be written in many ways. Putting it in another order, listing an extension
again, writing it with one more dot in front or in another case, and adding an entry
that is nothing but dots (`Site.Respelling`) changes no form that names are compared
with (`Site.Respelling.lists_iff`), hence nothing that is resolved
(`resolve_withTextExtensions_congr`). Heeding the warnings about dots in front is one
such change (`isText_exact`).
-/

namespace Docroot

/-- The texts are the same but for the case of ASCII letters. -/
def Text.SameButCase (s t : String) : Prop :=
  Text.lowerAscii s.toList = Text.lowerAscii t.toList

instance (s t : String) : Decidable (Text.SameButCase s t) :=
  inferInstanceAs (Decidable (_ = _))

variable {site : Site} {d : Disk} {n : Name} {p : Path} {x extension request : String}
  {extensions extensions' : List String}

/-! ## Extensions of names -/

/-- The extension of a name stands behind its last dot, unless nothing is in front of
    that. -/
theorem Name.extension?_eq_some_iff : n.extension? = some x ↔
    ∃ stem, stem ≠ "" ∧ n.text = stem ++ "." ++ x ∧ '.' ∉ x.toList := by
  constructor
  · intro h
    rw [extension?] at h
    have hcut := List.takeWhile_append_dropWhile (p := (· != '.')) (l := n.text.toList.reverse)
    have hhead := List.head?_dropWhile_not (· != '.') n.text.toList.reverse
    have hrest : ∀ c ∈ n.text.toList.reverse.takeWhile (· != '.'), c ≠ '.' := fun c hc => by
      simpa using List.mem_takeWhile_imp hc
    split at h
    · rename_i dot last stem hdrop
      obtain rfl := Option.some.inj h
      rw [hdrop] at hcut hhead
      obtain rfl : dot = '.' := by simpa using hhead
      generalize n.text.toList.reverse.takeWhile (· != '.') = front at hcut hrest
      refine ⟨String.ofList (last :: stem).reverse, ?_, ?_, ?_⟩
      · simp
      · rw [← String.toList_inj, ← List.reverse_inj, ← hcut]
        simp
      · rw [String.toList_ofList, List.mem_reverse]
        exact fun hdot => hrest '.' hdot rfl
    · cases h
  · rintro ⟨stem, hstem, htext, hx⟩
    have hreversed : n.text.toList.reverse =
        x.toList.reverse ++ '.' :: stem.toList.reverse := by
      rw [htext]
      simp
    obtain ⟨last, rest, hlast⟩ := List.exists_cons_of_ne_nil (l := stem.toList.reverse)
      (by simpa using hstem)
    have hpass : ∀ c ∈ x.toList.reverse, (c != '.') = true := fun c hc => by
      rw [bne_iff_ne]
      exact fun h => hx (h ▸ List.mem_reverse.1 hc)
    rw [extension?, hreversed, List.dropWhile_append_of_pos hpass,
      List.takeWhile_append_of_pos hpass, hlast]
    simp

theorem Path.fileName?_eq_some_iff :
    p.fileName? = some n ↔ p.components.getLast? = some (.step (.name n)) := by
  rw [fileName?]
  split <;> simp_all

namespace Site

/-- The list has an extension that is compared in this form. -/
def Lists (extensions : List String) (form : String) : Prop :=
  ∃ extension ∈ extensions, normalizeExtension extension = form

theorem toList_normalizeExtension : (normalizeExtension extension).toList =
    Text.lowerAscii (Settings.withoutDots extension).toList := by
  rw [normalizeExtension, Settings.withoutDots, String.toList_ofList, String.toList_ofList]

theorem normalizeExtension_eq_iff : normalizeExtension extension = normalizeExtension x ↔
    Text.SameButCase (Settings.withoutDots extension) (Settings.withoutDots x) := by
  rw [← String.toList_inj, toList_normalizeExtension, toList_normalizeExtension, Text.SameButCase]

theorem normalizeExtension_congr (h : Settings.withoutDots extension = Settings.withoutDots x) :
    normalizeExtension extension = normalizeExtension x := by
  rw [normalizeExtension_eq_iff, h]
  rfl

theorem withoutDots_of_notMem (hx : '.' ∉ x.toList) : Settings.withoutDots x = x := by
  rw [Settings.withoutDots, List.dropWhile_beq_eq_self_of_head?_ne, String.ofList_toList]
  exact fun hhead => hx (List.mem_of_head? hhead)

theorem withoutDots_withoutDots :
    Settings.withoutDots (Settings.withoutDots extension) = Settings.withoutDots extension := by
  rw [Settings.withoutDots, Settings.withoutDots, String.toList_ofList, List.dropWhile_idempotent]

theorem withoutDots_dot_append :
    Settings.withoutDots ("." ++ extension) = Settings.withoutDots extension := by
  simp [Settings.withoutDots]

theorem withoutDots_eq_empty_iff :
    Settings.withoutDots extension = "" ↔ ∀ c ∈ extension.toList, c = '.' := by
  rw [Settings.withoutDots, ← String.toList_eq_nil_iff, String.toList_ofList,
    List.dropWhile_eq_nil_iff]
  simp

theorem normalizeExtension_eq_empty_iff :
    normalizeExtension extension = "" ↔ Settings.withoutDots extension = "" := by
  rw [← String.toList_eq_nil_iff, toList_normalizeExtension, Text.lowerAscii,
    List.map_eq_nil_iff, String.toList_eq_nil_iff]

/-- No letter becomes a dot, and a dot stays one. -/
theorem toLower_eq_dot_iff {c : Char} : c.toLower = '.' ↔ c = '.' := by
  delta Char.toLower
  split_ifs with hupper
  · have hlow : 'A'.toNat ≤ c.val.toNat := hupper.1
    have hhigh : c.val.toNat ≤ 'Z'.toNat := hupper.2
    refine iff_of_false (fun h => ?_) fun h => ?_
    · have hval : (c.val.toNat + 32) % 2 ^ 32 = '.'.toNat := congrArg Char.toNat h
      simp at hlow hhigh hval
      omega
    · rw [h] at hlow
      simp at hlow
  · rfl

/-- The case of a text does not matter for its form. -/
theorem normalizeExtension_eq_of_sameButCase (h : Text.SameButCase extension x) :
    normalizeExtension extension = normalizeExtension x := by
  have hform : ∀ extension : String, (normalizeExtension extension).toList =
      (Text.lowerAscii extension.toList).dropWhile (· == '.') := by
    intro extension
    rw [toList_normalizeExtension, Settings.withoutDots, String.toList_ofList, Text.lowerAscii,
      Text.lowerAscii, List.dropWhile_map]
    congr 2
    funext c
    rw [Bool.eq_iff_iff]
    simp [toLower_eq_dot_iff]
  rw [← String.toList_inj, hform, hform, h]

theorem hasTextExtension_iff : site.hasTextExtension x = true ↔
    normalizeExtension x ≠ "" ∧ Lists site.textExtensions (normalizeExtension x) := by
  rw [hasTextExtension, Bool.and_eq_true, List.any_eq_true, Lists]
  simp

/-- A file is text exactly if the path to it ends in a name that is a stem, a dot and
    one of the extensions listed. -/
theorem isText_iff : (site.withTextExtensions extensions).isText p.fileName? = true ↔
    ∃ n stem x known, p.components.getLast? = some (.step (.name n)) ∧
      n.text = stem ++ "." ++ x ∧ stem ≠ "" ∧ x ≠ "" ∧ '.' ∉ x.toList ∧
      known ∈ extensions ∧ Text.SameButCase (Settings.withoutDots known) x := by
  have hlisted : ∀ x : String, '.' ∉ x.toList →
      ((site.withTextExtensions extensions).hasTextExtension x = true ↔
        x ≠ "" ∧ ∃ known ∈ extensions, Text.SameButCase (Settings.withoutDots known) x) := by
    intro x hx
    rw [hasTextExtension_iff, ne_eq, normalizeExtension_eq_empty_iff, withoutDots_of_notMem hx]
    simp only [Lists, normalizeExtension_eq_iff, withoutDots_of_notMem hx]
    rfl
  rw [isText, Option.any_eq_true]
  constructor
  · rintro ⟨x, hx, htext⟩
    obtain ⟨n, hn, hext⟩ := Option.bind_eq_some_iff.1 hx
    obtain ⟨stem, hstem, hname, hdot⟩ := Name.extension?_eq_some_iff.1 hext
    obtain ⟨hne, known, hknown, hsame⟩ := (hlisted x hdot).1 htext
    exact ⟨n, stem, x, known, Path.fileName?_eq_some_iff.1 hn, hname, hstem, hne, hdot, hknown,
      hsame⟩
  · rintro ⟨n, stem, x, known, hn, hname, hstem, hne, hdot, hknown, hsame⟩
    refine ⟨x, Option.bind_eq_some_iff.2 ⟨n, Path.fileName?_eq_some_iff.2 hn, ?_⟩, ?_⟩
    · exact Name.extension?_eq_some_iff.2 ⟨stem, hstem, hname, hdot⟩
    · exact (hlisted x hdot).2 ⟨hne, known, hknown, hsame⟩

/-! ## Lists that say the same -/

/-- One list is the other written in another way. -/
inductive Respelling : List String → List String → Prop
  /-- In another order. -/
  | reordered {extensions extensions' : List String} (h : extensions.Perm extensions') :
      Respelling extensions extensions'
  /-- With an extension listed again. -/
  | repeated {extension : String} {extensions : List String} (h : extension ∈ extensions) :
      Respelling extensions (extension :: extensions)
  /-- With one more dot in front of an extension. -/
  | dotted (extension : String) (extensions : List String) :
      Respelling (extension :: extensions) (("." ++ extension) :: extensions)
  /-- With an extension in another case. -/
  | recased {extension extension' : String} (h : Text.SameButCase extension extension')
      (extensions : List String) : Respelling (extension :: extensions) (extension' :: extensions)
  /-- With an entry more that is nothing but dots. -/
  | padded {dots : String} (h : ∀ c ∈ dots.toList, c = '.') (extensions : List String) :
      Respelling extensions (dots :: extensions)

theorem lists_cons {form : String} : Lists (extension :: extensions) form ↔
    normalizeExtension extension = form ∨ Lists extensions form := by
  simp [Lists]

theorem Respelling.lists_iff (h : Respelling extensions extensions') {form : String}
    (hform : form ≠ "") : Lists extensions form ↔ Lists extensions' form := by
  cases h with
  | reordered h => simp only [Lists, h.mem_iff]
  | repeated h =>
    rw [lists_cons, or_iff_right_of_imp]
    rintro rfl
    exact ⟨_, h, rfl⟩
  | dotted extension extensions =>
    rw [lists_cons, lists_cons, normalizeExtension_congr withoutDots_dot_append]
  | recased h extensions =>
    rw [lists_cons, lists_cons, normalizeExtension_eq_of_sameButCase h]
  | padded h extensions =>
    rw [lists_cons, normalizeExtension_eq_empty_iff.2 (withoutDots_eq_empty_iff.2 h),
      or_iff_right hform.symm]

/-- Lists of the same forms make text of the same names. -/
theorem isText_withTextExtensions_congr
    (h : ∀ form, form ≠ "" → (Lists extensions form ↔ Lists extensions' form))
    (name? : Option Name) :
    (site.withTextExtensions extensions).isText name? =
      (site.withTextExtensions extensions').isText name? := by
  have hlisted : (site.withTextExtensions extensions).hasTextExtension =
      (site.withTextExtensions extensions').hasTextExtension := by
    funext x
    rw [Bool.eq_iff_iff, hasTextExtension_iff, hasTextExtension_iff]
    exact and_congr_right (h _)
  rw [isText, isText, hlisted]

/-- A site gives out the same assets if the same names are those of text files. -/
theorem resolve_withTextExtensions_congr
    (h : ∀ name?, (site.withTextExtensions extensions).isText name? =
      (site.withTextExtensions extensions').isText name?) :
    (site.withTextExtensions extensions).resolve d request =
      (site.withTextExtensions extensions').resolve d request := by
  have hasset : ∀ place entry,
      (site.withTextExtensions extensions).assetAt request place entry =
        (site.withTextExtensions extensions').assetAt request place entry := by
    intro place entry
    cases entry <;> simp only [assetAt, h]
  simp only [resolve, home_withTextExtensions, locate_withTextExtensions, hasset]
  rfl

theorem Respelling.lists_iff_of_eqvGen (h : Relation.EqvGen Respelling extensions extensions')
    {form : String} (hform : form ≠ "") : Lists extensions form ↔ Lists extensions' form := by
  induction h with
  | rel _ _ h => exact h.lists_iff hform
  | refl => rfl
  | symm _ _ _ ih => exact ih.symm
  | trans _ _ _ _ _ ih ih' => exact ih.trans ih'

end Site

/-- The extensions of text files, those that are warned about written as the warning
    recommends. -/
def Settings.heeded (settings : Settings) (d : Disk) : List String :=
  settings.site.textExtensions.map fun extension =>
    if .dotInExtension extension ∈ settings.warnings d then withoutDots extension else extension

namespace Site

theorem lists_heeded_iff {settings : Settings} {form : String} :
    Lists (settings.heeded d) form ↔ Lists settings.site.textExtensions form := by
  have hform : ∀ extension : String,
      normalizeExtension (if .dotInExtension extension ∈ settings.warnings d then
        Settings.withoutDots extension else extension) = normalizeExtension extension := by
    intro extension
    split_ifs
    · exact normalizeExtension_congr withoutDots_withoutDots
    · rfl
  simp only [Lists, Settings.heeded, List.mem_map, exists_exists_and_eq_and, hform]

/-- A file is text exactly if the path to it ends in a name that is a stem, a dot and an
    extension that is listed, whatever dots stand in front of it in the list and in
    whatever case it is. How the list is written does not matter, so it can be written as
    the warnings recommend. -/
theorem isText_exact (site : Site) (extensions : List String) (p : Path) :
    ((site.withTextExtensions extensions).isText p.fileName? = true ↔
      ∃ n stem x known, p.components.getLast? = some (.step (.name n)) ∧
        n.text = stem ++ "." ++ x ∧ stem ≠ "" ∧ x ≠ "" ∧ '.' ∉ x.toList ∧
        known ∈ extensions ∧ Text.SameButCase (Settings.withoutDots known) x) ∧
    (∀ extensions', Relation.EqvGen Respelling extensions extensions' →
      (site.withTextExtensions extensions).isText p.fileName? =
        (site.withTextExtensions extensions').isText p.fileName? ∧
      ∀ d request, (site.withTextExtensions extensions).resolve d request =
        (site.withTextExtensions extensions').resolve d request) ∧
    (∀ (settings : Settings) d request,
      (settings.site.withTextExtensions (settings.heeded d)).resolve d request =
        settings.site.resolve d request) ∧
    ∀ extension, ∃ complaint, (Settings.Warning.dotInExtension extension).message =
      complaint ++ "  Recommendation: write it as '" ++ Settings.withoutDots extension ++ "'" := by
  refine ⟨isText_iff, fun extensions' h => ?_, fun settings d request => ?_, fun _ => ⟨_, rfl⟩⟩
  · have hsame := @isText_withTextExtensions_congr site extensions extensions' fun form hform =>
      Respelling.lists_iff_of_eqvGen h hform
    exact ⟨hsame _, fun d request => resolve_withTextExtensions_congr hsame⟩
  · have hsame := @isText_withTextExtensions_congr settings.site (settings.heeded d)
      settings.site.textExtensions fun form _ => lists_heeded_iff
    exact resolve_withTextExtensions_congr hsame

open Specimen in
/-- A slash behind the name, dots in front of the extension and its case are of no
    account, and an entry that is nothing but dots says nothing. -/
theorem isText_exact_respelled :
    Relation.EqvGen Respelling ["css"] ["...", ".Css"] ∧
    (Specimen.site.withTextExtensions ["...", ".Css"]).isText
      (Path.mk "assets/app.min.CSS/").fileName? = true ∧
    (Specimen.site.withTextExtensions ["css"]).resolve disk "look.css" =
      (Specimen.site.withTextExtensions ["...", ".Css"]).resolve disk "look.css" := by
  have hdots : ∀ c ∈ "...".toList, c = '.' := withoutDots_eq_empty_iff.1 (by decide)
  have hrespelled : Relation.EqvGen Respelling ["css"] ["...", ".Css"] :=
    .trans _ _ _ (.rel _ _ (.recased (by decide) [])) <|
      .trans _ _ _ (.rel _ _ (.dotted "Css" [])) <| .rel _ _ (.padded hdots _)
  obtain ⟨hiff, hlists, _⟩ := isText_exact Specimen.site ["css"] ⟨"assets/app.min.CSS/"⟩
  obtain ⟨hsame, hresolve⟩ := hlists _ hrespelled
  refine ⟨hrespelled, hsame ▸ hiff.2 ?_, hresolve disk "look.css"⟩
  exact ⟨⟨"app.min.CSS", by decide⟩, "app.min", "CSS", "css", by decide⟩

end Site

end Docroot
