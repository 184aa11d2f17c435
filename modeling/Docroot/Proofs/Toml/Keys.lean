import Docroot.Toml.Document
import Mathlib.Data.List.Nodup

/-!
# Keys of tables

A document defines no key twice: in the table that is read from it, and in every table
and array inside, all keys differ (`keyedOnce_of_read?`). So it does not matter where in a
table a key stands (`lookup_eq_some_iff`).

While a document is read, whatever opens a table or defines a value preserves that no key
stands twice (`Item.KeyedOnce`): a key is set where it stands already, or is added because
it does not. What leads to a table deeper down preserves it if what is done there does
(`Item.KeyedOnce.change`). A table given as a value starts empty, and its fields are
defined one by one (`keyedWithin`), as are the lines of a document
(`keyedOnce_of_linesWithin`).
-/

namespace Docroot.Toml

/-- No table in the value has a key twice. -/
inductive Value.KeyedOnce : Value → Prop
  | string (text : String) : KeyedOnce (.string text)
  | boolean (value : Bool) : KeyedOnce (.boolean value)
  | number (text : String) : KeyedOnce (.number text)
  | moment (text : String) : KeyedOnce (.moment text)
  | array {items : List Value} (hitems : ∀ v ∈ items, KeyedOnce v) : KeyedOnce (.array items)
  | table {entries : List (String × Value)} (hkeys : (entries.map Prod.fst).Nodup)
      (hentries : ∀ entry ∈ entries, KeyedOnce entry.2) : KeyedOnce (.table entries)

/-- No table in the item has a key twice. -/
inductive Item.KeyedOnce : Item → Prop
  | value {v : Value} (hv : v.KeyedOnce) : KeyedOnce (.value v)
  | table {isImplicit isDotted : Bool} {entries : List (String × Item)}
      (hkeys : (entries.map Prod.fst).Nodup) (hentries : ∀ entry ∈ entries, KeyedOnce entry.2) :
      KeyedOnce (.table isImplicit isDotted entries)
  | tables {elements : List Item} (helements : ∀ item ∈ elements, KeyedOnce item) :
      KeyedOnce (.tables elements)

/-! ## Looking up -/

section Lookup

variable {α : Type*} {key : String} {x : α} {entries : List (String × α)}

theorem mem_of_lookup_eq_some (h : entries.lookup key = some x) : (key, x) ∈ entries := by
  obtain ⟨front, behind, rfl, -⟩ := List.lookup_eq_some_iff.1 h
  exact List.mem_append_right front List.mem_cons_self

theorem lookup_eq_none_iff : entries.lookup key = none ↔ key ∉ entries.map Prod.fst := by
  simp only [List.lookup_eq_none_iff, List.mem_map, bne_iff_ne, not_exists, not_and]
  exact forall₂_congr fun _ _ => ne_comm

/-- Among entries with different keys, the only one with a key is the one looked up. -/
theorem lookup_eq_some_iff (hkeys : (entries.map Prod.fst).Nodup) :
    entries.lookup key = some x ↔ (key, x) ∈ entries := by
  refine ⟨mem_of_lookup_eq_some, fun hmem => ?_⟩
  cases h : entries.lookup key with
  | none => exact absurd (List.mem_map_of_mem hmem) (lookup_eq_none_iff.1 h)
  | some y =>
    have hsame := List.inj_on_of_nodup_map hkeys (mem_of_lookup_eq_some h) hmem rfl
    rw [(Prod.mk.inj hsame).2]

end Lookup

/-! ## Defining -/

namespace Item

variable {isImplicit isDotted isImplicit' isDotted' isBehindDot isOneOfMany : Bool}
  {key : String} {keys : List String} {v : Value} {item item' : Item}
  {entries : List (String × Item)} {act : Item → Option Item}

theorem keyedOnce_empty (isImplicit isDotted : Bool) :
    (Item.table isImplicit isDotted []).KeyedOnce :=
  .table List.nodup_nil fun _ h => absurd h List.not_mem_nil

theorem KeyedOnce.of_lookup (h : (Item.table isImplicit isDotted entries).KeyedOnce)
    (hlookup : entries.lookup key = some item) : item.KeyedOnce := by
  cases h with
  | table _ hentries => exact hentries _ (mem_of_lookup_eq_some hlookup)

/-- An entry with a new key can be added. -/
theorem KeyedOnce.concat (h : (Item.table isImplicit isDotted entries).KeyedOnce)
    (hnew : entries.lookup key = none) (hitem : item.KeyedOnce) :
    (Item.table isImplicit' isDotted' (entries ++ [(key, item)])).KeyedOnce := by
  cases h with
  | table hkeys hentries =>
    refine .table ?_ fun entry hentry => ?_
    · rw [List.map_append, List.map_singleton, List.nodup_append_comm]
      exact List.nodup_cons.2 ⟨lookup_eq_none_iff.1 hnew, hkeys⟩
    · rcases List.mem_append.1 hentry with hold | hadded
      · exact hentries entry hold
      · rw [List.mem_singleton.1 hadded]
        exact hitem

/-- An item can be set under a key, old or new. -/
theorem KeyedOnce.setEntry (h : (Item.table isImplicit isDotted entries).KeyedOnce)
    (hitem : item.KeyedOnce) :
    (Item.table isImplicit' isDotted' (setEntry key item entries)).KeyedOnce := by
  rw [Item.setEntry]
  split_ifs with hold
  · cases h with
    | table hkeys hentries =>
      refine .table ?_ fun entry hentry => ?_
      · have hsame : ((entries.map fun entry => if entry.1 = key then (key, item) else entry).map
            Prod.fst) = entries.map Prod.fst := by
          rw [List.map_map]
          refine List.map_congr_left fun entry _ => ?_
          rw [Function.comp_apply]
          split_ifs with heq
          · exact heq.symm
          · rfl
        rw [hsame]
        exact hkeys
      · obtain ⟨entry', hentry', rfl⟩ := List.mem_map.1 hentry
        split_ifs
        · exact hitem
        · exact hentries entry' hentry'
  · exact h.concat (Option.not_isSome_iff_eq_none.1 hold) hitem

/-- What is done deeper down can be done from above. -/
theorem KeyedOnce.change
    (hact : ∀ {item item'}, act item = some item' → item.KeyedOnce → item'.KeyedOnce)
    (h : change isDotted act keys item = some item') (hitem : item.KeyedOnce) :
    item'.KeyedOnce := by
  induction keys generalizing item item' with
  | nil =>
    rw [Item.change] at h
    exact hact h hitem
  | cons key keys ih =>
    cases item with
    | value | tables => simp [Item.change] at h
    | table isImplicit isDotted' entries =>
      simp only [Item.change] at h
      split at h
      · obtain ⟨made, hmade, rfl⟩ := Option.map_eq_some_iff.1 h
        exact hitem.setEntry (ih hmade (keyedOnce_empty true isDotted))
      · cases h
      · rename_i hinner
        split_ifs at h
        obtain ⟨changed, hchanged, rfl⟩ := Option.map_eq_some_iff.1 h
        exact hitem.setEntry (ih hchanged (hitem.of_lookup hinner))
      · rename_i elements htables
        cases hitem.of_lookup htables with
        | tables helements =>
          split at h
          · cases h
          · rename_i last hlast
            obtain ⟨changed, hchanged, rfl⟩ := Option.map_eq_some_iff.1 h
            have hlast := ih hchanged (helements last (List.mem_of_getLast? hlast))
            refine hitem.setEntry (.tables (List.forall_mem_append.2
              ⟨fun element helement => ?_, List.forall_mem_singleton.2 hlast⟩))
            exact helements element (List.dropLast_subset _ helement)

/-! ### Values -/

theorem KeyedOnce.define (hv : v.KeyedOnce) (h : define isBehindDot key v item = some item')
    (hitem : item.KeyedOnce) : item'.KeyedOnce := by
  cases item with
  | value | tables => cases h
  | table isImplicit isDotted entries =>
    rw [Item.define] at h
    split_ifs at h with hfits
    obtain rfl := Option.some.inj h
    rw [Bool.or_eq_true, not_or] at hfits
    exact hitem.concat (Option.not_isSome_iff_eq_none.1 hfits.2) (.value hv)

theorem KeyedOnce.defineDotted (hv : v.KeyedOnce) (h : defineDotted keys v item = some item')
    (hitem : item.KeyedOnce) : item'.KeyedOnce := by
  rw [Item.defineDotted] at h
  split at h
  · cases h
  · exact hitem.change (KeyedOnce.define hv) h

/-! ### Headers -/

theorem KeyedOnce.openTable (h : openTable key item = some item') (hitem : item.KeyedOnce) :
    item'.KeyedOnce := by
  cases item with
  | value | tables => cases h
  | table isImplicit isDotted entries =>
    rw [Item.openTable] at h
    split at h
    · obtain rfl := Option.some.inj h
      exact hitem.setEntry (keyedOnce_empty false false)
    · rename_i hinner
      obtain rfl := Option.some.inj h
      cases hitem.of_lookup hinner with
      | table hkeys hentries => exact hitem.setEntry (.table hkeys hentries)
    · cases h

theorem KeyedOnce.appendTable (h : appendTable key item = some item') (hitem : item.KeyedOnce) :
    item'.KeyedOnce := by
  cases item with
  | value | tables => cases h
  | table isImplicit isDotted entries =>
    rw [Item.appendTable] at h
    split at h
    · obtain rfl := Option.some.inj h
      exact hitem.setEntry (.tables (List.forall_mem_singleton.2 (keyedOnce_empty false false)))
    · rename_i hinner
      obtain rfl := Option.some.inj h
      cases hitem.of_lookup hinner with
      | tables helements =>
        exact hitem.setEntry (.tables (List.forall_mem_append.2
          ⟨helements, List.forall_mem_singleton.2 (keyedOnce_empty false false)⟩))
    · cases h

theorem KeyedOnce.openHeader (h : openHeader isOneOfMany keys item = some item')
    (hitem : item.KeyedOnce) : item'.KeyedOnce := by
  rw [Item.openHeader] at h
  split at h
  · cases h
  · refine hitem.change (fun hact => ?_) h
    split_ifs at hact
    · exact KeyedOnce.appendTable hact
    · exact KeyedOnce.openTable hact

/-! ### What has been defined -/

theorem entryValues_eq_map :
    entryValues entries = entries.map fun entry => (entry.1, entry.2.toValue) := by
  induction entries with
  | nil => rfl
  | cons entry entries ih => rw [entryValues, ih, List.map_cons]

theorem elementValues_eq_map {elements : List Item} :
    elementValues elements = elements.map toValue := by
  induction elements with
  | nil => rfl
  | cons item elements ih => rw [elementValues, ih, List.map_cons]

theorem KeyedOnce.toValue (h : item.KeyedOnce) : item.toValue.KeyedOnce := by
  induction h with
  | value hv => exact hv
  | table hkeys _ ih =>
    rw [Item.toValue, entryValues_eq_map]
    refine .table (by rwa [List.map_map]) fun entry hentry => ?_
    obtain ⟨entry', hentry', rfl⟩ := List.mem_map.1 hentry
    exact ih entry' hentry'
  | tables _ ih =>
    rw [Item.toValue, elementValues_eq_map]
    exact .array (List.forall_mem_map.2 ih)

end Item

/-! ## Reading -/

/-- What is made of a result is made of it alone, and leaves what is behind it. -/
theorem exists_of_map_eq_some {α β : Type} {read : Option (α × List Char)} {f : α → β} {y : β}
    {behind : List Char} (h : (read.map fun (x, rest) => (f x, rest)) = some (y, behind)) :
    ∃ x, read = some (x, behind) ∧ f x = y := by
  obtain ⟨⟨x, rest⟩, hread, heq⟩ := Option.map_eq_some_iff.1 h
  obtain ⟨hy, rfl⟩ := Prod.mk.inj heq
  exact ⟨x, hread, hy⟩

theorem keyedOnce_of_ofWord? {text : List Char} {v : Value} (h : ofWord? text = some v) :
    v.KeyedOnce := by
  rw [ofWord?] at h
  split_ifs at h <;> obtain rfl := Option.some.inj h
  · exact .boolean true
  · exact .boolean false
  · exact .number _
  · exact .moment _

/-- What is read within a depth has no key twice. -/
structure KeyedWithin (depth : Nat) : Prop where
  value : ∀ {text v behind}, valueWithin depth text = some (v, behind) → v.KeyedOnce
  items : ∀ {text vs behind}, itemsWithin depth text = some (vs, behind) → ∀ v ∈ vs, v.KeyedOnce
  fields : ∀ {item text item' behind}, fieldsWithin depth item text = some (item', behind) →
    item.KeyedOnce → item'.KeyedOnce
  definition : ∀ {item text item' behind},
    definitionWithin depth item text = some (item', behind) → item.KeyedOnce → item'.KeyedOnce

namespace KeyedWithin

variable {depth : Nat} {text behind : List Char} {v : Value} {vs : List Value} {item item' : Item}

theorem value_succ (hdepth : KeyedWithin depth)
    (h : valueWithin (depth + 1) text = some (v, behind)) : v.KeyedOnce := by
  rw [valueWithin.eq_def] at h
  dsimp only at h
  split at h
  · obtain ⟨rest, -, hitems⟩ := Option.bind_eq_some_iff.1 h
    obtain ⟨vs, hread, rfl⟩ := exists_of_map_eq_some hitems
    exact .array (hdepth.items hread)
  · obtain ⟨rest, -, hfields⟩ := Option.bind_eq_some_iff.1 h
    obtain ⟨item, hread, rfl⟩ := exists_of_map_eq_some hfields
    exact (hdepth.fields hread (Item.keyedOnce_empty false false)).toValue
  · split_ifs at h
    · obtain ⟨s, -, rfl⟩ := exists_of_map_eq_some h
      exact .string s
    · obtain ⟨v', hword, heq⟩ := Option.map_eq_some_iff.1 h
      obtain ⟨rfl, rfl⟩ := Prod.mk.inj heq
      exact keyedOnce_of_ofWord? hword
  · cases h

theorem items_succ (hdepth : KeyedWithin depth)
    (h : itemsWithin (depth + 1) text = some (vs, behind)) : ∀ v ∈ vs, v.KeyedOnce := by
  rw [itemsWithin.eq_def] at h
  dsimp only at h
  split at h
  · obtain ⟨rfl, rfl⟩ := Prod.mk.inj (Option.some.inj h)
    exact fun _ h => absurd h List.not_mem_nil
  · obtain ⟨⟨v, rest⟩, hv, h⟩ := Option.bind_eq_some_iff.1 h
    obtain ⟨rest', -, h⟩ := Option.bind_eq_some_iff.1 h
    dsimp only at h
    split at h
    · obtain ⟨rest'', -, h⟩ := Option.bind_eq_some_iff.1 h
      obtain ⟨vs', hread, rfl⟩ := exists_of_map_eq_some h
      exact List.forall_mem_cons.2 ⟨hdepth.value hv, hdepth.items hread⟩
    · obtain ⟨rfl, rfl⟩ := Prod.mk.inj (Option.some.inj h)
      exact List.forall_mem_singleton.2 (hdepth.value hv)
    · cases h

theorem fields_succ (hdepth : KeyedWithin depth)
    (h : fieldsWithin (depth + 1) item text = some (item', behind)) (hitem : item.KeyedOnce) :
    item'.KeyedOnce := by
  rw [fieldsWithin.eq_def] at h
  dsimp only at h
  split at h
  · obtain ⟨rfl, rfl⟩ := Prod.mk.inj (Option.some.inj h)
    exact hitem
  · obtain ⟨⟨defined, rest⟩, hdefined, h⟩ := Option.bind_eq_some_iff.1 h
    have hitem := hdepth.definition hdefined hitem
    obtain ⟨rest', -, h⟩ := Option.bind_eq_some_iff.1 h
    dsimp only at h
    split at h
    · obtain ⟨rest'', -, h⟩ := Option.bind_eq_some_iff.1 h
      exact hdepth.fields h hitem
    · obtain ⟨rfl, rfl⟩ := Prod.mk.inj (Option.some.inj h)
      exact hitem
    · cases h

theorem definition_succ (hdepth : KeyedWithin depth)
    (h : definitionWithin (depth + 1) item text = some (item', behind)) (hitem : item.KeyedOnce) :
    item'.KeyedOnce := by
  rw [definitionWithin] at h
  obtain ⟨⟨keys, rest⟩, -, h⟩ := Option.bind_eq_some_iff.1 h
  dsimp only at h
  split at h
  · obtain ⟨⟨v, rest'⟩, hv, h⟩ := Option.bind_eq_some_iff.1 h
    obtain ⟨defined, hdefined, heq⟩ := Option.map_eq_some_iff.1 h
    obtain ⟨rfl, rfl⟩ := Prod.mk.inj heq
    exact hitem.defineDotted (hdepth.value hv) hdefined
  · cases h

end KeyedWithin

/-- The readers of values call each other with less depth. -/
theorem keyedWithin : ∀ depth, KeyedWithin depth
  | 0 => ⟨by simp [valueWithin], by simp [itemsWithin], by simp [fieldsWithin],
      by simp [definitionWithin]⟩
  | depth + 1 =>
    have hdepth := keyedWithin depth
    ⟨hdepth.value_succ, hdepth.items_succ, hdepth.fields_succ, hdepth.definition_succ⟩

theorem keyedOnce_of_linesWithin {budget : Nat} {place : List String} {top top' : Item}
    {text : List Char} (h : linesWithin budget place top text = some top')
    (htop : top.KeyedOnce) : top'.KeyedOnce := by
  induction budget generalizing place top text with
  | zero => simp [linesWithin] at h
  | succ budget ih =>
    rw [linesWithin] at h
    split at h
    · exact Option.some.inj h ▸ htop
    · obtain ⟨⟨⟨isOneOfMany, keys⟩, rest⟩, -, h⟩ := Option.bind_eq_some_iff.1 h
      obtain ⟨behind, -, h⟩ := Option.bind_eq_some_iff.1 h
      obtain ⟨opened, hopened, h⟩ := Option.bind_eq_some_iff.1 h
      exact ih h (htop.openHeader hopened)
    · split_ifs at h
      · obtain ⟨behind, -, h⟩ := Option.bind_eq_some_iff.1 h
        exact ih h htop
      · obtain ⟨⟨keys, rest⟩, -, h⟩ := Option.bind_eq_some_iff.1 h
        dsimp only at h
        split at h
        · obtain ⟨⟨v, rest'⟩, hv, h⟩ := Option.bind_eq_some_iff.1 h
          obtain ⟨behind, -, h⟩ := Option.bind_eq_some_iff.1 h
          obtain ⟨defined, hdefined, h⟩ := Option.bind_eq_some_iff.1 h
          have hv := (keyedWithin _).value hv
          exact ih h (htop.change (fun hact hitem => hitem.defineDotted hv hact) hdefined)
        · cases h

/-- In a document that can be read, no key is defined twice. -/
theorem keyedOnce_of_read? {text : String} {entries : List (String × Value)}
    (h : read? text = some entries) : (Value.table entries).KeyedOnce := by
  rw [read?] at h
  split at h
  · rename_i entries' hlines
    obtain rfl := Option.some.inj h
    obtain ⟨top, htop, hvalue⟩ := Option.map_eq_some_iff.1 hlines
    rw [← hvalue]
    exact (keyedOnce_of_linesWithin htop (Item.keyedOnce_empty false false)).toValue
  · cases h

end Docroot.Toml
