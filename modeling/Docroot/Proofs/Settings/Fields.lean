import Docroot.Proofs.Toml.Keys
import Docroot.Settings

/-!
# Fields of a settings file

A settings file whose sections are tables describes settings exactly if it conforms: its
keys are sections, the keys of a section are fields of it, and each is given a value of
the type of that field (`Settings.Conforms`, `exists_ofDocument?_iff`).

Much can be said of one field at a time because fields are written, and read, in the same
way: a reader takes a value, or the default in its place, exactly if it is what the field
has when written (`textOr_eq_some_iff` and the like). So the settings that a document
describes are those whose fields, when written, are what the document gives
(`ofDocument?_eq_some_iff`), and there are such settings if the types fit
(`Field.exists_valueIn_eq`).
-/

namespace Docroot.Settings

open Toml (Value)

/-! ## Fields -/

/-- The type of a field. -/
inductive FieldType where
  /-- A text. -/
  | text
  /-- A truth value. -/
  | boolean
  /-- An array of texts. -/
  | texts

/-- The value is of the type. -/
inductive FieldType.Has : FieldType → Value → Prop
  | text (t : String) : Has .text (.string t)
  | boolean (b : Bool) : Has .boolean (.boolean b)
  | texts (ts : List String) : Has .texts (.array (ts.map .string))

/-- A field of the settings. -/
inductive Field where
  /-- The root to serve. -/
  | root
  /-- The index document. -/
  | index
  /-- The extensions of text files. -/
  | textExtensions
  /-- Whether style sheets are put into the page. -/
  | inlinesSheets
  /-- The pattern of style sheets. -/
  | sheetPattern
  /-- The heading of the fallback page. -/
  | title

namespace Field

/-- The section in which a field stands. -/
def place : Field → String
  | root | index | textExtensions => "site"
  | inlinesSheets | sheetPattern | title => "page"

/-- The key under which a field stands in its section. -/
def key : Field → String
  | root => "root"
  | index => "index"
  | textExtensions => "text_extensions"
  | inlinesSheets => "inline_styles"
  | sheetPattern => "stylesheet_pattern"
  | title => "title"

/-- The type of a field. -/
def type : Field → FieldType
  | root | index | sheetPattern | title => .text
  | inlinesSheets => .boolean
  | textExtensions => .texts

/-- The value of a field, as it is written in a settings file. -/
def valueIn (settings : Settings) : Field → Value
  | root => .string settings.site.root.text
  | index => .string settings.site.index
  | textExtensions => .array (settings.site.textExtensions.map .string)
  | inlinesSheets => .boolean settings.style.inlinesSheets
  | sheetPattern => .string settings.style.sheetPattern
  | title => .string settings.style.title

/-- The document gives this value to the field. -/
def IsGiven (entries : List (String × Value)) (field : Field) (v : Value) : Prop :=
  ∃ inner, (field.place, .table inner) ∈ entries ∧ (field.key, v) ∈ inner

end Field

/-- Everything in the document is a section, and everything in a section is one of its
    fields, with a value of the type of that. -/
def Conforms (entries : List (String × Value)) : Prop :=
  ∀ name v, (name, v) ∈ entries → (name = "site" ∨ name = "page") ∧ ∃ inner, v = .table inner ∧
    ∀ key w, (key, w) ∈ inner →
      ∃ field : Field, field.place = name ∧ field.key = key ∧ field.type.Has w

/-- Every section that a document mentions is written as a table. -/
def HasTables (entries : List (String × Value)) : Prop :=
  ∀ name v, (name, v) ∈ entries → name = "site" ∨ name = "page" → ∃ inner, v = .table inner

variable {settings settings' : Settings} {field : Field}
  {entries inner : List (String × Value)} {v : Value} {v? : Option Value}

namespace Field

theorem place_cases (field : Field) : field.place = "site" ∨ field.place = "page" := by
  cases field <;> simp [place]

theorem has_valueIn : field.type.Has (field.valueIn settings) := by
  cases field <;> constructor

theorem map_string_injective {ts ts' : List String} (h : ts.map Value.string = ts'.map .string) :
    ts = ts' :=
  List.map_injective_iff.2 (fun _ _ => Value.string.inj) h

/-- Settings are made of their fields. -/
theorem eq_of_valueIn_eq (h : ∀ field : Field, field.valueIn settings = field.valueIn settings') :
    settings = settings' := by
  obtain ⟨⟨⟨root⟩, index, extensions⟩, inlines, pattern, title⟩ := settings
  obtain ⟨⟨⟨root'⟩, index', extensions'⟩, inlines', pattern', title'⟩ := settings'
  obtain rfl := Value.string.inj (h .root)
  obtain rfl := Value.string.inj (h .index)
  obtain rfl := map_string_injective (Value.array.inj (h .textExtensions))
  obtain rfl := Value.boolean.inj (h .inlinesSheets)
  obtain rfl := Value.string.inj (h .sheetPattern)
  obtain rfl := Value.string.inj (h .title)
  rfl

/-- Values of the right types are those of some settings. -/
theorem exists_valueIn_eq {value : Field → Value}
    (h : ∀ field : Field, field.type.Has (value field)) :
    ∃ settings : Settings, ∀ field, value field = field.valueIn settings := by
  have htext : ∀ field : Field, field.type = .text → ∃ t, value field = .string t := by
    intro field htype
    have hvalue := h field
    rw [htype] at hvalue
    generalize value field = v at hvalue
    cases hvalue with
    | text t => exact ⟨t, rfl⟩
  obtain ⟨root, hroot⟩ := htext .root rfl
  obtain ⟨index, hindex⟩ := htext .index rfl
  obtain ⟨pattern, hpattern⟩ := htext .sheetPattern rfl
  obtain ⟨title, htitle⟩ := htext .title rfl
  obtain ⟨extensions, hextensions⟩ : ∃ ts : List String,
      value .textExtensions = .array (ts.map .string) := by
    have hvalue := h .textExtensions
    generalize value .textExtensions = v at hvalue
    cases hvalue with
    | texts ts => exact ⟨ts, rfl⟩
  obtain ⟨inlines, hinlines⟩ : ∃ b, value .inlinesSheets = .boolean b := by
    have hvalue := h .inlinesSheets
    generalize value .inlinesSheets = v at hvalue
    cases hvalue with
    | boolean b => exact ⟨b, rfl⟩
  refine ⟨⟨⟨⟨root⟩, index, extensions⟩, inlines, pattern, title⟩, fun field => ?_⟩
  cases field <;> assumption

end Field

/-! ## Looking up -/

/-- The table that a document gives to a section. -/
def sectionAt (entries : List (String × Value)) (name : String) : List (String × Value) :=
  match entries.lookup name with
  | some (.table inner) => inner
  | _ => []

/-- The value that a document gives to a field. -/
def Field.given? (entries : List (String × Value)) (field : Field) : Option Value :=
  (sectionAt entries field.place).lookup field.key

theorem mem_sectionAt_iff {name : String} {entry : String × Value}
    (hkeys : (entries.map Prod.fst).Nodup) :
    entry ∈ sectionAt entries name ↔ ∃ inner, (name, .table inner) ∈ entries ∧ entry ∈ inner := by
  simp only [← Toml.lookup_eq_some_iff hkeys]
  rw [sectionAt]
  split <;> simp_all

theorem nodup_sectionAt (h : (Value.table entries).KeyedOnce) (name : String) :
    ((sectionAt entries name).map Prod.fst).Nodup := by
  cases h with
  | table hkeys hentries =>
    rw [sectionAt]
    split
    · rename_i inner hinner
      cases hentries _ (Toml.mem_of_lookup_eq_some hinner) with
      | table hkeys' => exact hkeys'
    · exact List.nodup_nil

theorem Field.given?_eq_some_iff (h : (Value.table entries).KeyedOnce) :
    field.given? entries = some v ↔ field.IsGiven entries v := by
  rw [given?, Toml.lookup_eq_some_iff (nodup_sectionAt h field.place)]
  cases h with
  | table hkeys => exact mem_sectionAt_iff hkeys

/-! ## Reading -/

theorem textOr_eq_some_iff {fallback t : String} :
    textOr fallback v? = some t ↔ v?.getD (.string fallback) = .string t := by
  cases v? with
  | none => simp [textOr]
  | some v => cases v <;> simp [textOr]

theorem booleanOr_eq_some_iff {fallback b : Bool} :
    booleanOr fallback v? = some b ↔ v?.getD (.boolean fallback) = .boolean b := by
  cases v? with
  | none => simp [booleanOr]
  | some v => cases v <;> simp [booleanOr]

theorem mapM_asText?_eq_some_iff {items : List Value} {ts : List String} :
    items.mapM asText? = some ts ↔ items = ts.map .string := by
  induction items generalizing ts with
  | nil => cases ts <;> simp
  | cons v items ih =>
    cases v <;> cases ts <;> simp [asText?, Option.bind_eq_some_iff, ih, and_comm]

theorem textsOr_eq_some_iff {fallback ts : List String} :
    textsOr fallback v? = some ts ↔
      v?.getD (.array (fallback.map .string)) = .array (ts.map .string) := by
  cases v? with
  | none =>
    simp only [textsOr, Option.getD_none, Option.some.injEq, Value.array.injEq]
    exact ⟨congrArg _, Field.map_string_injective⟩
  | some v => cases v <;> simp [textsOr, mapM_asText?_eq_some_iff]

theorem fieldValues?_table {fields : List String} : fieldValues? fields (.table inner) =
    if ∀ entry ∈ inner, entry.1 ∈ fields then some (fields.map fun field => inner.lookup field)
    else none := by
  simp only [fieldValues?, List.all_eq_true, List.contains_iff_mem]

theorem forall_site_iff {P : Field → Prop} : (∀ field : Field, field.place = "site" → P field) ↔
    P .root ∧ P .index ∧ P .textExtensions := by
  refine ⟨fun h => ⟨h _ rfl, h _ rfl, h _ rfl⟩, fun ⟨hroot, hindex, hextensions⟩ field => ?_⟩
  cases field <;> simp_all [Field.place]

theorem forall_page_iff {P : Field → Prop} : (∀ field : Field, field.place = "page" → P field) ↔
    P .inlinesSheets ∧ P .sheetPattern ∧ P .title := by
  refine ⟨fun h => ⟨h _ rfl, h _ rfl, h _ rfl⟩, fun ⟨hinlines, hpattern, htitle⟩ field => ?_⟩
  cases field <;> simp_all [Field.place]

theorem site?_eq_some_iff {site : Site} {style : PageStyle} :
    site? (some (.table inner)) = some site ↔ (∀ entry ∈ inner, entry.1 ∈ siteFields) ∧
      ∀ field : Field, field.place = "site" →
        (inner.lookup field.key).getD (field.valueIn default) = field.valueIn ⟨site, style⟩ := by
  obtain ⟨⟨root⟩, index, extensions⟩ := site
  rw [forall_site_iff, site?, fieldValues?_table]
  split_ifs with hkeys
  · rw [and_iff_right hkeys]
    simp only [siteFields, List.map_cons, List.map_nil, Option.bind_eq_some_iff,
      Option.map_eq_some_iff, textOr_eq_some_iff, textsOr_eq_some_iff]
    constructor
    · rintro ⟨root', hroot, index', hindex, extensions', hextensions, heq⟩
      obtain ⟨hsame, rfl, rfl⟩ := Site.mk.inj heq
      obtain rfl := Path.mk.inj hsame
      exact ⟨hroot, hindex, hextensions⟩
    · rintro ⟨hroot, hindex, hextensions⟩
      exact ⟨root, hroot, index, hindex, extensions, hextensions, rfl⟩
  · exact iff_of_false nofun fun h => hkeys h.1

theorem style?_eq_some_iff {site : Site} {style : PageStyle} :
    style? (some (.table inner)) = some style ↔ (∀ entry ∈ inner, entry.1 ∈ pageFields) ∧
      ∀ field : Field, field.place = "page" →
        (inner.lookup field.key).getD (field.valueIn default) = field.valueIn ⟨site, style⟩ := by
  obtain ⟨inlines, pattern, title⟩ := style
  rw [forall_page_iff, style?, fieldValues?_table]
  split_ifs with hkeys
  · rw [and_iff_right hkeys]
    simp only [pageFields, List.map_cons, List.map_nil, Option.bind_eq_some_iff,
      Option.map_eq_some_iff, textOr_eq_some_iff, booleanOr_eq_some_iff]
    constructor
    · rintro ⟨inlines', hinlines, pattern', hpattern, title', htitle, heq⟩
      obtain ⟨rfl, rfl, rfl⟩ := PageStyle.mk.inj heq
      exact ⟨hinlines, hpattern, htitle⟩
    · rintro ⟨hinlines, hpattern, htitle⟩
      exact ⟨inlines, hinlines, pattern, hpattern, title, htitle, rfl⟩
  · exact iff_of_false nofun fun h => hkeys h.1

/-! ## Documents -/

/-- Everything in the document is a section, and everything in a section is a field. -/
structure HasKnownKeys (entries : List (String × Value)) : Prop where
  sections : ∀ entry ∈ entries, entry.1 ∈ sections
  site : ∀ entry ∈ sectionAt entries "site", entry.1 ∈ siteFields
  page : ∀ entry ∈ sectionAt entries "page", entry.1 ∈ pageFields

/-- A section is a table, and an empty one if it is left out. -/
theorem lookup_eq_none_or (htables : HasTables entries) {name : String}
    (hname : name = "site" ∨ name = "page") :
    entries.lookup name = none ∧ sectionAt entries name = [] ∨
      entries.lookup name = some (.table (sectionAt entries name)) := by
  rw [sectionAt]
  cases h : entries.lookup name with
  | none => exact .inl ⟨rfl, rfl⟩
  | some v =>
    obtain ⟨inner, rfl⟩ := htables name v (Toml.mem_of_lookup_eq_some h) hname
    exact .inr rfl

theorem site?_lookup (htables : HasTables entries) :
    site? (entries.lookup "site") = site? (some (.table (sectionAt entries "site"))) := by
  rcases lookup_eq_none_or htables (.inl rfl) with ⟨hnone, hempty⟩ | htable
  · rw [hnone, hempty]
    rfl
  · rw [htable]

theorem style?_lookup (htables : HasTables entries) :
    style? (entries.lookup "page") = style? (some (.table (sectionAt entries "page"))) := by
  rcases lookup_eq_none_or htables (.inr rfl) with ⟨hnone, hempty⟩ | htable
  · rw [hnone, hempty]
    rfl
  · rw [htable]

/-- The settings that a document describes have what it gives in their fields, or else
    the default. -/
theorem ofDocument?_eq_some_iff (htables : HasTables entries) :
    ofDocument? entries = some settings ↔ HasKnownKeys entries ∧
      ∀ field : Field,
        (field.given? entries).getD (field.valueIn default) = field.valueIn settings := by
  obtain ⟨site, style⟩ := settings
  have hsite := @site?_eq_some_iff (sectionAt entries "site") site style
  have hpage := @style?_eq_some_iff (sectionAt entries "page") site style
  have hboth : ofDocument? entries = some ⟨site, style⟩ ↔
      (∀ entry ∈ entries, entry.1 ∈ sections) ∧
        site? (some (.table (sectionAt entries "site"))) = some site ∧
        style? (some (.table (sectionAt entries "page"))) = some style := by
    rw [ofDocument?, site?_lookup htables, style?_lookup htables]
    simp [Option.bind_eq_some_iff]
  rw [hboth, hsite, hpage]
  constructor
  · rintro ⟨hsections, ⟨hsite, hfields⟩, hpage, hfields'⟩
    refine ⟨⟨hsections, hsite, hpage⟩, fun field => ?_⟩
    rw [Field.given?]
    rcases field.place_cases with hplace | hplace <;> rw [hplace]
    · exact hfields field hplace
    · exact hfields' field hplace
  · rintro ⟨⟨hsections, hsite, hpage⟩, hfields⟩
    refine ⟨hsections, ⟨hsite, fun field hplace => ?_⟩, hpage, fun field hplace => ?_⟩ <;>
      rw [← hfields field, Field.given?, hplace]

namespace Field

/-- The fields and the keys that are known are the same. -/
theorem exists_place_key_iff {name key : String} :
    (∃ field : Field, field.place = name ∧ field.key = key) ↔
      name = "site" ∧ key ∈ siteFields ∨ name = "page" ∧ key ∈ pageFields := by
  constructor
  · rintro ⟨field, rfl, rfl⟩
    cases field <;> simp [place, Field.key, siteFields, pageFields]
  · simp only [siteFields, pageFields, List.mem_cons, List.not_mem_nil, or_false]
    rintro (⟨rfl, rfl | rfl | rfl⟩ | ⟨rfl, rfl | rfl | rfl⟩)
    exacts [⟨root, rfl, rfl⟩, ⟨index, rfl, rfl⟩, ⟨textExtensions, rfl, rfl⟩,
      ⟨inlinesSheets, rfl, rfl⟩, ⟨sheetPattern, rfl, rfl⟩, ⟨title, rfl, rfl⟩]

theorem eq_of_key_eq {field field' : Field} (h : field.key = field'.key) : field = field' := by
  cases field <;> cases field' <;> simp_all [key]

end Field

theorem Conforms.exists_field (h : Conforms entries) {name key : String} {w : Value}
    (hinner : (name, .table inner) ∈ entries) (hw : (key, w) ∈ inner) :
    ∃ field : Field, field.place = name ∧ field.key = key ∧ field.type.Has w := by
  obtain ⟨-, inner', heq, hfields⟩ := h name _ hinner
  obtain rfl := Value.table.inj heq
  exact hfields key w hw

/-- A document conforms if its keys are known and its values have the right types. -/
theorem conforms_iff (hkeyed : (Value.table entries).KeyedOnce) (htables : HasTables entries) :
    Conforms entries ↔ HasKnownKeys entries ∧
      ∀ (field : Field) v, field.given? entries = some v → field.type.Has v := by
  have hentries : (entries.map Prod.fst).Nodup := by
    cases hkeyed with
    | table hkeys => exact hkeys
  constructor
  · intro h
    have hknown : ∀ name, ∀ entry ∈ sectionAt entries name,
        ∃ field : Field, field.place = name ∧ field.key = entry.1 := by
      intro name entry hentry
      obtain ⟨inner, hinner, hentry⟩ := (mem_sectionAt_iff hentries).1 hentry
      obtain ⟨field, hplace, hkey, -⟩ := h.exists_field hinner hentry
      exact ⟨field, hplace, hkey⟩
    refine ⟨⟨fun entry hentry => ?_, fun entry hentry => ?_, fun entry hentry => ?_⟩, ?_⟩
    · simpa [sections] using (h entry.1 entry.2 hentry).1
    · simpa using Field.exists_place_key_iff.1 (hknown "site" entry hentry)
    · simpa using Field.exists_place_key_iff.1 (hknown "page" entry hentry)
    · intro field v hgiven
      obtain ⟨inner, hinner, hv⟩ := (Field.given?_eq_some_iff hkeyed).1 hgiven
      obtain ⟨field', -, hkey, hhas⟩ := h.exists_field hinner hv
      exact Field.eq_of_key_eq hkey ▸ hhas
  · rintro ⟨hknown, htypes⟩ name v hv
    have hname : name = "site" ∨ name = "page" := by
      simpa [sections] using hknown.sections _ hv
    obtain ⟨inner, rfl⟩ := htables name v hv hname
    refine ⟨hname, inner, rfl, fun key w hw => ?_⟩
    have hentry : (key, w) ∈ sectionAt entries name :=
      (mem_sectionAt_iff hentries).2 ⟨inner, hv, hw⟩
    obtain ⟨field, rfl, rfl⟩ : ∃ field : Field, field.place = name ∧ field.key = key := by
      rcases hname with rfl | rfl
      · exact Field.exists_place_key_iff.2 (.inl ⟨rfl, hknown.site _ hentry⟩)
      · exact Field.exists_place_key_iff.2 (.inr ⟨rfl, hknown.page _ hentry⟩)
    exact ⟨field, rfl, rfl, htypes field w ((Field.given?_eq_some_iff hkeyed).2 ⟨inner, hv, hw⟩)⟩

/-- A document describes settings exactly if it conforms. -/
theorem exists_ofDocument?_iff (hkeyed : (Value.table entries).KeyedOnce)
    (htables : HasTables entries) :
    (∃ settings, ofDocument? entries = some settings) ↔ Conforms entries := by
  simp only [ofDocument?_eq_some_iff htables, conforms_iff hkeyed htables, exists_and_left]
  refine and_congr_right fun _ => ⟨?_, fun htypes => Field.exists_valueIn_eq fun field => ?_⟩
  · rintro ⟨settings, hsettings⟩ field v hv
    have hfield := hsettings field
    rw [hv, Option.getD_some] at hfield
    exact hfield ▸ Field.has_valueIn
  · cases hv : field.given? entries with
    | none => exact Field.has_valueIn
    | some v => exact htypes field v hv

end Docroot.Settings
