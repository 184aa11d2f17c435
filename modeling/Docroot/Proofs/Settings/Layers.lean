import Docroot.Proofs.Settings.Fields
import Docroot.Proofs.Specimen

/-!
# Layers of settings

Each field of the settings has the value from the command line, if there is one, else the
one in the settings file, else its default (`Settings.FromLayers`). What the command line
says decides neither whether the file can be used nor what the other fields have.

The main result is `load_exact`.
-/

namespace Docroot.Settings

open Toml (Value)

namespace Field

/-- The value that the command line gives to a field. -/
def overriddenBy (overrides : Overrides) : Field → Option Value
  | root => overrides.root?.map fun root => .string root.text
  | index => overrides.index?.map .string
  | _ => none

end Field

/-- The value of a field is taken from the first layer that has one. -/
inductive FromLayers (entries : List (String × Value)) (overrides : Overrides) (field : Field) :
    Value → Prop
  /-- From the command line. -/
  | overridden {v : Value} (h : field.overriddenBy overrides = some v) :
      FromLayers entries overrides field v
  /-- From the settings file. -/
  | given {v : Value} (hnone : field.overriddenBy overrides = none) (h : field.IsGiven entries v) :
      FromLayers entries overrides field v
  /-- The default. -/
  | default (hnone : field.overriddenBy overrides = none) (h : ∀ v, ¬ field.IsGiven entries v) :
      FromLayers entries overrides field (field.valueIn Settings.default)

variable {settings : Settings} {overrides : Overrides} {field : Field}
  {entries : List (String × Value)} {v : Value} {d : Disk} {file : Path} {text : String}

theorem Field.valueIn_override :
    field.valueIn (settings.override overrides) =
      (field.overriddenBy overrides).getD (field.valueIn settings) := by
  obtain ⟨root?, index?⟩ := overrides
  cases field <;> cases root? <;> cases index? <;> rfl

/-- The first layer that has a value decides. -/
theorem fromLayers_iff (hkeyed : (Value.table entries).KeyedOnce) :
    FromLayers entries overrides field v ↔
      v = (field.overriddenBy overrides).getD
        ((field.given? entries).getD (field.valueIn default)) := by
  constructor
  · rintro (h | ⟨hnone, h⟩ | ⟨hnone, h⟩)
    · rw [h, Option.getD_some]
    · rw [hnone, (Field.given?_eq_some_iff hkeyed).2 h]
      rfl
    · have hgiven : field.given? entries = none :=
        Option.eq_none_iff_forall_ne_some.2 fun v hv =>
          h v ((Field.given?_eq_some_iff hkeyed).1 hv)
      rw [hnone, hgiven]
      rfl
  · rintro rfl
    cases hoverridden : field.overriddenBy overrides with
    | some v => exact .overridden hoverridden
    | none =>
      cases hgiven : field.given? entries with
      | some v => exact .given hoverridden ((Field.given?_eq_some_iff hkeyed).1 hgiven)
      | none =>
        refine .default hoverridden fun v hv => ?_
        rw [(Field.given?_eq_some_iff hkeyed).2 hv] at hgiven
        cases hgiven

theorem load_some_eq_ok_iff (hread : d.readText file = .ok text)
    (hdocument : Toml.read? text = some entries) :
    load d (some file) overrides = .ok settings ↔
      ∃ described, ofDocument? entries = some described ∧
        described.override overrides = settings := by
  have hfile : ofText? text = ofDocument? entries := by rw [ofText?, hdocument, Option.bind_some]
  rw [load, loadFileOrStandard, loadFile, hread]
  dsimp only
  rw [hfile]
  cases ofDocument? entries <;> simp [Except.map]

/-- An empty settings file describes the default. -/
theorem loadFile_of_empty (hread : d.readText file = .ok "") : loadFile d file = .ok default := by
  have hdocument : Toml.read? "" = some [] := by rfl
  have hdefault : ofText? "" = some default := by
    rw [ofText?, hdocument]
    rfl
  rw [loadFile, hread]
  dsimp only
  rw [hdefault]

/-- A settings file can be used exactly if it conforms, whatever the command line says. Then
    each field has its value from the first layer that has one, whatever the other fields
    have. Without a settings file the settings are those of an empty one. -/
theorem load_exact (hread : d.readText file = .ok text)
    (hdocument : Toml.read? text = some entries) (htables : HasTables entries)
    (overrides : Overrides) :
    ((∃ settings, load d (some file) overrides = .ok settings) ↔ Conforms entries) ∧
    (∀ settings, load d (some file) overrides = .ok settings ↔
      Conforms entries ∧
        ∀ field : Field, FromLayers entries overrides field (field.valueIn settings)) ∧
    ∀ d' d'' file', d'.exists? standardFile = false → d''.readText file' = .ok "" →
      load d' none overrides = load d'' (some file') overrides := by
  have hkeyed := Toml.keyedOnce_of_read? hdocument
  have hconforms := exists_ofDocument?_iff hkeyed htables
  have hlayers : ∀ described settings, ofDocument? entries = some described →
      (described.override overrides = settings ↔
        ∀ field : Field, FromLayers entries overrides field (field.valueIn settings)) := by
    intro described settings hdescribed
    have hfields := ((ofDocument?_eq_some_iff htables).1 hdescribed).2
    simp only [fromLayers_iff hkeyed, hfields, ← Field.valueIn_override]
    exact ⟨fun h _ => h ▸ rfl, fun h => (Field.eq_of_valueIn_eq h).symm⟩
  refine ⟨?_, fun settings => ?_, fun d' d'' file' habsent hempty => ?_⟩
  · rw [← hconforms]
    simp only [load_some_eq_ok_iff hread hdocument]
    exact ⟨fun ⟨_, described, hdescribed, _⟩ => ⟨described, hdescribed⟩,
      fun ⟨described, hdescribed⟩ => ⟨_, described, hdescribed, rfl⟩⟩
  · rw [load_some_eq_ok_iff hread hdocument, ← hconforms]
    constructor
    · rintro ⟨described, hdescribed, hsettings⟩
      exact ⟨⟨described, hdescribed⟩, (hlayers described settings hdescribed).1 hsettings⟩
    · rintro ⟨⟨described, hdescribed⟩, hfields⟩
      exact ⟨described, hdescribed, (hlayers described settings hdescribed).2 hfields⟩
  · rw [load, load, loadFileOrStandard, loadFileOrStandard, habsent, loadFile_of_empty hempty]
    rfl

/-- A settings file with a table in braces and a key with a dot. -/
def mixedText : String := "page = \x7btitle = 'Hi'\x7d\nsite.index = 'main.html'"

/-- What the file says. -/
def mixedEntries : List (String × Value) :=
  [("page", .table [("title", .string "Hi")]), ("site", .table [("index", .string "main.html")])]

/-- Whether the entries are those of the file: a check that can be run, since the
    equality of values cannot. -/
def isMixed : List (String × Value) → Bool
  | [(page, .table [(title, .string hi)]), (site, .table [(index, .string main)])] =>
    [page, title, hi, site, index, main] ==
      ["page", "title", "Hi", "site", "index", "main.html"]
  | _ => false

theorem eq_mixedEntries (h : isMixed entries = true) : entries = mixedEntries := by
  unfold isMixed at h
  split at h
  · simpa [mixedEntries, and_assoc] using h
  · cases h

theorem read?_mixedText : Toml.read? mixedText = some mixedEntries := by
  have hchecked : (Toml.read? mixedText).any isMixed = true := by decide +kernel
  obtain ⟨entries, hread, hmixed⟩ := (Option.any_eq_true ..).1 hchecked
  rw [hread, eq_mixedEntries hmixed]

theorem conforms_mixedEntries : Conforms mixedEntries := by
  intro name v hv
  simp only [mixedEntries, List.mem_cons, Prod.mk.injEq, List.not_mem_nil, or_false] at hv
  rcases hv with ⟨rfl, rfl⟩ | ⟨rfl, rfl⟩
  · refine ⟨.inr rfl, _, rfl, fun key w hw => ?_⟩
    obtain ⟨rfl, rfl⟩ := Prod.mk.inj (List.mem_singleton.1 hw)
    exact ⟨.title, rfl, rfl, .text "Hi"⟩
  · refine ⟨.inl rfl, _, rfl, fun key w hw => ?_⟩
    obtain ⟨rfl, rfl⟩ := Prod.mk.inj (List.mem_singleton.1 hw)
    exact ⟨.index, rfl, rfl, .text "main.html"⟩

open Specimen in
/-- The file gives the title and an index document, which the command line names again:
    the name from the command line is taken, and the root is the default. -/
theorem load_exact_mixed :
    ∃ settings, load (diskOf [(indexHtml, .file (.ofText mixedText))])
      (some ⟨"web/index.html"⟩) ⟨none, some "home.html"⟩ = .ok settings ∧
        settings.site.index = "home.html" ∧ settings.style.title = "Hi" ∧
        settings.site.root = ⟨"dist"⟩ ∧
        load disk none ⟨none, none⟩ = load (diskOf [(indexHtml, .file (.ofText ""))])
          (some ⟨"web/index.html"⟩) ⟨none, none⟩ := by
  have hread : (diskOf [(indexHtml, .file (.ofText mixedText))]).readText ⟨"web/index.html"⟩ =
      .ok mixedText := by decide
  have htables : HasTables mixedEntries := by
    intro name v hv _
    obtain ⟨-, inner, hinner, -⟩ := conforms_mixedEntries name v hv
    exact ⟨inner, hinner⟩
  obtain ⟨hloads, hlayers, -⟩ := load_exact hread read?_mixedText htables ⟨none, some "home.html"⟩
  obtain ⟨-, -, hstandard⟩ := load_exact hread read?_mixedText htables ⟨none, none⟩
  obtain ⟨settings, hload⟩ := hloads.2 conforms_mixedEntries
  have hfield := fun field : Field => (fromLayers_iff (Toml.keyedOnce_of_read? read?_mixedText)).1
    (((hlayers settings).1 hload).2 field)
  exact ⟨settings, hload, Value.string.inj (hfield .index), Value.string.inj (hfield .title),
    congrArg Path.mk (Value.string.inj (hfield .root)),
    hstandard disk _ _ (by decide) (by decide)⟩

end Docroot.Settings
