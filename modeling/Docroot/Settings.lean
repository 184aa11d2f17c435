import Docroot.Index.Page
import Docroot.Text.Blank
import Docroot.Toml.Document

/-!
# Settings

What can be configured: the site, and how its index page is made. Settings come
in layers. Each field is taken from the command line if it is given there (the
root and the index document can be), else from the settings file, else it has
its default.

The settings file is strict: a key that is no field, or a value of another type
than its field, makes the whole file invalid. A section is written as a table;
as an array it lists the values of its fields in their order.

Settings that can be read may still make no sense. `Settings.validate` finds all
faults that keep them from being used; if there are none, it lists what looks
like a mistake.
-/

namespace Docroot

/-- What can be configured. -/
structure Settings where
  /-- What is served. -/
  site : Site
  /-- How the index page is made. -/
  style : PageStyle

namespace Settings

/-- The settings without a settings file. -/
def default : Settings :=
  { site := ⟨⟨Site.defaultRoot⟩, Site.defaultIndex, Site.defaultTextExtensions⟩
    style := PageStyle.default }

/-! ## Reading -/

/-- The fields of the section about the site. -/
def siteFields : List String := ["root", "index", "text_extensions"]

/-- The fields of the section about the index page. -/
def pageFields : List String := ["inline_styles", "stylesheet_pattern", "title"]

/-- The sections of a settings file. -/
def sections : List String := ["site", "page"]

/-- The values that a section gives to its fields, none for a field that it does
    not mention; nothing if it mentions anything else. -/
def fieldValues? (fields : List String) : Toml.Value → Option (List (Option Toml.Value))
  | .table entries =>
    if entries.all fun (key, _) => fields.contains key then
      some (fields.map fun field => entries.lookup field)
    else none
  | .array items => some ((List.range fields.length).map fun i => items[i]?)
  | _ => none

/-- A text that is given, or its default. -/
def textOr (fallback : String) : Option Toml.Value → Option String
  | none => some fallback
  | some (.string text) => some text
  | some _ => none

/-- A truth value that is given, or its default. -/
def booleanOr (fallback : Bool) : Option Toml.Value → Option Bool
  | none => some fallback
  | some (.boolean value) => some value
  | some _ => none

/-- A value as a text. -/
def asText? : Toml.Value → Option String
  | .string text => some text
  | _ => none

/-- Texts that are given, or their default. -/
def textsOr (fallback : List String) : Option Toml.Value → Option (List String)
  | none => some fallback
  | some (.array items) => items.mapM asText?
  | some _ => none

/-- The site that a section describes; a section that is left out describes the
    default. -/
def site? : Option Toml.Value → Option Site
  | none => some default.site
  | some described =>
    match fieldValues? siteFields described with
    | some [root, index, extensions] =>
      (textOr default.site.root.text root).bind fun root =>
        (textOr default.site.index index).bind fun index =>
          (textsOr default.site.textExtensions extensions).map fun extensions =>
            ⟨⟨root⟩, index, extensions⟩
    | _ => none

/-- The page style that a section describes; a section that is left out
    describes the default. -/
def style? : Option Toml.Value → Option PageStyle
  | none => some default.style
  | some described =>
    match fieldValues? pageFields described with
    | some [inlines, pattern, title] =>
      (booleanOr default.style.inlinesSheets inlines).bind fun inlines =>
        (textOr default.style.sheetPattern pattern).bind fun pattern =>
          (textOr default.style.title title).map fun title => ⟨inlines, pattern, title⟩
    | _ => none

/-- The settings that a document describes. -/
def ofDocument? (entries : List (String × Toml.Value)) : Option Settings :=
  if entries.all fun (key, _) => sections.contains key then
    (site? (entries.lookup "site")).bind fun site =>
      (style? (entries.lookup "page")).map fun style => ⟨site, style⟩
  else none

/-- The settings that the text of a settings file describes. -/
def ofText? (text : String) : Option Settings := (Toml.read? text).bind ofDocument?

/-! ## Loading -/

/-- Why settings cannot be loaded. -/
inductive LoadFault where
  /-- The settings file cannot be read. -/
  | unreadable (file : Path) (fault : Fault)
  /-- The settings file is invalid. -/
  | invalid (file : Path)
  deriving DecidableEq

/-- The sentence that tells which file is at fault. -/
def LoadFault.message : LoadFault → String
  | unreadable file _ => "Failed to read config file: " ++ file.text
  | invalid file => "Failed to parse config file: " ++ file.text

/-- What is wrong with the file. -/
def LoadFault.cause : LoadFault → String
  | unreadable _ fault => fault.message
  | invalid _ => "TOML parse error"

/-- The settings file that is used if it is there. -/
def standardFile : Path := ⟨"spa-host.toml"⟩

variable (d : Disk)

/-- The settings in a file. -/
def loadFile (file : Path) : Except LoadFault Settings :=
  match d.readText file with
  | .error fault => .error (.unreadable file fault)
  | .ok text =>
    match ofText? text with
    | some settings => .ok settings
    | none => .error (.invalid file)

/-- The settings in a file, or in the standard file if no other is given. -/
def loadFileOrStandard : Option Path → Except LoadFault Settings
  | some file => loadFile d file
  | none => if d.exists? standardFile then loadFile d standardFile else .ok default

/-- What the command line puts in the place of the settings. -/
structure Overrides where
  /-- The root to serve. -/
  root? : Option Path := none
  /-- The index document. -/
  index? : Option String := none
  deriving DecidableEq

/-- The settings with what the command line puts in their place. -/
def override (settings : Settings) (overrides : Overrides) : Settings :=
  { settings with
    site := { settings.site with
      root := overrides.root?.getD settings.site.root
      index := overrides.index?.getD settings.site.index } }

/-- The settings from all layers. -/
def load (file? : Option Path) (overrides : Overrides) : Except LoadFault Settings :=
  (loadFileOrStandard d file?).map (override · overrides)

/-! ## Validation -/

/-- What keeps settings from being used. -/
inductive Flaw where
  /-- The index document has no name. -/
  | emptyIndex
  /-- The index document is given by a path. -/
  | indexIsPath (index : String)
  /-- The index document is `.` or `..`. -/
  | indexIsDots
  /-- An extension of text files is empty. -/
  | emptyExtension
  /-- Style sheets are wanted, and none are named. -/
  | emptyPattern
  deriving DecidableEq

/-- The sentence that tells of the flaw. -/
def Flaw.message : Flaw → String
  | emptyIndex => "site.index cannot be empty"
  | indexIsPath index => "site.index must be a file name, not a path (got: '" ++ index ++ "')"
  | indexIsDots => "site.index cannot be '.' or '..'"
  | emptyExtension => "site.text_extensions cannot contain empty entries"
  | emptyPattern => "page.stylesheet_pattern cannot be empty when page.inline_styles is enabled"

/-- The sentence that tells of all flaws. -/
def flawsMessage (flaws : List Flaw) : String :=
  "Invalid configuration:\n  - " ++ "\n  - ".intercalate (flaws.map Flaw.message)

/-- What looks like a mistake. -/
inductive Warning where
  /-- An extension is written with dots in front. -/
  | dotInExtension (extension : String)
  /-- The extension of the index document is not one of text files. -/
  | binaryIndex
  /-- The root is no directory. -/
  | missingRoot (root : Path)
  deriving DecidableEq

/-- An extension without dots in front. -/
def withoutDots (extension : String) : String :=
  String.ofList (extension.toList.dropWhile (· == '.'))

/-- The sentences that warn, and that recommend something better. -/
def Warning.message : Warning → String
  | dotInExtension extension =>
    "site.text_extensions entry '" ++ extension ++ "' has a leading dot\n" ++
      "  Recommendation: write it as '" ++ withoutDots extension ++ "'"
  | binaryIndex =>
    "site.text_extensions does not include 'html'\n" ++
      "  The index document will be read as a binary asset"
  | missingRoot root =>
    "site.root '" ++ root.text ++ "' is not a directory\n" ++
      "  Build the front-end first (e.g. npm run build)"

/-- What is wrong with the name of the index document. -/
def indexFlaws (index : String) : List Flaw :=
  if index.isEmpty then [.emptyIndex]
  else if index.toList.any Request.isSeparator then [.indexIsPath index]
  else if index = "." ∨ index = ".." then [.indexIsDots]
  else []

/-- What is wrong with the extensions of text files. -/
def extensionFlaws (extensions : List String) : List Flaw :=
  (extensions.filter fun extension => (withoutDots extension).isEmpty).map fun _ => .emptyExtension

/-- What is wrong with the pattern of style sheets. -/
def patternFlaws (style : PageStyle) : List Flaw :=
  if style.inlinesSheets && style.sheetPattern.toList.all Text.isBlank then [.emptyPattern] else []

/-- What is wrong with the settings. -/
def flaws (settings : Settings) : List Flaw :=
  indexFlaws settings.site.index ++ extensionFlaws settings.site.textExtensions ++
    patternFlaws settings.style

/-- The extensions that are written with dots in front. -/
def dottedExtensions (extensions : List String) : List String :=
  extensions.filter fun extension =>
    !(withoutDots extension).isEmpty && extension.toList.head? == some '.'

/-- What looks like a mistake in the settings. -/
def warnings (settings : Settings) : List Warning :=
  (dottedExtensions settings.site.textExtensions).map .dotInExtension ++
    (if settings.site.textExtensions.any fun extension =>
      Site.normalizeExtension extension == "html" then [] else [.binaryIndex]) ++
    (if d.leadsToDirectory settings.site.root then [] else [.missingRoot settings.site.root])

/-- The warnings about settings that can be used, or the flaws of settings that
    cannot. -/
def validate (settings : Settings) : Except (List Flaw) (List Warning) :=
  if settings.flaws.isEmpty then .ok (settings.warnings d) else .error settings.flaws

end Settings

end Docroot
