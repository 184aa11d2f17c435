import Docroot.Index.Markup
import Docroot.Index.Stylesheets

/-!
# The index page

The page shown at the top of a site: its index document, with references made
relative and its style sheets put into its head. Where the index document is
missing, the fallback page is shown instead; where it is denied or cannot be
read, there is no page.
-/

namespace Docroot

/-- How the index page is made. -/
structure PageStyle where
  /-- The style sheets are put into the page. -/
  inlinesSheets : Bool
  /-- The pattern that selects the style sheets. -/
  sheetPattern : String
  /-- The heading of the fallback page. -/
  title : String
  deriving DecidableEq

namespace PageStyle

/-- The pattern of style sheets unless another is configured. -/
def defaultSheetPattern : String := "assets/index-*.css"

/-- The heading of the fallback page unless another is configured. -/
def defaultTitle : String := "Application"

/-- How the index page is made unless configured otherwise. -/
def default : PageStyle := ⟨true, defaultSheetPattern, defaultTitle⟩

end PageStyle

/-- A page as it is shown. -/
structure Page where
  /-- The document. -/
  html : String
  /-- The number of style sheets that were put into it. -/
  sheetCount : Nat
  /-- It is the fallback page. -/
  isFallback : Bool
  deriving DecidableEq

namespace Site

variable (site : Site) (d : Disk)

/-- The text of the index document, also if its name is not that of a text
    file. -/
def indexText : Except Failure String :=
  site.resolve d site.index >>= fun asset =>
    match asset with
    | .text _ content => .ok content
    | .binary place _ =>
      match d.statusAt place >>= Entry.readText with
      | .ok content => .ok content
      | .error fault => .error (.unreadable place.text fault)

/-- The style sheets that go into the page. -/
def pageSheets (style : PageStyle) : List String :=
  if style.inlinesSheets then site.stylesheets d style.sheetPattern else []

/-- The index page. -/
def page (style : PageStyle) : Except Failure Page :=
  match site.indexText d with
  | .ok html =>
    let sheets := site.pageSheets d style
    .ok ⟨Markup.inlineSheets (Markup.relativizeAssets html) sheets, sheets.length, false⟩
  | .error (.notFound _) => .ok ⟨Markup.fallbackPage style.title, 0, true⟩
  | .error failure => .error failure

end Site

end Docroot
