import Docroot.Text.Pieces

/-!
# Editing the index document

The edits that turn an index document into the page that is served:

* `relativizeAssets` makes references that start at the top of the host relative to
  the document, so that they also work below a sub-path;
* `inlineSheets` puts style sheets into the head of the document;
* `fallbackPage` is the page shown where there is no index document.
-/

namespace Docroot.Markup

/-- Each reference that starts at the top of the host, with its relative form. -/
def relativeForms : List (String × String) :=
  [("href=\"/favicon.ico\"", "href=\"./favicon.ico\""),
   ("src=\"/assets/", "src=\"./assets/"),
   ("href=\"/assets/", "href=\"./assets/")]

/-- Makes every reference to the favicon and to an asset relative. -/
def relativizeAssets (html : String) : String :=
  String.ofList (relativeForms.foldl
    (fun text (found, put) => Text.replaceAll found.toList put.toList text) html.toList)

/-- The end of the head of a document. -/
def headEnd : String := "</head>"

/-- The sheets as one element. -/
def styleElement (sheets : List String) : String :=
  "<style>" ++ String.join sheets ++ "</style>"

/-- The document with the sheets, if there are any, before the first end of a
    head, if there is one. A later end of a head is text of the document and
    stays as it is. -/
def inlineSheets (html : String) (sheets : List String) : String :=
  if sheets.isEmpty then html
  else match Text.splitAtFirst headEnd.toList html.toList with
    | none => html
    | some (before, after) =>
      String.ofList before ++ styleElement sheets ++ String.ofList after

/-- The characters that markup is made of, each with the entity that is written for
    it in text. The ampersand comes first, because every entity starts with one. -/
def entities : List (Char × String) :=
  [('&', "&amp;"), ('<', "&lt;"), ('>', "&gt;"), ('"', "&quot;")]

/-- The text as it is written inside an element: one character after the other is
    replaced by its entity. -/
def escape (text : String) : String :=
  String.ofList (entities.foldl
    (fun text (c, entity) => Text.replaceAll [c] entity.toList text) text.toList)

/-- The page shown where there is no index document. -/
def fallbackPage (title : String) : String :=
  "<div style=\"text-align: center; padding: 50px;\">\n<h1>" ++ escape title ++
    "</h1>\n<p>Application files not found. Check that the front-end build succeeded.</p>\n</div>\n"

end Docroot.Markup
