import Docroot.Glob.Expansion
import Docroot.Site

/-!
# Collecting style sheets

The style sheets of a site are the text files that a pattern selects below its
root. The pattern is put behind the path of the root, and what is selected is
seen from the root again. Each selected path is resolved like a request, so that
no link leads out of the root, and what cannot be resolved to a text is skipped.
The sheets come in the order of their paths, one for each time a path is selected.

Pattern and requests are texts, and so are the path of the root and what is
selected below it: names are (`Name`), so a path is taken as a text without loss.
-/

namespace Docroot.Site

variable (site : Site) (d : Disk)

/-- The text of the file that a request stands for, if it is a text file. -/
def text? (request : String) : Option String :=
  match site.resolve d request with
  | .ok (.text _ content) => some content
  | _ => none

/-- A pattern for paths below a root, as a pattern for paths from the top of the
    tree. The path of the root is put in as the text that it is. -/
def patternBelow (root : Location) (pattern : String) : String :=
  Glob.escape root.text ++ "/" ++ String.ofList (pattern.toList.dropWhile (· == '/'))

/-- The paths below the root that a pattern selects, as moves from the root;
    none if the root is missing or the pattern invalid. -/
def selected (pattern : String) : List (List Step) :=
  match site.home d with
  | .error _ => []
  | .ok root =>
    match Glob.Pattern.ofText? (patternBelow root pattern) with
    | none => []
    | some parsed => (parsed.expand d []).filterMap (Step.below? root)

/-- The style sheets that a pattern selects: what is served for each selected path,
    asked for by its text. -/
def stylesheets (pattern : String) : List String :=
  (site.selected d pattern).filterMap fun steps => site.text? d (Step.textOf steps)

end Docroot.Site
