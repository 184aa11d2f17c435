import Docroot.ByteSize
import Docroot.Command.Line
import Docroot.Disk.Edit
import Docroot.Reply

/-!
# Running commands

What a command does to a disk, what it prints, and how it ends. A command loads
its settings and then

* `resolve` prints the text of the file that a request stands for, or where it
  is and its size;
* `render` prints the index page, or writes it to a file;
* `get` prints the reply to a target, headers first;
* `check` validates the settings and reports what would be served.

A command that fails prints a box with the reason and, where there is one, a
hint. It leaves the disk as it has made it until then: nothing is taken back.
-/

namespace Docroot.Command

/-- What a command leaves behind. -/
structure Outcome where
  /-- The exit code. -/
  exitCode : Nat
  /-- What is printed. -/
  output : String
  /-- What is printed for whoever watches. -/
  errors : String
  /-- The disk afterwards. -/
  disk : Disk

/-- Why a command fails. -/
inductive Problem where
  /-- The settings cannot be loaded. -/
  | settings (fault : Settings.LoadFault)
  /-- The settings cannot be used. -/
  | flawed (flaws : List Settings.Flaw)
  /-- A request stands for no file. -/
  | failure (failure : Failure)
  /-- The output file cannot be written. -/
  | unwritable (file : Path) (fault : Fault)

/-! ## Reports -/

/-- The line above and below the title of a box. -/
def boxLine : String := String.ofList (List.replicate 60 '=')

/-- The numbered hints of a box. -/
def hintLines (hints : List String) : String :=
  String.join ((List.range hints.length).zipWith (fun i hint =>
    toString (i + 1) ++ ". " ++ hint ++ "\n") hints)

/-- A box with a title, a detail and hints. -/
def box (title detail : String) (hints : List String) : String :=
  "\n" ++ boxLine ++ "\n" ++ title ++ "\n" ++ boxLine ++ "\n" ++
    (if detail.isEmpty then "" else "\n" ++ detail ++ "\n") ++
    (if hints.isEmpty then "" else "\n" ++ hintLines hints) ++ "\n"

/-- What may help against a failure. -/
def hints : Failure.Kind → List String
  | .accessDenied => ["The path leaves the static root; request files inside it"]
  | .notFound =>
    ["Paths are relative to the static root (see --root)",
     "Build the front-end first if the root is empty"]
  | .unreadable => ["Check that the root exists and is readable"]

/-- The box that reports a problem. -/
def Problem.report : Problem → String
  | settings fault => box "Error" (fault.message ++ ": " ++ fault.cause) []
  | flawed flaws => box "Error" (Settings.flawsMessage flaws) []
  | failure f => box f.kind.message f.message (hints f.kind)
  | unwritable file fault =>
    box "Error" ("Failed to write " ++ file.text ++ ": " ++ fault.message) []

/-! ## Commands -/

/-- What a command has printed when it ends, well or with a problem. -/
structure Printed where
  /-- What is printed. -/
  output : String := ""
  /-- What is printed for whoever watches. -/
  errors : String := ""
  /-- The problem it ends with. -/
  problem? : Option Problem := none
  /-- The disk as the command has left it, if it has done anything to it. -/
  disk? : Option Disk := none

variable (d : Disk) (settings : Settings)

/-- Prints the file that a request stands for. -/
def resolve (request : String) : Printed :=
  match settings.site.resolve d request with
  | .ok (.text _ content) => { output := content }
  | .ok (.binary place size) =>
    { output := "binary " ++ place.text ++ " (" ++ ByteSize.format size ++ ")\n" }
  | .error f => { problem? := some (.failure f) }

/-- The warning that the index document is missing. -/
def fallbackWarning : String :=
  "Warning: " ++ settings.site.index ++ " not found under " ++ settings.site.root.text ++
    ", rendered the fallback page\n"

/-- Prints the index page, or writes it to a file. -/
def render (inlinesSheets : Bool) (output? : Option Path) : Printed :=
  let style := { settings.style with
    inlinesSheets := settings.style.inlinesSheets && inlinesSheets }
  match settings.site.page d style with
  | .error f => { problem? := some (.failure f) }
  | .ok page =>
    let warning := if page.isFallback then fallbackWarning settings else ""
    match output? with
    | none => { output := page.html, errors := warning }
    | some file =>
      match (Disk.write file page.html).run d with
      | .error fault left =>
        { errors := warning, problem? := some (.unwritable file fault), disk? := some left }
      | .ok _ left =>
        { errors := warning ++ "Wrote " ++ file.text ++ " (" ++ toString page.sheetCount ++
            " stylesheet(s) inlined)\n"
          disk? := some left }

/-- The status and the headers of a reply, one a line, and an empty line. -/
def headLines (reply : Reply) : String :=
  toString reply.status.code ++ " " ++ reply.status.reason ++ "\n" ++
    "content-type: " ++ reply.contentType ++ "\n" ++
    (match reply.cacheControl? with
      | some value => "cache-control: " ++ value ++ "\n"
      | none => "") ++ "\n"

/-- The body of a reply if it is text, else its size. -/
def bodyText (body : ByteArray) : String :=
  match String.fromUTF8? body with
  | some text => text
  | none => "<" ++ ByteSize.format body.size ++ " of binary data>\n"

/-- Prints the reply to a target. -/
def get (target : String) : Printed :=
  let reply := settings.site.reply d settings.style target
  { output := headLines reply ++ bodyText reply.body }

/-- What is to be served, one line each. -/
def siteLines : String :=
  "Root:       " ++ settings.site.root.text ++ "\n" ++
    "Index:      " ++ settings.site.index ++ "\n" ++
    "Text types: " ++ ", ".intercalate settings.site.textExtensions ++ "\n"

/-- What the index page is made of. -/
def pageLine (page : Page) : String :=
  if page.isFallback then "Page:       index document missing, fallback page will be served\n"
  else "Page:       ok (" ++ toString page.sheetCount ++ " stylesheet(s) inlined)\n"

/-- The last line about settings that can be used. -/
def verdict (warnings : Nat) : String :=
  if warnings = 0 then "\nConfiguration is valid\n"
  else "\nConfiguration is valid (" ++ toString warnings ++ " warning(s))\n"

/-- Validates the settings and prints what would be served. -/
def check : Printed :=
  match settings.validate d with
  | .error flaws => { problem? := some (.flawed flaws) }
  | .ok warnings =>
    let errors := String.join (warnings.map fun w => "Warning: " ++ w.message ++ "\n")
    let last := verdict warnings.length
    if d.leadsToDirectory settings.site.root then
      match settings.site.page d settings.style with
      | .error f => { output := siteLines settings, errors, problem? := some (.failure f) }
      | .ok page => { output := siteLines settings ++ pageLine page ++ last, errors }
    else { output := siteLines settings ++ last, errors }

/-- Carries out an action with settings. -/
def perform : Action → Printed
  | .resolve request => resolve d settings request
  | .render inlinesSheets output? => render d settings inlinesSheets output?
  | .get target => get d settings target
  | .check => check d settings

/-- The outcome of a command that has printed this. -/
def Printed.outcome (printed : Printed) : Outcome :=
  let left := printed.disk?.getD d
  match printed.problem? with
  | some problem => ⟨1, printed.output, printed.errors ++ problem.report, left⟩
  | none => ⟨0, printed.output, printed.errors, left⟩

/-- Loads the settings of a command and carries it out. -/
def Invocation.run (invocation : Invocation) : Outcome :=
  let printed : Printed :=
    match Settings.load d invocation.file? invocation.overrides with
    | .error fault => { problem? := some (.settings fault) }
    | .ok settings => perform d settings invocation.action
  printed.outcome d

/-- The name and the version of the program. -/
def versionLine : String := "spa-host 0.1.0\n"

/-- How the program is used. -/
def usage : String :=
  "Usage: spa-host [--config FILE] [--root DIR] [--index NAME] [--log-json] COMMAND\n\n" ++
    "Commands:\n" ++
    "  resolve [PATH]                             print a file below the root\n" ++
    "  render [--no-inline-styles] [--output FILE]  print or write the index page\n" ++
    "  get [REQUEST_PATH]                         print the response to a request\n" ++
    "  check                                      validate the configuration\n"

/-- Runs the command line that some words make. -/
def run (words : List String) : Outcome :=
  match Line.ofWords words with
  | .run invocation => invocation.run d
  | .version => ⟨0, versionLine, "", d⟩
  | .help => ⟨0, usage, "", d⟩
  | .mistake => ⟨2, "", usage, d⟩

end Docroot.Command
