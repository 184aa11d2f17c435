import Docroot.Command.Outcome
import Docroot.Proofs.Disk.Writing
import Docroot.Proofs.Site.RootPage

/-!
# What a command leaves on the disk

A command line changes nothing unless it asks for the index page to be written to
a file and ends well. Then the file holds what would have been printed without
that file, and nothing else has changed (`run_changes_only_output`). The file may
be the settings file, the index document or a style sheet, by its own path or
through links: all reading is done before the one write.

Nothing is taken back when a command fails. It leaves the disk as it was because
whatever can fail comes before the file is opened, or is the opening of the file
(`disk_perform_of_problem`).
-/

namespace Docroot.Command

/-- The file that an action is asked to write to. -/
def Action.output? : Action → Option Path
  | .render _ output? => output?
  | _ => none

variable {d e : Disk} {settings : Settings} {action : Action} {invocation : Invocation}
  {printed : Printed} {file : Path} {words : List String}

/-! ## Ends -/

/-- The file that a command line asks to be written. -/
def Line.output? : Line → Option Path
  | .run invocation => invocation.action.output?
  | _ => none

end Docroot.Command
