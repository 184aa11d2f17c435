import Docroot.ByteSize
import Docroot.Command.Line
import Docroot.Command.Outcome
import Docroot.Disk.Edit
import Docroot.Disk.Lookup
import Docroot.Disk.Tree
import Docroot.Glob.Expansion
import Docroot.Glob.Pattern
import Docroot.Index.Markup
import Docroot.Index.Page
import Docroot.Index.Stylesheets
import Docroot.Main
import Docroot.MediaType
import Docroot.Name
import Docroot.Path
import Docroot.Reply
import Docroot.Request
import Docroot.Settings
import Docroot.Site
import Docroot.Text.Blank
import Docroot.Text.Pieces
import Docroot.Text.Printable
import Docroot.Text.Quoted
import Docroot.Toml.Definition
import Docroot.Toml.Document
import Docroot.Toml.Lexeme
import Docroot.Toml.Value
import Docroot.Walk
import Docroot.Proofs.Text.Cutting
import Docroot.Proofs.Disk.Places
import Docroot.Proofs.Disk.Following
import Docroot.Proofs.Disk.LinkFree
import Docroot.Proofs.Disk.OutOfReach
import Docroot.Proofs.Disk.Outline
import Docroot.Proofs.Path.Written
import Docroot.Proofs.Path.Order
import Docroot.Proofs.Walk.Moves
import Docroot.Proofs.Walk.Expansion
import Docroot.Proofs.Walk.Agreement
import Docroot.Proofs.Walk.Passing
import Docroot.Proofs.Walk.Limits
import Docroot.Proofs.Request.Reading
import Docroot.Proofs.Request.Grammar
import Docroot.Proofs.Request.Encoding
import Docroot.Proofs.Glob.Outline
import Docroot.Proofs.Specimen
import Docroot.Proofs.Path.Within
import Docroot.Proofs.Site.Resolving
import Docroot.Proofs.Site.Containment
import Docroot.Proofs.Site.Confidentiality
import Docroot.Proofs.Site.Escape
import Docroot.Proofs.Site.Reach
import Docroot.Proofs.Site.KnownTargets
import Docroot.Proofs.Site.Outcome
import Docroot.Proofs.Site.Destination
import Docroot.Proofs.Site.IndexName
import Docroot.Proofs.Site.Integrity
import Docroot.Proofs.Site.RootPage
import Docroot.Proofs.Site.Spelling
import Docroot.Proofs.Site.Health
import Docroot.Proofs.Site.EmptyRequest
import Docroot.Proofs.Command.Check
import Docroot.Proofs.Disk.Writing
import Docroot.Proofs.Site.TextExtensions
import Docroot.Proofs.Command.Writing
import Docroot.Proofs.Site.Sheets
import Docroot.Proofs.Glob.View
import Docroot.Proofs.Glob.Escape
import Docroot.Proofs.Walk.Reaching
import Docroot.Proofs.Walk.Relocation
import Docroot.Proofs.Glob.Relocation
import Docroot.Proofs.Site.Relocation
import Docroot.Proofs.Text.Replacing
import Docroot.Proofs.Index.References
import Docroot.Proofs.Site.IndexPage
import Docroot.Proofs.Command.SheetCount
import Docroot.Proofs.Glob.Hits
import Docroot.Proofs.Site.MatchedSheets
import Docroot.Proofs.Site.DirectoryRequest
import Docroot.Proofs.Index.FallbackPage
import Docroot.Proofs.Site.Extensions
import Docroot.Proofs.ByteSize.Rounding
import Docroot.Proofs.ByteSize.Shown
import Docroot.Proofs.Toml.Keys
import Docroot.Proofs.Settings.Fields
import Docroot.Proofs.Settings.Layers
import Docroot.Proofs.Site.BinaryIndex
import Docroot.Proofs.Disk.Targets
import Docroot.Proofs.Walk.Composition
import Docroot.Proofs.Walk.Settled
import Docroot.Proofs.Walk.Termination
import Docroot.Proofs.Site.NamedIndex
