import Docroot.Index.Page
import Docroot.MediaType

/-!
# Replies

What a host answers to the target of a request:

* the index page, if the target leads to the index document at the top of the
  site, or names it while it is missing; it is not to be cached;
* the bytes of any other file, to be cached for an hour;
* a short sentence with a status of its own for each failure, and for a target
  that is no request.
-/

namespace Docroot

/-- How a request went. -/
inductive Status where
  /-- It was answered. -/
  | ok
  /-- It is no request. -/
  | badRequest
  /-- It is denied. -/
  | forbidden
  /-- There is nothing to answer it with. -/
  | notFound
  /-- The site is broken. -/
  | serverError
  deriving DecidableEq

namespace Status

/-- The number of the status. -/
def code : Status → Nat
  | ok => 200
  | badRequest => 400
  | forbidden => 403
  | notFound => 404
  | serverError => 500

/-- The words of the status. -/
def reason : Status → String
  | ok => "OK"
  | badRequest => "Bad Request"
  | forbidden => "Forbidden"
  | notFound => "Not Found"
  | serverError => "Internal Server Error"

/-- The status that tells of a failure. -/
def ofKind : Failure.Kind → Status
  | .accessDenied => forbidden
  | .notFound => notFound
  | .unreadable => serverError

end Status

/-- What is sent back. -/
structure Reply where
  /-- How the request went. -/
  status : Status
  /-- What the body is. -/
  contentType : String
  /-- How long the body may be kept, if that is said. -/
  cacheControl? : Option String
  /-- What was asked for. -/
  body : ByteArray
  deriving DecidableEq

namespace Reply

/-- The index page is asked for anew each time. -/
def pageCaching : String := "no-cache"

/-- Other files are kept for an hour. -/
def assetCaching : String := "public, max-age=3600"

/-- A sentence with a status. -/
def plain (status : Status) (message : String) : Reply :=
  ⟨status, "text/plain; charset=utf-8", none, message.toUTF8⟩

/-- The reply to a target that is no request. -/
def invalid : Reply := plain .badRequest "Invalid path"

/-- The reply that tells of a failure, but not of its place. -/
def ofFailure (failure : Failure) : Reply :=
  plain (.ofKind failure.kind) failure.kind.message

/-- The reply with the bytes of the file at a place. -/
def ofFile (place : Location) (bytes : ByteArray) : Reply :=
  ⟨.ok, MediaType.headerOf place.getLast?, some assetCaching, bytes⟩

/-- The reply with a page. -/
def ofPage (page : Page) : Reply :=
  ⟨.ok, "text/html; charset=utf-8", some pageCaching, page.html.toUTF8⟩

end Reply

namespace Request

/-- The names that moves lead to when every `..` takes back the name before it;
    nothing if there is none to take back. No disk is asked, so links play no
    part. -/
def plainNames? (steps : List Step) : Option (List Name) :=
  steps.foldlM (fun names step =>
    match step with
    | .name n => some (names ++ [n])
    | .up => if names.isEmpty then none else some names.dropLast) []

end Request

namespace Site

variable (site : Site) (d : Disk)

/-- The names are those of the index document's path. -/
def isIndexNames (names : List Name) : Bool :=
  names.map (fun n => Component.step (.name n)) == (Path.mk site.index).components

/-- The place is that of the index document at the top of the site. -/
def isIndexPlace (place : Location) : Bool :=
  match site.home d with
  | .ok root => (Location.below? root place).any site.isIndexNames
  | .error _ => false

/-- The request names the index document at the top of the site, or the top
    itself, whatever is there. -/
def namesIndex (request : String) : Bool :=
  match Request.sanitize request with
  | .ok steps =>
    (Request.plainNames? steps).any fun names => names.isEmpty || site.isIndexNames names
  | .error _ => false

/-- The reply with the index page. -/
def replyWithPage (style : PageStyle) : Reply :=
  match site.page d style with
  | .ok page => .ofPage page
  | .error failure => .ofFailure failure

/-- The reply to a request. -/
def replyTo (style : PageStyle) (request : String) : Reply :=
  match site.resolve d request with
  | .ok asset =>
    if site.isIndexPlace d asset.place then site.replyWithPage d style
    else match asset with
      | .text place content => .ofFile place content.toUTF8
      | .binary place _ =>
        match d.statusAt place >>= Entry.read with
        | .ok content => .ofFile place content.bytes
        | .error _ => .plain .serverError "Internal server error"
  | .error failure =>
    if failure.kind = .notFound ∧ site.namesIndex request then site.replyWithPage d style
    else .ofFailure failure

/-- The reply to the target of a request. -/
def reply (style : PageStyle) (target : String) : Reply :=
  match Request.ofTarget? target with
  | some request => site.replyTo d style request
  | none => .invalid

end Site

end Docroot
