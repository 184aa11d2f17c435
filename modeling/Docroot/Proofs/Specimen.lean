import Docroot.Site

/-!
# A small site

A disk with a link of every kind, on which general statements can be seen at
work:

    /etc/passwd
    /srv/web/index.html
    /srv/web/assets/app.css
    /srv/web/look.css   -> round/app.css
    /srv/web/round      -> ../web/assets
    /srv/web/first      -> second
    /srv/web/second     -> /etc/gone
    /srv/web/escape     -> /etc

`look.css` leads through a second link, `round` leaves the root and comes back,
`first` and `second` lead nowhere, and `escape` leads out.
-/

namespace Docroot

/-- Outcomes can be compared, so that runs on fixed inputs can be decided. -/
instance Except.decidableEq {ε α : Type} [DecidableEq ε] [DecidableEq α] :
    DecidableEq (Except ε α)
  | .ok a, .ok b => decidable_of_iff (a = b) (by simp)
  | .error a, .error b => decidable_of_iff (a = b) (by simp)
  | .ok _, .error _ => isFalse (by simp)
  | .error _, .ok _ => isFalse (by simp)

namespace Specimen

def etc : Name := ⟨"etc", by decide⟩
def passwd : Name := ⟨"passwd", by decide⟩
def gone : Name := ⟨"gone", by decide⟩
def srv : Name := ⟨"srv", by decide⟩
def web : Name := ⟨"web", by decide⟩
def indexHtml : Name := ⟨"index.html", by decide⟩
def assets : Name := ⟨"assets", by decide⟩
def appCss : Name := ⟨"app.css", by decide⟩
def lookCss : Name := ⟨"look.css", by decide⟩
def round : Name := ⟨"round", by decide⟩
def first : Name := ⟨"first", by decide⟩
def second : Name := ⟨"second", by decide⟩
def escape : Name := ⟨"escape", by decide⟩

/-- What stands in the root of the site. -/
def webEntries : List (Name × Node) :=
  [(indexHtml, .file (.ofText "<p>home</p>")),
   (assets, .directory [(appCss, .file (.ofText "p { }"))]),
   (lookCss, .link ⟨"round/app.css"⟩),
   (round, .link ⟨"../web/assets"⟩),
   (first, .link ⟨"second"⟩),
   (second, .link ⟨"/etc/gone"⟩),
   (escape, .link ⟨"/etc"⟩)]

/-- The disk, with this text in the one file outside the root. -/
def diskWith (secret : String) : Disk where
  entries :=
    [(etc, .directory [(passwd, .file (.ofText secret))]),
     (srv, .directory [(web, .directory webEntries)])]
  workingDirectory := [srv]

def disk : Disk := diskWith "root"

/-- A disk with nothing but these entries in the root of the site. -/
def diskOf (entries : List (Name × Node)) : Disk where
  entries := [(srv, .directory [(web, .directory entries)])]
  workingDirectory := [srv]

/-- The text shows nowhere but in its file. -/
theorem entryAt?_diskWith {secret : String} {place : Location} (hplace : place ≠ [etc, passwd]) :
    (diskWith secret).entryAt? place = disk.entryAt? place := by
  -- Name by name along the one way on which the disks differ.
  rw [Disk.entryAt?, Disk.entryAt?, Disk.tree, Disk.tree, disk, diskWith, diskWith]
  match place with
  | [] => rfl
  | n :: rest =>
    by_cases hn : n = etc
    · subst hn
      match rest with
      | [] => rfl
      | m :: below =>
        by_cases hm : m = passwd
        · subst hm
          match below with
          | [] => exact absurd rfl hplace
          | k :: _ => simp [Node.find?, Node.entries]
        · simp [Node.find?, Node.entries, List.lookup_cons, beq_false_of_ne hm]
    · simp [Node.find?, Node.entries, List.lookup_cons, beq_false_of_ne hn]

/-- The site, with a root that is found from the working directory. -/
def site : Site := ⟨⟨"web"⟩, "index.html", ["html", "css"]⟩

end Specimen

end Docroot
