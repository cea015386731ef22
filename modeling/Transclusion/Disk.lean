import Transclusion.FileView
import Transclusion.Sorting

namespace Transclusion

/-- What a disk holds at a place. A file that is not text has no content to speak of. -/
inductive DiskEntry
  | file (content : Option Text)
  | directory
  | link (target : Text)
deriving DecidableEq, Repr

/-- The part of a disk that a command can reach, by place in ascending order, and the directory that
relative paths start from. -/
structure Disk where
  entries : List (List Text × DiskEntry)
  cwd : List Text

namespace DiskError

def numbered (cause : AccessCause) (text : String) (number : Nat) : AccessError :=
  ⟨cause, text ++ " (os error " ++ toString number ++ ")"⟩

def notFound : AccessError := numbered .notFound "No such file or directory" 2

def busy : AccessError := numbered .resourceBusy "Device or resource busy" 16

def taken : AccessError := numbered .alreadyExists "File exists" 17

def notADirectory : AccessError := numbered .notADirectory "Not a directory" 20

def isADirectory : AccessError := numbered .isADirectory "Is a directory" 21

def tooManyLinks : AccessError := numbered .filesystemLoop "Too many levels of symbolic links" 40

def notText : AccessError := ⟨.invalidData, "stream did not contain valid UTF-8"⟩

end DiskError

namespace Disk

def put (place : List Text) (entry : DiskEntry) :
    List (List Text × DiskEntry) → List (List Text × DiskEntry)
  | [] => [(place, entry)]
  | (other, old) :: rest =>
    match compare place other with
    | .lt => (place, entry) :: (other, old) :: rest
    | .eq => (place, entry) :: rest
    | .gt => (other, old) :: put place entry rest

/-- The root is always there. -/
def entry? (d : Disk) (place : List Text) : Option DiskEntry :=
  if place.isEmpty then some .directory else d.entries.lookup place

/-- Adds an entry and the directories above it that are missing. -/
def insert (d : Disk) (place : List Text) (entry : DiskEntry) : Disk :=
  let above := ((List.range place.length).map (place.take ·)).filter fun p => (d.entry? p).isNone
  { d with entries := put place entry (above.foldl (fun entries p => put p .directory entries) d.entries) }

/-- How many links one path may lead through. -/
def linkLimit : Nat := 40

/-- Follows pieces of a path from the directory `here`. A link in the last place is followed only on
demand. The result is the place reached and what is there; only the last piece may lead to nothing. -/
def walk (d : Disk) (followLast : Bool) (links : Nat) (here : List Text) (pieces : List Text) :
    Except AccessError (List Text × Option DiskEntry) :=
  match pieces with
  | [] => .ok (here, d.entry? here)
  | piece :: rest =>
    if piece = ['.'] then walk d followLast links here rest
    else if piece = ['.', '.'] then walk d followLast links here.dropLast rest
    else
      let next := here ++ [piece]
      match d.entry? next with
      | none => if rest.isEmpty then .ok (next, none) else .error DiskError.notFound
      | some .directory => walk d followLast links next rest
      | some (.file content) =>
        if rest.isEmpty then .ok (next, some (.file content)) else .error DiskError.notADirectory
      | some (.link target) =>
        if rest.isEmpty && !followLast then .ok (next, some (.link target))
        else match links with
          | 0 => .error DiskError.tooManyLinks
          | links + 1 =>
            let start := if target.head? = some '/' then [] else here
            walk d followLast links start ((target.splitOn '/').filter (!·.isEmpty) ++ rest)
termination_by (links, pieces.length)

/-- The pieces of a path as written. A slash at the end asks for a directory, as a lone dot does. -/
def pieces (t : Text) : List Text :=
  let all := (t.splitOn '/').filter (!·.isEmpty)
  if t.getLast? = some '/' then all ++ [['.']] else all

def start (d : Disk) (t : Text) : List Text := if t.head? = some '/' then [] else d.cwd

/-- What a path as written leads to. -/
def locate (d : Disk) (followLast : Bool) (t : Text) : Except AccessError (List Text × DiskEntry) := do
  if t.isEmpty then throw DiskError.notFound
  match ← d.walk followLast linkLimit (d.start t) (pieces t) with
  | (place, some entry) => return (place, entry)
  | (_, none) => throw DiskError.notFound

def readText (d : Disk) (t : Text) : Except AccessError Text := do
  match ← d.locate true t with
  | (_, .file (some content)) => return content
  | (_, .file none) => throw DiskError.notText
  | _ => throw DiskError.isADirectory

def kindOf (d : Disk) (t : Text) : Option FileKind :=
  match d.locate true t with
  | .ok (_, .directory) => some .directory
  | .ok _ => some .file
  | .error _ => none

/-- The names in a directory and what they stand for. -/
def children (d : Disk) (place : List Text) : List (Text × DiskEntry) :=
  d.entries.filterMap fun (p, entry) =>
    if p.length = place.length + 1 && place.isPrefixOf p then p.getLast?.map (·, entry) else none

/-- Every file below a directory, links followed. `open_` holds the directories on the way down,
which a link may not lead back to; other links that lead nowhere are passed over as well. -/
def filesBelow (d : Disk) (fuel : Nat) (open_ : List (List Text)) (shown : Path)
    (place : List Text) : List Path :=
  match fuel with
  | 0 => []
  | fuel + 1 =>
    (d.children place).flatMap fun (name, entry) =>
      let path := shown.child name
      match entry with
      | .file _ => [path]
      | .directory => filesBelow d fuel ((place ++ [name]) :: open_) path (place ++ [name])
      | .link _ =>
        match d.walk true linkLimit place [name] with
        | .ok (_, some (.file _)) => [path]
        | .ok (target, some .directory) =>
          if open_.contains target then [] else filesBelow d fuel (target :: open_) path target
        | _ => []

theorem isAbsolute_of_mem_filesBelow {d : Disk} {fuel : Nat} {open_ : List (List Text)} {shown p : Path}
    {place : List Text} (absolute : shown.isAbsolute) (member : p ∈ d.filesBelow fuel open_ shown place) :
    p.isAbsolute := by
  induction fuel generalizing open_ shown place with
  | zero => cases member
  | succ fuel ih =>
    obtain ⟨⟨name, entry⟩, _, inside⟩ := List.mem_flatMap.mp member
    have below : (shown.child name).isAbsolute := Path.isAbsolute_join absolute
    cases entry with
    | file content => cases List.mem_singleton.mp inside; exact below
    | directory => exact ih below inside
    | link target =>
      simp only at inside
      split at inside
      · cases List.mem_singleton.mp inside; exact below
      · split at inside
        · cases inside
        · exact ih below inside
      · cases inside

def list (d : Disk) (p : Path) : Except AccessError (List Path) := do
  match ← d.locate true p.text with
  | (place, .directory) =>
    let depth := Nat.pow (d.entries.length + 2) 2
    return sortBy (fun a b => (compare a b).isLE) (d.filesBelow depth [place] p place)
  | (_, .file _) => return [p]
  | _ => return []

def placePath (place : List Text) : Path := place.foldl Path.child .root

theorem isAbsolute_foldl_child {p : Path} (absolute : p.isAbsolute) (place : List Text) :
    (place.foldl Path.child p).isAbsolute := by
  induction place generalizing p with
  | nil => exact absolute
  | cons name rest ih => exact ih (Path.isAbsolute_join absolute)

theorem isAbsolute_of_list {d : Disk} {dir : Path} {found : List Path} (absolute : dir.isAbsolute)
    (listed : d.list dir = .ok found) : ∀ p ∈ found, p.isAbsolute := by
  intro p member
  simp only [list, bind, Except.bind] at listed
  split at listed
  · cases listed
  · split at listed
    · cases listed
      exact isAbsolute_of_mem_filesBelow absolute (mem_sortBy.mp member)
    · cases listed
      cases List.mem_singleton.mp member
      exact absolute
    · cases listed
      cases member

/-- The names along a path that starts at the root and has no `..` in it. -/
def placeOf (p : Path) : List Text :=
  p.components.filterMap fun c =>
    match c with
    | .name t => some t
    | _ => none

def view (d : Disk) : FileView where
  cwd := placePath d.cwd
  kind p := d.kindOf p.text
  read p := d.readText p.text
  list := d.list
  cwd_absolute := isAbsolute_foldl_child rfl d.cwd
  list_absolute := isAbsolute_of_list

/-- Makes the directory at the end of a path, unless one is there. Directories above it are made
first where they are missing. -/
def makeDirectories (d : Disk) : Nat → Spelling → Except AccessError Unit × Disk
  | 0, _ => (.ok (), d)
  | fuel + 1, s =>
    let make (d : Disk) : Except AccessError Disk := do
      match ← d.walk false linkLimit (d.start s.text) (pieces s.text) with
      | (place, none) => return d.insert place .directory
      | _ => if d.kindOf s.text = some .directory then return d else throw DiskError.taken
    if s.isEmpty then (.ok (), d)
    else match make d with
      | .ok d => (.ok (), d)
      | .error e =>
        if e.cause ≠ .notFound then
          if d.kindOf s.text = some .directory then (.ok (), d) else (.error e, d)
        else match s.parent? with
          | none => (.error e, d)
          | some above =>
            match makeDirectories d fuel above with
            | (.error e, d) => (.error e, d)
            | (.ok (), d) =>
              match make d with
              | .ok d => (.ok (), d)
              | .error e => (.error e, d)

/-- Moves a finished file to its place. What stands there is replaced, a link as well, but no
directory. A name is no file's if it means a directory or ends in a slash. -/
def moveInto (d : Disk) (s : Spelling) (content : Text) : Except AccessError Unit × Disk :=
  let names := (s.text.splitOn '/').filter (!·.isEmpty)
  let last := names.getLast?.getD ['.']
  if last = ['.'] || last = ['.', '.'] then (.error DiskError.busy, d)
  else if s.text.getLast? = some '/' then (.error DiskError.notADirectory, d)
  else match d.walk false linkLimit (d.start s.text) names with
    | .error e => (.error e, d)
    | .ok (_, some .directory) => (.error DiskError.isADirectory, d)
    | .ok (place, _) => (.ok (), d.insert place (.file (some content)))

/-- Writes a file whole: into its directory, which is made if need be, and then in one move to its
name. -/
def write (d : Disk) (s : Spelling) (content : Text) : Except AccessError Unit × Disk :=
  let directory : Spelling := match s.parent? with
    | some above => if above.isEmpty then ⟨['.']⟩ else above
    | none => ⟨['.']⟩
  match d.makeDirectories (directory.text.length + 1) directory with
  | (.error e, d) => (.error e, d)
  | (.ok (), d) => d.moveInto s content

instance : FileStore Disk where
  view := view
  write := write

/-- Files that were created or altered since `before`. -/
def changes (before after : Disk) : List (List Text × Text) :=
  after.entries.filterMap fun (place, entry) =>
    match entry with
    | .file (some content) =>
      if before.entries.lookup place = some entry then none else some (place, content)
    | _ => none

end Disk

end Transclusion
