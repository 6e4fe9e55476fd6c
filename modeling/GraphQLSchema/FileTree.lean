import GraphQLSchema.Path

/-!
# File trees

Directories and files in memory. A path is followed from the root or from the working directory:
every name in front of the last one has to be that of a directory that is there, also if `..` leads
back out of it. Of all that is neither a directory nor a plain file, only the null device is there: it
reads as empty, and what is written to it is gone. Permissions, links and the room on a disk are left
out.
-/

namespace GraphQLSchema

namespace FileTree

/-- Where something is in a tree: its name and those of the directories around it, up to the root. -/
abbrev Place := List String

def Place.outward : Place → List Place
  | [] => [[]]
  | name :: p => (name :: p) :: outward p

def Place.pathFrom? (directory p : Place) : Option String :=
  if directory.isSuffixOf p then
    some ("/".intercalate (p.take (p.length - directory.length)).reverse)
  else none

end FileTree

structure FileTree where
  workingDirectory : FileTree.Place
  directories : List FileTree.Place
  files : List (FileTree.Place × List UInt8)
  devices : List FileTree.Place := []
  deriving DecidableEq, Repr

namespace FileTree

inductive Fault where
  | missing
  | occupied
  | notDirectory
  | isDirectory
  | nameTooLong
  | nulInName
  deriving DecidableEq, Repr

def Fault.message : Fault → String
  | missing => "No such file or directory (os error 2)"
  | occupied => "File exists (os error 17)"
  | notDirectory => "Not a directory (os error 20)"
  | isDirectory => "Is a directory (os error 21)"
  | nameTooLong => "File name too long (os error 36)"
  | nulInName => "file name contained an unexpected NUL byte"

/-- A directory to work in, and the null device where systems have it. -/
def ofWorkingDirectory (p : Place) : FileTree :=
  { workingDirectory := p, directories := ["dev"] :: p.outward, files := [], devices := [["null", "dev"]] }

/-! ## Following paths -/

section
variable (t : FileTree)

def file? (p : Place) : Option (List UInt8) := if p ∈ t.devices then some [] else t.files.lookup p

def isFree (p : Place) : Bool := p ∉ t.directories && (t.file? p).isNone

def isLong (name : String) : Bool := 255 < name.utf8ByteSize

/-- The names of a path, unless it is not in order. Paths have fewer than 4096 bytes. -/
def namesOf (path : String) : Except Fault (List String) :=
  if '\x00' ∈ path.toList then .error .nulInName
  else if path.isEmpty then .error .missing
  else if 4096 ≤ path.utf8ByteSize then .error .nameTooLong
  else .ok (Path.names path)

def step (p : Place) (name : String) : Except Fault Place :=
  if name = "." then .ok p
  else if name = ".." then .ok p.tail
  else if name :: p ∈ t.directories then .ok (name :: p)
  else if (t.file? (name :: p)).isSome then .error .notDirectory
  else if isLong name then .error .nameTooLong
  else .error .missing

def walk (p : Place) (names : List String) : Except Fault Place := names.foldlM t.step p

def start (path : String) : Place := if Path.isAbsolute path then [] else t.workingDirectory

/-- The place that a path leads to, which may be free. There is none if the way ends at a directory
without naming it. -/
def locate (path : String) : Except Fault (Option Place) := do
  let names ← namesOf path
  match names.getLast? with
  | none => return none
  | some last =>
    let p ← t.walk (t.start path) names.dropLast
    if last = "." || last = ".." then return none
    return some (last :: p)

def holds (path : String) : Bool :=
  match namesOf path with
  | .ok names => (t.walk (t.start path) names).toBool
  | .error _ => false

/-- What a file gives once it is open: a directory can be opened, but not read. -/
abbrev Content := Except Fault (List UInt8)

def read (path : String) : Except Fault Content := do
  match ← t.locate path with
  | none => return .error .isDirectory
  | some p =>
    if p ∈ t.directories then return .error .isDirectory
    if p.any isLong then throw .nameTooLong
    match t.file? p with
    | none => throw .missing
    | some bytes =>
      if Path.endsInSlash path then throw .notDirectory
      return .ok bytes

def isDevice (path : String) : Bool :=
  match t.locate path with
  | .ok (some p) => p ∈ t.devices
  | _ => false

def listing : List (String × List UInt8) :=
  t.files.filterMap fun (p, bytes) => (t.workingDirectory.pathFrom? p).map (·, bytes)

end

/-! ## Changes -/

/-- Changes to a tree. A change that fails leaves what it has made so far. -/
abbrev Edit (α : Type) := ExceptT Fault (StateM FileTree) α

def makeDirectory (path : String) : Edit Unit := do
  let t ← get
  match ← t.locate path with
  | none => throw .occupied
  | some p =>
    if !t.isFree p then throw .occupied
    if p.any isLong then throw .nameTooLong
    set { t with directories := p :: t.directories }

def ensureDirectory (path : String) : Edit Unit := do
  unless (← get).holds path do makeDirectory path

/-- Makes the first of some directories, each of them inside the next, and those around it that are
missing. -/
def ensureDirectories : (paths : List String) → Edit Unit
  | [] => pure ()
  | path :: around =>
    tryCatch (ensureDirectory path) fun fault =>
      if fault = .missing then do
        ensureDirectories around
        ensureDirectory path
      else throw fault

/-- Puts a file in place of what is there, if that is none or a file. -/
def create (path : String) (bytes : List UInt8) : Edit Unit := do
  let t ← get
  match ← t.locate path with
  | none => throw .isDirectory
  | some p =>
    if Path.endsInSlash path || p ∈ t.directories then throw .isDirectory
    if p.any isLong then throw .nameTooLong
    unless p ∈ t.devices do set { t with files := (p, bytes) :: t.files.filter (·.1 ≠ p) }

def save (path : String) (bytes : List UInt8) : Edit Unit := do
  ensureDirectories (Path.directories path)
  create path bytes

def Edit.on {α : Type} (t : FileTree) (edit : Edit α) : Except Fault α × FileTree :=
  StateT.run (ExceptT.run edit) t

end FileTree

end GraphQLSchema
