/-!
# Directories

A directory is a list of texts by location. A path is resolved step by step: every step but the last must lead to a
folder. What is known of the world outside is that folders lie above the directory, that the usual folders stand at the
root, and that the null device reads as nothing. `FileView` is what a command needs to know about files, be they those of
a directory or those of a disk.

What `qsynth-cli` asks of files is `exists` and `read_to_string`, in `read_source`, and `write`, in `write_output`.
-/

namespace CircuitSynthesis.CommandLine

/-- Why a file cannot be read or written. -/
inductive FileFault where
  | notFound
  /-- A step of the path that is not the last leads to a file. -/
  | notDirectory
  | isDirectory
  | nameTooLong
  /-- Another fault, in the words of the system. -/
  | other (text : String)
  deriving DecidableEq

namespace FileFault

def message : FileFault → String
  | notFound => "No such file or directory (os error 2)"
  | notDirectory => "Not a directory (os error 20)"
  | isDirectory => "Is a directory (os error 21)"
  | nameTooLong => "File name too long (os error 36)"
  | other text => text

/-- Whether the path leads nowhere. -/
def isAbsence : FileFault → Bool
  | notFound | notDirectory | nameTooLong => true
  | _ => false

end FileFault

/-- What can be known about files before anything is written. -/
structure FileView where
  read : String → Except FileFault String
  /-- Why a file could not be written. -/
  writeFault? : String → Option FileFault

/-- Where a location is counted from. -/
inductive Origin where
  /-- So many levels above the directory. -/
  | above (levels : Nat)
  | root
  deriving DecidableEq

/-- A location: the names that lead to it from its origin. -/
structure Location where
  origin : Origin
  names : List String
  deriving DecidableEq

namespace Location

def here : Location := ⟨.above 0, []⟩

/-- The location one step further. A single dot stays, two dots lead back. -/
def step (l : Location) (name : String) : Location :=
  if name = "." then l
  else if name = ".." then
    match l.origin, l.names with
    | .above levels, [] => ⟨.above (levels + 1), []⟩
    | .root, [] => l
    | _, names => { l with names := names.dropLast }
  else { l with names := l.names ++ [name] }

/-- Where a path begins. -/
def base (path : String) : Location := if path.startsWith "/" then ⟨.root, []⟩ else here

/-- The steps of a path. -/
def steps (path : String) : List String := (path.splitOn "/").filter (· ≠ "")

/-- The location that a path names, whether or not there is anything. -/
def ofPath (path : String) : Location := (steps path).foldl step (base path)

def nullDevice : Location := ⟨.root, ["dev", "null"]⟩

/-- The folders that stand at the root. -/
def rootFolders : List String :=
  ["bin", "boot", "dev", "etc", "home", "lib", "media", "mnt", "opt", "proc", "root", "run", "sbin", "srv", "sys", "tmp",
    "usr", "var"]

/-- Whether a location is a folder wherever the directory is. -/
def isCommonFolder (l : Location) : Bool :=
  match l.origin, l.names with
  | _, [] => true
  | .root, [name] => rootFolders.contains name
  | _, _ => false

/-- Whether a location lies inside another. -/
def isInside (l outer : Location) : Bool :=
  l.origin = outer.origin && outer.names.isPrefixOf l.names && outer.names != l.names

end Location

/-- The files that are known, by location. -/
structure Directory where
  files : List (Location × String)

namespace Directory

/-- The directory of files given by path. -/
def ofFiles (files : List (String × String)) : Directory := ⟨files.map fun (path, text) => (.ofPath path, text)⟩

def isFolder (d : Directory) (l : Location) : Bool := l.isCommonFolder || d.files.any fun (file, _) => file.isInside l

def text? (d : Directory) (l : Location) : Option String := if l = .nullDevice then some "" else d.files.lookup l

/-- The most bytes of a path. -/
def longestPath : Nat := 4095

/-- The most bytes of a name. -/
def longestName : Nat := 255

/-- Accepts a location that further steps can start from. -/
def enter (d : Directory) (l : Location) : Except FileFault Unit :=
  if d.isFolder l then .ok () else if (d.text? l).isSome then .error .notDirectory else .error .notFound

/-- One step from a folder. -/
def advance (d : Directory) (l : Location) (name : String) : Except FileFault Location := do
  d.enter l
  if longestName < name.utf8ByteSize then throw .nameTooLong
  return l.step name

/-- The location where steps lead. -/
def walk (d : Directory) (l : Location) (steps : List String) : Except FileFault Location := steps.foldlM d.advance l

/-- Accepts a path that is neither empty nor too long. -/
def checkPath (path : String) : Except FileFault Unit :=
  if path.isEmpty then .error .notFound
  else if longestPath < path.utf8ByteSize then .error .nameTooLong
  else .ok ()

/-- The text of a file. A path that ends in a slash demands a folder. -/
def read (d : Directory) (path : String) : Except FileFault String := do
  checkPath path
  let l ← d.walk (.base path) (Location.steps path)
  if d.isFolder l then throw .isDirectory
  match d.text? l with
  | some text => if path.endsWith "/" then throw .notDirectory else return text
  | none => throw .notFound

/-- Accepts a path that a file can be written to. -/
def checkWrite (d : Directory) (path : String) : Except FileFault Unit := do
  checkPath path
  match (Location.steps path).getLast? with
  | none => throw .isDirectory
  | some name =>
    let folder ← d.walk (.base path) (Location.steps path).dropLast
    d.enter folder
    if name ∈ [".", ".."] || path.endsWith "/" then throw .isDirectory
    let l ← d.advance folder name
    if d.isFolder l then throw .isDirectory

/-- Why a file could not be written. -/
def writeFault? (d : Directory) (path : String) : Option FileFault :=
  match d.checkWrite path with
  | .ok () => none
  | .error fault => some fault

/-- The directory once a file has been written. -/
def write (d : Directory) (path text : String) : Directory :=
  ⟨(.ofPath path, text) :: d.files.filter fun (file, _) => file ≠ .ofPath path⟩

def view (d : Directory) : FileView := ⟨d.read, d.writeFault?⟩

end Directory

end CircuitSynthesis.CommandLine
