import Pegboard.Files

/-!
# File systems in memory

A disk is a list of the files and directories that it holds, by their places, and offers the
operations on files as changes of its state. A path is followed part by part, and each part is looked
for in a directory that has to be there.
-/

namespace Pegboard

/-- The names on the way from the root to a file. -/
abbrev Location := List String

inductive DiskNode
  | file (text : String)
  | directory
  deriving DecidableEq, Repr

structure Disk where
  /-- The directory where paths begin that do not begin at the root. -/
  workingDir : Location
  nodes : List (Location × DiskNode)
  deriving Repr

namespace Disk

/-- A disk with no files. -/
def empty (workingDir : Location) : Disk := ⟨workingDir, []⟩

/-- What is at a place. The working directory and the directories above it are always there. -/
def node? (d : Disk) (l : Location) : Option DiskNode :=
  if l.isPrefixOf d.workingDir then some .directory else d.nodes.lookup l

/-- Puts something at a place, instead of what was there. -/
def put (d : Disk) (l : Location) (n : DiskNode) : Disk :=
  { d with nodes := (l, n) :: d.nodes.filter (·.1 != l) }

/-- Takes away what is at a place, with all below it. -/
def remove (d : Disk) (l : Location) : Disk :=
  { d with nodes := d.nodes.filter fun (k, _) => !l.isPrefixOf k }

/-! ### Paths -/

/-- The bytes that the name of a file may have. -/
def maxName : Nat := 255

/-- The bytes that a path may have. -/
def maxPath : Nat := 4095

/-- Goes on by a part of a path from a place, which has to be a directory. -/
def follow (d : Disk) (l : Location) (part : String) : Except FileError Location :=
  match d.node? l with
  | none => .error .notFound
  | some (.file _) => .error .notADirectory
  | some .directory =>
    if part == "" || part == "." then .ok l
    else if part == ".." then .ok l.dropLast
    else if maxName < part.utf8ByteSize then .error .nameTooLong
    else .ok (l ++ [part])

/-- Where some parts of a path lead. -/
def walk (d : Disk) (path : String) (parts : List String) : Except FileError Location := do
  if let some fault := Path.fault? path then throw fault
  if maxPath < path.utf8ByteSize then throw .nameTooLong
  parts.foldlM d.follow (if path.startsWith "/" then [] else d.workingDir)

/-- Where a path leads. There need not be anything. -/
def locate (d : Disk) (path : String) : Except FileError Location :=
  d.walk path (Path.parts path)

/-- Where a path leads that is to be a file. At the end of such a path there is no slash; if there is
one, the fault given shows once the directory before it is found. -/
def locateFile (d : Disk) (path : String) (fault : FileError) : Except FileError Location := do
  if path.endsWith "/" then
    let front := ((Path.parts path).reverse.dropWhile (· == "")).tail.reverse
    let _ ← d.walk path (front ++ ["."])
    throw fault
  else d.locate path

/-! ### Files -/

def contents (d : Disk) (path : String) : Except FileError String := do
  match d.node? (← d.locate path) with
  | some (.file text) => return text
  | some .directory => throw .isADirectory
  | none => throw .notFound

def withContents (d : Disk) (path text : String) : Except FileError Disk := do
  let l ← d.locateFile path .isADirectory
  match d.node? l with
  | some .directory => throw .isADirectory
  | _ => return d.put l (.file text)

def withMoved (d : Disk) (source target : String) : Except FileError Disk := do
  let text ← d.contents source
  let s ← d.locate source
  let t ← d.locateFile target .notADirectory
  match d.node? t with
  | some .directory => throw .isADirectory
  | _ => return if s = t then d else (d.put t (.file text)).remove s

/-! ### Directories -/

def isDirectory (d : Disk) (path : String) : Bool :=
  match d.locate path with
  | .ok l => d.node? l = some .directory
  | .error _ => false

/-- The disk with a directory made where nothing is. -/
def withDirectory (d : Disk) (path : String) : Except FileError Disk := do
  let l ← d.locate path
  match d.node? l with
  | some _ => throw .alreadyExists
  | none => return d.put l .directory

/-- Makes the first one of these directories, each of which is in the next one, and for that those of
the others that are missing. -/
def makeDirectories (d : Disk) : List String → Except FileError Unit × Disk
  | [] => (.ok (), d)
  | path :: above =>
    match d.withDirectory path with
    | .ok d => (.ok (), d)
    | .error .notFound =>
      match above, d.makeDirectories above with
      | [], _ => (.error .notFound, d)
      | _, (.error e, d) => (.error e, d)
      | _, (.ok (), d) => existing d path (d.withDirectory path)
    | .error e => existing d path (.error e)
where
  /-- The answer to an attempt to make a directory, which is fine if it is there. -/
  existing (d : Disk) (path : String) (r : Except FileError Disk) : Except FileError Unit × Disk :=
    match r with
    | .ok d => (.ok (), d)
    | .error e => (if d.isDirectory path then .ok () else .error e, d)

def createDirs (d : Disk) (path : String) : Except FileError Unit × Disk :=
  if path == "" then (.ok (), d) else d.makeDirectories (Path.ancestors path)

/-! ### As operations -/

/-- Answers with the change, or leaves the disk as it is. -/
def change (f : Disk → Except FileError Disk) : StateM Disk (Except FileError Unit) := fun d =>
  match f d with
  | .ok d => (.ok (), d)
  | .error e => (.error e, d)

instance : Files (StateM Disk) where
  read path := fun d => (d.contents path, d)
  isFile path := fun d => ((d.contents path).toBool, d)
  createDirs path := fun d => d.createDirs path
  write path text := change (·.withContents path text)
  rename source target := change (·.withMoved source target)

/-- The disk with a file put at a path, in directories that are made for it. -/
def withFile (d : Disk) (path text : String) : Disk :=
  let d := (d.createDirs ((Path.parent? path).getD "")).2
  (d.withContents path text).toOption.getD d

/-- A disk with these files, and with the directories that they are in. -/
def ofFiles (workingDir : Location) (files : List (String × String)) : Disk :=
  files.foldl (fun d (path, text) => d.withFile path text) (empty workingDir)

end Disk

end Pegboard
