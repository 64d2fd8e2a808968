/-!
# Files

What the program asks of a file system, and how paths are put together. Paths are texts with `/`
between their parts.
-/

namespace Pegboard

/-- Why an operation on a file failed. -/
inductive FileError
  | notFound
  | alreadyExists
  | notADirectory
  | isADirectory
  | nameTooLong
  /-- The name holds a character that no file name can hold. -/
  | nulInName
  | other (text : String)
  deriving DecidableEq, Repr

def FileError.message : FileError → String
  | notFound => "No such file or directory (os error 2)"
  | alreadyExists => "File exists (os error 17)"
  | notADirectory => "Not a directory (os error 20)"
  | isADirectory => "Is a directory (os error 21)"
  | nameTooLong => "File name too long (os error 36)"
  | nulInName => "file name contained an unexpected NUL byte"
  | other text => text

/-- The operations on files that a monad offers. -/
class Files (m : Type → Type) where
  read : (path : String) → m (Except FileError String)
  /-- Whether there is a plain file. -/
  isFile : (path : String) → m Bool
  /-- Makes a directory and those above it, unless they are there. -/
  createDirs : (path : String) → m (Except FileError Unit)
  /-- Makes a file empty, or makes it, and writes the text into it. -/
  write : (path text : String) → m (Except FileError Unit)
  /-- Moves a file to a path, in place of the file there. -/
  rename : (source target : String) → m (Except FileError Unit)

namespace Path

/-- The parts between the slashes of a path. -/
def parts (path : String) : List String :=
  path.splitOn "/"

/-- The path without slashes and single dots at its end. -/
def trimEnd (path : String) : String :=
  let isIdle (part : String) : Bool := part == "" || part == "."
  match parts path with
  | [] => path
  | first :: rest =>
    "/".intercalate (first :: (rest.reverse.dropWhile isIdle).reverse)

/-- The path of the directory that holds the path, empty for a path without slashes, nothing for a
path that no directory holds. -/
def parent? (path : String) : Option String :=
  match (parts (trimEnd path)).reverse with
  | [] | [""] => none
  | [_] => some ""
  | _ :: "" :: [] => some "/"
  | _ :: above => some (trimEnd ("/".intercalate above.reverse))

/-- The paths of the directories that hold a path, the innermost first, after the path itself. At most
as many are looked at as the path has parts. -/
def ancestors (path : String) : List String :=
  go (parts path).length path
where
  go : Nat → String → List String
    | 0, path => [path]
    | n + 1, path =>
      match parent? path with
      | none | some "" => [path]
      | some above => path :: go n above

/-- Why there can be no file at a path, whatever there is elsewhere. -/
def fault? (path : String) : Option FileError :=
  if path == "" then some .notFound
  else if path.contains '\x00' then some .nulInName
  else none

def join (base path : String) : String :=
  if path.startsWith "/" || base == "" then path
  else if base.endsWith "/" then base ++ path
  else base ++ "/" ++ path

/-- A file name up to its last dot, unless it begins with that dot. -/
def stem (name : String) : String :=
  match (name.splitOn ".").reverse with
  | [] | [_] => name
  | _ :: front =>
    let s := ".".intercalate front.reverse
    if s == "" then name else s

/-- The path with another extension of its file name, or with one if it has none. -/
def withExtension (path extension : String) : String :=
  let trimmed := trimEnd path
  match (parts trimmed).reverse with
  | [] => path
  | name :: above =>
    if name == "" || name == "." || name == ".." then path
    else "/".intercalate (above.reverse ++ [stem name ++ "." ++ extension])

end Path

end Pegboard
