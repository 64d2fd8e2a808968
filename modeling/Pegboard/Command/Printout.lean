import Pegboard.Workbench

/-!
# What commands print

A command writes its results to the output and what went wrong to the error output, and ends with an
exit code.
-/

namespace Pegboard

structure Printout where
  out : String
  err : String
  code : Nat
  deriving DecidableEq, Repr

/-- Why a command could not do its work. -/
inductive CommandError
  | unreadable (path : String) (cause : FileError)
  | config (cause : ConfigError)
  | store (path : String) (cause : StoreError)
  | workbench (cause : WorkbenchError)
  deriving DecidableEq, Repr

/-- The error with its causes behind it. -/
def CommandError.message : CommandError → String
  | unreadable path cause => "Failed to read " ++ path ++ ": " ++ cause.message
  | config cause => "Failed to load config: " ++ cause.message
  | store path cause =>
    "Failed to open " ++ path ++ ": " ++ cause.message ++ ": " ++ cause.cause
  | workbench cause => cause.message

namespace Printout

def success (out : String) : Printout := ⟨out, "", 0⟩

def failure (out err : String) : Printout := ⟨out, err, 1⟩

/-- What is printed where the arguments make no sense. -/
def misuse (usage : String) : Printout := ⟨"", usage, 2⟩

def ofError (e : CommandError) : Printout :=
  failure "" ("Error: " ++ e.message ++ "\n")

end Printout

/-- A line about a file. -/
def lineAbout (path text : String) : String :=
  path ++ ": " ++ text ++ "\n"

/-- The text of a file that a command needs. -/
def readSource {m : Type → Type} [Monad m] [Files m] (path : String) :
    ExceptT CommandError m String :=
  ExceptT.mk do return (← Files.read path).mapError (.unreadable path)

end Pegboard
