import Pegboard.Command.Run

/-!
# The program

Runs the command line on the files, the clock and the environment of the machine.
-/

namespace Pegboard

/-- The cause of an error of the file system. Some errors come with their code negated. -/
def FileError.ofSystem : IO.Error → FileError
  | .noFileOrDirectory _ _ _ => .notFound
  | .alreadyExists _ _ _ => .alreadyExists
  | .inappropriateType _ code details =>
    if code = 20 ∨ -code = 20 then .notADirectory
    else if code = 21 ∨ -code = 21 then .isADirectory
    else .other details
  | .invalidArgument _ code details =>
    if code = 36 ∨ -code = 36 then .nameTooLong else .other details
  | e => .other (toString e)

/-- An action on a path that answers its errors. -/
def answering {α : Type} (path : String) (action : IO α) : IO (Except FileError α) := do
  match Path.fault? path with
  | some fault => return .error fault
  | none =>
    match ← action.toBaseIO with
    | .ok a => return .ok a
    | .error e => return .error (.ofSystem e)

instance : Files IO where
  read path := answering path (IO.FS.readFile path)
  isFile path := return (← answering path (IO.FS.readFile path)).toBool
  createDirs path :=
    if path == "" then return .ok () else answering path (IO.FS.createDirAll path)
  write path text := answering path (IO.FS.writeFile path text)
  rename source target := answering target (IO.FS.rename source target)

/-- The directory that a variable names, or else one in the home directory. -/
def userDir? (variableName fallback : String) : IO (Option String) := do
  match (← IO.getEnv variableName).filter (·.startsWith "/") with
  | some dir => return some dir
  | none =>
    let home? := (← IO.getEnv "HOME").filter (· != "")
    return home?.map (Path.join · fallback)

/-- Writes a printout, and answers its exit code. -/
def Printout.write (p : Printout) : IO UInt32 := do
  IO.eprint p.err
  IO.print p.out
  (← IO.getStdout).flush
  return p.code.toUInt32

/-- Goes on with a watch until it ends. -/
partial def Watch.follow (w : Watch) : IO UInt32 := do
  match ← w.round (← IO.monoNanosNow) with
  | .next w out wait =>
    IO.print out
    (← IO.getStdout).flush
    IO.sleep (toMilliseconds (wait + milliseconds 1)).toUInt32
    w.follow
  | .stop p => p.write

end Pegboard

open Pegboard

def main (arguments : List String) : IO UInt32 := do
  let configDir? ← userDir? "XDG_CONFIG_HOME" ".config"
  let dataDir? ← userDir? "XDG_DATA_HOME" ".local/share"
  match ← Start.ofArguments ⟨"", configDir?, dataDir?⟩ (← IO.monoNanosNow) arguments with
  | .finished p => p.write
  | .watching err w =>
    IO.eprint err
    w.follow
