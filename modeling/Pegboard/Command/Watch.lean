import Pegboard.Command.Printout

/-!
# Watching files

A watch follows a grammar file and an input file. It goes in rounds: each takes over what changed in
the files, refreshes if it is time, prints a line about the refresh, and tells how long to wait
before the next round.
-/

namespace Pegboard

/-- A file and its text when it was read last. -/
structure WatchedFile where
  path : String
  text : String
  deriving DecidableEq, Repr

structure Watch where
  bench : Workbench Unit (FileStore ⊕ MemoryStore)
  grammarFile? : Option WatchedFile
  inputFile? : Option WatchedFile
  /-- The number of refreshes after which the watch ends. -/
  cycles? : Option Nat

/-- What comes of a round. -/
inductive WatchStep
  /-- The line printed, if any, and the time to wait. -/
  | next (watch : Watch) (out : String) (wait : Nat)
  | stop (printout : Printout)

/-- What is printed about a refresh. -/
def refreshLine (report : RefreshReport) (r : Refresh) : String :=
  match r.grammarError?, report.matchError?, r.trace? with
  | some e, _, _ => "grammar: " ++ e.shortMessage
  | none, some e, _ => "input: " ++ e.message
  | none, none, some t =>
    if t.result.succeeded then "input: matched " ++ t.result.start
    else "input: " ++ t.result.shortMessage
  | none, none, none => "grammar: no start rule"

variable {m : Type → Type} [Monad m] [Files m]

/-- The edit that brings the text seen last up to date, if there is a file and it changed. A file that
cannot be read has not changed. -/
def WatchedFile.poll (f? : Option WatchedFile) : m (Option (Text.Edit × WatchedFile)) := do
  match f? with
  | some f =>
    match ← Files.read f.path with
    | .ok text => return (Text.minimalEdit f.text text).map fun e => (e, { f with text := text })
    | .error _ => return none
  | none => return none

namespace Watch

/-- An answer of the workbench without its error. -/
def accepted {α β : Type} (answer : Except WorkbenchError α × β) : ExceptT CommandError m (α × β) :=
  match answer with
  | (.ok a, b) => pure (a, b)
  | (.error e, _) => throw (.workbench e)

/-- The store to keep the sources in: in memory if there is no file for them. -/
def openStore (path? : Option String) : ExceptT CommandError m (FileStore ⊕ MemoryStore) := do
  match path? with
  | some path => return .inl (← ExceptT.mk do
      return (← FileStore.load path).mapError (.store path))
  | none => return .inr (.ofList [])

/-- A watch of the sources in a store, with those in files instead of them. -/
def start (config : Config) (storePath? grammarPath? inputPath? start? : Option String)
    (cycles? : Option Nat) (now : Nat) : ExceptT CommandError m Watch := do
  let store ← openStore storePath?
  let bench : Workbench Unit (FileStore ⊕ MemoryStore) ← ExceptT.lift
    (Workbench.load config store () now)
  let watch : Watch := ⟨bench.setStartRule now start?, none, none, cycles?⟩
  let watch ← match grammarPath? with
    | some path => do
      let text ← readSource path
      let ((), bench) ← accepted (Workbench.afterEdit (watch.bench.setGrammarSource now text))
      pure { watch with bench := bench, grammarFile? := some ⟨path, text⟩ }
    | none => pure watch
  match inputPath? with
  | some path => do
    let text ← readSource path
    let ((), bench) ← accepted (Workbench.afterEdit (watch.bench.setInputSource now text))
    return { watch with bench := bench, inputFile? := some ⟨path, text⟩ }
  | none => return watch

/-- Takes over what changed in the grammar file. -/
def pollGrammar (w : Watch) (now : Nat) : ExceptT CommandError m Watch := do
  match ← ExceptT.lift (WatchedFile.poll w.grammarFile?) with
  | some (e, f) =>
    let ((), bench) ← accepted (w.bench.editGrammarRange now e.start e.stop e.text)
    return { w with bench := bench, grammarFile? := some f }
  | none => return w

/-- Takes over what changed in the input file. -/
def pollInput (w : Watch) (now : Nat) : ExceptT CommandError m Watch := do
  match ← ExceptT.lift (WatchedFile.poll w.inputFile?) with
  | some (e, f) =>
    let ((), bench) ← accepted (w.bench.editInputRange now e.start e.stop e.text)
    return { w with bench := bench, inputFile? := some f }
  | none => return w

/-- The longest time between two looks at the files. -/
def idle : Nat := milliseconds 100

/-- The time to wait before the next round. -/
def wait (w : Watch) (now : Nat) : Nat :=
  match w.bench.timeUntilRefresh now with
  | some left => min left idle
  | none => idle

/-- Whether the watch ends after the refreshes done. -/
def isOver (w : Watch) : Bool :=
  match w.cycles? with
  | some cycles => cycles ≤ w.bench.refresh.stats.cycles
  | none => false

/-- A round whose errors end the watch. -/
def tryRound (w : Watch) (now : Nat) : ExceptT CommandError m WatchStep := do
  let w ← w.pollGrammar now
  let w ← w.pollInput now
  let (report?, bench) ← accepted (← ExceptT.lift (w.bench.poll now))
  let w := { w with bench := bench }
  match report? with
  | some report =>
    let line := refreshLine report bench.refresh ++ "\n"
    return if w.isOver then .stop (.success line) else .next w line (w.wait now)
  | none => return .next w "" (w.wait now)

def round (w : Watch) (now : Nat) : m WatchStep := do
  match ← (w.tryRound now).run with
  | .ok s => return s
  | .error e => return .stop (.ofError e)

end Watch

end Pegboard
