import Pegboard.Command.Printout
import Pegboard.Trace.Json

/-!
# Checking and tracing

Both commands put a grammar and an input into a workbench that nothing else uses, refresh it once,
and print what came of it.
-/

namespace Pegboard

/-- A workbench that leaves nothing behind. -/
abbrev Scratch := Workbench Unit MemoryStore

namespace Scratch

/-- A workbench with these sources and a start rule. -/
def ofSources (config : Config) (grammar input : String) (start? : Option String) : Scratch :=
  let store := MemoryStore.ofList [(grammarKey, grammar), (inputKey, input)]
  let w : Scratch := Workbench.load (m := Id) config store () 0
  w.setStartRule 0 start?

/-- The report of a refresh, and the workbench after it. -/
def refreshed (w : Scratch) : Except WorkbenchError (RefreshReport × Scratch) :=
  match w.refreshNow (m := Id) with
  | (.ok report, w) => .ok (report, w)
  | (.error e, _) => .error e

end Scratch

/-! ### Checking -/

/-- What is printed about a grammar and an input. -/
def checkPrintout (grammarPath : String) (inputPath? : Option String) (report : RefreshReport)
    (r : Refresh) : Printout :=
  match r.grammarError?, r.grammar? with
  | some e, _ => .failure "" (lineAbout grammarPath e.message)
  | none, none => .failure "" (lineAbout grammarPath "no grammar declared")
  | none, some g =>
    let grammarLine := lineAbout grammarPath
      ("grammar " ++ g.name ++ " (" ++ toString g.ownRules.length ++ " rules)")
    match inputPath? with
    | none => .success grammarLine
    | some inputPath =>
      match report.matchError?, r.trace? with
      | some e, _ => .failure grammarLine (lineAbout inputPath e.message)
      | none, none => .failure grammarLine (lineAbout grammarPath "grammar has no start rule")
      | none, some t =>
        if t.result.succeeded then
          .success (grammarLine ++ lineAbout inputPath ("matched " ++ t.result.start))
        else .failure grammarLine (lineAbout inputPath t.result.message)

/-! ### Tracing -/

/-- What a trace is to be printed like. -/
structure TraceStyle where
  failures : Bool
  spaces : Bool
  json : Bool

/-- What is printed of a trace. -/
def tracePrintout (json : Bool) (options : Options) (t : Trace) : String :=
  if json then t.toJson.pretty ++ "\n"
  else
    t.render ⟨options.get showFailures, options.get showSpaces⟩
      ++ (if t.result.succeeded then "" else t.result.message ++ "\n")

/-- Sets the options of a style, and refreshes. -/
def Scratch.styled (w : Scratch) (style : TraceStyle) : Except WorkbenchError Scratch := do
  let w ← if style.failures then accepted (w.setOption 0 showFailures true) else pure w
  let w ← accepted (w.setOption 0 showSpaces style.spaces)
  match w.flush (m := Id) with
  | (.ok _, w) => return w
  | (.error e, _) => throw e
where
  accepted (answer : Except BusError Unit × Scratch) : Except WorkbenchError Scratch :=
    match answer with
    | (.ok (), w) => .ok w
    | (.error e, _) => .error (.bus e)

/-- Prints the trace of a workbench that was refreshed once. -/
def Scratch.traced (w : Scratch) (report : RefreshReport) (grammarPath inputPath : String)
    (style : TraceStyle) : Except WorkbenchError Printout := do
  match w.refresh.grammarError?, report.matchError? with
  | none, some e => return .failure "" (lineAbout inputPath e.message)
  | _, _ =>
    let w ← w.styled style
    match w.refresh.grammarError?, w.refresh.trace? with
    | some e, _ => return .failure "" (lineAbout grammarPath e.message)
    | none, none => return .failure "" (lineAbout grammarPath "nothing to trace")
    | none, some t => return .success (tracePrintout style.json w.options t)

/-! ### The commands -/

variable {m : Type → Type} [Monad m] [Files m]

def checkFiles (config : Config) (grammarPath : String) (inputPath? start? : Option String) :
    ExceptT CommandError m Printout := do
  let grammar ← readSource grammarPath
  let input ← match inputPath? with
    | some path => readSource path
    | none => pure ""
  match (Scratch.ofSources config grammar input start?).refreshed with
  | .ok (report, w) => return checkPrintout grammarPath inputPath? report w.refresh
  | .error e => throw (.workbench e)

def traceFiles (config : Config) (grammarPath inputPath : String) (start? : Option String)
    (style : TraceStyle) : ExceptT CommandError m Printout := do
  let grammar ← readSource grammarPath
  let input ← readSource inputPath
  let printout := do
    let (report, w) ← (Scratch.ofSources config grammar input start?).refreshed
    w.traced report grammarPath inputPath style
  match printout with
  | .ok p => return p
  | .error e => throw (.workbench e)

end Pegboard
