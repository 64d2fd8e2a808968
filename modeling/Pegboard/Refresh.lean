import Pegboard.Bus
import Pegboard.Event.Editor
import Pegboard.Match.Session
import Pegboard.Options
import Pegboard.Timer

/-!
# Refreshing grammar and trace

Changes of the grammar source and of the input mark what is out of date and arm a timer. A refresh
cycle then builds the grammar anew if its source changed, traces the input unless the last trace
still holds, and tells the editor bus about each step. A cycle always runs to its end; the first
event that the bus refused is told afterwards.
-/

namespace Pegboard

/-- Which sources changed since the last cycle. -/
structure Dirty where
  grammar : Bool
  input : Bool
  deriving DecidableEq, Repr

namespace Dirty

def clean : Dirty := ⟨false, false⟩

def any (d : Dirty) : Bool := d.grammar || d.input

end Dirty

/-- The last trace and what it was made from: the build of the grammar, the start rule, and the
version of the input. -/
structure TraceRecord where
  generation : Nat
  start : String
  inputVersion : Nat
  trace : Trace

/-- Whether the trace was made from these. -/
def TraceRecord.isOf (r : TraceRecord) (generation : Nat) (start : String) (version : Nat) : Bool :=
  r.generation == generation && r.start == start && r.inputVersion == version

/-- How often things were done. -/
structure RefreshStats where
  cycles : Nat
  grammarBuilds : Nat
  traces : Nat
  handlerFailures : Nat
  deriving DecidableEq, Repr

/-- What one cycle did. -/
structure RefreshReport where
  /-- What was out of date. -/
  flags : Dirty
  grammarRebuilt : Bool
  traceExecuted : Bool
  traceReused : Bool
  start? : Option String
  handlerFailures : Nat
  /-- The error of a match that the cycle had to give up. -/
  matchError? : Option MatchError
  deriving DecidableEq, Repr

/-- What the refresh does between two cycles. -/
inductive RefreshState
  | idle
  | pending
  deriving DecidableEq, Repr

structure Refresh where
  timer : Timer
  state : RefreshState
  dirty : Dirty
  display : FailureDisplay
  /-- The grammar built last, if its source was right. -/
  grammar? : Option Grammar
  grammarError? : Option GrammarError
  /-- How often the grammar was built, so that no two builds are taken for one another. -/
  generation : Nat
  last? : Option TraceRecord
  stats : RefreshStats

namespace Refresh

/-- The state before anything happened. -/
def initial : Refresh where
  timer := .unarmed
  state := .idle
  dirty := .clean
  display := .implicit
  grammar? := none
  grammarError? := none
  generation := 0
  last? := none
  stats := ⟨0, 0, 0, 0⟩

/-- The last trace, if it is one of the grammar built last. -/
def trace? (r : Refresh) : Option Trace :=
  r.last?.map (·.trace)

/-- Arms the timer; the delay asked for last counts. -/
def schedule (r : Refresh) (now delay : Nat) : Refresh :=
  { r with timer := r.timer.arm now delay, state := .pending }

def markGrammar (r : Refresh) : Refresh :=
  { r with dirty := { r.dirty with grammar := true } }

def markInput (r : Refresh) : Refresh :=
  { r with dirty := { r.dirty with input := true } }

end Refresh

/-- What a cycle reads: the texts of the sources, the version of the input, and the start rule
selected. -/
structure RefreshInput where
  grammarSource : String
  inputSource : String
  inputVersion : Nat
  selection : Option String

/-- A cycle under way. -/
structure RefreshCycle (σ : Type) where
  refresh : Refresh
  session : Match.Session
  options : Options
  report : RefreshReport
  /-- The first event that the bus refused, and why. -/
  violation? : Option BusError
  /-- The state that the handlers share. -/
  world : σ

namespace RefreshCycle

variable {σ : Type}

/-- A new cycle, which takes over what is out of date; behind it the refresh is idle. A change of a
source hands the display of failures back to the outcome of the match. -/
def begin (r : Refresh) (session : Match.Session) (options : Options) (world : σ) :
    RefreshCycle σ where
  refresh :=
    { r with
      timer := r.timer.cancel
      state := .idle
      dirty := .clean
      display := if r.dirty.any then .implicit else r.display
      stats := { r.stats with cycles := r.stats.cycles + 1 } }
  session := session
  options := options
  report := ⟨r.dirty, false, false, false, none, 0, none⟩
  violation? := none
  world := world

/-- Emits an event. Failures of handlers are counted; a refusal is kept for the end. -/
def publish (bus : Bus EditorEvent σ) (e : EditorEvent) (c : RefreshCycle σ) : RefreshCycle σ :=
  match bus.emit e c.world with
  | (.ok (), world) => { c with world := world }
  | (.error (.handlerFailed _ failures), world) =>
    { c with
      world := world
      report := { c.report with
        handlerFailures := c.report.handlerFailures + failures.length }
      refresh := { c.refresh with
        stats := { c.refresh.stats with
          handlerFailures := c.refresh.stats.handlerFailures + failures.length } } }
  | (.error violation, world) =>
    { c with world := world, violation? := c.violation?.or (some violation) }

/-- Builds the grammar from its source. The trace of the old one goes. -/
def rebuild (bus : Bus EditorEvent σ) (c : RefreshCycle σ) : RefreshCycle σ :=
  let (result, session) := c.session.matchRule none
  let c := { c with
    session := session
    report := { c.report with grammarRebuilt := true }
    refresh := { c.refresh with
      stats := { c.refresh.stats with grammarBuilds := c.refresh.stats.grammarBuilds + 1 }
      generation := c.refresh.generation + 1
      last? := none } }
  match result with
  | .error e =>
    { c with
      report := { c.report with matchError? := some e }
      refresh := { c.refresh with grammar? := none, grammarError? := some (.abandoned e) } }
  | .ok result =>
    let o := Grammar.outcome result
    let c := { c with
      refresh := { c.refresh with grammar? := o.grammar?, grammarError? := o.error? } }
    c.publish bus (.grammarParsed result o.grammar? o.error?)

/-- Tells of a trace, and shows failures if the input failed to match, unless the user decided. -/
def present (bus : Bus EditorEvent σ) (start : String) (t : Trace) (c : RefreshCycle σ) :
    RefreshCycle σ :=
  let options :=
    if c.refresh.display = .implicit then c.options.set showFailures !t.result.succeeded
    else c.options
  { c with options := options, report := { c.report with start? := some start } }.publish bus
    (.inputParsed t)

/-- Traces the input from a start rule, unless the last trace is the one wanted. -/
def retraceFrom (bus : Bus EditorEvent σ) (i : RefreshInput) (g : Grammar) (start : String)
    (c : RefreshCycle σ) : RefreshCycle σ :=
  match c.refresh.last?.filter (·.isOf c.refresh.generation start i.inputVersion) with
  | some last =>
    { c with report := { c.report with traceReused := true } }.present bus start last.trace
  | none =>
    match g.trace i.inputSource (some start) with
    | .error e =>
      { c with
        report := { c.report with matchError? := some e }
        refresh := { c.refresh with last? := none } }
    | .ok t =>
      { c with
        report := { c.report with traceExecuted := true }
        refresh := { c.refresh with
          stats := { c.refresh.stats with traces := c.refresh.stats.traces + 1 }
          last? := some ⟨c.refresh.generation, start, i.inputVersion, t⟩ } }.present bus start t

/-- Traces the input if there is a grammar with a start rule. -/
def retrace (bus : Bus EditorEvent σ) (i : RefreshInput) (c : RefreshCycle σ) : RefreshCycle σ :=
  match c.refresh.grammar? with
  | none => c
  | some g =>
    match g.resolveStart i.selection with
    | none => c
    | some start => c.retraceFrom bus i g start

/-- The whole of a cycle. -/
def run (bus : Bus EditorEvent σ) (i : RefreshInput) (c : RefreshCycle σ) : RefreshCycle σ :=
  let flags := c.report.flags
  let c := if flags.input then c.publish bus (.inputChanged i.inputSource) else c
  let c :=
    if flags.grammar then (c.publish bus (.grammarChanged i.grammarSource)).rebuild bus else c
  c.retrace bus i

end RefreshCycle

end Pegboard
