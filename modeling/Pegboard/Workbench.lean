import Pegboard.Config
import Pegboard.Event.Example
import Pegboard.Event.Semantics
import Pegboard.Refresh
import Pegboard.Store

/-!
# The workbench

A workbench holds a grammar source and an input, and keeps what follows from them up to date: the
grammar, what is wrong with it, and the trace of the input. Each edit is followed by a refresh once
the delay of the configuration is over; each refresh puts the sources into the store.
-/

namespace Pegboard

/-- Why an operation of the workbench did not do all that was asked. -/
inductive WorkbenchError
  /-- The edit did not fit its text. -/
  | edit (cause : Text.EditError)
  /-- All was done, but the bus or one of its handlers refused the event. -/
  | bus (cause : BusError)
  /-- A refresh was done, but the bus refused one of its events. -/
  | refresh (cause : BusError)
  deriving DecidableEq, Repr

def WorkbenchError.message : WorkbenchError → String
  | edit cause => cause.message
  | bus cause => cause.message
  | refresh cause =>
    "refresh cycle failed: editor bus rejected a refresh event: " ++ cause.message

/-- A workbench with a store of type `τ`, whose handlers share a state of type `σ`. -/
structure Workbench (σ τ : Type) where
  config : Config
  store : τ
  grammarDoc : Document
  inputDoc : Document
  /-- The match of the grammar source, which follows its edits. -/
  session : Match.Session
  refresh : Refresh
  options : Options
  /-- The start rule selected for the trace. -/
  selection? : Option String
  editorBus : Bus EditorEvent σ
  semanticsBus : Bus SemanticsEvent σ
  exampleBus : Bus ExampleEvent σ
  world : σ

namespace Workbench

variable {σ τ : Type}

/-- A workbench without sources. -/
def new (config : Config) (store : τ) (world : σ) : Workbench σ τ where
  config := config
  store := store
  grammarDoc := .ofText ""
  inputDoc := .ofText ""
  session := .new Grammar.ofGrammars
  refresh := .initial
  options := config.options
  selection? := none
  editorBus := .new
  semanticsBus := .new
  exampleBus := .new
  world := world

def grammarSource (w : Workbench σ τ) : String :=
  w.grammarDoc.text

def inputSource (w : Workbench σ τ) : String :=
  w.inputDoc.text

/-! ### Edits -/

/-- Has a refresh follow after a delay in milliseconds. -/
def schedule (w : Workbench σ τ) (now delay : Nat) : Workbench σ τ :=
  { w with refresh := w.refresh.schedule now (milliseconds delay) }

/-- Emits an event on the editor bus. -/
def announce (w : Workbench σ τ) (e : EditorEvent) : Except BusError Unit × Workbench σ τ :=
  let (r, world) := w.editorBus.emit e w.world
  (r, { w with world := world })

/-- What follows a change of the grammar source. -/
def grammarEdited (w : Workbench σ τ) (now : Nat) : Except BusError Unit × Workbench σ τ :=
  ({ w with refresh := w.refresh.markGrammar }.schedule now w.config.editDelay).announce
    (.grammarEditorChanged w.grammarDoc.version)

/-- What follows a change of the input. -/
def inputEdited (w : Workbench σ τ) (now : Nat) : Except BusError Unit × Workbench σ τ :=
  ({ w with refresh := w.refresh.markInput }.schedule now w.config.editDelay).announce
    (.inputEditorChanged w.inputDoc.version)

/-- Takes another grammar source. The one that is there already is no edit. -/
def setGrammarSource (w : Workbench σ τ) (now : Nat) (text : String) :
    Except BusError Unit × Workbench σ τ :=
  if w.grammarDoc.text = text then (.ok (), w)
  else
    { w with
      grammarDoc := w.grammarDoc.setText text
      session := w.session.setText text }.grammarEdited now

/-- Takes another input. The one that is there already is no edit. -/
def setInputSource (w : Workbench σ τ) (now : Nat) (text : String) :
    Except BusError Unit × Workbench σ τ :=
  if w.inputDoc.text = text then (.ok (), w)
  else { w with inputDoc := w.inputDoc.setText text }.inputEdited now

/-- An answer of the bus as one of the workbench. -/
def afterEdit (answer : Except BusError Unit × Workbench σ τ) :
    Except WorkbenchError Unit × Workbench σ τ :=
  (answer.1.mapError .bus, answer.2)

/-- Makes a change of the grammar source, in the session first and then in the document. -/
def editGrammar (w : Workbench σ τ) (now : Nat) (c : Change) :
    Except WorkbenchError Unit × Workbench σ τ :=
  match w.session.follow w.grammarDoc c with
  | .error e => (.error (.edit e), w)
  | .ok (_, session) =>
    let w := { w with session := session }
    match w.grammarDoc.apply c with
    | .error e => (.error (.edit e), w)
    | .ok (_, d) => afterEdit ({ w with grammarDoc := d }.grammarEdited now)

/-- Replaces the bytes of the grammar source from `start` to `stop`, in the session first and then in
the document. -/
def editGrammarRange (w : Workbench σ τ) (now start stop : Nat) (text : String) :
    Except WorkbenchError Unit × Workbench σ τ :=
  match w.session.replaceRange start stop text with
  | .error e => (.error (.edit e), w)
  | .ok session =>
    let w := { w with session := session }
    match w.grammarDoc.replaceRange start stop text with
    | .error e => (.error (.edit e), w)
    | .ok d => afterEdit ({ w with grammarDoc := d }.grammarEdited now)

/-- Makes a change of the input. -/
def editInput (w : Workbench σ τ) (now : Nat) (c : Change) :
    Except WorkbenchError Unit × Workbench σ τ :=
  match w.inputDoc.apply c with
  | .ok (_, d) => afterEdit ({ w with inputDoc := d }.inputEdited now)
  | .error e => (.error (.edit e), w)

/-- Replaces the bytes of the input from `start` to `stop`. -/
def editInputRange (w : Workbench σ τ) (now start stop : Nat) (text : String) :
    Except WorkbenchError Unit × Workbench σ τ :=
  match w.inputDoc.replaceRange start stop text with
  | .ok d => afterEdit ({ w with inputDoc := d }.inputEdited now)
  | .error e => (.error (.edit e), w)

/-- Sets an option. To set `showFailures` decides it until a source changes. -/
def setOption (w : Workbench σ τ) (now : Nat) (name : String) (value : Bool) :
    Except BusError Unit × Workbench σ τ :=
  let refresh :=
    if name = showFailures then { w.refresh with display := .explicit value } else w.refresh
  ({ w with refresh := refresh, options := w.options.set name value }.schedule now
    w.config.optionDelay).announce (.optionChanged name)

/-- Selects the start rule for the trace; none means the grammar's own. -/
def setStartRule (w : Workbench σ τ) (now : Nat) (rule? : Option String) : Workbench σ τ :=
  { w with selection? := rule? }.schedule now w.config.optionDelay

/-! ### Refreshing -/

/-- The time left before the next refresh is due. -/
def timeUntilRefresh (w : Workbench σ τ) (now : Nat) : Option Nat :=
  w.refresh.timer.remaining now

/-- What a refresh cycle reads. -/
def refreshInput (w : Workbench σ τ) : RefreshInput where
  grammarSource := w.grammarDoc.text
  inputSource := w.inputDoc.text
  inputVersion := w.inputDoc.version
  selection := w.selection?

/-- Runs a refresh cycle. -/
def runCycle (w : Workbench σ τ) : Except WorkbenchError RefreshReport × Workbench σ τ :=
  let c := (RefreshCycle.begin w.refresh w.session w.options w.world).run w.editorBus
    w.refreshInput
  let w := { w with
    refresh := c.refresh
    session := c.session
    options := c.options
    world := c.world }
  match c.violation? with
  | some e => (.error (.refresh e), w)
  | none => (.ok c.report, w)

variable {m : Type → Type} [Monad m] [Store m τ]

/-- Puts the input into the store, and the grammar source if it changed. What the store refuses is
left out. -/
def save (w : Workbench σ τ) (grammarChanged : Bool) : m (Workbench σ τ) := do
  let (_, store) ← Store.set w.store inputKey w.inputDoc.text
  if grammarChanged then
    let (_, store) ← Store.set store grammarKey w.grammarDoc.text
    return { w with store := store }
  else return { w with store := store }

/-- Runs a refresh cycle, due or not, and saves the sources unless the bus refused an event. -/
def refreshNow (w : Workbench σ τ) : m (Except WorkbenchError RefreshReport × Workbench σ τ) := do
  match w.runCycle with
  | (.ok report, w) => return (.ok report, ← w.save report.flags.grammar)
  | (.error e, w) => return (.error e, w)

/-- Refreshes if a condition holds. -/
def refreshIf (w : Workbench σ τ) (condition : Bool) :
    m (Except WorkbenchError (Option RefreshReport) × Workbench σ τ) := do
  if condition then
    let (r, w) ← w.refreshNow
    return (r.map some, w)
  else return (.ok none, w)

/-- Refreshes if it is time. -/
def poll (w : Workbench σ τ) (now : Nat) :
    m (Except WorkbenchError (Option RefreshReport) × Workbench σ τ) :=
  w.refreshIf (w.refresh.timer.isDue now)

/-- Refreshes if a refresh is to come. -/
def flush (w : Workbench σ τ) :
    m (Except WorkbenchError (Option RefreshReport) × Workbench σ τ) :=
  w.refreshIf w.refresh.timer.isPending

/-! ### The store -/

/-- Takes these sources, to be refreshed at once. -/
def takeSources (w : Workbench σ τ) (now : Nat) (grammar input : String) : Workbench σ τ :=
  { w with
    session := w.session.setText grammar
    grammarDoc := w.grammarDoc.setText grammar
    inputDoc := w.inputDoc.setText input
    refresh := w.refresh.markGrammar.markInput }.schedule now 0

/-- Takes the sources from the store; what it does not give is the sample grammar and the empty
input. -/
def restore (w : Workbench σ τ) (now : Nat) : m (Workbench σ τ) := do
  let grammar ← Store.get w.store grammarKey
  let input ← Store.get w.store inputKey
  return w.takeSources now (found grammar w.config.sampleGrammar) (found input "")
where
  found (answer : Except StoreError (Option String)) (otherwise : String) : String :=
    match answer with
    | .ok (some text) => text
    | _ => otherwise

/-- A workbench with the sources of a store. -/
def load (config : Config) (store : τ) (world : σ) (now : Nat) : m (Workbench σ τ) :=
  (new config store world).restore now

end Workbench

end Pegboard
