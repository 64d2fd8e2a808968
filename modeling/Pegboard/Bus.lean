import Pegboard.Event

/-!
# Event buses

A bus carries the events of one category to the handlers that subscribed to them. It checks each
event against what was registered under its name before any handler runs; then every handler of
the event runs, in the order of subscription, whether or not others fail. The handlers share a
state of type `σ`, which is all that they can change.
-/

namespace Pegboard

/-- What a failed handler reports: a message, and behind it the causes of the failure. -/
abbrev HandlerError := List String

inductive BusError
  | unregisteredEvent (event : String)
  | arityMismatch (event : String) (expected actual : Nat)
  | alreadyRegistered (event : String)
  /-- Some handlers failed, in this order. -/
  | handlerFailed (event : String) (failures : List HandlerError)
  deriving DecidableEq, Repr

namespace BusError

def message : BusError → String
  | unregisteredEvent event => "Unregistered event: " ++ event
  | arityMismatch event expected actual =>
    "Event " ++ event ++ " expects " ++ toString expected ++ " argument(s) but was emitted with "
      ++ toString actual
  | alreadyRegistered event => "Event " ++ event ++ " is already registered"
  | handlerFailed event failures =>
    toString failures.length ++ " handler(s) failed for event " ++ event
      ++ match failures.head? with
        | some first => ": " ++ ": ".intercalate first
        | none => ""

/-- Whether it was the event that was wrong, not a handler that failed. -/
def isContractViolation : BusError → Bool
  | handlerFailed _ _ => false
  | _ => true

end BusError

/-- What a handler does with an event: it changes the shared state, and may fail. -/
abbrev Handler (ε σ : Type) := ε → σ → Except HandlerError Unit × σ

structure Bus (ε σ : Type) where
  /-- The kinds of events registered, in order. -/
  kinds : List EventKind
  /-- The handlers with the names of their events, in the order of subscription. -/
  handlers : List (String × Handler ε σ)

namespace Bus

variable {ε σ : Type} [Event ε]

/-- A bus that knows no event. -/
def empty : Bus ε σ := ⟨[], []⟩

/-- A bus that knows the catalog of its category. -/
def new : Bus ε σ := ⟨Event.catalog ε, []⟩

def kind? (b : Bus ε σ) (event : String) : Option EventKind :=
  b.kinds.find? (·.name == event)

def isRegistered (b : Bus ε σ) (event : String) : Bool :=
  (b.kind? event).isSome

def eventNames (b : Bus ε σ) : List String :=
  b.kinds.map (·.name)

def handlerCount (b : Bus ε σ) (event : String) : Nat :=
  b.handlers.countP (·.1 == event)

def schema (b : Bus ε σ) : Json :=
  catalogSchema b.kinds

/-- Registers a kind of events, unless its name is taken. -/
def register (b : Bus ε σ) (k : EventKind) : Except BusError (Bus ε σ) :=
  if b.isRegistered k.name then .error (.alreadyRegistered k.name)
  else .ok { b with kinds := b.kinds ++ [k] }

/-- The first of some kinds whose name is taken, by the bus or by a kind passed before. -/
def taken? (b : Bus ε σ) (passed : List EventKind) : List EventKind → Option EventKind
  | [] => none
  | k :: ks =>
    if b.isRegistered k.name || passed.any (·.name == k.name) then some k
    else b.taken? (passed ++ [k]) ks

/-- Registers kinds one after the other, up to the first that is refused. Those before it stay. -/
def registerEach (b : Bus ε σ) : List EventKind → Except BusError Unit × Bus ε σ
  | [] => (.ok (), b)
  | k :: ks =>
    match b.register k with
    | .ok b => b.registerEach ks
    | .error e => (.error e, b)

/-- Registers kinds in order if none of their names is taken or comes twice. The answer, and the bus
afterwards. -/
def registerBatch (b : Bus ε σ) (ks : List EventKind) : Except BusError Unit × Bus ε σ :=
  match b.taken? [] ks with
  | some k => (.error (.alreadyRegistered k.name), b)
  | none => b.registerEach ks

/-- The bus with a batch of kinds, or why it was refused. -/
def registerAll (b : Bus ε σ) (ks : List EventKind) : Except BusError (Bus ε σ) :=
  match b.registerBatch ks with
  | (.ok (), b) => .ok b
  | (.error e, _) => .error e

/-- Subscribes a handler to an event. -/
def on (b : Bus ε σ) (event : String) (h : Handler ε σ) : Except BusError (Bus ε σ) :=
  if b.isRegistered event then .ok { b with handlers := b.handlers ++ [(event, h)] }
  else .error (.unregisteredEvent event)

/-- Runs handlers one after the other, and collects their failures. -/
def runAll (e : ε) : List (Handler ε σ) → σ → List HandlerError × σ
  | [], s => ([], s)
  | h :: hs, s =>
    match h e s with
    | (.ok (), s) => runAll e hs s
    | (.error failure, s) =>
      let (failures, s) := runAll e hs s
      (failure :: failures, s)

/-- The handlers of an event, in the order of subscription. -/
def handlersOf (b : Bus ε σ) (event : String) : List (Handler ε σ) :=
  (b.handlers.filter (·.1 == event)).map (·.2)

/-- Checks an event and runs its handlers. -/
def emit (b : Bus ε σ) (e : ε) (s : σ) : Except BusError Unit × σ :=
  match b.kind? (Event.name e) with
  | none => (.error (.unregisteredEvent (Event.name e)), s)
  | some k =>
    if k.params.length = Event.arity e then
      match runAll e (b.handlersOf (Event.name e)) s with
      | ([], s) => (.ok (), s)
      | (failures, s) => (.error (.handlerFailed (Event.name e) failures), s)
    else (.error (.arityMismatch (Event.name e) k.params.length (Event.arity e)), s)

end Bus

end Pegboard
