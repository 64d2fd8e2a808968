import Pegboard.Bus
import Pegboard.Event.Editor
import Mathlib.Tactic.Common

/-!
# Writing down what a bus carries

What was published on a bus is what its handlers were told. To speak of it, a bus gets one handler
more, which writes down each event it is told; nobody else can tell that the handler is there.

A bus is standard if it knows the catalog of its category. An event of the catalog is then never
refused, and written down exactly once.

Main statement: `emit_recording`.
-/

namespace Pegboard

/-- The handler, where a list of events is kept beside the state. -/
def Handler.beside {ε σ : Type} (h : Handler ε σ) : Handler ε (σ × List ε) :=
  fun e s => ((h e s.1).1, ((h e s.1).2, s.2))

/-- Writes the event down. -/
def Handler.recorder {ε σ : Type} : Handler ε (σ × List ε) :=
  fun e s => (.ok (), (s.1, s.2 ++ [e]))

/-- The catalog has one kind for the event, with as many parameters as the event has arguments. -/
def Event.InCatalog {ε : Type} [Event ε] (e : ε) : Prop :=
  ∃ k, (Event.catalog ε).filter (·.name == Event.name e) = [k] ∧ k.params.length = Event.arity e

theorem EditorEvent.inCatalog (e : EditorEvent) : Event.InCatalog e := by
  cases e <;> exact ⟨_, rfl, rfl⟩

namespace Bus

variable {ε σ : Type}

theorem runAll_append (e : ε) (hs hs' : List (Handler ε σ)) (s : σ) :
    runAll e (hs ++ hs') s =
      ((runAll e hs s).1 ++ (runAll e hs' (runAll e hs s).2).1,
        (runAll e hs' (runAll e hs s).2).2) := by
  induction hs generalizing s with
  | nil => rfl
  | cons h hs ih =>
      rw [List.cons_append, runAll, runAll]
      split <;> simp [ih]

theorem runAll_beside (e : ε) (hs : List (Handler ε σ)) (s : σ × List ε) :
    runAll e (hs.map Handler.beside) s =
      ((runAll e hs s.1).1, ((runAll e hs s.1).2, s.2)) := by
  induction hs generalizing s with
  | nil => rfl
  | cons h hs ih =>
      rw [List.map_cons, runAll, runAll, Handler.beside]
      rcases hresult : h e s.1 with ⟨r, s'⟩
      cases r <;> simp [ih]

variable [Event ε] {b : Bus ε σ} {e : ε}

/-- The bus knows the catalog of its category, and maybe further kinds. -/
def Standard (b : Bus ε σ) : Prop :=
  ∃ more, b.kinds = Event.catalog ε ++ more

/-- The bus with a handler for each kind of the catalog that writes the events down. -/
def recording (b : Bus ε σ) : Bus ε (σ × List ε) where
  kinds := b.kinds
  handlers := b.handlers.map (fun p => (p.1, p.2.beside)) ++
    (Event.catalog ε).map fun k => (k.name, .recorder)

theorem standard_new : (new : Bus ε σ).Standard :=
  ⟨[], (List.append_nil _).symm⟩

theorem Standard.on {event : String} {h : Handler ε σ} {b' : Bus ε σ} (hb : b.Standard)
    (hon : b.on event h = .ok b') : b'.Standard := by
  unfold Bus.on at hon
  split at hon
  · obtain rfl := Except.ok.inj hon
    exact hb
  · cases hon

theorem Standard.register {k : EventKind} {b' : Bus ε σ} (hb : b.Standard)
    (hregister : b.register k = .ok b') : b'.Standard := by
  obtain ⟨more, hkinds⟩ := hb
  unfold Bus.register at hregister
  split at hregister
  · cases hregister
  · obtain rfl := Except.ok.inj hregister
    exact ⟨more ++ [k], by simp [hkinds]⟩

theorem Standard.kind? (hb : b.Standard) (he : Event.InCatalog e) :
    ∃ k, b.kind? (Event.name e) = some k ∧ k.params.length = Event.arity e := by
  obtain ⟨more, hkinds⟩ := hb
  obtain ⟨k, hfilter, harity⟩ := he
  have hfind : (Event.catalog ε).find? (·.name == Event.name e) = some k := by
    rw [← List.head?_filter, hfilter]
    rfl
  refine ⟨k, ?_, harity⟩
  rw [Bus.kind?, hkinds, List.find?_append, hfind]
  rfl

/-- On a standard bus an event of the catalog reaches its handlers. -/
theorem Standard.emit_eq (hb : b.Standard) (he : Event.InCatalog e) (s : σ) :
    b.emit e s =
      (match (runAll e (b.handlersOf (Event.name e)) s).1 with
        | [] => .ok ()
        | failures => .error (.handlerFailed (Event.name e) failures),
        (runAll e (b.handlersOf (Event.name e)) s).2) := by
  obtain ⟨k, hkind, harity⟩ := hb.kind? he
  simp only [emit, hkind, harity, if_true]
  rcases runAll e (b.handlersOf (Event.name e)) s with ⟨failures, s'⟩
  cases failures <;> rfl

theorem handlersOf_recording (b : Bus ε σ) (he : Event.InCatalog e) :
    b.recording.handlersOf (Event.name e) =
      (b.handlersOf (Event.name e)).map Handler.beside ++ [.recorder] := by
  obtain ⟨k, hfilter, -⟩ := he
  unfold handlersOf recording
  rw [List.filter_append, List.map_append, List.filter_map, List.filter_map]
  have hcatalog : (Event.catalog ε).filter ((fun p : String × Handler ε (σ × List ε) =>
      p.1 == Event.name e) ∘ fun k => (k.name, .recorder)) = [k] := hfilter
  rw [hcatalog, List.map_map, List.map_map, List.map_map]
  rfl

/-- The recording bus answers as the bus does, and has written the event down. -/
theorem emit_recording (hb : b.Standard) (he : Event.InCatalog e) (s : σ × List ε) :
    b.recording.emit e s = ((b.emit e s.1).1, ((b.emit e s.1).2, s.2 ++ [e])) := by
  have hrecording : b.recording.Standard := hb
  rw [hrecording.emit_eq he, hb.emit_eq he, handlersOf_recording b he, runAll_append,
    runAll_beside]
  rcases runAll e (b.handlersOf (Event.name e)) s.1 with ⟨failures, s'⟩
  cases failures <;> simp [runAll, Handler.recorder]

end Bus

end Pegboard
