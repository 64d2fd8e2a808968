import Pegboard.Proofs.Workbench

/-!
# What an operation comes to

A workbench can be asked for many things, but few things come of it: nothing at all, a source that
moves on to its next version, an option or a start rule that is set, sources that are taken from the
store, or a refresh. `Turn` says which, and `step_turn` that every operation is one of them, so that
what a run preserves needs no look at the operations themselves.

What a refresh leaves in the workbench and in the store is said by `refreshNow_eq`.
-/

namespace Pegboard.Workbench

variable {σ τ : Type}

/-- The moment of an edit of a source. -/
def Operation.editMoment? : Operation σ τ → Option Nat
  | .setGrammarSource now _ | .editGrammar now _ | .editGrammarRange now _ _ _ => some now
  | .setInputSource now _ | .editInput now _ | .editInputRange now _ _ _ => some now
  | _ => none

/-- The operations that refresh, if it is time for it. -/
def Operation.refreshes : Operation σ τ → Bool
  | .poll _ | .flush | .refreshNow => true
  | _ => false

/-- A cycle begins with an idle refresh and nothing out of date, and hands the display of failures
back if a source changed. -/
theorem steady_cycle (w : Workbench σ τ) :
    (RefreshCycle.begin w.refresh w.session w.options w.world).Steady w.cycle :=
  RefreshCycle.steady_run _ _ _

variable [Store Id τ]

/-- What an operation comes to. -/
inductive Turn (w : Workbench σ τ) : Operation σ τ → Prop
  /-- The edit is refused or changes nothing, or it is not time for a refresh. -/
  | stays {op : Operation σ τ} (hop : op.editMoment?.isSome = true ∨ op.refreshes = true)
      (hstep : w.step op = w) : Turn w op
  | grammar {op : Operation σ τ} {now : Nat} (hop : op.editMoment? = some now) (d : Document)
      (session : Match.Session) (hversion : d.version = w.grammarDoc.version + 1)
      (hstep : w.step op = ({ w with grammarDoc := d, session := session }.grammarEdited now).2) :
      Turn w op
  | input {op : Operation σ τ} {now : Nat} (hop : op.editMoment? = some now) (d : Document)
      (hversion : d.version = w.inputDoc.version + 1)
      (hstep : w.step op = ({ w with inputDoc := d }.inputEdited now).2) : Turn w op
  | restored (now : Nat) (grammar input : String)
      (hstep : w.step (.restore now) = w.takeSources now grammar input) : Turn w (.restore now)
  | option (now : Nat) (name : String) (value : Bool) : Turn w (.setOption now name value)
  | startRule (now : Nat) (rule? : Option String) : Turn w (.setStartRule now rule?)
  | refreshed {op : Operation σ τ} (hop : op.refreshes = true)
      (hstep : w.step op = (w.refreshNow (m := Id)).2) : Turn w op
  | replacedBus (bus : Bus EditorEvent σ) : Turn w (.replaceBus bus)
  | outside (world : σ) (store : τ) : Turn w (.outside world store)

theorem turn_refreshIf (w : Workbench σ τ) {op : Operation σ τ} (hop : op.refreshes = true)
    {condition : Bool} (hstep : w.step op = (w.refreshIf (m := Id) condition).2) : w.Turn op := by
  cases condition with
  | true => exact .refreshed hop hstep
  | false => exact .stays (.inr hop) hstep

theorem step_turn {w : Workbench σ τ} (htext : w.session.text = w.grammarDoc.text)
    (op : Operation σ τ) : w.Turn op := by
  cases op with
  | restore now => exact .restored now _ _ rfl
  | setGrammarSource now text =>
      have hstep : w.step (.setGrammarSource now text) = (w.setGrammarSource now text).2 := rfl
      unfold setGrammarSource at hstep
      split at hstep
      · exact .stays (.inl rfl) hstep
      · rename_i hne
        obtain ⟨heq, -⟩ | ⟨-, hd⟩ := w.grammarDoc.setText_eq text
        · exact absurd heq hne
        · exact .grammar rfl _ _ (by rw [hd]) hstep
  | setInputSource now text =>
      have hstep : w.step (.setInputSource now text) = (w.setInputSource now text).2 := rfl
      unfold setInputSource at hstep
      split at hstep
      · exact .stays (.inl rfl) hstep
      · rename_i hne
        obtain ⟨heq, -⟩ | ⟨-, hd⟩ := w.inputDoc.setText_eq text
        · exact absurd heq hne
        · exact .input rfl _ (by rw [hd]) hstep
  | editGrammar now c =>
      rcases editGrammar_cases htext now c with ⟨_, -, heq⟩ | ⟨_, _, _, -, happly, -, heq⟩
      · exact .stays (.inl rfl) (congrArg (·.2) heq)
      · exact .grammar rfl _ _ (Document.replaceRange_eq_ok (Document.apply_eq_ok happly).2).2
          (congrArg (·.2) heq)
  | editGrammarRange now start stop text =>
      rcases editGrammarRange_cases htext now start stop text with
        ⟨_, -, heq⟩ | ⟨_, _, -, hdoc, -, heq⟩
      · exact .stays (.inl rfl) (congrArg (·.2) heq)
      · exact .grammar rfl _ _ (Document.replaceRange_eq_ok hdoc).2 (congrArg (·.2) heq)
  | editInput now c =>
      have hstep : w.step (.editInput now c) = (w.editInput now c).2 := rfl
      unfold editInput at hstep
      split at hstep
      · rename_i happly
        exact .input rfl _ (Document.replaceRange_eq_ok (Document.apply_eq_ok happly).2).2 hstep
      · exact .stays (.inl rfl) hstep
  | editInputRange now start stop text =>
      have hstep : w.step (.editInputRange now start stop text) =
        (w.editInputRange now start stop text).2 := rfl
      unfold editInputRange at hstep
      split at hstep
      · rename_i hdoc
        exact .input rfl _ (Document.replaceRange_eq_ok hdoc).2 hstep
      · exact .stays (.inl rfl) hstep
  | setOption now name value => exact .option now name value
  | setStartRule now rule? => exact .startRule now rule?
  | poll now => exact w.turn_refreshIf rfl rfl
  | flush => exact w.turn_refreshIf rfl rfl
  | refreshNow => exact .refreshed rfl rfl
  | replaceBus bus => exact .replacedBus bus
  | outside world store => exact .outside world store

/-! ## Refreshes -/

/-- What a refresh puts into the store. -/
def kept (w : Workbench σ τ) : τ :=
  let store := (Store.set (m := Id) w.store inputKey w.inputDoc.text).2
  if w.refresh.dirty.grammar then (Store.set (m := Id) store grammarKey w.grammarDoc.text).2
  else store

/-- A refresh is a cycle, and saves the sources unless the bus refused an event. -/
theorem refreshNow_eq (w : Workbench σ τ) :
    w.refreshNow (m := Id) =
      match w.cycle.violation? with
      | some e => (.error (.refresh e), w.runCycle.2)
      | none => (.ok w.cycle.report, { w.runCycle.2 with store := w.kept }) := by
  have hflags : w.cycle.report.flags = w.refresh.dirty := w.steady_cycle.flags
  rw [runCycle_eq]
  unfold refreshNow
  rw [runCycle_eq]
  cases w.cycle.violation? with
  | some e => rfl
  | none =>
      dsimp only
      unfold save kept
      rw [hflags]
      cases w.refresh.dirty.grammar <;> rfl

/-- The workbench behind a refresh, whatever it is answered. -/
theorem refreshNow_snd (w : Workbench σ τ) :
    (w.refreshNow (m := Id)).2 =
      { w with
        refresh := w.cycle.refresh
        session := w.cycle.session
        options := w.cycle.options
        world := w.cycle.world
        store := if w.cycle.violation? = none then w.kept else w.store } := by
  rw [refreshNow_eq, runCycle_eq]
  cases w.cycle.violation? <;> rfl

end Pegboard.Workbench
