import Pegboard.Refresh
import Pegboard.Proofs.Bus

/-!
# What a refresh cycle derives

A cycle derives the grammar from its source and the trace from the grammar and the input. The bus
has no say in that: telling an event changes the state of the handlers, what is counted of their
failures, and the violation kept for the end (`publish_eq`). What the steps of a cycle do to the
rest is said here once, for each of them; a cycle that traces ends in one of three ways
(`retrace_cases`).
-/

namespace Pegboard

/-- A trace that was made from these. -/
theorem TraceRecord.eq_of_isOf {l : TraceRecord} {generation version : Nat} {start : String}
    (h : l.isOf generation start version = true) : l = ⟨generation, start, version, l.trace⟩ := by
  simp only [TraceRecord.isOf, Bool.and_eq_true, beq_iff_eq] at h
  obtain ⟨⟨rfl, rfl⟩, rfl⟩ := h
  rfl

namespace RefreshCycle

variable {σ : Type} (bus : Bus EditorEvent σ) (e : EditorEvent) (i : RefreshInput)
variable (c : RefreshCycle σ)

/-- The cycle after an event was told: all that the bus and its handlers have a say in. -/
def told (world : σ) (violation? : Option BusError) (failures : Nat) : RefreshCycle σ :=
  { c with
    world := world
    violation? := violation?
    report := { c.report with handlerFailures := c.report.handlerFailures + failures }
    refresh := { c.refresh with
      stats := { c.refresh.stats with
        handlerFailures := c.refresh.stats.handlerFailures + failures } } }

theorem publish_eq :
    ∃ world violation? failures, c.publish bus e = c.told world violation? failures := by
  unfold publish
  split
  · exact ⟨_, c.violation?, 0, rfl⟩
  · exact ⟨_, c.violation?, _, rfl⟩
  · exact ⟨_, _, 0, rfl⟩

@[simp] theorem publish_session : (c.publish bus e).session = c.session := by
  obtain ⟨_, _, _, h⟩ := c.publish_eq bus e
  rw [h, told]

@[simp] theorem publish_grammar? : (c.publish bus e).refresh.grammar? = c.refresh.grammar? := by
  obtain ⟨_, _, _, h⟩ := c.publish_eq bus e
  rw [h, told]

@[simp] theorem publish_grammarError? :
    (c.publish bus e).refresh.grammarError? = c.refresh.grammarError? := by
  obtain ⟨_, _, _, h⟩ := c.publish_eq bus e
  rw [h, told]

@[simp] theorem publish_last? : (c.publish bus e).refresh.last? = c.refresh.last? := by
  obtain ⟨_, _, _, h⟩ := c.publish_eq bus e
  rw [h, told]

@[simp] theorem publish_executed :
    (c.publish bus e).report.traceExecuted = c.report.traceExecuted := by
  obtain ⟨_, _, _, h⟩ := c.publish_eq bus e
  rw [h, told]

@[simp] theorem publish_reused :
    (c.publish bus e).report.traceReused = c.report.traceReused := by
  obtain ⟨_, _, _, h⟩ := c.publish_eq bus e
  rw [h, told]

@[simp] theorem publish_options : (c.publish bus e).options = c.options := by
  obtain ⟨_, _, _, h⟩ := c.publish_eq bus e
  rw [h, told]

@[simp] theorem publish_generation :
    (c.publish bus e).refresh.generation = c.refresh.generation := by
  obtain ⟨_, _, _, h⟩ := c.publish_eq bus e
  rw [h, told]

@[simp] theorem publish_start? : (c.publish bus e).report.start? = c.report.start? := by
  obtain ⟨_, _, _, h⟩ := c.publish_eq bus e
  rw [h, told]

@[simp] theorem publish_rebuilt :
    (c.publish bus e).report.grammarRebuilt = c.report.grammarRebuilt := by
  obtain ⟨_, _, _, h⟩ := c.publish_eq bus e
  rw [h, told]

@[simp] theorem publish_matchError? :
    (c.publish bus e).report.matchError? = c.report.matchError? := by
  obtain ⟨_, _, _, h⟩ := c.publish_eq bus e
  rw [h, told]

/-! ## Building the grammar -/

@[simp] theorem rebuild_session : (c.rebuild bus).session = (c.session.matchRule none).2 := by
  unfold rebuild
  rcases c.session.matchRule none with ⟨_ | r, session⟩ <;> simp

@[simp] theorem rebuild_last? : (c.rebuild bus).refresh.last? = none := by
  unfold rebuild
  rcases c.session.matchRule none with ⟨_ | r, session⟩ <;> simp

@[simp] theorem rebuild_executed :
    (c.rebuild bus).report.traceExecuted = c.report.traceExecuted := by
  unfold rebuild
  rcases c.session.matchRule none with ⟨_ | r, session⟩ <;> simp

@[simp] theorem rebuild_reused : (c.rebuild bus).report.traceReused = c.report.traceReused := by
  unfold rebuild
  rcases c.session.matchRule none with ⟨_ | r, session⟩ <;> simp

@[simp] theorem rebuild_options : (c.rebuild bus).options = c.options := by
  unfold rebuild
  rcases c.session.matchRule none with ⟨_ | r, session⟩ <;> simp

@[simp] theorem rebuild_generation :
    (c.rebuild bus).refresh.generation = c.refresh.generation + 1 := by
  unfold rebuild
  rcases c.session.matchRule none with ⟨_ | r, session⟩ <;> simp

@[simp] theorem rebuild_rebuilt : (c.rebuild bus).report.grammarRebuilt = true := by
  unfold rebuild
  rcases c.session.matchRule none with ⟨_ | r, session⟩ <;> simp

theorem rebuild_matchError? :
    (c.rebuild bus).report.matchError? =
      match (c.session.matchRule none).1 with
      | .error e => some e
      | .ok _ => c.report.matchError? := by
  unfold rebuild
  rcases c.session.matchRule none with ⟨_ | r, session⟩ <;> simp

/-- A match that is given up leaves no grammar. -/
theorem rebuild_abandoned {e : MatchError} (h : (c.session.matchRule none).1 = .error e) :
    (c.rebuild bus).refresh.grammar? = none := by
  unfold rebuild
  rcases hmatch : c.session.matchRule none with ⟨_ | r, session⟩
  · rfl
  · rw [hmatch] at h
    cases h

/-- The grammar is the one that the match of its source comes to, and so is what is wrong with it. -/
theorem rebuild_outcome {r : Match.Result} (h : (c.session.matchRule none).1 = .ok r) :
    (⟨(c.rebuild bus).refresh.grammar?, (c.rebuild bus).refresh.grammarError?⟩ : Grammar.Outcome) =
      Grammar.outcome r := by
  unfold rebuild
  rcases hmatch : c.session.matchRule none with ⟨_ | r', session⟩
  · rw [hmatch] at h
    cases h
  · rw [hmatch] at h
    obtain rfl : r' = r := Except.ok.inj h
    simp

/-- The cycle before it comes to the trace. -/
def built : RefreshCycle σ :=
  let announced := if c.report.flags.input then c.publish bus (.inputChanged i.inputSource) else c
  if c.report.flags.grammar then
    (announced.publish bus (.grammarChanged i.grammarSource)).rebuild bus
  else announced

theorem run_eq : c.run bus i = (c.built bus i).retrace bus i :=
  rfl

@[simp] theorem built_executed :
    (c.built bus i).report.traceExecuted = c.report.traceExecuted := by
  unfold built
  split <;> split <;> simp

@[simp] theorem built_reused : (c.built bus i).report.traceReused = c.report.traceReused := by
  unfold built
  split <;> split <;> simp

@[simp] theorem built_options : (c.built bus i).options = c.options := by
  unfold built
  split <;> split <;> simp

theorem built_session :
    (c.built bus i).session =
      if c.report.flags.grammar then (c.session.matchRule none).2 else c.session := by
  unfold built
  split <;> split <;> simp_all

theorem built_last? :
    (c.built bus i).refresh.last? =
      if c.report.flags.grammar then none else c.refresh.last? := by
  unfold built
  split <;> split <;> simp_all

theorem built_outcome {r : Match.Result} (hflag : c.report.flags.grammar = true)
    (h : (c.session.matchRule none).1 = .ok r) :
    (⟨(c.built bus i).refresh.grammar?, (c.built bus i).refresh.grammarError?⟩ :
      Grammar.Outcome) = Grammar.outcome r := by
  unfold built
  rw [if_pos hflag]
  apply rebuild_outcome
  split <;> simpa using h

theorem built_rebuilt (h : c.report.grammarRebuilt = false) :
    (c.built bus i).report.grammarRebuilt = c.report.flags.grammar := by
  unfold built
  split <;> split <;> simp_all

theorem built_generation :
    (c.built bus i).refresh.generation =
      if c.report.flags.grammar then c.refresh.generation + 1 else c.refresh.generation := by
  unfold built
  split <;> split <;> simp_all

theorem built_matchError? (h : c.report.matchError? = none) :
    (c.built bus i).report.matchError? =
      if c.report.flags.grammar then
        match (c.session.matchRule none).1 with
        | .error e => some e
        | .ok _ => none
      else none := by
  unfold built
  split <;> split <;> simp_all [rebuild_matchError?]

theorem built_abandoned {e : MatchError} (hflag : c.report.flags.grammar = true)
    (h : (c.session.matchRule none).1 = .error e) : (c.built bus i).refresh.grammar? = none := by
  unfold built
  rw [if_pos hflag]
  apply rebuild_abandoned (e := e)
  split <;> simpa using h

/-- Without a change of its source the grammar stays. -/
theorem built_of_clean (hflag : c.report.flags.grammar = false) :
    (c.built bus i).refresh.grammar? = c.refresh.grammar? ∧
      (c.built bus i).refresh.grammarError? = c.refresh.grammarError? := by
  unfold built
  simp only [hflag, Bool.false_eq_true, if_false]
  split <;> simp

/-! ## Tracing the input -/

@[simp] theorem present_session (start : String) (t : Trace) :
    (c.present bus start t).session = c.session := by
  simp [present]

@[simp] theorem present_grammar? (start : String) (t : Trace) :
    (c.present bus start t).refresh.grammar? = c.refresh.grammar? := by
  simp [present]

@[simp] theorem present_grammarError? (start : String) (t : Trace) :
    (c.present bus start t).refresh.grammarError? = c.refresh.grammarError? := by
  simp [present]

@[simp] theorem present_last? (start : String) (t : Trace) :
    (c.present bus start t).refresh.last? = c.refresh.last? := by
  simp [present]

@[simp] theorem present_executed (start : String) (t : Trace) :
    (c.present bus start t).report.traceExecuted = c.report.traceExecuted := by
  simp [present]

@[simp] theorem present_reused (start : String) (t : Trace) :
    (c.present bus start t).report.traceReused = c.report.traceReused := by
  simp [present]

@[simp] theorem present_options (start : String) (t : Trace) :
    (c.present bus start t).options =
      if c.refresh.display = .implicit then c.options.set showFailures !t.result.succeeded
      else c.options := by
  simp [present]

@[simp] theorem present_generation (start : String) (t : Trace) :
    (c.present bus start t).refresh.generation = c.refresh.generation := by
  simp [present]

@[simp] theorem present_start? (start : String) (t : Trace) :
    (c.present bus start t).report.start? = some start := by
  simp [present]

@[simp] theorem present_rebuilt (start : String) (t : Trace) :
    (c.present bus start t).report.grammarRebuilt = c.report.grammarRebuilt := by
  simp [present]

@[simp] theorem present_matchError? (start : String) (t : Trace) :
    (c.present bus start t).report.matchError? = c.report.matchError? := by
  simp [present]

/-- The input is not traced without a grammar or a start rule. -/
def Startless : Prop :=
  ∀ g, c.refresh.grammar? = some g → g.resolveStart i.selection = none

/-- A cycle cannot trace the input, or presents the last trace again, or gives up its match, or
presents the trace that it made. -/
theorem retrace_cases :
    c.Startless i ∧ c.retrace bus i = c ∨
      ∃ g start, c.refresh.grammar? = some g ∧ g.resolveStart i.selection = some start ∧
        ((∃ l, c.refresh.last? = some l ∧ l = ⟨c.refresh.generation, start, i.inputVersion, l.trace⟩ ∧
            c.retrace bus i =
              { c with report := { c.report with traceReused := true } }.present bus start
                l.trace) ∨
          (∃ e, g.trace i.inputSource (some start) = .error e ∧
            c.retrace bus i =
              { c with
                report := { c.report with matchError? := some e }
                refresh := { c.refresh with last? := none } }) ∨
          ∃ t, g.trace i.inputSource (some start) = .ok t ∧
            c.retrace bus i =
              { c with
                report := { c.report with traceExecuted := true }
                refresh := { c.refresh with
                  stats := { c.refresh.stats with traces := c.refresh.stats.traces + 1 }
                  last? := some ⟨c.refresh.generation, start, i.inputVersion, t⟩ } }.present bus
                start t) := by
  unfold retrace Startless
  cases hgrammar : c.refresh.grammar? with
  | none => exact .inl ⟨by simp, rfl⟩
  | some g =>
      cases hstart : g.resolveStart i.selection with
      | none =>
          refine .inl ⟨?_, ?_⟩
          · intro g' hg'
            rwa [← Option.some.inj hg']
          · simp [hstart]
      | some start =>
          refine .inr ⟨g, start, rfl, hstart, ?_⟩
          simp only [hstart]
          unfold retraceFrom
          cases hlast :
              c.refresh.last?.filter (·.isOf c.refresh.generation start i.inputVersion) with
          | some l =>
              obtain ⟨hl, hof⟩ := Option.filter_eq_some_iff.mp hlast
              exact .inl ⟨l, hl, TraceRecord.eq_of_isOf hof, rfl⟩
          | none =>
              cases htrace : g.trace i.inputSource (some start) with
              | error e => exact .inr (.inl ⟨e, rfl, rfl⟩)
              | ok t => exact .inr (.inr ⟨t, rfl, rfl⟩)

/-- The last trace is presented again if it was made from what is there. -/
theorem retrace_of_last {g : Grammar} {start : String} {l : TraceRecord}
    (hgrammar : c.refresh.grammar? = some g) (hstart : g.resolveStart i.selection = some start)
    (hlast : c.refresh.last? = some l)
    (hof : l.isOf c.refresh.generation start i.inputVersion = true) :
    c.retrace bus i =
      { c with report := { c.report with traceReused := true } }.present bus start l.trace := by
  unfold retrace
  rw [hgrammar]
  simp only [hstart]
  unfold retraceFrom
  rw [Option.filter_eq_some_iff.mpr ⟨hlast, hof⟩]

theorem retrace_of_startless (h : c.Startless i) : c.retrace bus i = c := by
  rcases c.retrace_cases bus i with ⟨-, heq⟩ | ⟨g, start, hg, hstart, -⟩
  · exact heq
  · rw [h g hg] at hstart
    cases hstart

@[simp] theorem retrace_session : (c.retrace bus i).session = c.session := by
  rcases c.retrace_cases bus i with
    ⟨-, heq⟩ | ⟨g, start, -, -, ⟨l, -, -, heq⟩ | ⟨e, -, heq⟩ | ⟨t, -, heq⟩⟩ <;> simp [heq]

@[simp] theorem retrace_grammar? : (c.retrace bus i).refresh.grammar? = c.refresh.grammar? := by
  rcases c.retrace_cases bus i with
    ⟨-, heq⟩ | ⟨g, start, -, -, ⟨l, -, -, heq⟩ | ⟨e, -, heq⟩ | ⟨t, -, heq⟩⟩ <;> simp [heq]

@[simp] theorem retrace_grammarError? :
    (c.retrace bus i).refresh.grammarError? = c.refresh.grammarError? := by
  rcases c.retrace_cases bus i with
    ⟨-, heq⟩ | ⟨g, start, -, -, ⟨l, -, -, heq⟩ | ⟨e, -, heq⟩ | ⟨t, -, heq⟩⟩ <;> simp [heq]

@[simp] theorem retrace_generation :
    (c.retrace bus i).refresh.generation = c.refresh.generation := by
  rcases c.retrace_cases bus i with
    ⟨-, heq⟩ | ⟨g, start, -, -, ⟨l, -, -, heq⟩ | ⟨e, -, heq⟩ | ⟨t, -, heq⟩⟩ <;> simp [heq]

@[simp] theorem retrace_rebuilt :
    (c.retrace bus i).report.grammarRebuilt = c.report.grammarRebuilt := by
  rcases c.retrace_cases bus i with
    ⟨-, heq⟩ | ⟨g, start, -, -, ⟨l, -, -, heq⟩ | ⟨e, -, heq⟩ | ⟨t, -, heq⟩⟩ <;> simp [heq]

/-! ## What is settled when a cycle begins -/

/-- The timer and the state behind the cycle, what is out of date then, who decides on the display of
failures, how many cycles there were, and what the cycle took over. -/
structure Steady (c c' : RefreshCycle σ) : Prop where
  timer : c'.refresh.timer = c.refresh.timer
  state : c'.refresh.state = c.refresh.state
  dirty : c'.refresh.dirty = c.refresh.dirty
  display : c'.refresh.display = c.refresh.display
  cycles : c'.refresh.stats.cycles = c.refresh.stats.cycles
  flags : c'.report.flags = c.report.flags

variable {c} {c' : RefreshCycle σ}

theorem Steady.publish (h : c.Steady c') : c.Steady (c'.publish bus e) := by
  obtain ⟨_, _, _, heq⟩ := c'.publish_eq bus e
  rw [heq]
  exact ⟨h.timer, h.state, h.dirty, h.display, h.cycles, h.flags⟩

theorem Steady.rebuild (h : c.Steady c') : c.Steady (c'.rebuild bus) := by
  unfold RefreshCycle.rebuild
  rcases c'.session.matchRule none with ⟨_ | r, session⟩
  · exact ⟨h.timer, h.state, h.dirty, h.display, h.cycles, h.flags⟩
  · exact .publish bus _ ⟨h.timer, h.state, h.dirty, h.display, h.cycles, h.flags⟩

theorem Steady.built (h : c.Steady c') : c.Steady (c'.built bus i) := by
  have hannounced : c.Steady
      (if c'.report.flags.input then c'.publish bus (.inputChanged i.inputSource) else c') := by
    split
    · exact h.publish bus _
    · exact h
  unfold RefreshCycle.built
  dsimp only
  split
  · exact (hannounced.publish bus _).rebuild bus
  · exact hannounced

theorem Steady.present (start : String) (t : Trace) (h : c.Steady c') :
    c.Steady (c'.present bus start t) :=
  .publish bus _ ⟨h.timer, h.state, h.dirty, h.display, h.cycles, h.flags⟩

theorem Steady.retrace (h : c.Steady c') : c.Steady (c'.retrace bus i) := by
  rcases c'.retrace_cases bus i with
    ⟨-, heq⟩ | ⟨g, start, -, -, ⟨l, -, -, heq⟩ | ⟨e, -, heq⟩ | ⟨t, -, heq⟩⟩ <;> rw [heq]
  · exact h
  · exact .present bus _ _ ⟨h.timer, h.state, h.dirty, h.display, h.cycles, h.flags⟩
  · exact ⟨h.timer, h.state, h.dirty, h.display, h.cycles, h.flags⟩
  · exact .present bus _ _ ⟨h.timer, h.state, h.dirty, h.display, h.cycles, h.flags⟩

variable (c)

theorem steady_run : c.Steady (c.run bus i) := by
  have h : c.Steady c := ⟨rfl, rfl, rfl, rfl, rfl, rfl⟩
  exact (h.built bus i).retrace bus i

end RefreshCycle

end Pegboard
