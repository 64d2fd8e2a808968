import Pegboard.Proofs.Workbench.Turns

/-!
# What the bus has no say in

The editor bus is told of all that happens to a workbench, and it may answer as it likes: its
handlers may fail, and it may not even know the events. All the same it has no say in the documents,
the options, the grammar or the trace. A bare workbench has no bus, no handlers and no store, and
counts no failures of handlers; what an operation does to a workbench, seen bare, it does to the bare
workbench (`step_bare`). So two workbenches that are the same but for all that stay so, whatever is
done to both. Only what is taken from the store is not told by the rest.

Main statement: `bare_run`.
-/

namespace Pegboard

/-! ## Cycles -/

/-- The refresh without a count of the failures of handlers. -/
def Refresh.bare (r : Refresh) : Refresh :=
  { r with stats := { r.stats with handlerFailures := 0 } }

/-- The report without the failures of handlers. -/
def RefreshReport.bare (r : RefreshReport) : RefreshReport :=
  { r with handlerFailures := 0 }

namespace RefreshCycle

variable {σ : Type}

/-- The cycle without what the bus and its handlers have a say in. -/
def bare (c : RefreshCycle σ) : RefreshCycle Unit where
  refresh := c.refresh.bare
  session := c.session
  options := c.options
  report := c.report.bare
  violation? := none
  world := ()

variable (bus : Bus EditorEvent σ) (i : RefreshInput) (c : RefreshCycle σ)

@[simp] theorem bare_bare : c.bare.bare = c.bare :=
  rfl

@[simp] theorem publish_bare (e : EditorEvent) : (c.publish bus e).bare = c.bare := by
  obtain ⟨_, _, _, h⟩ := c.publish_eq bus e
  rw [h]
  rfl

theorem rebuild_bare : (c.rebuild bus).bare = (c.bare.rebuild .empty).bare := by
  have hsession : c.bare.session = c.session := rfl
  unfold rebuild
  rw [hsession]
  rcases c.session.matchRule none with ⟨_ | r, session⟩
  · rfl
  · dsimp only
    rw [publish_bare, publish_bare]
    rfl

theorem built_bare : (c.built bus i).bare = (c.bare.built .empty i).bare := by
  have hflags : c.bare.report.flags = c.report.flags := rfl
  have hannounced :
      (if c.report.flags.input then c.publish bus (.inputChanged i.inputSource) else c).bare =
        (if c.report.flags.input then c.bare.publish .empty (.inputChanged i.inputSource)
          else c.bare).bare := by
    split <;> simp
  unfold built
  rw [hflags]
  dsimp only
  split
  · rw [rebuild_bare, publish_bare, hannounced, rebuild_bare _ (publish _ _ _), publish_bare]
  · exact hannounced

theorem present_bare (start : String) (t : Trace) :
    (c.present bus start t).bare = (c.bare.present .empty start t).bare := by
  unfold present
  rw [publish_bare, publish_bare]
  rfl

theorem retraceFrom_bare (g : Grammar) (start : String) :
    (c.retraceFrom bus i g start).bare = (c.bare.retraceFrom .empty i g start).bare := by
  have hlast : c.bare.refresh.last? = c.refresh.last? := rfl
  have hgeneration : c.bare.refresh.generation = c.refresh.generation := rfl
  unfold retraceFrom
  rw [hlast, hgeneration]
  split
  · rw [present_bare, present_bare .empty]
    rfl
  · split
    · rfl
    · rw [present_bare, present_bare .empty]
      rfl

theorem retrace_bare : (c.retrace bus i).bare = (c.bare.retrace .empty i).bare := by
  have hgrammar : c.bare.refresh.grammar? = c.refresh.grammar? := rfl
  unfold retrace
  rw [hgrammar]
  split
  · rfl
  · split
    · rfl
    · exact c.retraceFrom_bare bus i _ _

theorem run_bare : (c.run bus i).bare = (c.bare.run .empty i).bare := by
  rw [run_eq, run_eq, retrace_bare, built_bare, ← retrace_bare]

end RefreshCycle

/-! ## Workbenches -/

namespace Workbench

variable {σ τ : Type}

/-- Nothing, as a store that keeps nothing. -/
instance : Store Id Unit where
  get _ _ := .ok none
  set _ _ _ := (.ok (), ())

/-- The workbench without its buses, their handlers and its store, and without a count of the failures
of handlers. -/
def bare (w : Workbench σ τ) : Workbench Unit Unit where
  config := w.config
  store := ()
  grammarDoc := w.grammarDoc
  inputDoc := w.inputDoc
  session := w.session
  refresh := w.refresh.bare
  options := w.options
  selection? := w.selection?
  editorBus := .empty
  semanticsBus := .empty
  exampleBus := .empty
  world := ()

/-- The operation without the handlers and the store that it brings. -/
def Operation.bare : Operation σ τ → Operation Unit Unit
  | .restore now => .restore now
  | .setGrammarSource now text => .setGrammarSource now text
  | .setInputSource now text => .setInputSource now text
  | .editGrammar now c => .editGrammar now c
  | .editGrammarRange now start stop text => .editGrammarRange now start stop text
  | .editInput now c => .editInput now c
  | .editInputRange now start stop text => .editInputRange now start stop text
  | .setOption now name value => .setOption now name value
  | .setStartRule now rule? => .setStartRule now rule?
  | .poll now => .poll now
  | .flush => .flush
  | .refreshNow => .refreshNow
  | .replaceBus _ => .replaceBus .empty
  | .outside _ _ => .outside () ()

variable (w : Workbench σ τ)

theorem cycle_bare : w.cycle.bare = w.bare.cycle.bare :=
  RefreshCycle.run_bare _ _ _

variable [Store Id τ]

theorem refreshNow_bare :
    (w.refreshNow (m := Id)).2.bare = (w.bare.refreshNow (m := Id)).2.bare := by
  have hcycle := w.cycle_bare
  have hrefresh : w.cycle.refresh.bare = w.bare.cycle.refresh.bare := congrArg (·.refresh) hcycle
  have hsession : w.cycle.session = w.bare.cycle.session := congrArg (·.session) hcycle
  have hoptions : w.cycle.options = w.bare.cycle.options := congrArg (·.options) hcycle
  rw [refreshNow_snd, refreshNow_snd]
  unfold bare at *
  simp only [hrefresh, hsession, hoptions]

theorem refreshIf_bare (condition : Bool) :
    (w.refreshIf (m := Id) condition).2.bare = (w.bare.refreshIf (m := Id) condition).2.bare := by
  cases condition with
  | false => rfl
  | true => exact w.refreshNow_bare

/-- What an operation does to a workbench, seen bare, it does to the bare workbench. -/
theorem step_bare {op : Operation σ τ} (hop : ∀ now, op ≠ .restore now) :
    (w.step op).bare = (w.bare.step op.bare).bare := by
  cases op with
  | restore now => exact absurd rfl (hop now)
  | setGrammarSource now text =>
      show (w.setGrammarSource now text).2.bare = (w.bare.setGrammarSource now text).2.bare
      have hdoc : w.bare.grammarDoc = w.grammarDoc := rfl
      unfold setGrammarSource
      rw [hdoc]
      split <;> rfl
  | setInputSource now text =>
      show (w.setInputSource now text).2.bare = (w.bare.setInputSource now text).2.bare
      have hdoc : w.bare.inputDoc = w.inputDoc := rfl
      unfold setInputSource
      rw [hdoc]
      split <;> rfl
  | editGrammar now c =>
      show (w.editGrammar now c).2.bare = (w.bare.editGrammar now c).2.bare
      have hdoc : w.bare.grammarDoc = w.grammarDoc := rfl
      have hsession : w.bare.session = w.session := rfl
      unfold editGrammar
      rw [hdoc, hsession]
      cases w.session.follow w.grammarDoc c with
      | error e => rfl
      | ok made => cases happly : w.grammarDoc.apply c <;> simp only [happly] <;> rfl
  | editGrammarRange now start stop text =>
      show (w.editGrammarRange now start stop text).2.bare =
        (w.bare.editGrammarRange now start stop text).2.bare
      have hdoc : w.bare.grammarDoc = w.grammarDoc := rfl
      have hsession : w.bare.session = w.session := rfl
      unfold editGrammarRange
      rw [hdoc, hsession]
      cases w.session.replaceRange start stop text with
      | error e => rfl
      | ok session =>
          cases happly : w.grammarDoc.replaceRange start stop text <;> simp only [happly] <;> rfl
  | editInput now c =>
      show (w.editInput now c).2.bare = (w.bare.editInput now c).2.bare
      have hdoc : w.bare.inputDoc = w.inputDoc := rfl
      unfold editInput
      rw [hdoc]
      cases w.inputDoc.apply c <;> rfl
  | editInputRange now start stop text =>
      show (w.editInputRange now start stop text).2.bare =
        (w.bare.editInputRange now start stop text).2.bare
      have hdoc : w.bare.inputDoc = w.inputDoc := rfl
      unfold editInputRange
      rw [hdoc]
      cases w.inputDoc.replaceRange start stop text <;> rfl
  | setOption now name value =>
      show (w.setOption now name value).2.bare = (w.bare.setOption now name value).2.bare
      unfold setOption
      split <;> rfl
  | setStartRule now rule? => rfl
  | poll now => exact w.refreshIf_bare _
  | flush => exact w.refreshIf_bare _
  | refreshNow => exact w.refreshNow_bare
  | replaceBus bus => rfl
  | outside world store => rfl

/-! ## Runs -/

variable {σ' τ' : Type} [Store Id τ'] {w} {w' : Workbench σ' τ'}

theorem step_bare_congr {op : Operation σ τ} {op' : Operation σ' τ'} (hsame : w.bare = w'.bare)
    (hops : op.bare = op'.bare) (hrestore : ∀ now, op ≠ .restore now) :
    (w.step op).bare = (w'.step op').bare := by
  have hrestore' : ∀ now, op' ≠ .restore now := by
    rintro now rfl
    cases op <;> cases hops
    exact hrestore _ rfl
  rw [step_bare w hrestore, step_bare w' hrestore', hsame, hops]

/-- The states of a run, from the first one on. -/
theorem bare_foldl {ops : List (Operation σ τ)} {ops' : List (Operation σ' τ')}
    (hsame : w.bare = w'.bare) (hops : ops.map Operation.bare = ops'.map Operation.bare)
    (hrestore : ∀ now, .restore now ∉ ops) :
    (ops.foldl step w).bare = (ops'.foldl step w').bare := by
  induction ops generalizing w w' ops' with
  | nil =>
      obtain rfl := List.map_eq_nil_iff.mp hops.symm
      exact hsame
  | cons op ops ih =>
      obtain ⟨op', rest, rfl, hop, hrest⟩ := List.map_eq_cons_iff.mp hops.symm
      simp only [List.mem_cons, not_or] at hrestore
      rw [List.foldl_cons, List.foldl_cons]
      exact ih (step_bare_congr hsame hop.symm fun now heq => (hrestore now).1 heq.symm) hrest.symm
        fun now => (hrestore now).2

/-- Two workbenches that are the same but for their buses, handlers and stores, and for the failures of
handlers that they counted, are so after each operation of two runs in which the same is done but for
what is brought to the buses, the handlers and the stores, if no sources are taken from the stores; and
their cycles come to the same. -/
theorem bare_run (w : Workbench σ τ) (w' : Workbench σ' τ') (ops : List (Operation σ τ))
    (ops' : List (Operation σ' τ')) (hsame : w.bare = w'.bare)
    (hops : ops.map Operation.bare = ops'.map Operation.bare) (hrestore : ∀ now, .restore now ∉ ops)
    (n : Nat) :
    let v := (ops.take n).foldl step w
    let v' := (ops'.take n).foldl step w'
    v.bare = v'.bare ∧ v.cycle.bare = v'.cycle.bare := by
  intro v v'
  have hbare : v.bare = v'.bare := by
    refine bare_foldl hsame ?_ fun now hmem => hrestore now (List.mem_of_mem_take hmem)
    rw [List.map_take, List.map_take, hops]
  exact ⟨hbare, by rw [cycle_bare, hbare, ← cycle_bare]⟩

/-- A bus that knows no event refuses those of the cycle, and nothing comes into the store. -/
theorem bare_run_emptied :
    let w := after Config.standard (MemoryStore.ofList []) () [.setGrammarSource 0 "G \x7b \x7d"]
    let w' := { w with editorBus := .empty }
    let ops := [.setInputSource 0 "1", .flush]
    (ops.foldl step w).bare = (ops.foldl step w').bare ∧
      (ops.foldl step w).store ≠ (ops.foldl step w').store := by
  intro w w' ops
  obtain ⟨hbare, -⟩ := bare_run w w' ops ops rfl rfl (by simp [ops]) ops.length
  rw [List.take_length] at hbare
  exact ⟨hbare, by decide +kernel⟩

end Workbench

end Pegboard
