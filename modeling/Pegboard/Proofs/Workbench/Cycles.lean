import Pegboard.Proofs.History
import Pegboard.Proofs.Workbench.Turns

/-!
# When a workbench refreshes

Edits, options and start rules all arm one timer, each with a delay of its own, and a refresh may be
forced at any time. Over a whole run this comes to a simple rule: a refresh is due at the moment that
was asked for last, if no cycle was run since; and a cycle takes over the changes that were made since
the cycle before it, neither more nor less. What the bus answers has no part in it.

What is asked for, changed and run is told from the operations, the versions of the documents and the
number of cycles. Every operation does one of three things about them (`step_cases`).

Main statement: `cycles_after`.
-/

namespace Pegboard.Workbench

open History

variable {σ τ : Type} [Store Id τ]

/-! ## What is asked, changed and run -/

/-- The grammar source is taken from the store, or has another version than before. -/
def ChangesGrammar (w : Workbench σ τ) (op : Operation σ τ) : Prop :=
  (∃ now, op = .restore now) ∨ (w.step op).grammarDoc.version ≠ w.grammarDoc.version

/-- The input is taken from the store, or has another version than before. -/
def ChangesInput (w : Workbench σ τ) (op : Operation σ τ) : Prop :=
  (∃ now, op = .restore now) ∨ (w.step op).inputDoc.version ≠ w.inputDoc.version

/-- The operation asks for a refresh at the moment `due`: sources from the store ask for it at once,
a changed source after the delay for edits, an option or a start rule after the one for options. -/
inductive Asks (w : Workbench σ τ) : Operation σ τ → (due : Nat) → Prop
  | restore (now : Nat) : Asks w (.restore now) now
  | edit {op : Operation σ τ} {now : Nat} (hop : op.editMoment? = some now)
      (hchanges : w.ChangesGrammar op ∨ w.ChangesInput op) :
      Asks w op (now + milliseconds w.config.editDelay)
  | option (now : Nat) (name : String) (value : Bool) :
      Asks w (.setOption now name value) (now + milliseconds w.config.optionDelay)
  | startRule (now : Nat) (rule? : Option String) :
      Asks w (.setStartRule now rule?) (now + milliseconds w.config.optionDelay)

/-- There is one more cycle behind the operation, whatever it is answered. -/
def RunsCycle (w : Workbench σ τ) (op : Operation σ τ) : Prop :=
  (w.step op).refresh.stats.cycles = w.refresh.stats.cycles + 1

/-- The operation runs a cycle, or asks for one anew. -/
def Rearms (w : Workbench σ τ) (op : Operation σ τ) : Prop :=
  w.RunsCycle op ∨ ∃ due, w.Asks op due

/-! ## What an operation does about it -/

/-- The operation has nothing to do with refreshes. -/
structure Rests (w : Workbench σ τ) (op : Operation σ τ) : Prop where
  not_runs : ¬ w.RunsCycle op
  not_asks : ∀ due, ¬ w.Asks op due
  not_grammar : ¬ w.ChangesGrammar op
  not_input : ¬ w.ChangesInput op
  refresh : (w.step op).refresh = w.refresh

/-- The operation has a refresh follow. -/
structure Defers (w : Workbench σ τ) (op : Operation σ τ) (due : Nat) : Prop where
  not_runs : ¬ w.RunsCycle op
  asks : ∀ due', w.Asks op due' ↔ due = due'
  timer : (w.step op).refresh.timer = ⟨some due⟩
  state : (w.step op).refresh.state = .pending
  grammar : (w.step op).refresh.dirty.grammar = true ↔
    w.ChangesGrammar op ∨ w.refresh.dirty.grammar = true
  input : (w.step op).refresh.dirty.input = true ↔
    w.ChangesInput op ∨ w.refresh.dirty.input = true

/-- The operation refreshes. -/
structure Refreshes (w : Workbench σ τ) (op : Operation σ τ) : Prop where
  runs : w.RunsCycle op
  not_asks : ∀ due, ¬ w.Asks op due
  not_grammar : ¬ w.ChangesGrammar op
  not_input : ¬ w.ChangesInput op
  timer : (w.step op).refresh.timer = .unarmed
  state : (w.step op).refresh.state = .idle
  dirty : (w.step op).refresh.dirty = .clean

variable {w : Workbench σ τ} {op : Operation σ τ}

theorem not_runsCycle (heq : (w.step op).refresh.stats.cycles = w.refresh.stats.cycles) :
    ¬ w.RunsCycle op :=
  fun hruns => absurd (heq.symm.trans hruns) (Nat.ne_of_lt (Nat.lt_succ_self _))

theorem not_changesGrammar (hop : ∀ now, op ≠ .restore now)
    (hdoc : (w.step op).grammarDoc = w.grammarDoc) : ¬ w.ChangesGrammar op := by
  rintro (⟨now, heq⟩ | hne)
  · exact hop now heq
  · exact hne (congrArg (·.version) hdoc)

theorem not_changesInput (hop : ∀ now, op ≠ .restore now)
    (hdoc : (w.step op).inputDoc = w.inputDoc) : ¬ w.ChangesInput op := by
  rintro (⟨now, heq⟩ | hne)
  · exact hop now heq
  · exact hne (congrArg (·.version) hdoc)

/-- An edit that moves a document on asks for a refresh at one moment. -/
theorem asks_edit_iff {now : Nat} (hop : op.editMoment? = some now)
    (hchanges : w.ChangesGrammar op ∨ w.ChangesInput op) (due : Nat) :
    w.Asks op due ↔ now + milliseconds w.config.editDelay = due := by
  refine ⟨fun hasks => ?_, fun heq => heq ▸ .edit hop hchanges⟩
  cases hasks with
  | edit hop' _ => rw [Option.some.inj (hop.symm.trans hop')]
  | restore | option | startRule => cases hop

theorem Rests.of_kept (hsettings : ∀ due, w.Asks op due → op.editMoment?.isSome = true)
    (hop : ∀ now, op ≠ .restore now) (hrefresh : (w.step op).refresh = w.refresh)
    (hgrammar : (w.step op).grammarDoc = w.grammarDoc)
    (hinput : (w.step op).inputDoc = w.inputDoc) : w.Rests op where
  not_runs := not_runsCycle (by rw [hrefresh])
  not_asks := by
    intro due hasks
    have hedit := hsettings due hasks
    cases hasks with
    | edit _ hchanges =>
        exact hchanges.elim (not_changesGrammar hop hgrammar) (not_changesInput hop hinput)
    | restore | option | startRule => cases hedit
  not_grammar := not_changesGrammar hop hgrammar
  not_input := not_changesInput hop hinput
  refresh := hrefresh

theorem Defers.of_schedule {now delay : Nat} {r : Refresh}
    (hasks : ∀ due, w.Asks op due ↔ now + delay = due)
    (hstep : (w.step op).refresh = r.schedule now delay) (hstats : r.stats = w.refresh.stats)
    (hgrammar : r.dirty.grammar = true ↔ w.ChangesGrammar op ∨ w.refresh.dirty.grammar = true)
    (hinput : r.dirty.input = true ↔ w.ChangesInput op ∨ w.refresh.dirty.input = true) :
    w.Defers op (now + delay) where
  not_runs := not_runsCycle (by rw [hstep]; exact congrArg (·.cycles) hstats)
  asks := hasks
  timer := by rw [hstep]; rfl
  state := by rw [hstep]; rfl
  grammar := by rw [hstep]; exact hgrammar
  input := by rw [hstep]; exact hinput

theorem Refreshes.of_refreshed (hop : op.refreshes = true)
    (hstep : w.step op = (w.refreshNow (m := Id)).2) : w.Refreshes op := by
  have hcycle := w.steady_cycle
  have hrestore : ∀ now, op ≠ .restore now := by
    rintro now rfl
    cases hop
  rw [refreshNow_snd] at hstep
  have hgrammar : ¬ w.ChangesGrammar op := not_changesGrammar hrestore (by rw [hstep])
  have hinput : ¬ w.ChangesInput op := not_changesInput hrestore (by rw [hstep])
  refine ⟨?_, ?_, hgrammar, hinput, ?_, ?_, ?_⟩
  · rw [RunsCycle, hstep]
    exact hcycle.cycles
  · intro due hasks
    cases hasks with
    | edit _ hchanges => exact hchanges.elim hgrammar hinput
    | restore | option | startRule => cases hop
  · rw [hstep]
    exact hcycle.timer
  · rw [hstep]
    exact hcycle.state
  · rw [hstep]
    exact hcycle.dirty

theorem Refreshes.flush (hpending : w.refresh.timer.isPending = true) : w.Refreshes .flush := by
  refine .of_refreshed rfl ?_
  show (w.refreshIf (m := Id) w.refresh.timer.isPending).2 = _
  rw [hpending]
  rfl

/-- Every operation has nothing to do with refreshes, or has one follow, or refreshes. -/
theorem step_cases (htext : w.session.text = w.grammarDoc.text) (op : Operation σ τ) :
    w.Rests op ∨ (∃ due, w.Defers op due) ∨ w.Refreshes op := by
  cases step_turn htext op with
  | stays hop hstep =>
      have hrestore : ∀ now, op ≠ .restore now := by
        rintro now rfl
        cases hop <;> contradiction
      refine .inl (.of_kept (fun due hasks => ?_) hrestore (by rw [hstep]) (by rw [hstep])
        (by rw [hstep]))
      cases hasks with
      | edit hop => rw [hop]; rfl
      | restore | option | startRule => cases hop <;> contradiction
  | @grammar _ now hop d session hversion hstep =>
      have hgrammar : w.ChangesGrammar op := .inr (by rw [hstep]; exact hversion.trans_ne (by simp))
      have hinput : ¬ w.ChangesInput op :=
        not_changesInput (by rintro now rfl; cases hop) (by rw [hstep]; rfl)
      refine .inr (.inl ⟨_, .of_schedule (r := w.refresh.markGrammar)
        (asks_edit_iff hop (.inl hgrammar)) (congrArg (·.refresh) hstep) rfl ?_ ?_⟩)
      · simp [hgrammar, Refresh.markGrammar]
      · simp [hinput, Refresh.markGrammar]
  | @input _ now hop d hversion hstep =>
      have hgrammar : ¬ w.ChangesGrammar op :=
        not_changesGrammar (by rintro now rfl; cases hop) (by rw [hstep]; rfl)
      have hinput : w.ChangesInput op := .inr (by rw [hstep]; exact hversion.trans_ne (by simp))
      refine .inr (.inl ⟨_, .of_schedule (r := w.refresh.markInput)
        (asks_edit_iff hop (.inr hinput)) (congrArg (·.refresh) hstep) rfl ?_ ?_⟩)
      · simp [hgrammar, Refresh.markInput]
      · simp [hinput, Refresh.markInput]
  | restored now grammar input hstep =>
      have hasks : ∀ due, w.Asks (.restore now) due ↔ now + milliseconds 0 = due := by
        refine fun due => ⟨fun hasks => ?_, fun heq => heq ▸ .restore now⟩
        cases hasks with
        | restore => rfl
        | edit hop => cases hop
      refine .inr (.inl ⟨_, .of_schedule (r := w.refresh.markGrammar.markInput) hasks
        (congrArg (·.refresh) hstep) rfl ?_ ?_⟩)
      · simp [ChangesGrammar, Refresh.markGrammar, Refresh.markInput]
      · simp [ChangesInput, Refresh.markGrammar, Refresh.markInput]
  | option now name value =>
      have hasks : ∀ due, w.Asks (.setOption now name value) due ↔
          now + milliseconds w.config.optionDelay = due := by
        refine fun due => ⟨fun hasks => ?_, fun heq => heq ▸ .option now name value⟩
        cases hasks with
        | option => rfl
        | edit hop => cases hop
      have hgrammar : ¬ w.ChangesGrammar (.setOption now name value) :=
        not_changesGrammar (by rintro _ ⟨⟩) rfl
      have hinput : ¬ w.ChangesInput (.setOption now name value) := not_changesInput (by rintro _ ⟨⟩) rfl
      refine .inr (.inl ⟨_, .of_schedule hasks rfl ?_ ?_ ?_⟩)
      · split <;> rfl
      · split <;> simp [hgrammar]
      · split <;> simp [hinput]
  | startRule now rule? =>
      have hasks : ∀ due, w.Asks (.setStartRule now rule?) due ↔
          now + milliseconds w.config.optionDelay = due := by
        refine fun due => ⟨fun hasks => ?_, fun heq => heq ▸ .startRule now rule?⟩
        cases hasks with
        | startRule => rfl
        | edit hop => cases hop
      have hgrammar : ¬ w.ChangesGrammar (.setStartRule now rule?) :=
        not_changesGrammar (by rintro _ ⟨⟩) rfl
      have hinput : ¬ w.ChangesInput (.setStartRule now rule?) := not_changesInput (by rintro _ ⟨⟩) rfl
      exact .inr (.inl ⟨_, .of_schedule (r := w.refresh) hasks rfl rfl (by simp [hgrammar])
        (by simp [hinput])⟩)
  | refreshed hop hstep => exact .inr (.inr (.of_refreshed hop hstep))
  | replacedBus bus =>
      refine .inl (.of_kept (fun due hasks => ?_) (by rintro _ ⟨⟩) rfl rfl rfl)
      cases hasks with
      | edit hop => cases hop
  | outside world store =>
      refine .inl (.of_kept (fun due hasks => ?_) (by rintro _ ⟨⟩) rfl rfl rfl)
      cases hasks with
      | edit hop => cases hop

/-! ## Over a run -/

theorem step_deadline (htext : w.session.text = w.grammarDoc.text) (op : Operation σ τ)
    (due : Nat) :
    (w.step op).refresh.timer.deadline? = some due ↔
      w.Asks op due ∨ w.refresh.timer.deadline? = some due ∧ ¬ w.Rearms op := by
  rcases step_cases htext op with h | ⟨due', h⟩ | h
  · have hkept : ¬ w.Rearms op := not_or.mpr ⟨h.not_runs, fun ⟨_, hasks⟩ => h.not_asks _ hasks⟩
    simp [h.refresh, h.not_asks, hkept]
  · have hrearms : w.Rearms op := .inr ⟨due', (h.asks due').mpr rfl⟩
    simp [h.timer, h.asks, hrearms]
  · have hrearms : w.Rearms op := .inl h.runs
    simp [h.timer, h.not_asks, hrearms, Timer.unarmed]

theorem step_dirty_grammar (htext : w.session.text = w.grammarDoc.text) (op : Operation σ τ) :
    (w.step op).refresh.dirty.grammar = true ↔
      w.ChangesGrammar op ∨ w.refresh.dirty.grammar = true ∧ ¬ w.RunsCycle op := by
  rcases step_cases htext op with h | ⟨due, h⟩ | h
  · simp [h.refresh, h.not_grammar, h.not_runs]
  · simp [h.grammar, h.not_runs]
  · simp [h.dirty, Dirty.clean, h.not_grammar, h.runs]

theorem step_dirty_input (htext : w.session.text = w.grammarDoc.text) (op : Operation σ τ) :
    (w.step op).refresh.dirty.input = true ↔
      w.ChangesInput op ∨ w.refresh.dirty.input = true ∧ ¬ w.RunsCycle op := by
  rcases step_cases htext op with h | ⟨due, h⟩ | h
  · simp [h.refresh, h.not_input, h.not_runs]
  · simp [h.input, h.not_runs]
  · simp [h.dirty, Dirty.clean, h.not_input, h.runs]

/-- A change that no cycle took over yet has a refresh pending, and the state tells whether one is. -/
structure Awaits (w : Workbench σ τ) : Prop where
  pending : w.refresh.dirty.any = true → w.refresh.timer.isPending = true
  state : w.refresh.state = if w.refresh.timer.isPending then .pending else .idle

theorem Awaits.step (h : w.Awaits) (htext : w.session.text = w.grammarDoc.text)
    (op : Operation σ τ) : (w.step op).Awaits := by
  rcases step_cases htext op with hop | ⟨due, hop⟩ | hop
  · exact ⟨by rw [hop.refresh]; exact h.pending, by rw [hop.refresh]; exact h.state⟩
  · exact ⟨fun _ => by rw [hop.timer]; rfl, by rw [hop.timer, hop.state]; rfl⟩
  · refine ⟨fun hdirty => ?_, by rw [hop.timer, hop.state]; rfl⟩
    rw [hop.dirty] at hdirty
    cases hdirty

theorem awaits_after (config : Config) (store : τ) (world : σ) (ops : List (Operation σ τ)) :
    (after config store world ops).Awaits := by
  have run : ∀ w : Workbench σ τ, w.Follows → w.Awaits → (ops.foldl Workbench.step w).Awaits := by
    induction ops with
    | nil => exact fun w _ h => h
    | cons op ops ih => exact fun w hw h => ih _ (hw.step op) (h.step hw.text op)
  exact run _ (follows_new config store world) ⟨nofun, rfl⟩

/-! ## Polls and flushes -/

theorem runsCycle_of_refreshIf {condition : Bool}
    (hstep : w.step op = (w.refreshIf (m := Id) condition).2) :
    w.RunsCycle op ↔ condition = true := by
  cases condition with
  | false =>
      have hstep : w.step op = w := hstep
      simp [RunsCycle, hstep]
  | true =>
      have hstep : w.step op = (w.refreshNow (m := Id)).2 := hstep
      rw [RunsCycle, hstep, refreshNow_snd]
      exact iff_of_true w.steady_cycle.cycles rfl

theorem isDue_iff (t : Timer) (now : Nat) :
    t.isDue now = true ↔ ∃ due, due ≤ now ∧ t.deadline? = some due := by
  unfold Timer.isDue
  split <;> simp_all

/-- After whatever happened to a workbench, a change that no cycle took over yet has a refresh
pending, which a flush runs at once, and a poll from its time on; a poll runs a cycle exactly if one is
due that was asked for last and no cycle was run since; and a cycle takes over the changes of the two
sources that were made since the cycle before it. -/
theorem cycles_after (config : Config) (store : τ) (world : σ) (ops : List (Operation σ τ)) :
    let start := new config store world
    let w := after config store world ops
    (w.refresh.dirty.any = true → w.refresh.timer.isPending = true ∧ w.RunsCycle .flush ∧
        ∃ due, ∀ now, due ≤ now → w.RunsCycle (.poll now)) ∧
      w.refresh.state = (if w.refresh.timer.isPending then .pending else .idle) ∧
      (∀ now, w.RunsCycle (.poll now) ↔
        ∃ due, due ≤ now ∧ Since step Rearms (fun w op => w.Asks op due) start ops) ∧
      (w.cycle.report.flags.grammar = true ↔ Since step RunsCycle ChangesGrammar start ops) ∧
      (w.cycle.report.flags.input = true ↔ Since step RunsCycle ChangesInput start ops) := by
  intro start w
  have hfollows : start.Follows := follows_new config store world
  have hawaits : w.Awaits := awaits_after config store world ops
  have hpoll : ∀ now, w.RunsCycle (.poll now) ↔
      ∃ due, due ≤ now ∧ w.refresh.timer.deadline? = some due :=
    fun now => (runsCycle_of_refreshIf rfl).trans (isDue_iff _ now)
  have hflags : w.cycle.report.flags = w.refresh.dirty := w.steady_cycle.flags
  refine ⟨fun hdirty => ?_, hawaits.state, fun now => ?_, ?_, ?_⟩
  · have hpending := hawaits.pending hdirty
    obtain ⟨due, hdue⟩ := Option.isSome_iff_exists.mp hpending
    exact ⟨hpending, (Refreshes.flush hpending).runs, due,
      fun now hle => (hpoll now).mpr ⟨due, hle, hdue⟩⟩
  · have hdeadline : ∀ due, w.refresh.timer.deadline? = some due ↔
        Since step Rearms (fun w op => w.Asks op due) start ops :=
      fun due => since_iff (H := fun w => w.refresh.timer.deadline? = some due) hfollows
        (fun _ op h _ => h.step op) nofun (fun _ op h _ => step_deadline h.text op due)
        not_sometime_false
    simp only [hpoll, hdeadline]
  · rw [hflags]
    exact since_iff (H := fun w => w.refresh.dirty.grammar = true) hfollows
      (fun _ op h _ => h.step op) nofun (fun _ op h _ => step_dirty_grammar h.text op)
      not_sometime_false
  · rw [hflags]
    exact since_iff (H := fun w => w.refresh.dirty.input = true) hfollows
      (fun _ op h _ => h.step op) nofun (fun _ op h _ => step_dirty_input h.text op)
      not_sometime_false

end Pegboard.Workbench
