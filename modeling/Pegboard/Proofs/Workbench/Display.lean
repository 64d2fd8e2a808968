import Pegboard.Proofs.Sorted
import Pegboard.Proofs.Workbench.Cycles

/-!
# Who decides on the display of failures

To set `showFailures` by hand decides it until a source changes; otherwise the outcome of the match
does. The decision is taken back by the cycle that takes over a change, not by the change itself. So
a choice stands if nothing was out of date when it was made. If something was, the next cycle takes
the choice back although no source changed behind it, and from then on the flag follows the traces
that are presented.

Main statement: `showFailures_after`.
-/

namespace Pegboard

/-- The trace that a cycle presented, if it made one or used the last one again. -/
def RefreshCycle.presented? {σ : Type} (c : RefreshCycle σ) : Option Trace :=
  if c.report.traceExecuted || c.report.traceReused then c.refresh.trace? else none

namespace RefreshCycle

variable {σ : Type} (bus : Bus EditorEvent σ) (i : RefreshInput) (c : RefreshCycle σ)

/-- What a cycle presents decides on the display of failures, if nobody did by hand. -/
theorem retrace_options (hreport : (c.report.traceExecuted || c.report.traceReused) = false) :
    (c.retrace bus i).options =
      match (c.retrace bus i).presented? with
      | some t =>
        if c.refresh.display = .implicit then c.options.set showFailures !t.result.succeeded
        else c.options
      | none => c.options := by
  rcases c.retrace_cases bus i with
    ⟨-, heq⟩ | ⟨g, start, -, -, ⟨l, hl, -, heq⟩ | ⟨e, -, heq⟩ | ⟨t, -, heq⟩⟩ <;> rw [heq]
  · simp [presented?, hreport]
  · simp [presented?, Refresh.trace?, hl]
  · simp [presented?, hreport]
  · simp [presented?, Refresh.trace?]

end RefreshCycle

namespace Workbench

open History

variable {σ τ : Type}

theorem cycle_display (w : Workbench σ τ) :
    w.cycle.refresh.display =
      if w.refresh.dirty.any then .implicit else w.refresh.display :=
  w.steady_cycle.display

theorem cycle_options (w : Workbench σ τ) :
    w.cycle.options =
      match w.cycle.presented? with
      | some t =>
        if w.cycle.refresh.display = .implicit then w.options.set showFailures !t.result.succeeded
        else w.options
      | none => w.options := by
  have hbuilt : (RefreshCycle.begin w.refresh w.session w.options w.world).Steady w.built :=
    .built _ _ ⟨rfl, rfl, rfl, rfl, rfl, rfl⟩
  have hdisplay : w.built.refresh.display = w.cycle.refresh.display :=
    hbuilt.display.trans w.steady_cycle.display.symm
  have hoptions : w.built.options = w.options := RefreshCycle.built_options _ _ _
  have hexecuted : w.built.report.traceExecuted = false := RefreshCycle.built_executed _ _ _
  have hreused : w.built.report.traceReused = false := RefreshCycle.built_reused _ _ _
  rw [← hdisplay, ← hoptions, cycle_eq]
  exact w.built.retrace_options _ _ (by simp [hexecuted, hreused])

/-- The next cycle will leave the display of failures to the outcome of the match. -/
def Undecided (w : Workbench σ τ) : Prop :=
  w.refresh.dirty.any = true ∨ w.refresh.display = .implicit

theorem Undecided.cycle_display {w : Workbench σ τ} (h : w.Undecided) :
    w.cycle.refresh.display = .implicit := by
  rw [Workbench.cycle_display]
  rcases h with hdirty | hdisplay
  · rw [if_pos hdirty]
  · rw [hdisplay, ite_self]

variable [Store Id τ]

/-- The operation decides anew on the display of failures: it sets the flag, or changes a source. -/
def DecidesAnew (w : Workbench σ τ) (op : Operation σ τ) : Prop :=
  (∃ now value, op = .setOption now showFailures value) ∨ w.ChangesGrammar op ∨ w.ChangesInput op

/-- A cycle presents a trace. -/
def Presents (w : Workbench σ τ) (op : Operation σ τ) : Prop :=
  w.RunsCycle op ∧ w.cycle.presented?.isSome = true

/-- A cycle presents a trace whose outcome asks for the other value of the flag. -/
def Overrules (value : Bool) (w : Workbench σ τ) (op : Operation σ τ) : Prop :=
  w.RunsCycle op ∧ ∃ t, w.cycle.presented? = some t ∧ (!t.result.succeeded) ≠ value

variable {w : Workbench σ τ} {op : Operation σ τ}

/-- What does not decide anew on the display of failures leaves it as it is, or is a cycle. -/
theorem display_cases (htext : w.session.text = w.grammarDoc.text) (hop : ¬ w.DecidesAnew op) :
    w.RunsCycle op ∧ w.step op = (w.refreshNow (m := Id)).2 ∨
      ¬ w.RunsCycle op ∧ (w.step op).options.get showFailures = w.options.get showFailures ∧
        (w.step op).refresh.display = w.refresh.display ∧
        (w.step op).refresh.dirty = w.refresh.dirty := by
  simp only [DecidesAnew, not_or] at hop
  obtain ⟨hsets, hgrammar, hinput⟩ := hop
  cases step_turn htext op with
  | stays _ hstep =>
      exact .inr ⟨not_runsCycle (by rw [hstep]), by rw [hstep], by rw [hstep], by rw [hstep]⟩
  | grammar _ d session hversion hstep =>
      refine absurd (.inr ?_) hgrammar
      rw [hstep]
      exact hversion.trans_ne (by simp)
  | input _ d hversion hstep =>
      refine absurd (.inr ?_) hinput
      rw [hstep]
      exact hversion.trans_ne (by simp)
  | restored now grammar input hstep => exact absurd (.inl ⟨now, rfl⟩) hgrammar
  | option now name value =>
      have hname : name ≠ showFailures := by
        rintro rfl
        exact hsets ⟨now, value, rfl⟩
      have hrefresh : (w.step (.setOption now name value)).refresh =
          w.refresh.schedule now (milliseconds w.config.optionDelay) := by
        show (if name = showFailures then _ else w.refresh).schedule _ _ = _
        rw [if_neg hname]
      have hget : ((w.options.set name value).get showFailures) = w.options.get showFailures := by
        rw [Options.get_set, if_neg hname.symm]
      exact .inr ⟨not_runsCycle (by rw [hrefresh]; rfl), hget, by rw [hrefresh]; rfl,
        by rw [hrefresh]; rfl⟩
  | startRule | replacedBus | outside => exact .inr ⟨not_runsCycle rfl, rfl, rfl, rfl⟩
  | refreshed hop hstep => exact .inl ⟨(Refreshes.of_refreshed hop hstep).runs, hstep⟩

/-! ## Over a run -/

/-- The flag has a value that was set by hand, and no change is out of date. -/
structure Decided (value : Bool) (w : Workbench σ τ) : Prop where
  dirty : w.refresh.dirty.any = false
  display : w.refresh.display = .explicit value
  option : w.options.get showFailures = value

theorem Decided.step {value : Bool} (h : w.Decided value)
    (htext : w.session.text = w.grammarDoc.text) (hop : ¬ w.DecidesAnew op) :
    (w.step op).Decided value := by
  rcases display_cases htext hop with ⟨-, hstep⟩ | ⟨-, hoption, hdisplay, hdirty⟩
  · have hexplicit : w.cycle.refresh.display = .explicit value := by
      rw [cycle_display, if_neg (by simp [h.dirty]), h.display]
    rw [hstep, refreshNow_snd]
    refine ⟨?_, hexplicit, ?_⟩
    · show w.cycle.refresh.dirty.any = false
      rw [w.steady_cycle.dirty]
      rfl
    · show w.cycle.options.get showFailures = value
      rw [cycle_options, hexplicit]
      cases w.cycle.presented? <;> exact h.option
  · exact ⟨by rw [hdirty]; exact h.dirty, by rw [hdisplay]; exact h.display,
      by rw [hoption]; exact h.option⟩

theorem Undecided.step (h : w.Undecided) (htext : w.session.text = w.grammarDoc.text)
    (hop : ¬ w.DecidesAnew op) : (w.step op).Undecided := by
  rcases display_cases htext hop with ⟨-, hstep⟩ | ⟨-, -, hdisplay, hdirty⟩
  · refine .inr ?_
    rw [hstep, refreshNow_snd]
    exact h.cycle_display
  · unfold Undecided
    rw [hdisplay, hdirty]
    exact h

/-- Then a cycle sets the flag to what the trace it presents asks for. -/
theorem Undecided.option_step (h : w.Undecided) (htext : w.session.text = w.grammarDoc.text)
    (hop : ¬ w.DecidesAnew op) (value : Bool) :
    (w.step op).options.get showFailures ≠ value ↔
      w.Overrules value op ∨ w.options.get showFailures ≠ value ∧ ¬ w.Presents op := by
  rcases display_cases htext hop with ⟨hruns, hstep⟩ | ⟨hnot, hoption, -, -⟩
  · have hoptions : (w.step op).options = w.cycle.options := by rw [hstep, refreshNow_snd]
    rw [hoptions, cycle_options, h.cycle_display]
    unfold Overrules Presents
    cases hpresented : w.cycle.presented? with
    | none => simp
    | some t => simp [hruns, Options.get_set]
  · simp [hoption, Overrules, Presents, hnot]

/-- After whatever happened to a workbench, a value of `showFailures` that is set by hand stands, until
the flag is set again or a source changes, exactly unless something was out of date when it was set, and
the last trace that a cycle presented since then asks for the other value. -/
theorem showFailures_after (config : Config) (store : τ) (world : σ) (ops : List (Operation σ τ))
    (now : Nat) (value : Bool) (more : List (Operation σ τ))
    (hmore : ¬ Sometime step DecidesAnew
      ((after config store world ops).step (.setOption now showFailures value)) more) :
    let w := after config store world ops
    let chosen := w.step (.setOption now showFailures value)
    let v := more.foldl step chosen
    (w.refresh.dirty.any = false →
        v.options.get showFailures = value ∧ v.refresh.display = .explicit value) ∧
      (w.refresh.dirty.any = true →
        (v.options.get showFailures = value ↔
          ¬ Since step Presents (Overrules value) chosen more)) := by
  intro w chosen v
  have hfollows : chosen.Follows := (follows_after config store world ops).step _
  have hchosen : chosen.options.get showFailures = value := by
    show (w.options.set showFailures value).get showFailures = value
    rw [Options.get_set, if_pos rfl]
  refine ⟨fun hclean => ?_, fun hdirty => ?_⟩
  · have hdecided : chosen.Decided value := ⟨hclean, rfl, hchosen⟩
    obtain ⟨-, hv⟩ := holds_run (I := fun w : Workbench σ τ => w.Follows ∧ w.Decided value)
      ⟨hfollows, hdecided⟩ (fun _ op h hop => ⟨h.1.step op, h.2.step h.1.text hop⟩) hmore
    exact ⟨hv.option, hv.display⟩
  · have hundecided : chosen.Undecided := .inl hdirty
    have hsince := since_iff (I := fun w : Workbench σ τ => w.Follows ∧ w.Undecided)
      (H := fun w => w.options.get showFailures ≠ value) ⟨hfollows, hundecided⟩
      (fun _ op h hop => ⟨h.1.step op, h.2.step h.1.text hop⟩) (not_not.mpr hchosen)
      (fun _ op h hop => h.2.option_step h.1.text hop value) hmore
    exact (not_iff_comm.mp hsince).symm

/-- An input that will not match is set before the flag is, and traced behind it. -/
def failingInput : List (Operation Unit MemoryStore) :=
  [.setGrammarSource 0 "G \x7b \x7d", .setStartRule 0 (some "digit"), .refreshNow,
   .setInputSource 0 "x"]

theorem showFailures_after_failingInput :
    let w := after Config.standard (MemoryStore.ofList []) () failingInput
    let chosen := w.step (.setOption 0 showFailures false)
    ¬ chosen.DecidesAnew .flush ∧ w.refresh.dirty.any = true ∧
      (chosen.step .flush).options.get showFailures = true := by
  have hafter := showFailures_after Config.standard (MemoryStore.ofList []) () failingInput 0 false
    [.flush]
  have hstate :
      let w := after Config.standard (MemoryStore.ofList []) () failingInput
      (w.refresh.dirty.any, (w.step (.setOption 0 showFailures false)).cycle.presented?.map
        (·.result.succeeded)) = (true, some false) := by
    decide +kernel
  generalize after Config.standard (MemoryStore.ofList []) () failingInput = w at hafter hstate ⊢
  intro w chosen
  obtain ⟨hdirty, hpresented⟩ := Prod.mk.inj hstate
  obtain ⟨t, ht, hfails⟩ := Option.map_eq_some_iff.mp hpresented
  have hrefreshes : chosen.Refreshes .flush := .flush rfl
  have hkeeps : ¬ chosen.DecidesAnew .flush := by
    rintro (⟨_, _, ⟨⟩⟩ | hgrammar | hinput)
    · exact hrefreshes.not_grammar hgrammar
    · exact hrefreshes.not_input hinput
  have hmore : ¬ Sometime step DecidesAnew chosen ([] ++ [.flush]) := by
    rw [sometime_concat, not_or]
    exact ⟨not_sometime_nil, hkeeps⟩
  have hsince : Since step Presents (Overrules false) chosen [.flush] :=
    ⟨[], .flush, [], rfl, ⟨hrefreshes.runs, t, ht, by simp [hfails]⟩, not_sometime_nil⟩
  refine ⟨hkeeps, hdirty, ?_⟩
  by_contra hne
  exact ((hafter hmore).2 hdirty).mp (Bool.eq_false_iff.mpr hne) hsince

end Workbench

end Pegboard
