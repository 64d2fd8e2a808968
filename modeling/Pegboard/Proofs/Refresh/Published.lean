import Pegboard.Proofs.Workbench

/-!
# The trace that a refresh publishes

What a refresh cycle publishes is read off a handler that writes all events down; the cycle itself
does not change by it (`run_plain`). A cycle publishes one trace at most, and that is the trace that
the workbench has afterwards.

In one case the workbench has a trace that its last cycle did not publish: if the grammar stays and
no start rule is found in it, the cycle ends without a word about the trace of an earlier one.

Main statement: `Workbench.published_after`.
-/

namespace Pegboard

open Match

/-- The trace that an event tells of. -/
def EditorEvent.trace? : EditorEvent → Option Trace
  | .inputParsed t => some t
  | _ => none

namespace RefreshCycle

variable {σ : Type} {bus : Bus EditorEvent σ} {i : RefreshInput}

/-! ## Standard buses refuse no event -/

section

variable (hb : bus.Standard) (c : RefreshCycle σ)

include hb

theorem publish_violation? (e : EditorEvent) : (c.publish bus e).violation? = c.violation? := by
  unfold publish
  rw [hb.emit_eq e.inCatalog]
  cases (Bus.runAll e (bus.handlersOf (Event.name e)) c.world).1 <;> rfl

theorem built_violation? : (c.built bus i).violation? = c.violation? := by
  have hrebuild : ∀ c : RefreshCycle σ, (c.rebuild bus).violation? = c.violation? := by
    intro c
    unfold rebuild
    rcases c.session.matchRule none with ⟨_ | r, session⟩
    · rfl
    · exact publish_violation? hb _ _
  unfold built
  split <;> split <;> simp [hrebuild, publish_violation? hb]

theorem run_violation? : (c.run bus i).violation? = c.violation? := by
  rw [run_eq, ← built_violation? (i := i) hb c]
  have hpresent : ∀ (c : RefreshCycle σ) (start : String) (t : Trace),
      (c.present bus start t).violation? = c.violation? :=
    fun c start t => publish_violation? hb _ _
  rcases (c.built bus i).retrace_cases bus i with
    ⟨-, heq⟩ | ⟨g, start, -, -, ⟨l, -, -, heq⟩ | ⟨e, -, heq⟩ | ⟨t, -, heq⟩⟩
  · rw [heq]
  · rw [heq, hpresent]
  · rw [heq]
  · rw [heq, hpresent]

end

/-! ## Cycles whose events are written down -/

/-- The cycle without the events written down. -/
def plain (d : RefreshCycle (σ × List EditorEvent)) : RefreshCycle σ :=
  ⟨d.refresh, d.session, d.options, d.report, d.violation?, d.world.1⟩

/-- The traces told of so far. -/
def traces (d : RefreshCycle (σ × List EditorEvent)) : List Trace :=
  d.world.2.filterMap EditorEvent.trace?

section

variable (hb : bus.Standard) (d : RefreshCycle (σ × List EditorEvent))

include hb

theorem publish_recording (e : EditorEvent) :
    (d.publish bus.recording e).plain = d.plain.publish bus e ∧
      (d.publish bus.recording e).world.2 = d.world.2 ++ [e] := by
  have hworld : d.plain.world = d.world.1 := rfl
  unfold publish
  rw [Bus.emit_recording hb e.inCatalog, hworld]
  rcases bus.emit e d.world.1 with ⟨_ | answer, world⟩
  · rename_i err
    cases err <;> exact ⟨rfl, rfl⟩
  · exact ⟨rfl, rfl⟩

theorem publish_traces (e : EditorEvent) :
    (d.publish bus.recording e).traces = d.traces ++ e.trace?.toList := by
  unfold traces
  rw [(publish_recording hb d e).2, List.filterMap_append]
  cases h : e.trace? <;> simp [h]

theorem rebuild_plain : (d.rebuild bus.recording).plain = d.plain.rebuild bus := by
  have hsession : d.plain.session = d.session := rfl
  unfold rebuild
  rw [hsession]
  rcases d.session.matchRule none with ⟨_ | r, session⟩
  · rfl
  · exact (publish_recording hb _ _).1

theorem rebuild_traces : (d.rebuild bus.recording).traces = d.traces := by
  unfold rebuild
  rcases d.session.matchRule none with ⟨_ | r, session⟩
  · rfl
  · rw [publish_traces hb]
    exact List.append_nil _

theorem built_plain : (d.built bus.recording i).plain = d.plain.built bus i := by
  have hflags : d.plain.report.flags = d.report.flags := rfl
  unfold built
  rw [hflags]
  split <;> split <;> simp [rebuild_plain hb, publish_recording hb]

theorem built_traces : (d.built bus.recording i).traces = d.traces := by
  unfold built
  split <;> split <;> simp [rebuild_traces hb, publish_traces hb, EditorEvent.trace?]

theorem retrace_plain : (d.retrace bus.recording i).plain = d.plain.retrace bus i := by
  have hrefresh : d.plain.refresh = d.refresh := rfl
  unfold retrace
  rw [hrefresh]
  cases d.refresh.grammar? with
  | none => rfl
  | some g =>
      dsimp only
      cases g.resolveStart i.selection with
      | none => rfl
      | some start =>
          dsimp only
          unfold retraceFrom
          rw [hrefresh]
          cases d.refresh.last?.filter (·.isOf d.refresh.generation start i.inputVersion) with
          | some l => exact (publish_recording hb _ _).1
          | none =>
              dsimp only
              cases g.trace i.inputSource (some start) with
              | error e => rfl
              | ok t => exact (publish_recording hb _ _).1

/-- With a start rule, a cycle tells of the trace that it leaves, if it leaves one. -/
theorem retrace_traces (hstart : ¬ d.Startless i) :
    (d.retrace bus.recording i).traces =
      d.traces ++ (d.retrace bus.recording i).refresh.trace?.toList := by
  rcases d.retrace_cases bus.recording i with
    ⟨hstartless, -⟩ | ⟨g, start, -, -, ⟨l, hl, -, heq⟩ | ⟨e, -, heq⟩ | ⟨t, -, heq⟩⟩
  · exact absurd hstartless hstart
  · rw [heq, Refresh.trace?, present_last?, hl]
    exact publish_traces hb _ _
  · rw [heq]
    exact (List.append_nil _).symm
  · rw [heq, Refresh.trace?, present_last?]
    exact publish_traces hb _ _

/-- To write the events down does not change the cycle. -/
theorem run_plain : (d.run bus.recording i).plain = d.plain.run bus i := by
  rw [run_eq, run_eq, retrace_plain hb, built_plain hb]

end

end RefreshCycle

namespace Workbench

variable {σ τ : Type}

/-- The cycle that the workbench would run now, with its events written down. -/
def recordedCycle (w : Workbench σ τ) : RefreshCycle (σ × List EditorEvent) :=
  (RefreshCycle.begin w.refresh w.session w.options (w.world, [])).run w.editorBus.recording
    w.refreshInput

/-- The traces that a refresh now would publish. -/
def published (w : Workbench σ τ) : List Trace :=
  w.recordedCycle.traces

/-- A refresh now would keep the grammar, and find no start rule in it. -/
def Startless (w : Workbench σ τ) : Prop :=
  w.refresh.dirty.grammar = false ∧
    ∃ g, w.refresh.grammar? = some g ∧ g.resolveStart w.selection? = none

variable {w : Workbench σ τ}

theorem plain_recordedCycle (hb : w.editorBus.Standard) : w.recordedCycle.plain = w.cycle :=
  RefreshCycle.run_plain hb _

/-- Without a grammar there is no trace. -/
theorem Follows.last?_eq_none (h : w.Follows) (hgrammar : w.refresh.grammar? = none) :
    w.refresh.last? = none := by
  by_contra hsome
  obtain ⟨l, hl⟩ := Option.ne_none_iff_exists'.mp hsome
  obtain ⟨-, g, hg, -⟩ := h.trace l hl
  rw [hgrammar] at hg
  cases hg

/-- A refresh publishes the trace that is there afterwards, or none if there is none, unless it finds
no start rule in a grammar that stays; then the trace that was there before it stays as well. -/
theorem Follows.published_eq (h : w.Follows) (hb : w.editorBus.Standard) :
    w.published = w.runCycle.2.refresh.trace?.toList ∧ ¬ w.Startless ∨
      w.Startless ∧ w.published = [] ∧ w.runCycle.2.refresh.trace? = w.refresh.trace? := by
  have hrefresh : w.runCycle.2.refresh = w.recordedCycle.refresh := by
    rw [runCycle_eq, ← plain_recordedCycle hb]
    rfl
  rw [hrefresh]
  unfold published recordedCycle
  rw [RefreshCycle.run_eq]
  set c := RefreshCycle.begin w.refresh w.session w.options (w.world, [])
  set d := c.built w.editorBus.recording w.refreshInput
  -- the cycle up to the trace: nothing of a trace was told yet
  have htraces : d.traces = [] := RefreshCycle.built_traces hb c
  have hlast : d.refresh.last? = if w.refresh.dirty.grammar then none else w.refresh.last? :=
    RefreshCycle.built_last? _ _ c
  have hclean : w.refresh.dirty.grammar = false → d.refresh.grammar? = w.refresh.grammar? :=
    fun hflag => (RefreshCycle.built_of_clean _ _ c hflag).1
  by_cases hstart : d.Startless w.refreshInput
  · rw [RefreshCycle.retrace_of_startless _ _ _ hstart, htraces, Refresh.trace?, Refresh.trace?]
    by_cases hw : w.Startless
    · rw [hlast, hw.1]
      exact .inr ⟨hw, rfl, rfl⟩
    · refine .inl ⟨?_, hw⟩
      suffices hnone : d.refresh.last? = none by rw [hnone]; rfl
      rw [hlast]
      cases hflag : w.refresh.dirty.grammar with
      | true => rfl
      | false =>
          -- a grammar that stays has no start rule now, so there is none
          refine h.last?_eq_none ?_
          by_contra hsome
          obtain ⟨g, hg⟩ := Option.ne_none_iff_exists'.mp hsome
          exact hw ⟨hflag, g, hg, hstart g ((hclean hflag).trans hg)⟩
  · refine .inl ⟨?_, ?_⟩
    · rw [RefreshCycle.retrace_traces hb d hstart, htraces, List.nil_append]
    · rintro ⟨hflag, g, hg, hnone⟩
      refine hstart fun g' hg' => ?_
      rw [hclean hflag, hg] at hg'
      rwa [← Option.some.inj hg']

theorem runCycle_completes (hb : w.editorBus.Standard) :
    w.runCycle.1 = .ok w.cycle.report := by
  have hnone : w.cycle.violation? = none := RefreshCycle.run_violation? hb _
  rw [runCycle_eq, hnone]

section

variable [Store Id τ]

theorem refreshNow_editorBus (w : Workbench σ τ) :
    (w.refreshNow (m := Id)).2.editorBus = w.editorBus := by
  have hbus : w.runCycle.2.editorBus = w.editorBus := by rw [runCycle_eq]
  unfold refreshNow
  generalize w.runCycle = answer at hbus
  obtain ⟨_ | report, w'⟩ := answer
  · exact hbus
  · show (w'.save (m := Id) report.flags.grammar).editorBus = w.editorBus
    unfold save
    cases report.flags.grammar <;> exact hbus

/-- No operation of the workbench touches the kinds that its bus knows. -/
theorem step_editorBus (w : Workbench σ τ) (op : Operation σ τ) :
    (w.step op).editorBus =
      match op with
      | .replaceBus bus => bus
      | _ => w.editorBus := by
  have hrefresh : ∀ condition, (w.refreshIf (m := Id) condition).2.editorBus = w.editorBus := by
    intro condition
    unfold refreshIf
    cases condition with
    | true => exact w.refreshNow_editorBus
    | false => rfl
  cases op with
  | setGrammarSource | setInputSource =>
      unfold step setGrammarSource setInputSource
      dsimp only
      split <;> rfl
  | editGrammar | editGrammarRange =>
      unfold step editGrammar editGrammarRange
      dsimp only
      split
      · rfl
      · split <;> rfl
  | editInput | editInputRange =>
      unfold step editInput editInputRange
      dsimp only
      split <;> rfl
  | poll now => exact hrefresh _
  | flush => exact hrefresh _
  | refreshNow => exact w.refreshNow_editorBus
  | restore | setOption | setStartRule | replaceBus | outside => rfl

/-- The bus is standard after operations that put in no other one. -/
theorem standard_after (config : Config) (store : τ) (world : σ) (ops : List (Operation σ τ))
    (hops : ∀ bus, .replaceBus bus ∈ ops → bus.Standard) :
    (after config store world ops).editorBus.Standard := by
  have run : ∀ w : Workbench σ τ, w.editorBus.Standard → (ops.foldl step w).editorBus.Standard := by
    induction ops with
    | nil => exact fun w hw => hw
    | cons op ops ih =>
        intro w hw
        refine ih (fun bus hbus => hops bus (List.mem_cons_of_mem _ hbus)) _ ?_
        rw [step_editorBus]
        split
        · exact hops _ List.mem_cons_self
        · exact hw
  exact run _ Bus.standard_new

end

/-- After whatever happened to a workbench, a refresh on a standard bus completes, and publishes the
trace that is there afterwards, or none if there is none, exactly unless a trace is there before and
the refresh keeps the grammar and finds no start rule in it: then it publishes none, and the trace
stays. -/
theorem published_after [Store Id τ] (config : Config) (store : τ) (world : σ)
    (ops : List (Operation σ τ)) (hb : (after config store world ops).editorBus.Standard) :
    let w := after config store world ops
    let w' := w.runCycle.2
    w.runCycle.1 = .ok w.cycle.report ∧
      (w.published = w'.refresh.trace?.toList ↔
        ¬ (w.Startless ∧ w.refresh.trace?.isSome)) ∧
      (w.Startless → w.published = [] ∧ w'.refresh.trace? = w.refresh.trace?) := by
  intro w w'
  have h : w.Follows := follows_after config store world ops
  refine ⟨runCycle_completes hb, ?_⟩
  rcases h.published_eq hb with ⟨heq, hnot⟩ | ⟨hstartless, hnone, hstays⟩
  · refine ⟨⟨fun _ hboth => hnot hboth.1, fun _ => heq⟩, fun hstartless => absurd hstartless hnot⟩
  · refine ⟨⟨?_, ?_⟩, fun _ => ⟨hnone, hstays⟩⟩
    · rintro heq ⟨-, hsome⟩
      rw [hnone, hstays] at heq
      obtain ⟨t, ht⟩ := Option.isSome_iff_exists.mp hsome
      rw [ht] at heq
      cases heq
    · intro hnot
      have hwas : w.refresh.trace? = none := by
        by_contra hsome
        exact hnot ⟨hstartless, Option.isSome_iff_ne_none.mpr hsome⟩
      rw [hnone, hstays, hwas]
      rfl

/-- A digit is traced from a rule that every grammar has, in one that has no start rule; then the
selection is taken back. -/
def digitUnselected : List (Operation Unit MemoryStore) :=
  [.setGrammarSource 0 "G \x7b \x7d", .setInputSource 0 "1", .setStartRule 0 (some "digit"),
   .refreshNow, .setStartRule 0 none]

theorem published_after_digitUnselected :
    let w := after Config.standard (MemoryStore.ofList []) () digitUnselected
    w.published = [] ∧ w.runCycle.2.refresh.trace?.isSome = true := by
  intro w
  have hb : w.editorBus.Standard := standard_after _ _ _ _ (by simp [digitUnselected])
  have hstate : (w.refresh.dirty.grammar, w.refresh.grammar?.map (·.resolveStart w.selection?),
      w.refresh.trace?.isSome) = (false, some none, true) := by
    decide +kernel
  obtain ⟨hflag, hrest⟩ := Prod.mk.inj hstate
  obtain ⟨hstart, htrace⟩ := Prod.mk.inj hrest
  obtain ⟨-, -, hstays⟩ := published_after Config.standard (MemoryStore.ofList []) ()
    digitUnselected hb
  obtain ⟨hnone, heq⟩ := hstays ⟨hflag, Option.map_eq_some_iff.mp hstart⟩
  exact ⟨hnone, by rw [heq]; exact htrace⟩

end Workbench

end Pegboard
