import Pegboard.Proofs.Grammar.Closed
import Pegboard.Proofs.Grammar.Recovered
import Pegboard.Proofs.History
import Pegboard.Proofs.Refresh.Published
import Pegboard.Proofs.Workbench.Display

/-!
# What a refresh cycle tells and reports

A refresh may be driven by anyone: sources are marked as changed, the timer is armed, the display of
failures is decided, and cycles are run on whatever bus, texts and selection. Whatever was done
before, a cycle on a standard bus tells of the changed sources, of the grammar it built and of the
trace it presents, in this order, and its report says which of these it did. Which trace a cycle may
use again is told by the run alone: the last one that was made, if nothing was processed since that
could make another one of it.

Main statement: `Refresh.cycle_after`.
-/

namespace Pegboard

open History

/-- What a cycle is given. The session is one of grammar sources. -/
structure RefreshContext (σ : Type) where
  bus : Bus EditorEvent σ
  input : RefreshInput
  session : Match.Session
  options : Options
  world : σ
  reads_grammars : session.grammar = Grammar.ofGrammars

/-- Something that is done with a refresh. -/
inductive Refresh.Operation (σ : Type)
  | markGrammar
  | markInput
  | decideDisplay (value : Bool)
  | schedule (now delay : Nat)
  | cycle (x : RefreshContext σ)

/-! ## What a bus carries -/

namespace Bus

variable {ε σ : Type} [Event ε]

/-- Events that reach their handlers one after the other: the failures of the handlers, in order, and
the state behind them. -/
def carry (b : Bus ε σ) : List ε → σ → List HandlerError × σ
  | [], s => ([], s)
  | e :: es, s =>
    let (failures, s) := runAll e (b.handlersOf (Event.name e)) s
    let (more, s) := b.carry es s
    (failures ++ more, s)

theorem carry_append (b : Bus ε σ) (es es' : List ε) (s : σ) :
    b.carry (es ++ es') s =
      ((b.carry es s).1 ++ (b.carry es' (b.carry es s).2).1, (b.carry es' (b.carry es s).2).2) := by
  induction es generalizing s with
  | nil => rfl
  | cons e es ih => simp [carry, ih]

end Bus

namespace RefreshCycle

variable {σ : Type} {bus : Bus EditorEvent σ} {i : RefreshInput}

/-- The second cycle is the first one after it told of the events, and counted what failed. -/
structure Tells (bus : Bus EditorEvent σ) (es : List EditorEvent)
    (d d' : RefreshCycle (σ × List EditorEvent)) : Prop where
  events : d'.world.2 = d.world.2 ++ es
  world : d'.world.1 = (bus.carry es d.world.1).2
  failures : d'.report.handlerFailures =
    d.report.handlerFailures + (bus.carry es d.world.1).1.length

namespace Tells

variable {es es' : List EditorEvent} {d d' d'' : RefreshCycle (σ × List EditorEvent)}

/-- Nothing was told. -/
theorem silent (hworld : d'.world = d.world)
    (hfailures : d'.report.handlerFailures = d.report.handlerFailures) : Tells bus [] d d' :=
  ⟨by rw [hworld, List.append_nil], by rw [hworld, Bus.carry], hfailures⟩

theorem trans (h : Tells bus es d d') (h' : Tells bus es' d' d'') :
    Tells bus (es ++ es') d d'' where
  events := by rw [h'.events, h.events, List.append_assoc]
  world := by rw [h'.world, h.world, Bus.carry_append]
  failures := by
    rw [h'.failures, h.failures, h.world, Bus.carry_append, List.length_append, Nat.add_assoc]

/-- What a cycle works out beside its events is not heard. -/
theorem congr_left (h : Tells bus es d' d'') (hworld : d'.world = d.world)
    (hfailures : d'.report.handlerFailures = d.report.handlerFailures) : Tells bus es d d'' :=
  ⟨hworld ▸ h.events, hworld ▸ h.world, hfailures ▸ hworld ▸ h.failures⟩

end Tells

section

variable (hb : bus.Standard) (d : RefreshCycle (σ × List EditorEvent))

include hb

theorem publish_tells (e : EditorEvent) : Tells bus [e] d (d.publish bus.recording e) := by
  have hcarry : bus.carry [e] d.world.1 =
      Bus.runAll e (bus.handlersOf (Event.name e)) d.world.1 := by
    simp [Bus.carry]
  refine ⟨(publish_recording hb d e).2, ?_, ?_⟩
  all_goals
    rw [hcarry]
    unfold publish
    rw [Bus.emit_recording hb e.inCatalog, hb.emit_eq e.inCatalog]
    rcases Bus.runAll e (bus.handlersOf (Event.name e)) d.world.1 with ⟨failures, s⟩
    cases failures <;> rfl

/-- A grammar is told of unless its match was given up. -/
theorem rebuild_tells : Tells bus
    (match (d.session.matchRule none).1 with
      | .ok result => [.grammarParsed result (d.rebuild bus.recording).refresh.grammar?
          (d.rebuild bus.recording).refresh.grammarError?]
      | .error _ => []) d (d.rebuild bus.recording) := by
  unfold rebuild
  rcases d.session.matchRule none with ⟨_ | r, session⟩
  · exact .silent rfl rfl
  · simp only [publish_grammar?, publish_grammarError?]
    exact (publish_tells hb _ _).congr_left rfl rfl

theorem built_tells : Tells bus
    ((if d.report.flags.input then [.inputChanged i.inputSource] else []) ++
      (if d.report.flags.grammar then
        .grammarChanged i.grammarSource :: match (d.session.matchRule none).1 with
          | .ok result => [.grammarParsed result (d.built bus.recording i).refresh.grammar?
              (d.built bus.recording i).refresh.grammarError?]
          | .error _ => []
      else [])) d (d.built bus.recording i) := by
  unfold built
  have hinput : Tells bus (if d.report.flags.input then [.inputChanged i.inputSource] else []) d
      (if d.report.flags.input then d.publish bus.recording (.inputChanged i.inputSource)
        else d) := by
    split
    · exact publish_tells hb d _
    · exact .silent rfl rfl
  set d' := if d.report.flags.input then d.publish bus.recording (.inputChanged i.inputSource)
    else d with hd'
  have hsession : d'.session = d.session := by
    rw [hd']
    split <;> simp
  refine hinput.trans ?_
  split
  · have hgrammar := publish_tells hb d' (.grammarChanged i.grammarSource)
    have hrebuild := rebuild_tells hb (d'.publish bus.recording (.grammarChanged i.grammarSource))
    rw [publish_session, hsession] at hrebuild
    exact hgrammar.trans hrebuild
  · exact .silent rfl rfl

/-- A cycle tells of the trace that it presents. -/
theorem retrace_tells (hreport : (d.report.traceExecuted || d.report.traceReused) = false) :
    Tells bus ((d.retrace bus.recording i).presented?.map .inputParsed).toList d
      (d.retrace bus.recording i) := by
  rcases d.retrace_cases bus.recording i with
    ⟨-, heq⟩ | ⟨g, start, -, -, ⟨l, hl, -, heq⟩ | ⟨e, -, heq⟩ | ⟨t, -, heq⟩⟩
  · rw [heq, presented?, hreport]
    exact .silent rfl rfl
  · rw [heq]
    have htold : (({ d with report := { d.report with traceReused := true } }.present bus.recording
        start l.trace).presented?) = some l.trace := by
      simp [presented?, Refresh.trace?, hl]
    rw [htold]
    exact (publish_tells hb _ _).congr_left rfl rfl
  · rw [heq]
    have htold : ({ d with
        report := { d.report with matchError? := some e }
        refresh := { d.refresh with last? := none } } : RefreshCycle _).presented? = none := by
      simp [presented?, hreport]
    rw [htold]
    exact .silent rfl rfl
  · rw [heq]
    have htold : ({ d with
        report := { d.report with traceExecuted := true }
        refresh := { d.refresh with
          stats := { d.refresh.stats with traces := d.refresh.stats.traces + 1 }
          last? := some ⟨d.refresh.generation, start, i.inputVersion, t⟩ } }.present bus.recording
            start t).presented? = some t := by
      simp [presented?, Refresh.trace?]
    rw [htold]
    exact (publish_tells hb _ _).congr_left rfl rfl

end

end RefreshCycle

/-! ## Matches that are given up -/

/-- The match nested too deep. -/
def MatchError.IsTooDeep (e : MatchError) : Prop :=
  ∃ grammar rule, e = .tooDeep grammar rule

/-- There is no result, as the match nested too deep. -/
def Match.GivenUp {α : Type} (answer : Except MatchError α) : Prop :=
  ∃ e, e.IsTooDeep ∧ answer = .error e

theorem Match.Session.isTooDeep_of_matchRule {s : Match.Session} {e : MatchError}
    (hs : s.grammar = Grammar.ofGrammars) (h : (s.matchRule none).1 = .error e) :
    e.IsTooDeep := by
  obtain ⟨rule, hrule, -⟩ := Grammar.startRule_ofGrammars
  unfold matchRule at h
  rw [hs, hrule] at h
  simp only at h
  split at h
  · exact ⟨_, _, (Except.error.inj h).symm⟩
  · cases h

theorem Grammar.isTooDeep_of_answer {g : Grammar} {tracing : Bool} {text start : String}
    {e : MatchError} (hstart : g.hasRule start = true)
    (h : g.answer tracing text (some start) = .error e) : e.IsTooDeep := by
  obtain ⟨rule, hrule⟩ := Option.isSome_iff_exists.mp hstart
  simp only [answer, startRule, Option.some_or, hrule, bind, Except.bind] at h
  split at h
  · exact ⟨_, _, (Except.error.inj h).symm⟩
  · cases h

theorem Grammar.isTooDeep_of_trace {g : Grammar} {text start : String} {e : MatchError}
    (hstart : g.hasRule start = true) (h : g.trace text (some start) = .error e) :
    e.IsTooDeep := by
  unfold trace at h
  cases hanswer : g.answer true text (some start) with
  | error e' =>
      rw [hanswer] at h
      obtain rfl : e' = e := Except.error.inj h
      exact isTooDeep_of_answer hstart hanswer
  | ok found =>
      rw [hanswer] at h
      cases h

namespace Refresh

variable {σ : Type} (r : Refresh) (x : RefreshContext σ)

/-! ## Cycles and what came before them -/

/-- The cycle that is run with these. -/
def cycle : RefreshCycle σ :=
  (RefreshCycle.begin r x.session x.options x.world).run x.bus x.input

/-- The cycle with its events written down. -/
def recordedCycle : RefreshCycle (σ × List EditorEvent) :=
  (RefreshCycle.begin r x.session x.options (x.world, [])).run x.bus.recording x.input

/-- The events that the cycle emits, in order. -/
def emitted : List EditorEvent :=
  (r.recordedCycle x).world.2

def step (r : Refresh) : Operation σ → Refresh
  | .markGrammar => r.markGrammar
  | .markInput => r.markInput
  | .decideDisplay value => { r with display := .explicit value }
  | .schedule now delay => r.schedule now delay
  | .cycle x => (r.cycle x).refresh

/-- A refresh after all that was done with it. -/
def after (ops : List (Operation σ)) : Refresh :=
  ops.foldl step .initial

/-- The cycle before it comes to the trace. -/
def built : RefreshCycle σ :=
  (RefreshCycle.begin r x.session x.options x.world).built x.bus x.input

theorem cycle_eq : r.cycle x = (r.built x).retrace x.bus x.input :=
  rfl

/-! ### What a cycle has to go by -/

theorem built_reportless : (r.built x).report.traceExecuted = false ∧
    (r.built x).report.traceReused = false :=
  ⟨RefreshCycle.built_executed _ _ _, RefreshCycle.built_reused _ _ _⟩

theorem built_last? :
    (r.built x).refresh.last? = if r.dirty.grammar then none else r.last? :=
  RefreshCycle.built_last? _ _ _

theorem built_matchError? : (r.built x).report.matchError? =
    if r.dirty.grammar then
      match (x.session.matchRule none).1 with
      | .error e => some e
      | .ok _ => none
    else none :=
  RefreshCycle.built_matchError? _ _ _ rfl

theorem cycle_grammar? : (r.cycle x).refresh.grammar? = (r.built x).refresh.grammar? := by
  rw [cycle_eq, RefreshCycle.retrace_grammar?]

theorem cycle_flags : (r.cycle x).report.flags = r.dirty :=
  (RefreshCycle.steady_run x.bus x.input _).flags

/-- What a cycle says of the trace, and what it leaves of it. -/
structure Ends (executed reused : Bool) (last? : Option TraceRecord)
    (matchError? : Option MatchError) : Prop where
  executed : (r.cycle x).report.traceExecuted = executed
  reused : (r.cycle x).report.traceReused = reused
  last? : (r.cycle x).refresh.last? = last?
  matchError? : (r.cycle x).report.matchError? = matchError?

/-- A cycle finds no start rule, or presents the last trace again, or gives up the match of the
input, or makes a trace. -/
theorem cycle_cases :
    (r.built x).Startless x.input ∧
        r.Ends x false false (r.built x).refresh.last? (r.built x).report.matchError? ∨
      ∃ g start, (r.built x).refresh.grammar? = some g ∧
        g.resolveStart x.input.selection = some start ∧
          ((∃ l, (r.built x).refresh.last? = some l ∧
              l = ⟨(r.built x).refresh.generation, start, x.input.inputVersion, l.trace⟩ ∧
              (r.cycle x).report.start? = some start ∧
              r.Ends x false true (some l) (r.built x).report.matchError?) ∨
            (∃ e, g.trace x.input.inputSource (some start) = .error e ∧
              r.Ends x false false none (some e)) ∨
            ∃ t, g.trace x.input.inputSource (some start) = .ok t ∧
              (r.cycle x).report.start? = some start ∧
              r.Ends x true false
                (some ⟨(r.built x).refresh.generation, start, x.input.inputVersion, t⟩)
                (r.built x).report.matchError?) := by
  obtain ⟨hexecuted, hreused⟩ := built_reportless r x
  rcases (r.built x).retrace_cases x.bus x.input with
    ⟨hstartless, heq⟩ | ⟨g, start, hg, hstart, hends⟩
  · rw [← cycle_eq] at heq
    exact .inl ⟨hstartless, by rw [heq, hexecuted], by rw [heq, hreused], by rw [heq], by rw [heq]⟩
  · refine .inr ⟨g, start, hg, hstart, ?_⟩
    rcases hends with ⟨l, hl, hof, heq⟩ | ⟨e, htrace, heq⟩ | ⟨t, htrace, heq⟩ <;>
      rw [← cycle_eq] at heq
    · exact .inl ⟨l, hl, hof, by simp [heq], by simp [heq, hexecuted], by simp [heq],
        by simp [heq, hl], by simp [heq]⟩
    · exact .inr (.inl ⟨e, htrace, by simp [heq, hexecuted], by simp [heq, hreused], by simp [heq],
        by simp [heq]⟩)
    · exact .inr (.inr ⟨t, htrace, by simp [heq], by simp [heq], by simp [heq, hreused],
        by simp [heq], by simp [heq]⟩)

variable {r x}

/-- What holds of a refresh between the things that are done with it: the last trace is one of the
grammar built last, which is closed. -/
structure Coherent (r : Refresh) : Prop where
  generation : ∀ l, r.last? = some l → l.generation = r.generation
  closed : ∀ g, r.grammar? = some g → g.Closed

theorem Coherent.built (h : r.Coherent) : (r.built x).refresh.Coherent := by
  have hgeneration : (r.built x).refresh.generation =
      if r.dirty.grammar then r.generation + 1 else r.generation :=
    RefreshCycle.built_generation _ _ _
  refine ⟨fun l hl => ?_, fun g hg => ?_⟩
  · rw [built_last?] at hl
    rw [hgeneration]
    split at hl
    · cases hl
    · rename_i hflag
      rw [if_neg hflag]
      exact h.generation l hl
  · cases hflag : r.dirty.grammar with
    | false =>
        have hkept : (r.built x).refresh.grammar? = r.grammar? :=
          (RefreshCycle.built_of_clean _ _ _ hflag).1
        exact h.closed g (hkept ▸ hg)
    | true =>
        cases hmatch : (x.session.matchRule none).1 with
        | error e =>
            have hnone : (r.built x).refresh.grammar? = none :=
              RefreshCycle.built_abandoned _ _ _ hflag hmatch
            rw [hnone] at hg
            cases hg
        | ok result =>
            have houtcome := RefreshCycle.built_outcome x.bus x.input
              (RefreshCycle.begin r x.session x.options x.world) hflag hmatch
            have hgrammar : (r.built x).refresh.grammar? = (Grammar.outcome result).grammar? :=
              congrArg Grammar.Outcome.grammar? houtcome
            rw [hgrammar, Grammar.outcome] at hg
            split at hg
            · rename_i ns hns
              exact Grammar.Build.closed_ofResult (Grammar.compileResult_eq_ok hns) g
                (List.mem_of_mem_head? hg)
            · cases hg

theorem Coherent.cycle (h : r.Coherent) : (r.cycle x).refresh.Coherent := by
  have hbuilt : (r.built x).refresh.Coherent := h.built
  refine ⟨?_, fun g hg => hbuilt.closed g (cycle_grammar? r x ▸ hg)⟩
  rw [cycle_eq, RefreshCycle.retrace_generation, ← cycle_eq]
  rcases r.cycle_cases x with
    ⟨-, hends⟩ | ⟨g, start, -, -, ⟨l, hl, -, -, hends⟩ | ⟨e, -, hends⟩ | ⟨t, -, -, hends⟩⟩ <;>
    rw [hends.last?]
  · exact hbuilt.generation
  · exact hl ▸ hbuilt.generation
  · rintro l ⟨⟩
  · rintro l ⟨⟩
    rfl

theorem Coherent.step (h : r.Coherent) (op : Operation σ) : (r.step op).Coherent := by
  cases op with
  | markGrammar | markInput | decideDisplay | schedule => exact ⟨h.generation, h.closed⟩
  | cycle x => exact h.cycle

theorem coherent_after (ops : List (Operation σ)) : (after ops).Coherent :=
  holds_run (I := Coherent) ⟨nofun, nofun⟩ (fun _ op h _ => h.step op) not_sometime_false

/-! ## The trace that is kept -/

/-- A cycle makes the trace, from the start rule and an input of the version. -/
def Makes (start : String) (version : Nat) (t : Trace) (r : Refresh) (op : Operation σ) : Prop :=
  ∃ x, op = .cycle x ∧ (r.cycle x).report.traceExecuted = true ∧
    (r.cycle x).report.start? = some start ∧ x.input.inputVersion = version ∧
      (r.cycle x).refresh.trace? = some t

/-- A cycle processes a change of the grammar, or makes a trace, or gives up a match. -/
def Discards (r : Refresh) (op : Operation σ) : Prop :=
  ∃ x, op = .cycle x ∧ ((r.cycle x).report.flags.grammar = true ∨
    (r.cycle x).report.traceExecuted = true ∨ (r.cycle x).report.matchError?.isSome = true)

/-- The last trace is this one, and was made from these. -/
def Keeps (start : String) (version : Nat) (t : Trace) (r : Refresh) : Prop :=
  ∃ l, r.last? = some l ∧ l.start = start ∧ l.inputVersion = version ∧ l.trace = t

theorem Ends.discards {executed reused : Bool} {last? : Option TraceRecord}
    {matchError? : Option MatchError} (h : r.Ends x executed reused last? matchError?) :
    r.Discards (.cycle x) ↔
      r.dirty.grammar = true ∨ executed = true ∨ matchError?.isSome = true := by
  rw [← h.executed, ← h.matchError?, ← cycle_flags r x]
  constructor
  · rintro ⟨x, ⟨⟩, hdiscards⟩
    exact hdiscards
  · exact fun hdiscards => ⟨x, rfl, hdiscards⟩

theorem Ends.not_makes {reused : Bool} {last? : Option TraceRecord}
    {matchError? : Option MatchError} (h : r.Ends x false reused last? matchError?)
    {start : String} {version : Nat} {t : Trace} : ¬ r.Makes start version t (.cycle x) := by
  rintro ⟨x, ⟨⟩, hmade, -⟩
  rw [h.executed] at hmade
  cases hmade

/-- A cycle that makes no trace and gives up no match of the input goes by the grammar alone. -/
theorem Ends.keeps_of_not_executed {reused : Bool}
    (h : r.Ends x false reused (r.built x).refresh.last? (r.built x).report.matchError?)
    {start : String} {version : Nat} {t : Trace} :
    (r.cycle x).refresh.Keeps start version t ↔
      r.Makes start version t (.cycle x) ∨
        r.Keeps start version t ∧ ¬ r.Discards (.cycle x) := by
  have hdiscards : r.Discards (.cycle x) ↔ r.dirty.grammar = true := by
    rw [h.discards, built_matchError?]
    cases r.dirty.grammar <;> simp
  rw [Keeps, h.last?, built_last?, Keeps, hdiscards, or_iff_right h.not_makes]
  cases r.dirty.grammar <;> simp

theorem keeps_step {start : String} {version : Nat} {t : Trace} (r : Refresh) (op : Operation σ) :
    (r.step op).Keeps start version t ↔
      r.Makes start version t op ∨ r.Keeps start version t ∧ ¬ r.Discards op := by
  have hother (hop : ∀ x, op ≠ .cycle x) (hlast : (r.step op).last? = r.last?) :
      (r.step op).Keeps start version t ↔
        r.Makes start version t op ∨ r.Keeps start version t ∧ ¬ r.Discards op := by
    have hmakes : ¬ r.Makes start version t op := fun ⟨x, heq, _⟩ => hop x heq
    have hdiscards : ¬ r.Discards op := fun ⟨x, heq, _⟩ => hop x heq
    rw [Keeps, Keeps, hlast]
    simp [hmakes, hdiscards]
  cases op with
  | markGrammar | markInput | decideDisplay | schedule => exact hother nofun rfl
  | cycle x =>
      change (r.cycle x).refresh.Keeps start version t ↔ _
      rcases r.cycle_cases x with
        ⟨-, hends⟩ | ⟨g, start', -, -, ⟨l, hl, -, -, hends⟩ | ⟨e, -, hends⟩ |
          ⟨t', -, hstart, hends⟩⟩
      · exact hends.keeps_of_not_executed
      · exact (hl ▸ hends).keeps_of_not_executed
      · have hnot : ¬ (r.cycle x).refresh.Keeps start version t := by
          rw [Keeps, hends.last?]
          simp
        have hdiscards : r.Discards (.cycle x) := hends.discards.mpr (.inr (.inr rfl))
        exact iff_of_false hnot (not_or.mpr ⟨hends.not_makes, fun h => h.2 hdiscards⟩)
      · have hdiscards : r.Discards (.cycle x) := hends.discards.mpr (.inr (.inl rfl))
        rw [or_iff_left fun h => h.2 hdiscards, Keeps, hends.last?]
        constructor
        · rintro ⟨l, ⟨⟩, rfl, rfl, rfl⟩
          exact ⟨x, rfl, hends.executed, hstart, rfl, by rw [trace?, hends.last?]; rfl⟩
        · rintro ⟨x, ⟨⟩, -, hstart', rfl, htrace⟩
          rw [hstart] at hstart'
          rw [trace?, hends.last?] at htrace
          exact ⟨_, rfl, Option.some.inj hstart', rfl, Option.some.inj htrace⟩

/-- What is kept is told by the run. -/
theorem keeps_after (ops : List (Operation σ)) {start : String} {version : Nat} {t : Trace} :
    (after ops).Keeps start version t ↔
      Since step Discards (Makes start version t) .initial ops := by
  refine since_iff (I := fun _ => True) trivial (fun _ _ _ _ => trivial) ?_
    (fun r op _ _ => keeps_step r op) not_sometime_false
  rintro ⟨l, ⟨⟩, -⟩

/-! ## What a cycle tells and reports -/

section

variable (r x)

/-- The cycle has a grammar, and a start rule to trace the input from. -/
def Starts (g : Grammar) (start : String) : Prop :=
  (r.cycle x).refresh.grammar? = some g ∧ g.resolveStart x.input.selection = some start

/-- The events that a cycle is to tell of, in order. -/
def announced : List EditorEvent :=
  (if r.dirty.input then [.inputChanged x.input.inputSource] else []) ++
    (if r.dirty.grammar then
      .grammarChanged x.input.grammarSource :: match (x.session.matchRule none).1 with
        | .ok result => [.grammarParsed result (r.cycle x).refresh.grammar?
            (r.cycle x).refresh.grammarError?]
        | .error _ => []
    else []) ++ ((r.cycle x).presented?.map .inputParsed).toList

theorem emitted_tells (hb : x.bus.Standard) :
    (RefreshCycle.begin r x.session x.options (x.world, [])).Tells x.bus (r.announced x)
      (r.recordedCycle x) := by
  set d := RefreshCycle.begin r x.session x.options (x.world, []) with hd
  have hplain : (r.recordedCycle x).plain = r.cycle x := RefreshCycle.run_plain hb d
  have hbuilt : (d.built x.bus.recording x.input).plain = r.built x := RefreshCycle.built_plain hb d
  have hgrammar : (d.built x.bus.recording x.input).refresh.grammar? =
      (r.cycle x).refresh.grammar? := by
    rw [cycle_grammar?, ← hbuilt, RefreshCycle.plain]
  have herror : (d.built x.bus.recording x.input).refresh.grammarError? =
      (r.cycle x).refresh.grammarError? := by
    rw [cycle_eq, RefreshCycle.retrace_grammarError?, ← hbuilt, RefreshCycle.plain]
  have hpresented : ((d.built x.bus.recording x.input).retrace x.bus.recording x.input).presented? =
      (r.cycle x).presented? := by
    rw [← hplain]
    rfl
  have hearly := RefreshCycle.built_tells hb d (i := x.input)
  have hlate := RefreshCycle.retrace_tells hb (d.built x.bus.recording x.input) (i := x.input) (by
    rw [RefreshCycle.built_executed, RefreshCycle.built_reused]
    rfl)
  rw [hgrammar, herror] at hearly
  rw [hpresented] at hlate
  exact hearly.trans hlate

/-- A cycle tells of a trace if it presents one. -/
theorem mem_announced {t : Trace} :
    .inputParsed t ∈ r.announced x ↔ (r.cycle x).presented? = some t := by
  unfold announced
  cases r.dirty.input <;> cases r.dirty.grammar <;> cases (x.session.matchRule none).1 <;>
    simp [eq_comm]

theorem cycle_rebuilt : (r.cycle x).report.grammarRebuilt = r.dirty.grammar := by
  rw [cycle_eq, RefreshCycle.retrace_rebuilt]
  exact RefreshCycle.built_rebuilt _ _ _ rfl

variable {r x}

theorem Starts.of_built {g : Grammar} {start : String}
    (hg : (r.built x).refresh.grammar? = some g)
    (hstart : g.resolveStart x.input.selection = some start) : r.Starts x g start :=
  ⟨cycle_grammar? r x ▸ hg, hstart⟩

theorem Starts.unique {g g' : Grammar} {start start' : String} (h : r.Starts x g start)
    (h' : r.Starts x g' start') : g = g' ∧ start = start' := by
  obtain rfl : g = g' := Option.some.inj (h.1.symm.trans h'.1)
  exact ⟨rfl, Option.some.inj (h.2.symm.trans h'.2)⟩

theorem Starts.not_startless {g : Grammar} {start : String} (h : r.Starts x g start) :
    ¬ (r.built x).Startless x.input := by
  intro hstartless
  have hnone := hstartless g (cycle_grammar? r x ▸ h.1)
  rw [h.2] at hnone
  cases hnone

theorem Starts.isTooDeep {g : Grammar} {start text : String} {e : MatchError} (hr : r.Coherent)
    (h : r.Starts x g start) (htrace : g.trace text (some start) = .error e) : e.IsTooDeep :=
  Grammar.isTooDeep_of_trace ((hr.cycle.closed g h.1).resolveStart h.2) htrace

/-- The trace is given up unless it is there. -/
theorem Starts.not_givenUp {g : Grammar} {start text : String} (hr : r.Coherent)
    (h : r.Starts x g start) :
    ¬ Match.GivenUp (g.trace text (some start)) ↔ ∃ t, g.trace text (some start) = .ok t := by
  cases htrace : g.trace text (some start) with
  | error e => simpa [Match.GivenUp] using h.isTooDeep hr htrace
  | ok t => simp [Match.GivenUp]

/-- A cycle makes a trace or uses the last one again, not both; then it presents one, from the start
rule that it has. -/
theorem presents_iff (hr : r.Coherent) :
    ((r.cycle x).report.traceExecuted && (r.cycle x).report.traceReused) = false ∧
      ((r.cycle x).presented?.isSome =
        ((r.cycle x).report.traceExecuted ^^ (r.cycle x).report.traceReused)) ∧
      ((r.cycle x).presented?.isSome = true ↔ ∃ g start, r.Starts x g start ∧
        ((r.cycle x).report.traceReused = true ∨
          ¬ Match.GivenUp (g.trace x.input.inputSource (some start)))) := by
  unfold RefreshCycle.presented? trace?
  rcases r.cycle_cases x with
    ⟨hstartless, hends⟩ | ⟨g, start, hg, hstart, ⟨l, -, -, -, hends⟩ | ⟨e, htrace, hends⟩ |
      ⟨t, htrace, -, hends⟩⟩ <;>
    simp only [hends.executed, hends.reused, hends.last?]
  · have hnot : ¬ ∃ g start, r.Starts x g start ∧ (false = true ∨
        ¬ Match.GivenUp (g.trace x.input.inputSource (some start))) :=
      fun ⟨g, start, hstarts, _⟩ => hstarts.not_startless hstartless
    exact ⟨rfl, rfl, iff_of_false nofun hnot⟩
  · exact ⟨rfl, rfl, iff_of_true rfl ⟨g, start, .of_built hg hstart, .inl trivial⟩⟩
  · have hstarts : r.Starts x g start := .of_built hg hstart
    refine ⟨rfl, rfl, iff_of_false nofun ?_⟩
    rintro ⟨g', start', hstarts', hreused | hmade⟩
    · cases hreused
    · obtain ⟨rfl, rfl⟩ := hstarts.unique hstarts'
      exact hmade ⟨e, hstarts.isTooDeep hr htrace, htrace⟩
  · have hstarts : r.Starts x g start := .of_built hg hstart
    have hmade := (hstarts.not_givenUp hr).mpr ⟨t, htrace⟩
    exact ⟨rfl, rfl, iff_of_true rfl ⟨g, start, hstarts, .inr hmade⟩⟩

/-- The trace that a cycle makes is the one of the input. -/
theorem trace_of_executed (h : (r.cycle x).report.traceExecuted = true) :
    ∃ g start t, r.Starts x g start ∧ g.trace x.input.inputSource (some start) = .ok t ∧
      (r.cycle x).refresh.trace? = some t := by
  rcases r.cycle_cases x with
    ⟨-, hends⟩ | ⟨g, start, hg, hstart, ⟨l, -, -, -, hends⟩ | ⟨e, -, hends⟩ |
      ⟨t, htrace, -, hends⟩⟩
  · cases hends.executed.symm.trans h
  · cases hends.executed.symm.trans h
  · cases hends.executed.symm.trans h
  · exact ⟨g, start, t, .of_built hg hstart, htrace, by rw [trace?, hends.last?]; rfl⟩

/-- A trace is used again if no change of the grammar is processed, and the last trace that is kept
was made from the start rule and the version of the input. -/
theorem reused_iff (hr : r.Coherent) :
    (r.cycle x).report.traceReused = true ↔ r.dirty.grammar = false ∧
      ∃ g start t, r.Starts x g start ∧ (r.cycle x).refresh.trace? = some t ∧
        r.Keeps start x.input.inputVersion t := by
  have hlast := built_last? r x
  constructor
  · intro h
    rcases r.cycle_cases x with
      ⟨-, hends⟩ | ⟨g, start, hg, hstart, ⟨l, hl, hof, -, hends⟩ | ⟨e, -, hends⟩ | ⟨t, -, -, hends⟩⟩
    · cases hends.reused.symm.trans h
    · rw [hl] at hlast
      cases hflag : r.dirty.grammar with
      | true => simp [hflag] at hlast
      | false =>
          rw [hflag] at hlast
          refine ⟨rfl, g, start, l.trace, .of_built hg hstart, ?_, l, hlast.symm, ?_, ?_, rfl⟩
          · rw [trace?, hends.last?]
            rfl
          · rw [hof]
          · rw [hof]
    · cases hends.reused.symm.trans h
    · cases hends.reused.symm.trans h
  · rintro ⟨hflag, g, start, t, ⟨hg, hstart⟩, -, l, hl, rfl, hversion, -⟩
    rw [hflag, hl] at hlast
    have hof : l.isOf (r.built x).refresh.generation l.start x.input.inputVersion = true := by
      simp [TraceRecord.isOf, hr.built.generation l hlast, hversion]
    rw [cycle_grammar?] at hg
    rw [cycle_eq, RefreshCycle.retrace_of_last _ _ _ hg hstart hlast hof,
      RefreshCycle.present_reused]

/-- The error of a cycle is that of a match that was given up. -/
theorem matchError_iff (hr : r.Coherent) (hsession : x.session.grammar = Grammar.ofGrammars) :
    ((r.cycle x).report.matchError?.isSome = true ↔
      r.dirty.grammar = true ∧ Match.GivenUp (x.session.matchRule none).1 ∨
        ∃ g start, r.Starts x g start ∧ (r.cycle x).report.traceReused = false ∧
          Match.GivenUp (g.trace x.input.inputSource (some start))) ∧
      ∀ e, (r.cycle x).report.matchError? = some e → e.IsTooDeep := by
  have hbuilt : ((r.built x).report.matchError?.isSome = true ↔
      r.dirty.grammar = true ∧ Match.GivenUp (x.session.matchRule none).1) ∧
        ∀ e, (r.built x).report.matchError? = some e → e.IsTooDeep := by
    rw [built_matchError?]
    cases r.dirty.grammar with
    | false => simp
    | true =>
        cases hmatch : (x.session.matchRule none).1 with
        | error e => simpa [Match.GivenUp] using Match.Session.isTooDeep_of_matchRule hsession hmatch
        | ok result => simp [Match.GivenUp]
  rcases r.cycle_cases x with
    ⟨hstartless, hends⟩ | ⟨g, start, hg, hstart, ⟨l, -, -, -, hends⟩ | ⟨e, htrace, hends⟩ |
      ⟨t, htrace, -, hends⟩⟩ <;>
    rw [hends.matchError?, hends.reused]
  · refine ⟨?_, hbuilt.2⟩
    rw [hbuilt.1, or_iff_left]
    rintro ⟨g, start, hstarts, -⟩
    exact hstarts.not_startless hstartless
  · refine ⟨?_, hbuilt.2⟩
    rw [hbuilt.1, or_iff_left]
    rintro ⟨g, start, -, ⟨⟩, -⟩
  · have hstarts : r.Starts x g start := .of_built hg hstart
    have hdeep := hstarts.isTooDeep hr htrace
    refine ⟨iff_of_true rfl (.inr ⟨g, start, hstarts, rfl, e, hdeep, htrace⟩), ?_⟩
    rintro e' ⟨⟩
    exact hdeep
  · refine ⟨?_, hbuilt.2⟩
    rw [hbuilt.1, or_iff_left]
    rintro ⟨g', start', hstarts, -, e, -, herror⟩
    obtain ⟨rfl, rfl⟩ := hstarts.unique (.of_built hg hstart)
    cases htrace.symm.trans herror

end

/-- After whatever was done with a refresh, a cycle on a standard bus completes, and its report says
what was out of date and whether the grammar was built. It tells of the changed sources, of the
grammar unless its match was given up, and of the trace that it presents, if it has a start rule and
does not give up the match of the input; the failures of the handlers are those of these events. It
presents a trace exactly if it makes one or uses the last one again, never both. It uses one again
exactly if it processes no change of the grammar and the last trace that was made is of the same start
rule and version of the input, with no change of the grammar and no match that was given up since.
The error that it reports is there exactly if a match was given up, as it nested too deep. -/
theorem cycle_after (ops : List (Operation σ)) (x : RefreshContext σ) (hb : x.bus.Standard) :
    let r := after ops
    let c := r.cycle x
    (c.violation? = none ∧ (r.recordedCycle x).plain = c) ∧
      (c.report.flags = r.dirty ∧ c.report.grammarRebuilt = r.dirty.grammar) ∧
      r.emitted x =
        (if r.dirty.input then [.inputChanged x.input.inputSource] else []) ++
          (if r.dirty.grammar then
            .grammarChanged x.input.grammarSource :: match (x.session.matchRule none).1 with
              | .ok result => [.grammarParsed result c.refresh.grammar? c.refresh.grammarError?]
              | .error _ => []
          else []) ++ (c.presented?.map .inputParsed).toList ∧
      (c.report.handlerFailures = (x.bus.carry (r.emitted x) x.world).1.length ∧
        c.world = (x.bus.carry (r.emitted x) x.world).2) ∧
      ((∃ t, .inputParsed t ∈ r.emitted x) ↔ ∃ g start, r.Starts x g start ∧
        (c.report.traceReused = true ∨
          ¬ Match.GivenUp (g.trace x.input.inputSource (some start)))) ∧
      (((∃ t, .inputParsed t ∈ r.emitted x) ↔
          (c.report.traceExecuted ^^ c.report.traceReused) = true) ∧
        (c.report.traceExecuted && c.report.traceReused) = false) ∧
      (c.report.traceExecuted = true → ∃ g start t, r.Starts x g start ∧
        g.trace x.input.inputSource (some start) = .ok t ∧ c.refresh.trace? = some t) ∧
      (c.report.traceReused = true ↔ r.dirty.grammar = false ∧
        ∃ g start t, r.Starts x g start ∧ c.refresh.trace? = some t ∧
          Since step Discards (Makes start x.input.inputVersion t) .initial ops) ∧
      (c.report.matchError?.isSome = true ↔
        r.dirty.grammar = true ∧ Match.GivenUp (x.session.matchRule none).1 ∨
          ∃ g start, r.Starts x g start ∧ c.report.traceReused = false ∧
            Match.GivenUp (g.trace x.input.inputSource (some start))) ∧
      ∀ e, c.report.matchError? = some e → e.IsTooDeep := by
  intro r c
  have hr : r.Coherent := coherent_after ops
  have hplain : (r.recordedCycle x).plain = c := RefreshCycle.run_plain hb _
  have htells := r.emitted_tells x hb
  have hemitted : r.emitted x = r.announced x := htells.events
  have hreport : c.report = (r.recordedCycle x).report := by rw [← hplain, RefreshCycle.plain]
  have hworld : c.world = (r.recordedCycle x).world.1 := by rw [← hplain, RefreshCycle.plain]
  obtain ⟨hboth, hpresents, hstarts⟩ := presents_iff (x := x) hr
  have htold : (∃ t, .inputParsed t ∈ r.emitted x) ↔ c.presented?.isSome = true := by
    simp only [hemitted, mem_announced, Option.isSome_iff_exists]
    rfl
  refine ⟨⟨RefreshCycle.run_violation? hb _, hplain⟩, ⟨cycle_flags r x, cycle_rebuilt r x⟩,
    hemitted, ⟨?_, ?_⟩, htold.trans hstarts, ⟨htold.trans (by rw [hpresents]), hboth⟩,
    trace_of_executed, ?_, matchError_iff hr x.reads_grammars⟩
  · rw [hreport, htells.failures, hemitted]
    exact Nat.zero_add _
  · rw [hworld, htells.world, hemitted]
    rfl
  · simp only [← keeps_after]
    exact reused_iff hr

/-- A digit, to be traced from a rule that every grammar has. -/
def digitContext : RefreshContext Unit where
  bus := .new
  input := ⟨"G \x7b \x7d", "1", 1, some "digit"⟩
  session := (Match.Session.new Grammar.ofGrammars).setText "G \x7b \x7d"
  options := .empty
  world := ()
  reads_grammars := rfl

/-- The digit is traced. -/
def digitTraced : List (Operation Unit) :=
  [.markGrammar, .markInput, .cycle digitContext]

theorem cycle_after_digitTraced :
    ((after digitTraced).cycle digitContext).report.traceReused = true ∧
      ∃ start t, (after digitTraced).emitted digitContext = [.inputParsed t] ∧
        Since step Discards (Makes start 1 t) .initial digitTraced := by
  have hstate : ((after digitTraced).dirty.input, (after digitTraced).dirty.grammar,
      ((after digitTraced).cycle digitContext).report.traceReused) = (false, false, true) := by
    decide +kernel
  obtain ⟨hinput, hrest⟩ := Prod.mk.inj hstate
  obtain ⟨hgrammar, hreused⟩ := Prod.mk.inj hrest
  obtain ⟨-, -, hemitted, -, -, -, -, hreuse, -⟩ :=
    cycle_after digitTraced digitContext Bus.standard_new
  obtain ⟨-, g, start, t, -, htrace, hsince⟩ := hreuse.mp hreused
  have hpresented : ((after digitTraced).cycle digitContext).presented? = some t := by
    rw [RefreshCycle.presented?, hreused, Bool.or_true, if_pos rfl, htrace]
  refine ⟨hreused, start, t, ?_, hsince⟩
  rw [hemitted, hinput, hgrammar, hpresented]
  rfl

end Refresh

end Pegboard
