import Pegboard.Workbench
import Pegboard.Proofs.Grammar.Source
import Pegboard.Proofs.Refresh

/-!
# Runs of a workbench

A workbench keeps what follows from its sources up to date by three decisions not to work: a grammar
that did not change is not built again, a match of the grammar source begins with what the last one
left in the table, and a trace is made again only if the grammar, the start rule or the version of
the input is another one. Whatever was done before, and whatever happened to the bus, its handlers
and the store meanwhile, these decisions are right: `Follows` is what makes them so, and every
operation preserves it.

Main statement: `runCycle_after`.
-/

namespace Pegboard

open Match

/-! ## Grammar and trace of the sources -/

namespace Refresh

/-- The grammar is the one that a match of the source from scratch comes to, if that does not nest too
deep; and so is what is wrong with it. -/
def GrammarOf (r : Refresh) (source : String) : Prop :=
  ∀ result, Grammar.ofGrammars.matchText source none = .ok result →
    (⟨r.grammar?, r.grammarError?⟩ : Grammar.Outcome) = Grammar.outcome result

/-- There is a trace of no later version of the input than the one at hand, and one of this version
is the trace that the grammar gives. -/
def TraceOf (r : Refresh) (input : Document) : Prop :=
  ∀ l, r.last? = some l → l.inputVersion ≤ input.version ∧
    ∃ g, r.grammar? = some g ∧
      (l.inputVersion = input.version → g.trace input.text (some l.start) = .ok l.trace)

/-- A version of the input that has not been there yet has no trace. -/
theorem TraceOf.edit {r : Refresh} {d d' : Document} (h : r.TraceOf d)
    (hversion : d.version < d'.version) : r.TraceOf d' := by
  intro l hl
  obtain ⟨hle, g, hg, -⟩ := h l hl
  exact ⟨by omega, g, hg, fun heq => by omega⟩

/-- A cycle for the input keeps its trace, or gives it up, or makes one of the grammar at hand. -/
theorem TraceOf.retrace {σ : Type} {c : RefreshCycle σ} {i : RefreshInput} {d : Document}
    (h : c.refresh.TraceOf d) (bus : Bus EditorEvent σ) (hversion : i.inputVersion = d.version)
    (hsource : i.inputSource = d.text) : (c.retrace bus i).refresh.TraceOf d := by
  intro l hl
  rw [RefreshCycle.retrace_grammar?]
  rcases c.retrace_cases bus i with
    ⟨-, heq⟩ | ⟨g, start, hg, -, ⟨l', -, -, heq⟩ | ⟨e, -, heq⟩ | ⟨t, ht, heq⟩⟩
  · rw [heq] at hl
    exact h l hl
  · rw [heq, RefreshCycle.present_last?] at hl
    exact h l hl
  · rw [heq] at hl
    cases hl
  · rw [heq, RefreshCycle.present_last?] at hl
    obtain rfl := Option.some.inj hl
    rw [hsource] at ht
    exact ⟨hversion.le, g, hg, fun _ => ht⟩

end Refresh

namespace Workbench

variable {σ τ : Type}

/-! ## Runs -/

/-- What can happen to a workbench. Besides what is asked of it, its bus may be replaced by another one,
with other handlers or none, and the state of the handlers and the store may change. -/
inductive Operation (σ τ : Type)
  | restore (now : Nat)
  | setGrammarSource (now : Nat) (text : String)
  | setInputSource (now : Nat) (text : String)
  | editGrammar (now : Nat) (c : Change)
  | editGrammarRange (now start stop : Nat) (text : String)
  | editInput (now : Nat) (c : Change)
  | editInputRange (now start stop : Nat) (text : String)
  | setOption (now : Nat) (name : String) (value : Bool)
  | setStartRule (now : Nat) (rule? : Option String)
  | poll (now : Nat)
  | flush
  | refreshNow
  | replaceBus (bus : Bus EditorEvent σ)
  | outside (world : σ) (store : τ)

/-- The workbench after an operation, whether or not all of it was done. -/
def step [Store Id τ] (w : Workbench σ τ) : Operation σ τ → Workbench σ τ
  | .restore now => w.restore (m := Id) now
  | .setGrammarSource now text => (w.setGrammarSource now text).2
  | .setInputSource now text => (w.setInputSource now text).2
  | .editGrammar now c => (w.editGrammar now c).2
  | .editGrammarRange now start stop text => (w.editGrammarRange now start stop text).2
  | .editInput now c => (w.editInput now c).2
  | .editInputRange now start stop text => (w.editInputRange now start stop text).2
  | .setOption now name value => (w.setOption now name value).2
  | .setStartRule now rule? => w.setStartRule now rule?
  | .poll now => (w.poll (m := Id) now).2
  | .flush => (w.flush (m := Id)).2
  | .refreshNow => (w.refreshNow (m := Id)).2
  | .replaceBus bus => { w with editorBus := bus }
  | .outside world store => { w with world := world, store := store }

/-- A workbench that began without sources, after some operations. -/
def after [Store Id τ] (config : Config) (store : τ) (world : σ) (ops : List (Operation σ τ)) :
    Workbench σ τ :=
  ops.foldl step (.new config store world)

/-- The refresh cycle that the workbench would run now. -/
def cycle (w : Workbench σ τ) : RefreshCycle σ :=
  (RefreshCycle.begin w.refresh w.session w.options w.world).run w.editorBus w.refreshInput

/-- This cycle before it comes to the trace. -/
def built (w : Workbench σ τ) : RefreshCycle σ :=
  (RefreshCycle.begin w.refresh w.session w.options w.world).built w.editorBus w.refreshInput

theorem cycle_eq (w : Workbench σ τ) : w.cycle = w.built.retrace w.editorBus w.refreshInput :=
  rfl

/-- What a refresh comes to, and the workbench behind it. -/
theorem runCycle_eq (w : Workbench σ τ) :
    w.runCycle =
      (match w.cycle.violation? with
        | some e => .error (.refresh e)
        | none => .ok w.cycle.report,
        { w with
          refresh := w.cycle.refresh
          session := w.cycle.session
          options := w.cycle.options
          world := w.cycle.world }) := by
  unfold runCycle cycle
  dsimp only
  split <;> simp_all

/-! ## Edits of the grammar source

An edit of the grammar source is made twice, in the session and in the document. While they have the
same text, the one cannot be refused where the other is made. -/

section

variable {w : Workbench σ τ} (htext : w.session.text = w.grammarDoc.text)

include htext

/-- An edit of the grammar source is refused with nothing changed, or made in the session and in the
document, which still have the same text then. -/
theorem editGrammar_cases (now : Nat) (c : Change) :
    (∃ e, w.session.follow w.grammarDoc c = .error e ∧
        w.editGrammar now c = (.error (.edit e), w)) ∨
      ∃ e session d, w.session.follow w.grammarDoc c = .ok (e, session) ∧
        w.grammarDoc.apply c = .ok (e, d) ∧ session.text = d.text ∧
        w.editGrammar now c =
          afterEdit ({ w with session := session, grammarDoc := d }.grammarEdited now) := by
  unfold editGrammar
  cases hfollow : w.session.follow w.grammarDoc c with
  | error e => exact .inl ⟨e, rfl, rfl⟩
  | ok made =>
      obtain ⟨e, session⟩ := made
      obtain ⟨d, hd⟩ := Document.apply_of_resolve (Session.follow_eq_ok hfollow).1
      refine .inr ⟨e, session, d, rfl, hd, Session.follow_text htext hfollow hd, ?_⟩
      simp only [hd]

theorem editGrammarRange_cases (now start stop : Nat) (text : String) :
    (∃ e, w.session.replaceRange start stop text = .error e ∧
        w.editGrammarRange now start stop text = (.error (.edit e), w)) ∨
      ∃ session d, w.session.replaceRange start stop text = .ok session ∧
        w.grammarDoc.replaceRange start stop text = .ok d ∧ session.text = d.text ∧
        w.editGrammarRange now start stop text =
          afterEdit ({ w with session := session, grammarDoc := d }.grammarEdited now) := by
  unfold editGrammarRange
  cases hsession : w.session.replaceRange start stop text with
  | error e => exact .inl ⟨e, rfl, rfl⟩
  | ok session =>
      have hedit := Session.replaceRange_text hsession
      rw [htext] at hedit
      have hd := Document.replaceRange_of_text hedit
      exact .inr ⟨session, _, rfl, hd, rfl, by simp only [hd]⟩

end

/-! ## Following the sources -/

/-- What holds of a workbench between its operations: the session has the grammar source for its
text, a grammar whose source did not change is the one of this source, and so with the trace. -/
structure Follows (w : Workbench σ τ) : Prop where
  session : w.session.Holds .ofGrammars
  text : w.session.text = w.grammarDoc.text
  grammar : w.refresh.dirty.grammar = false → w.refresh.GrammarOf w.grammarDoc.text
  trace : w.refresh.TraceOf w.inputDoc

theorem follows_new (config : Config) (store : τ) (world : σ) :
    (new config store world).Follows where
  session := Session.holds_new _
  text := Text.Input.text_ofString ""
  grammar := by
    intro _ result hresult
    have hempty : (Grammar.ofGrammars.matchText "" none).toOption.map (fun r =>
        ((Grammar.outcome r).grammar?.isNone, (Grammar.outcome r).error?.isNone)) =
          some (true, true) := by
      decide +kernel
    obtain ⟨result', hresult', heq⟩ := toOption_map_eq_some hempty
    obtain rfl : result' = result := Except.ok.inj (hresult'.symm.trans hresult)
    obtain ⟨hgrammar, herror⟩ := Prod.mk.inj heq
    rw [Option.isNone_iff_eq_none] at hgrammar herror
    show (⟨none, none⟩ : Grammar.Outcome) = Grammar.outcome result'
    rw [← hgrammar, ← herror]
  trace := by
    intro l hl
    cases hl

/-! ### Edits -/

section

variable {w : Workbench σ τ} (h : w.Follows)

include h

/-- A change of the grammar source, which the session follows. -/
theorem Follows.grammarEdited {now : Nat} {d : Document} {session : Session}
    (hsession : session.Holds .ofGrammars) (htext : session.text = d.text) :
    ({ w with grammarDoc := d, session := session }.grammarEdited now).2.Follows where
  session := hsession
  text := htext
  grammar := fun hclean => absurd hclean (by simp [Workbench.grammarEdited, announce, schedule,
    Refresh.schedule, Refresh.markGrammar])
  trace := h.trace

/-- A change of the input, which moves its version on. -/
theorem Follows.inputEdited {now : Nat} {d : Document}
    (hversion : w.inputDoc.version < d.version) :
    ({ w with inputDoc := d }.inputEdited now).2.Follows where
  session := h.session
  text := h.text
  grammar := h.grammar
  trace := h.trace.edit hversion

theorem Follows.setGrammarSource (now : Nat) (text : String) :
    (w.setGrammarSource now text).2.Follows := by
  unfold Workbench.setGrammarSource
  split
  · exact h
  · exact h.grammarEdited (h.session.setText text) (by simp)

theorem Follows.setInputSource (now : Nat) (text : String) :
    (w.setInputSource now text).2.Follows := by
  unfold Workbench.setInputSource
  split
  · exact h
  · rename_i hne
    obtain ⟨heq, -⟩ | ⟨-, heq⟩ := w.inputDoc.setText_eq text
    · exact absurd heq hne
    · exact h.inputEdited (by rw [heq]; exact Nat.lt_succ_self _)

theorem Follows.editGrammar (now : Nat) (c : Change) : (w.editGrammar now c).2.Follows := by
  rcases editGrammar_cases h.text now c with
    ⟨_, -, heq⟩ | ⟨_, _, _, hfollow, -, htext, heq⟩
  · rw [heq]
    exact h
  · rw [heq]
    exact h.grammarEdited (h.session.follow Grammar.acyclic_ofGrammars.loopsOnly hfollow) htext

theorem Follows.editGrammarRange (now start stop : Nat) (text : String) :
    (w.editGrammarRange now start stop text).2.Follows := by
  rcases editGrammarRange_cases h.text now start stop text with
    ⟨_, -, heq⟩ | ⟨_, _, hsession, -, htext, heq⟩
  · rw [heq]
    exact h
  · rw [heq]
    exact h.grammarEdited
      (h.session.replaceRange Grammar.acyclic_ofGrammars.loopsOnly hsession) htext

theorem Follows.editInput (now : Nat) (c : Change) : (w.editInput now c).2.Follows := by
  unfold Workbench.editInput
  split
  · rename_i happly
    have hversion := (Document.replaceRange_eq_ok (Document.apply_eq_ok happly).2).2
    exact h.inputEdited (by omega)
  · exact h

theorem Follows.editInputRange (now start stop : Nat) (text : String) :
    (w.editInputRange now start stop text).2.Follows := by
  unfold Workbench.editInputRange
  split
  · rename_i hdoc
    have hversion := (Document.replaceRange_eq_ok hdoc).2
    exact h.inputEdited (by omega)
  · exact h

theorem Follows.setOption (now : Nat) (name : String) (value : Bool) :
    (w.setOption now name value).2.Follows := by
  unfold Workbench.setOption
  split
  · exact ⟨h.session, h.text, h.grammar, h.trace⟩
  · exact ⟨h.session, h.text, h.grammar, h.trace⟩

theorem Follows.setStartRule (now : Nat) (rule? : Option String) :
    (w.setStartRule now rule?).Follows :=
  ⟨h.session, h.text, h.grammar, h.trace⟩

/-- Sources from the store mark the grammar as changed, even if they are those that are there. -/
theorem Follows.takeSources (now : Nat) (grammar input : String) :
    (w.takeSources now grammar input).Follows where
  session := h.session.setText grammar
  text := by
    unfold Workbench.takeSources schedule
    simp
  grammar := fun hclean => absurd hclean (by simp [Workbench.takeSources, schedule,
    Refresh.schedule, Refresh.markGrammar, Refresh.markInput])
  trace := by
    show w.refresh.TraceOf (w.inputDoc.setText input)
    obtain ⟨-, heq⟩ | ⟨-, heq⟩ := w.inputDoc.setText_eq input
    · rw [heq]
      exact h.trace
    · rw [heq]
      exact h.trace.edit (Nat.lt_succ_self _)

/-! ### Refreshes -/

/-- The cycle before it comes to the trace has the grammar of the source, and no trace of another
one. -/
theorem Follows.built :
    w.built.session.Holds .ofGrammars ∧ w.built.session.text = w.grammarDoc.text ∧
      w.built.refresh.GrammarOf w.grammarDoc.text ∧ w.built.refresh.TraceOf w.inputDoc := by
  have hsession : w.built.session =
      if w.refresh.dirty.grammar then (w.session.matchRule none).2 else w.session :=
    RefreshCycle.built_session _ _ _
  have hlast : w.built.refresh.last? = if w.refresh.dirty.grammar then none else w.refresh.last? :=
    RefreshCycle.built_last? _ _ _
  cases hflag : w.refresh.dirty.grammar with
  | true =>
      rw [hflag, if_pos rfl] at hsession hlast
      refine ⟨?_, ?_, ?_, ?_⟩
      · rw [hsession]
        exact h.session.matchRule Grammar.acyclic_ofGrammars.loopsOnly none
      · rw [hsession, Session.matchRule_text, h.text]
      · intro result hresult
        rw [← h.text] at hresult
        exact RefreshCycle.built_outcome _ _ _ hflag (h.session.matchRule_ofGrammars hresult)
      · intro l hl
        rw [hlast] at hl
        cases hl
  | false =>
      rw [hflag] at hsession hlast
      obtain ⟨hgrammar, herror⟩ : w.built.refresh.grammar? = w.refresh.grammar? ∧
          w.built.refresh.grammarError? = w.refresh.grammarError? :=
        RefreshCycle.built_of_clean _ _ _ hflag
      refine ⟨?_, ?_, ?_, ?_⟩
      · rw [hsession]
        exact h.session
      · rw [hsession]
        exact h.text
      · intro result hresult
        rw [hgrammar, herror]
        exact h.grammar hflag result hresult
      · intro l hl
        rw [hlast] at hl
        rw [hgrammar]
        exact h.trace l hl

theorem Follows.cycle :
    w.cycle.session.Holds .ofGrammars ∧ w.cycle.session.text = w.grammarDoc.text ∧
      w.cycle.refresh.GrammarOf w.grammarDoc.text ∧ w.cycle.refresh.TraceOf w.inputDoc := by
  obtain ⟨hsession, htext, hgrammar, htrace⟩ := h.built
  rw [cycle_eq, RefreshCycle.retrace_session]
  refine ⟨hsession, htext, ?_, htrace.retrace _ rfl rfl⟩
  intro result hresult
  rw [RefreshCycle.retrace_grammar?, RefreshCycle.retrace_grammarError?]
  exact hgrammar result hresult

/-- The trace of a cycle that made one or used one again: that of the grammar and the input at hand,
from the start rule that the selection resolves to. -/
def Traced (w : Workbench σ τ) (r : Refresh) : Prop :=
  ∃ g start t, r.grammar? = some g ∧ g.resolveStart w.selection? = some start ∧
    g.trace w.inputDoc.text (some start) = .ok t ∧ r.trace? = some t

theorem Follows.traced
    (hreport : w.cycle.report.traceExecuted = true ∨ w.cycle.report.traceReused = true) :
    w.Traced w.cycle.refresh := by
  obtain ⟨-, -, -, htrace⟩ := h.built
  -- a cycle begins with a report of no trace
  have hexecuted : w.built.report.traceExecuted = false := RefreshCycle.built_executed _ _ _
  have hreused : w.built.report.traceReused = false := RefreshCycle.built_reused _ _ _
  have hnone : ¬ (w.built.report.traceExecuted = true ∨ w.built.report.traceReused = true) := by
    simp [hexecuted, hreused]
  rw [cycle_eq] at hreport ⊢
  rcases w.built.retrace_cases w.editorBus w.refreshInput with
    ⟨-, heq⟩ | ⟨g, start, hg, hstart, ⟨l, hl, hkey, heq⟩ | ⟨e, -, heq⟩ | ⟨t, ht, heq⟩⟩
  · rw [heq] at hreport
    exact absurd hreport hnone
  · -- the last trace is that of the grammar, the start rule and the version at hand
    obtain ⟨-, g', hg', htraced⟩ := htrace l hl
    obtain rfl : g = g' := Option.some.inj (hg.symm.trans hg')
    rw [hkey] at htraced
    refine ⟨g, start, l.trace, ?_, hstart, htraced rfl, ?_⟩
    · rw [RefreshCycle.retrace_grammar?, hg]
    · rw [heq, Refresh.trace?, RefreshCycle.present_last?, hl]
      rfl
  · rw [heq] at hreport
    exact absurd hreport hnone
  · refine ⟨g, start, t, ?_, hstart, ht, ?_⟩
    · rw [RefreshCycle.retrace_grammar?, hg]
    · rw [heq, Refresh.trace?, RefreshCycle.present_last?]
      rfl

theorem Follows.runCycle : w.runCycle.2.Follows := by
  obtain ⟨hsession, htext, hgrammar, htrace⟩ := h.cycle
  rw [runCycle_eq]
  exact ⟨hsession, htext, fun _ => hgrammar, htrace⟩

variable [Store Id τ]

theorem Follows.refreshNow : (w.refreshNow (m := Id)).2.Follows := by
  have hcycle := h.runCycle
  unfold Workbench.refreshNow
  generalize w.runCycle = answer at hcycle
  obtain ⟨_ | report, w'⟩ := answer
  · exact hcycle
  · -- only the store is another one
    show (w'.save (m := Id) report.flags.grammar).Follows
    unfold save
    obtain ⟨hsession, htext, hgrammar, htrace⟩ := hcycle
    cases report.flags.grammar with
    | true => exact ⟨hsession, htext, hgrammar, htrace⟩
    | false => exact ⟨hsession, htext, hgrammar, htrace⟩

theorem Follows.refreshIf (condition : Bool) :
    (w.refreshIf (m := Id) condition).2.Follows := by
  unfold Workbench.refreshIf
  cases condition with
  | true => exact h.refreshNow
  | false => exact h

/-- Every operation preserves that the derived state follows the sources. -/
theorem Follows.step (op : Operation σ τ) : (w.step op).Follows := by
  cases op with
  | restore now => exact h.takeSources now _ _
  | setGrammarSource now text => exact h.setGrammarSource now text
  | setInputSource now text => exact h.setInputSource now text
  | editGrammar now c => exact h.editGrammar now c
  | editGrammarRange now start stop text => exact h.editGrammarRange now start stop text
  | editInput now c => exact h.editInput now c
  | editInputRange now start stop text => exact h.editInputRange now start stop text
  | setOption now name value => exact h.setOption now name value
  | setStartRule now rule? => exact h.setStartRule now rule?
  | poll now => exact h.refreshIf _
  | flush => exact h.refreshIf _
  | refreshNow => exact h.refreshNow
  | replaceBus bus => exact ⟨h.session, h.text, h.grammar, h.trace⟩
  | outside world store => exact ⟨h.session, h.text, h.grammar, h.trace⟩

end

theorem follows_after [Store Id τ] (config : Config) (store : τ) (world : σ)
    (ops : List (Operation σ τ)) : (after config store world ops).Follows := by
  have run : ∀ w : Workbench σ τ, w.Follows → (ops.foldl step w).Follows := by
    induction ops with
    | nil => exact fun w h => h
    | cons op ops ih => exact fun w h => ih _ (h.step op)
  exact run _ (follows_new config store world)

/-- After whatever happened to a workbench, a refresh leaves the grammar that the source comes to
when it is matched from scratch, unless it nests too deep, and what is wrong with it; and if the
refresh made a trace or used the last one again, the trace is that of this grammar and the input at
hand. -/
theorem runCycle_after [Store Id τ] (config : Config) (store : τ) (world : σ)
    (ops : List (Operation σ τ)) :
    let w := after config store world ops
    let w' := w.runCycle.2
    (w.runCycle.1 = .ok w.cycle.report ∨ ∃ e, w.runCycle.1 = .error (.refresh e)) ∧
      (∀ r, Grammar.ofGrammars.matchText w.grammarDoc.text none = .ok r →
        w'.refresh.grammar? = (Grammar.outcome r).grammar? ∧
          w'.refresh.grammarError? = (Grammar.outcome r).error?) ∧
      (w.cycle.report.traceExecuted = true ∨ w.cycle.report.traceReused = true →
        ∃ g start t, w'.refresh.grammar? = some g ∧ g.resolveStart w.selection? = some start ∧
          g.trace w.inputDoc.text (some start) = .ok t ∧ w'.refresh.trace? = some t) := by
  intro w w'
  have h : w.Follows := follows_after config store world ops
  obtain ⟨-, -, hgrammar, -⟩ := h.cycle
  have heq : w'.refresh = w.cycle.refresh := congrArg (·.2.refresh) w.runCycle_eq
  refine ⟨?_, fun r hr => ?_, ?_⟩
  · rw [runCycle_eq]
    cases w.cycle.violation? with
    | none => exact .inl rfl
    | some e => exact .inr ⟨e, rfl⟩
  · rw [heq, ← hgrammar r hr]
    exact ⟨rfl, rfl⟩
  · intro hreport
    rw [heq]
    exact h.traced hreport

end Workbench

end Pegboard
