import Pegboard.Proofs.Bus
import Pegboard.Proofs.Workbench

/-!
# Edits of a workbench

The session that matches the grammar source has a text of its own, which is edited apart from the
document. Whatever is done to a workbench, and whatever its bus answers, the two texts are the same
afterwards. The version of a document only grows, and tells which text the document has: a text that
comes back has another version.

An edit that is refused leaves the workbench as it was, and tells nobody.

Main statement: `Workbench.edits_after`.
-/

namespace Pegboard

open Match

namespace Document

/-! ## Versions -/

/-- The document became the other one by changes, and no version of it had two texts. -/
structure Grows (d d' : Document) : Prop where
  version_le : d.version ≤ d'.version
  text_eq : d.version = d'.version → d.text = d'.text

variable {d d' d'' : Document} {start stop : Nat} {text : String}

theorem Grows.refl (d : Document) : d.Grows d :=
  ⟨Nat.le_refl _, fun _ => rfl⟩

theorem Grows.trans (h : d.Grows d') (h' : d'.Grows d'') : d.Grows d'' where
  version_le := h.version_le.trans h'.version_le
  text_eq := by
    intro heq
    have hle := h.version_le
    have hle' := h'.version_le
    exact (h.text_eq (by omega)).trans (h'.text_eq (by omega))

/-- Whatever the text becomes, a later version may have it. -/
theorem Grows.of_lt (h : d.version < d'.version) : d.Grows d' where
  version_le := h.le
  text_eq := fun heq => absurd heq h.ne

theorem grows_setText (d : Document) (text : String) : d.Grows (d.setText text) := by
  obtain ⟨-, heq⟩ | ⟨-, heq⟩ := d.setText_eq text
  · rw [heq]
    exact .refl d
  · rw [heq]
    exact .of_lt (Nat.lt_succ_self _)

theorem grows_replaceRange (h : d.replaceRange start stop text = .ok d') : d.Grows d' := by
  have hversion := (replaceRange_eq_ok h).2
  exact .of_lt (by omega)

theorem grows_apply {c : Change} {e : Text.Edit} (h : d.apply c = .ok (e, d')) : d.Grows d' :=
  grows_replaceRange (apply_eq_ok h).2

end Document

namespace Workbench

variable {σ τ : Type}

/-- Both documents became those of the other workbench. -/
structure Grows (w w' : Workbench σ τ) : Prop where
  grammar : w.grammarDoc.Grows w'.grammarDoc
  input : w.inputDoc.Grows w'.inputDoc

variable {w w' w'' : Workbench σ τ}

theorem Grows.refl (w : Workbench σ τ) : w.Grows w :=
  ⟨.refl _, .refl _⟩

theorem Grows.trans (h : w.Grows w') (h' : w'.Grows w'') : w.Grows w'' :=
  ⟨h.grammar.trans h'.grammar, h.input.trans h'.input⟩

/-! ## Edits -/

/-- An edit of one of the two texts. -/
inductive Edit
  | grammar (c : Change)
  | grammarRange (start stop : Nat) (text : String)
  | input (c : Change)
  | inputRange (start stop : Nat) (text : String)

/-- What an edit is answered, and the workbench behind it. -/
def edit (w : Workbench σ τ) (now : Nat) : Edit → Except WorkbenchError Unit × Workbench σ τ
  | .grammar c => w.editGrammar now c
  | .grammarRange start stop text => w.editGrammarRange now start stop text
  | .input c => w.editInput now c
  | .inputRange start stop text => w.editInputRange now start stop text

/-- The workbench with a handler on its editor bus that writes the events down. Edits know no other
bus. -/
def recorded (w : Workbench σ τ) : Workbench (σ × List EditorEvent) τ :=
  { w with
    editorBus := w.editorBus.recording
    semanticsBus := .new
    exampleBus := .new
    world := (w.world, []) }

/-- The events that an edit emits. -/
def emitted (w : Workbench σ τ) (now : Nat) (e : Edit) : List EditorEvent :=
  (w.recorded.edit now e).2.world.2

/-- What the bus answers is no refusal of an edit. -/
theorem afterEdit_ne (answer : Except BusError Unit × Workbench σ τ) (cause : Text.EditError) :
    (afterEdit answer).1 ≠ .error (.edit cause) := by
  obtain ⟨_ | ⟨⟩, w⟩ := answer <;> nofun

/-- The edit does not fit its text, which is that of the session if it is one of the grammar
source. -/
def Refuses (w : Workbench σ τ) (cause : Text.EditError) : Edit → Prop
  | .grammar c => w.session.follow w.grammarDoc c = .error cause
  | .grammarRange start stop text => w.session.replaceRange start stop text = .error cause
  | .input c => w.inputDoc.apply c = .error cause
  | .inputRange start stop text => w.inputDoc.replaceRange start stop text = .error cause

theorem refuses_recorded (w : Workbench σ τ) (cause : Text.EditError) (e : Edit) :
    w.recorded.Refuses cause e ↔ w.Refuses cause e := by
  cases e <;> rfl

section

variable {now : Nat} {e : Edit} {cause : Text.EditError}

/-- An edit is refused with nothing changed, or made, and then the bus answers. -/
theorem edit_cases (htext : w.session.text = w.grammarDoc.text) (now : Nat) (e : Edit) :
    (∃ cause, w.Refuses cause e ∧ w.edit now e = (.error (.edit cause), w)) ∨
      (∀ cause, ¬ w.Refuses cause e) ∧
        ∃ answer, w.edit now e = afterEdit answer ∧ w.Grows answer.2 := by
  cases e with
  | grammar c =>
      rcases editGrammar_cases htext now c with h | ⟨e, session, d, hfollow, happly, -, heq⟩
      · exact .inl h
      · refine .inr ⟨fun _ h => (nomatch hfollow.symm.trans h), _, heq, ?_⟩
        exact ⟨Document.grows_apply happly, .refl _⟩
  | grammarRange start stop text =>
      rcases editGrammarRange_cases htext now start stop text with
        h | ⟨session, d, hsession, hdoc, -, heq⟩
      · exact .inl h
      · refine .inr ⟨fun _ h => (nomatch hsession.symm.trans h), _, heq, ?_⟩
        exact ⟨Document.grows_replaceRange hdoc, .refl _⟩
  | input c =>
      simp only [Refuses, edit, editInput]
      cases happly : w.inputDoc.apply c with
      | error cause => exact .inl ⟨cause, rfl, rfl⟩
      | ok made =>
          refine .inr ⟨nofun, _, rfl, ?_⟩
          exact ⟨.refl _, Document.grows_apply happly⟩
  | inputRange start stop text =>
      simp only [Refuses, edit, editInputRange]
      cases hdoc : w.inputDoc.replaceRange start stop text with
      | error cause => exact .inl ⟨cause, rfl, rfl⟩
      | ok d =>
          refine .inr ⟨nofun, _, rfl, ?_⟩
          exact ⟨.refl _, Document.grows_replaceRange hdoc⟩

/-- Whether an edit is refused does not depend on the bus, and nothing is done then. -/
theorem edit_refused (htext : w.session.text = w.grammarDoc.text)
    (h : (w.edit now e).1 = .error (.edit cause)) :
    (w.edit now e).2 = w ∧ (w.recorded.edit now e).2 = w.recorded := by
  rcases edit_cases htext now e with ⟨cause', hrefuses, heq⟩ | ⟨-, answer, heq, -⟩
  · refine ⟨congrArg (·.2) heq, ?_⟩
    rcases edit_cases (w := w.recorded) htext now e with ⟨_, -, heq'⟩ | ⟨hnot, -⟩
    · exact congrArg (·.2) heq'
    · exact absurd ((w.refuses_recorded cause' e).mpr hrefuses) (hnot cause')
  · exact absurd ((congrArg (·.1) heq).symm.trans h) (afterEdit_ne answer cause)

end

/-! ## Documents over a run -/

theorem grows_edit (h : w.Follows) (now : Nat) (e : Edit) : w.Grows (w.edit now e).2 := by
  rcases edit_cases h.text now e with ⟨_, -, heq⟩ | ⟨-, answer, heq, hgrows⟩
  · rw [heq]
    exact .refl w
  · rw [heq]
    exact hgrows

section

variable [Store Id τ]

/-- A refresh changes no document. -/
theorem grows_refreshNow (w : Workbench σ τ) : w.Grows (w.refreshNow (m := Id)).2 := by
  have hcycle : w.Grows w.runCycle.2 := by
    rw [runCycle_eq]
    exact ⟨.refl _, .refl _⟩
  unfold refreshNow
  generalize w.runCycle = answer at hcycle
  obtain ⟨_ | report, w'⟩ := answer
  · exact hcycle
  · show w.Grows (w'.save (m := Id) report.flags.grammar)
    unfold save
    obtain ⟨hgrammar, hinput⟩ := hcycle
    cases report.flags.grammar with
    | true => exact ⟨hgrammar, hinput⟩
    | false => exact ⟨hgrammar, hinput⟩

theorem grows_refreshIf (w : Workbench σ τ) (condition : Bool) :
    w.Grows (w.refreshIf (m := Id) condition).2 := by
  unfold refreshIf
  cases condition with
  | true => exact w.grows_refreshNow
  | false => exact .refl w

theorem grows_step (h : w.Follows) (op : Operation σ τ) : w.Grows (w.step op) := by
  cases op with
  | restore now => exact ⟨Document.grows_setText _ _, Document.grows_setText _ _⟩
  | setGrammarSource now text =>
      unfold step setGrammarSource
      dsimp only
      split
      · exact .refl w
      · exact ⟨Document.grows_setText _ _, .refl _⟩
  | setInputSource now text =>
      unfold step setInputSource
      dsimp only
      split
      · exact .refl w
      · exact ⟨.refl _, Document.grows_setText _ _⟩
  | editGrammar now c => exact grows_edit h now (.grammar c)
  | editGrammarRange now start stop text => exact grows_edit h now (.grammarRange start stop text)
  | editInput now c => exact grows_edit h now (.input c)
  | editInputRange now start stop text => exact grows_edit h now (.inputRange start stop text)
  | setOption | setStartRule | replaceBus | outside => exact ⟨.refl _, .refl _⟩
  | poll now => exact w.grows_refreshIf _
  | flush => exact w.grows_refreshIf _
  | refreshNow => exact w.grows_refreshNow

theorem grows_run (h : w.Follows) (ops : List (Operation σ τ)) :
    w.Grows (ops.foldl step w) := by
  induction ops generalizing w with
  | nil => exact .refl w
  | cons op ops ih => exact (grows_step h op).trans (ih (h.step op))

/-- After whatever happened to a workbench, the session has the grammar source for its text; from
there on the versions of both documents never fall, and a version that is still there later has the
text that it had; and an edit that is refused leaves the whole workbench as it is and emits no
event. -/
theorem edits_after (config : Config) (store : τ) (world : σ) (ops : List (Operation σ τ)) :
    let w := after config store world ops
    w.session.text = w.grammarSource ∧
      (∀ more, w.Grows (after config store world (ops ++ more))) ∧
      ∀ now e cause, (w.edit now e).1 = .error (.edit cause) →
        (w.edit now e).2 = w ∧ w.emitted now e = [] := by
  intro w
  have h : w.Follows := follows_after config store world ops
  refine ⟨h.text, fun more => ?_, fun now e cause hrefused => ?_⟩
  · unfold after
    rw [List.foldl_append]
    exact grows_run h more
  · obtain ⟨hsame, hrecorded⟩ := edit_refused h.text hrefused
    refine ⟨hsame, ?_⟩
    unfold emitted
    rw [hrecorded]
    rfl

/-- A grammar source with a character of two bytes, an edit behind it that is made, and one inside it
that is refused. -/
def accentEdits : List (Operation Unit MemoryStore) :=
  [.setGrammarSource 0 "\u00e9", .editGrammarRange 0 2 2 "!", .editGrammarRange 0 1 2 ""]

theorem edits_after_accent :
    let w := after Config.standard (MemoryStore.ofList []) () accentEdits
    let e : Edit := .grammarRange 1 3 "?"
    w.session.text = "\u00e9!" ∧ (w.edit 0 e).2 = w ∧ w.emitted 0 e = [] := by
  intro w e
  have hstate : (w.grammarSource, (w.edit 0 e).1) =
      ("\u00e9!", .error (.edit (.notCharBoundary 1))) := by
    decide +kernel
  obtain ⟨hsource, hedit⟩ := Prod.mk.inj hstate
  obtain ⟨htext, -, hrefused⟩ :=
    edits_after Config.standard (MemoryStore.ofList []) () accentEdits
  exact ⟨htext.trans hsource, hrefused 0 e _ hedit⟩

end

end Workbench

end Pegboard
