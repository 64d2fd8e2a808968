import Pegboard.Proofs.Match.Outcomes

/-!
# Matches with a trace and without

A match that keeps a trace goes the same way as one that keeps none. The two differ in the nodes
they carry along, in the log and in the entries of the table, and nothing is ever decided by a
node: to forget the nodes and go on comes to the same as to go on and forget them (`Forgets`). Each
way of combining evaluations has its lemma, the rounds of a growing seed included, so that nothing
has to be known of the grammar.

Main statement: `Grammar.matchText_eq_trace`.
-/

namespace Pegboard

namespace Match

/-! ## Forgetting traces -/

def Setting.untraced (set : Setting) : Setting :=
  { set with tracing := false }

def Entry.untraced : Entry → Entry
  | .growing seed? _ read => .growing seed? none read
  | .settled s => .settled { s with trace? := none }

def Slot.untraced (slot : Slot) : Slot :=
  slot.map fun (rule, e) => (rule, e.untraced)

theorem Entry.examined_untraced (e : Entry) : e.untraced.examined = e.examined := by
  cases e <;> rfl

def Place.untraced (p : Place) : Place where
  entries := p.entries.untraced
  reach := p.reach
  bounded x hx := by
    obtain ⟨y, hy, rfl⟩ := List.mem_map.mp hx
    exact Nat.le_trans (Nat.le_of_eq (Entry.examined_untraced y.2)) (p.bounded y hy)

def Memo.untraced (m : Memo) : Memo :=
  ⟨m.slots.map Place.untraced⟩

def Log.untraced (log : Log) : Log :=
  { log with trace := [] }

def Outcome.untraced (out : Outcome) : Outcome :=
  ⟨out.cursor?, out.log.untraced, out.memo.untraced⟩

namespace Slot

theorem lookup_untraced (slot : Slot) (rule : String) :
    List.lookup rule slot.untraced = (List.lookup rule slot).map Entry.untraced := by
  induction slot with
  | nil => rfl
  | cons entry rest ih =>
      obtain ⟨r, e⟩ := entry
      rw [untraced] at ih
      simp only [untraced, List.map_cons, List.lookup_cons]
      cases rule == r
      · exact ih
      · rfl

theorem untraced_put (rule : String) (e : Entry) (slot : Slot) :
    (put rule e slot).untraced = put rule e.untraced slot.untraced := by
  induction slot with
  | nil => rfl
  | cons entry rest ih =>
      obtain ⟨r, old⟩ := entry
      rw [untraced, untraced] at ih
      simp only [untraced, put, List.map_cons]
      cases r == rule
      · simp [ih]
      · rfl

theorem untraced_drop (rule : String) (slot : Slot) :
    (drop rule slot).untraced = drop rule slot.untraced := by
  induction slot with
  | nil => rfl
  | cons entry rest ih =>
      obtain ⟨r, old⟩ := entry
      rw [untraced, untraced] at ih
      simp only [untraced, drop, List.map_cons]
      cases r == rule
      · simp [ih]
      · rfl

end Slot

namespace Place

theorem untraced_put (rule : String) (e : Entry) (p : Place) :
    (put rule e p).untraced = put rule e.untraced p.untraced := by
  simp only [untraced, put, mk.injEq, Entry.examined_untraced, and_true]
  exact Slot.untraced_put rule e p.entries

theorem untraced_drop (rule : String) (p : Place) :
    (drop rule p).untraced = drop rule p.untraced := by
  simp only [untraced, drop, mk.injEq, and_true]
  exact Slot.untraced_drop rule p.entries

end Place

namespace Memo

variable (m : Memo) (pos : Nat) (rule : String) (e : Entry)

@[simp] theorem untraced_blank (size : Nat) : (blank size).untraced = blank size := by
  simp [untraced, blank, Place.untraced, Place.blank, Slot.untraced]

@[simp] theorem find?_untraced :
    m.untraced.find? pos rule = (m.find? pos rule).map Entry.untraced := by
  rw [find?, find?, ← Slot.lookup_untraced, untraced]
  congr 1
  simp only [entriesAt, Array.getD_eq_getD_getElem?, Array.getElem?_map]
  cases m.slots[pos]? <;> rfl

/-- To change one place and forget the traces is to forget them and make the change without. -/
theorem untraced_modify {f f' : Place → Place} (h : ∀ p, (f p).untraced = f' p.untraced) :
    untraced ⟨m.slots.modify pos f⟩ = ⟨m.untraced.slots.modify pos f'⟩ := by
  simp only [untraced, mk.injEq]
  refine Array.ext_getElem? fun i => ?_
  simp only [Array.getElem?_map, Array.getElem?_modify]
  split
  · simp [Function.comp_def, h]
  · rfl

@[simp] theorem untraced_put :
    (m.put pos rule e).untraced = m.untraced.put pos rule e.untraced :=
  m.untraced_modify pos (Place.untraced_put rule e)

@[simp] theorem untraced_drop : (m.drop pos rule).untraced = m.untraced.drop pos rule :=
  m.untraced_modify pos (Place.untraced_drop rule)

end Memo

namespace Log

variable (log : Log)

@[simp] theorem failures_untraced : log.untraced.failures = log.failures := rfl
@[simp] theorem reach_untraced : log.untraced.reach = log.reach := rfl
@[simp] theorem heads_untraced : log.untraced.heads = log.heads := rfl
@[simp] theorem untraced_start (pos : Nat) : (start pos).untraced = start pos := rfl
@[simp] theorem untraced_untraced : log.untraced.untraced = log.untraced := rfl

@[simp] theorem untraced_note (tracing : Bool) (n : Trace.Node) :
    (log.note tracing n).untraced = log.untraced := by
  cases tracing <;> rfl

@[simp] theorem note_false (n : Trace.Node) : log.note false n = log := rfl

@[simp] theorem untraced_markSpaces : log.markSpaces.untraced = log.untraced := by
  rw [markSpaces]
  split <;> rfl

@[simp] theorem markSpaces_untraced : log.untraced.markSpaces = log.untraced := rfl

end Log

/-! ## Evaluations that forget -/

/-- Without traces the second evaluation does what the first one does. -/
def Forgets (e e' : Evaluation) : Prop :=
  ∀ c log memo, e' c log.untraced memo.untraced = (e c log memo).map Outcome.untraced

open Evaluation

section

variable {set : Setting} {e e' first first' second second' : Evaluation}

theorem any_forgets : Forgets (any set) (any set.untraced) := by
  intro c log memo
  simp only [any, Setting.untraced]
  split <;> rfl

theorem range_forgets (lo hi : Char) : Forgets (range set lo hi) (range set.untraced lo hi) := by
  intro c log memo
  rw [range, range, show set.untraced.input = set.input from rfl]
  cases set.input.rest c.pos with
  | nil => rfl
  | cons ch rest => by_cases h : lo ≤ ch ∧ ch ≤ hi <;> simp only [h, if_false] <;> rfl

theorem terminal_forgets (s : String) : Forgets (terminal set s) (terminal set.untraced s) := by
  intro c log memo
  rw [terminal, terminal, show set.untraced.input = set.input from rfl]
  split <;> rfl

theorem endOfInput_forgets : Forgets (endOfInput set) (endOfInput set.untraced) := by
  intro c log memo
  rw [endOfInput, endOfInput, show set.untraced.input = set.input from rfl]
  split <;> rfl

theorem andThen_forgets (h₁ : Forgets first first') (h₂ : Forgets second second') :
    Forgets (first.andThen second) (first'.andThen second') := by
  intro c log memo
  rw [Evaluation.andThen, Evaluation.andThen, h₁ c log memo]
  rcases first c log memo with _ | ⟨_ | c', log', memo'⟩
  · rfl
  · rfl
  · exact h₂ c' log' memo'

theorem orElse_forgets (h₁ : Forgets first first') (h₂ : Forgets second second') :
    Forgets (first.orElse second) (first'.orElse second') := by
  intro c log memo
  rw [Evaluation.orElse, Evaluation.orElse, h₁ c log memo]
  rcases first c log memo with _ | ⟨_ | c', log', memo'⟩
  · rfl
  · exact h₂ c log' memo'
  · rfl

theorem not_forgets (expr : Expr) (h : Forgets e e') :
    Forgets (Evaluation.not expr e) (Evaluation.not expr e') := by
  intro c log memo
  have := h c { log with failures := ∅ } memo
  rw [Evaluation.not, Evaluation.not, show { log.untraced with failures := ∅ } =
    Log.untraced { log with failures := ∅ } from rfl, this]
  rcases e c { log with failures := ∅ } memo with _ | ⟨_ | c', log', memo'⟩ <;> rfl

theorem look_forgets (h : Forgets e e') : Forgets (look e) (look e') := by
  intro c log memo
  rw [look, look, h c log memo]
  rcases e c log memo with _ | ⟨c?, log', memo'⟩ <;> rfl

theorem traced_forgets (expr : Expr) (h : Forgets e e') :
    Forgets (traced set expr e) (traced set.untraced expr e') := by
  intro c log memo
  rw [traced, traced, if_neg (by simp [Setting.untraced])]
  split
  · -- the nodes below are collected apart, and forgotten all the same
    rw [show log.untraced = Log.untraced { log with trace := [] } from rfl,
      h c { log with trace := [] } memo]
    rcases e c { log with trace := [] } memo with _ | ⟨c?, log', memo'⟩ <;> rfl
  · exact h c log memo

theorem rounds_forgets (h : Forgets e e') (n : Nat) (matched : Bool) :
    Forgets (rounds e n matched) (rounds e' n matched) := by
  induction n generalizing matched with
  | zero =>
      intro c log memo
      rfl
  | succ n ih =>
      intro c log memo
      simp only [rounds]
      rw [h c log memo]
      rcases e c log memo with _ | ⟨_ | c', log', memo'⟩
      · rfl
      · rfl
      · simp only [Option.map_some, Outcome.untraced]
        split
        · rfl
        · exact ih true c' log' memo'

theorem iter_forgets (op : Repeat) (h : Forgets e e') :
    Forgets (iter set op e) (iter set.untraced op e') := by
  intro c log memo
  have hrounds := rounds_forgets h (roundLimit set op c.pos) (op != .plus) ⟨c.pos, []⟩ log memo
  have hlimit : roundLimit set.untraced op c.pos = roundLimit set op c.pos := rfl
  rw [iter, iter, hlimit, hrounds]
  rcases rounds e (roundLimit set op c.pos) (op != .plus) ⟨c.pos, []⟩ log memo with
    _ | ⟨_ | c', log', memo'⟩ <;> rfl

variable {apply apply' : String → Evaluation}

theorem skipSpaces_forgets (happly : ∀ q, Forgets (apply q) (apply' q)) :
    Forgets (skipSpaces apply) (skipSpaces apply') := by
  intro c log memo
  have := happly "spaces" c { log with failures := ∅ } memo
  rw [skipSpaces, skipSpaces, show { log.untraced with failures := ∅ } =
    Log.untraced { log with failures := ∅ } from rfl, this]
  rcases apply "spaces" c { log with failures := ∅ } memo with _ | ⟨c?, log', memo'⟩
  · rfl
  · simp only [Option.map_some, Outcome.untraced, Log.untraced_markSpaces]
    rfl

theorem spaced_forgets (happly : ∀ q, Forgets (apply q) (apply' q)) (skip : Bool)
    (h : Forgets e e') : Forgets (spaced apply skip e) (spaced apply' skip e') := by
  cases skip with
  | false => exact h
  | true => exact andThen_forgets (skipSpaces_forgets happly) h

mutual

theorem ofExpr_forgets (happly : ∀ q, Forgets (apply q) (apply' q)) (syntactic : Bool) :
    ∀ e : Expr, Forgets (ofExpr set apply syntactic e) (ofExpr set.untraced apply' syntactic e)
  | .any => by
      rw [ofExpr, ofExpr]
      exact spaced_forgets happly _ (traced_forgets _ any_forgets)
  | .endOfInput => by
      rw [ofExpr, ofExpr]
      exact spaced_forgets happly _ (traced_forgets _ endOfInput_forgets)
  | .terminal s => by
      rw [ofExpr, ofExpr]
      exact spaced_forgets happly _ (traced_forgets _ (terminal_forgets s))
  | .range lo hi => by
      rw [ofExpr, ofExpr]
      exact spaced_forgets happly _ (traced_forgets _ (range_forgets lo hi))
  | .apply rule => by
      rw [ofExpr, ofExpr]
      exact spaced_forgets happly _ (happly rule)
  | .alt es => by
      rw [ofExpr, ofExpr]
      exact traced_forgets _ (ofChoices_forgets happly syntactic es)
  | .seq es => by
      rw [ofExpr, ofExpr]
      exact traced_forgets _ (ofParts_forgets happly syntactic es)
  | .iter op e => by
      rw [ofExpr, ofExpr]
      exact traced_forgets _ (iter_forgets op (ofExpr_forgets happly syntactic e))
  | .not e => by
      rw [ofExpr, ofExpr]
      exact traced_forgets _ (not_forgets e (ofExpr_forgets happly syntactic e))
  | .look e => by
      rw [ofExpr, ofExpr]
      exact traced_forgets _ (look_forgets (ofExpr_forgets happly syntactic e))
  | .lex e => by
      rw [ofExpr, ofExpr]
      exact traced_forgets _ (ofExpr_forgets happly false e)

theorem ofChoices_forgets (happly : ∀ q, Forgets (apply q) (apply' q)) (syntactic : Bool) :
    ∀ es : List Expr,
      Forgets (ofChoices set apply syntactic es) (ofChoices set.untraced apply' syntactic es)
  | [] => by
      intro c log memo
      rfl
  | e :: es => by
      rw [ofChoices, ofChoices]
      exact orElse_forgets (ofExpr_forgets happly syntactic e)
        (ofChoices_forgets happly syntactic es)

theorem ofParts_forgets (happly : ∀ q, Forgets (apply q) (apply' q)) (syntactic : Bool) :
    ∀ es : List Expr,
      Forgets (ofParts set apply syntactic es) (ofParts set.untraced apply' syntactic es)
  | [] => by
      intro c log memo
      rfl
  | e :: es => by
      rw [ofParts, ofParts]
      exact andThen_forgets (ofExpr_forgets happly syntactic e)
        (ofParts_forgets happly syntactic es)

end

end

/-! ## Rule applications -/

/-- Rounds without their traces, with the log and the table that they left. -/
def Round.untraced : Round × Log × Memo → Round × Log × Memo
  | (r, log, memo) => (⟨r.tree?, []⟩, log.untraced, memo.untraced)

section

variable {set : Setting} {body body' : Evaluation} {rule : String} {pos : Nat}

theorem reuse_untraced (set : Setting) (frames : List Frame) (rule : String) (entry : Entry)
    (c : Cursor) (log : Log) (memo : Memo) :
    reuse set.untraced frames rule entry.untraced c log.untraced memo.untraced =
      (reuse set frames rule entry c log memo).untraced := by
  cases entry with
  | growing seed? trace? read =>
      simp only [reuse, Entry.untraced, Outcome.untraced, Setting.untraced, Log.untraced_note,
        Log.note_false, Memo.untraced_put]
      rfl
  | settled s =>
      simp only [reuse, Entry.untraced, Outcome.untraced, Setting.untraced, Log.untraced_note,
        Log.note_false]
      rfl

theorem round_untraced (h : Forgets body body') (log : Log) (memo : Memo) :
    Evaluation.round rule pos body' log.untraced memo.untraced =
      (Evaluation.round rule pos body log memo).map Round.untraced := by
  rw [Evaluation.round, Evaluation.round, show { log.untraced with trace := [] } =
    Log.untraced { log with trace := [] } from rfl, h ⟨pos, []⟩ { log with trace := [] } memo]
  rcases body ⟨pos, []⟩ { log with trace := [] } memo with _ | ⟨c?, log', memo'⟩ <;> rfl

theorem grow_untraced (h : Forgets body body') (n : Nat) (best : Tree) (trace : List Trace.Node)
    (log : Log) (memo : Memo) :
    grow set.untraced rule pos body' n best [] log.untraced memo.untraced =
      (grow set rule pos body n best trace log memo).map Round.untraced := by
  induction n generalizing best trace log memo with
  | zero => rfl
  | succ n ih =>
      have hput : ∀ trace?, (memo.untraced.put pos rule (.growing (some best) none true)) =
          (memo.put pos rule (.growing (some best) trace? true)).untraced := by
        intro trace?
        rw [Memo.untraced_put, Entry.untraced]
      rw [grow, grow]
      simp only [Setting.untraced, Bool.false_eq_true, if_false]
      rw [hput, round_untraced h]
      rcases Evaluation.round rule pos body log _ with _ | ⟨⟨_ | t, trace'⟩, log', memo'⟩
      · rfl
      · rfl
      · simp only [Option.map_some, Round.untraced]
        split
        · rfl
        · exact ih t trace' log' memo'

theorem seedRead_untraced (memo : Memo) (pos : Nat) (rule : String) :
    seedRead memo.untraced pos rule = seedRead memo pos rule := by
  rw [seedRead, seedRead, Memo.find?_untraced]
  rcases memo.find? pos rule with _ | _ | _ <;> rfl

theorem settle_untraced (h : Forgets body body') (memo : Memo) :
    settle set.untraced rule pos body' memo.untraced =
      (settle set rule pos body memo).map Round.untraced := by
  have hfirst : Evaluation.round rule pos body' _ _ = _ :=
    round_untraced h (.start pos) (memo.put pos rule (.growing none none false))
  rw [Memo.untraced_put, Log.untraced_start, Entry.untraced] at hfirst
  rw [settle, settle, hfirst]
  rcases Evaluation.round rule pos body (.start pos) _ with _ | ⟨⟨_ | t, trace⟩, log', memo'⟩
  · rfl
  · rfl
  · simp only [Option.map_some, Round.untraced, seedRead_untraced]
    split
    · exact grow_untraced h _ t trace log' memo'
    · rfl

theorem work_forgets (rule : Rule) (h : Forgets body body') :
    Forgets (work set rule body) (work set.untraced rule body') := by
  intro c log memo
  rw [work, work, settle_untraced h]
  rcases settle set rule.name c.pos body memo with _ | ⟨⟨tree?, trace⟩, inner, memo'⟩
  · rfl
  · simp only [Option.map_some, Round.untraced, Outcome.untraced, Log.untraced_note,
      Setting.untraced, Log.note_false]
    -- the outcome is kept or not, for the same reason
    by_cases hdropped : 2 ≤ inner.heads
    · have hdropped' : 2 ≤ inner.untraced.heads := hdropped
      simp only [if_pos hdropped, if_pos hdropped', Memo.untraced_drop]
      rfl
    · have hdropped' : ¬ 2 ≤ inner.untraced.heads := hdropped
      simp only [if_neg hdropped, if_neg hdropped', Memo.untraced_put]
      rfl

theorem ofRule_forgets (set : Setting) (depth : Nat) (frames : List Frame) (name : String) :
    Forgets (ofRule set depth frames name) (ofRule set.untraced depth frames name) := by
  induction depth generalizing frames name with
  | zero =>
      intro c log memo
      rw [ofRule, ofRule, show set.untraced.grammar = set.grammar from rfl]
      cases set.grammar.rule? name with
      | none => rfl
      | some rule =>
          simp only [Memo.find?_untraced]
          cases memo.find? c.pos rule.name with
          | none => rfl
          | some entry => exact congrArg some (reuse_untraced set frames rule.name entry c log memo)
  | succ depth ih =>
      intro c log memo
      rw [ofRule, ofRule, show set.untraced.grammar = set.grammar from rfl]
      cases set.grammar.rule? name with
      | none => rfl
      | some rule =>
          simp only [Memo.find?_untraced]
          cases memo.find? c.pos rule.name with
          | none =>
              simp only [Option.map_none, descend_eq]
              exact work_forgets rule (ofExpr_forgets (fun q => ih _ q) _ rule.body) c log memo
          | some entry => exact congrArg some (reuse_untraced set frames rule.name entry c log memo)

end

/-! ## Matches -/

def Answer.untraced (a : Answer) : Answer :=
  { a with trace := { a.trace with children := [] } }

/-- A match that keeps no trace comes to what one with a trace does, the nodes apart. -/
theorem run_untraced (set : Setting) (limit : Nat) (start : String) (memo : Memo) :
    run set.untraced limit start memo.untraced =
      (run set limit start memo).map fun (a, memo) => (a.untraced, memo.untraced) := by
  have happly := ofRule_forgets set limit []
  have hhere : Forgets (fun c log memo => some ⟨some c, log, memo⟩)
      (fun c log memo => some ⟨some c, log, memo⟩) := fun _ _ _ => rfl
  have hspaces := spaced_forgets happly (isSyntactic start) hhere ⟨0, []⟩ (.start 0) memo
  have hend : Forgets (ofExpr set _ _ .endOfInput) _ :=
    ofExpr_forgets happly (isSyntactic start) .endOfInput
  have hwhole := andThen_forgets (happly start) hend
  rw [Log.untraced_start] at hspaces
  rw [run, run, hspaces]
  rcases spaced (ofRule set limit []) (isSyntactic start)
    (fun c log memo => some ⟨some c, log, memo⟩) ⟨0, []⟩ (.start 0) memo with
    _ | ⟨c?, log', memo'⟩
  · rfl
  · simp only [Option.map_some, Outcome.untraced]
    rw [hwhole (c?.getD ⟨0, []⟩) log' memo']
    rcases (ofRule set limit [] start).andThen _ (c?.getD ⟨0, []⟩) log' memo' with
      _ | ⟨c'?, log'', memo''⟩ <;> rfl

end Match

namespace Grammar

open Match

variable (g : Grammar) (text : String) (start? : Option String)

/-- A match without a trace has an answer exactly if one with a trace does, and the same one but for
the trace. -/
theorem answer_untraced :
    (g.answer false text start?).map (·.1) = (g.answer true text start?).map (·.1) := by
  rw [answer, answer]
  cases g.startRule start? with
  | error e => simp only [bind, Except.bind, Except.map]
  | ok rule =>
      have h := run_untraced ⟨g, .ofString text, true⟩ nestingLimit rule.name
        (.blank (Text.Input.ofString text).size)
      rw [Memo.untraced_blank, Setting.untraced] at h
      simp only [bind, Except.bind, h]
      rcases run ⟨g, .ofString text, true⟩ nestingLimit rule.name
        (.blank (Text.Input.ofString text).size) with _ | ⟨a, memo⟩ <;> rfl

theorem answer_succeeded {tracing : Bool} {r : Match.Result} {root : Trace.Node}
    (h : g.answer tracing text start? = .ok (r, root)) : root.succeeded = r.succeeded := by
  rw [answer] at h
  cases hstart : g.startRule start? with
  | error e =>
      rw [hstart] at h
      cases h
  | ok rule =>
      simp only [hstart, bind, Except.bind] at h
      rcases hrun : run ⟨g, .ofString text, tracing⟩ nestingLimit rule.name
        (.blank (Text.Input.ofString text).size) with _ | ⟨a, memo⟩
      · rw [hrun] at h
        cases h
      · rw [hrun] at h
        cases h
        exact run_succeeded hrun

/-- To match a text is to trace it and keep the result: both come to the same error, or to the same
result in every field. The root of the trace tells whether the match succeeded. -/
theorem matchText_eq_trace :
    g.matchText text start? = (g.trace text start?).map (·.result) ∧
      ∀ t, g.trace text start? = .ok t → t.root.succeeded = t.result.succeeded := by
  have h := g.answer_untraced text start?
  rw [matchText, h, trace]
  cases hanswer : g.answer true text start? with
  | error e => exact ⟨rfl, by simp [Except.map]⟩
  | ok out =>
      obtain ⟨r, root⟩ := out
      refine ⟨rfl, fun t ht => ?_⟩
      cases ht
      exact g.answer_succeeded text start? hanswer

end Grammar

end Pegboard
