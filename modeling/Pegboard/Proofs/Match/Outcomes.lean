import Mathlib.Tactic.Common
import Pegboard.Grammar.Match

/-!
# Where outcomes come from

What an evaluation that came to something was made up of: which evaluations it began, and what each
of them came to. There is one lemma for each way of combining evaluations, which says all that can
have happened, and `run_eq_some` for a whole match. An application that matches reads one tree
(`ofRule_push`), and so does a match.
-/

namespace Pegboard.Match

open Evaluation

/-- The evaluation reads the text itself: one piece of it, if any, and no rule is applied. -/
def Evaluation.Reads (e : Evaluation) : Prop :=
  ∀ c log memo out, e c log memo = some out → out.memo = memo ∧ out.log.trace = log.trace ∧
    ∀ c', out.cursor? = some c' → c' = c ∨ ∃ n, c' = c.push (.terminal n)

/-- The tree of an entry, be it settled or a seed. -/
def Entry.tree? : Entry → Option Tree
  | .growing seed? _ _ => seed?
  | .settled s => s.tree?

def Entry.trace? : Entry → Option Trace.Node
  | .growing _ trace? _ => trace?
  | .settled s => s.trace?

namespace Evaluation

variable {set : Setting} {apply : String → Evaluation} {e first second : Evaluation} {c : Cursor}
  {log log' : Log} {memo memo' : Memo} {out : Outcome}

/-! ## Reading the text -/

theorem any_reads (set : Setting) : (any set).Reads := by
  intro c log memo out h
  rw [any] at h
  split at h
  · cases h
    exact ⟨rfl, rfl, by rintro _ ⟨⟩⟩
  · cases h
    exact ⟨rfl, rfl, fun _ hc => .inr ⟨_, (Option.some.inj hc).symm⟩⟩

theorem range_reads (set : Setting) (lo hi : Char) : (range set lo hi).Reads := by
  intro c log memo out h
  rw [range] at h
  split at h
  · cases h
    exact ⟨rfl, rfl, by rintro _ ⟨⟩⟩
  · dsimp only at h
    split at h
    · cases h
      exact ⟨rfl, rfl, fun _ hc => .inr ⟨_, (Option.some.inj hc).symm⟩⟩
    · cases h
      exact ⟨rfl, rfl, by rintro _ ⟨⟩⟩

theorem terminal_reads (set : Setting) (s : String) : (terminal set s).Reads := by
  intro c log memo out h
  rw [terminal] at h
  split at h
  · cases h
    exact ⟨rfl, rfl, fun _ hc => .inr ⟨_, (Option.some.inj hc).symm⟩⟩
  · cases h
    exact ⟨rfl, rfl, by rintro _ ⟨⟩⟩

theorem endOfInput_reads (set : Setting) : (endOfInput set).Reads := by
  intro c log memo out h
  rw [endOfInput] at h
  split at h
  · cases h
    exact ⟨rfl, rfl, fun _ hc => .inl (Option.some.inj hc).symm⟩
  · cases h
    exact ⟨rfl, rfl, by rintro _ ⟨⟩⟩

theorem endOfInput_cursor {c' : Cursor} (h : endOfInput set c log memo = some out)
    (hc' : out.cursor? = some c') : c' = c ∧ set.input.size ≤ c.pos := by
  rw [endOfInput] at h
  split at h
  · rename_i hle
    cases h
    cases hc'
    exact ⟨rfl, hle⟩
  · cases h
    cases hc'

/-! ## Combining evaluations -/

theorem andThen_eq_some (h : first.andThen second c log memo = some out) :
    first c log memo = some ⟨none, out.log, out.memo⟩ ∧ out.cursor? = none ∨
      ∃ c' log' memo', first c log memo = some ⟨some c', log', memo'⟩ ∧
        second c' log' memo' = some out := by
  rw [andThen] at h
  rcases hfirst : first c log memo with _ | ⟨_ | c', log', memo'⟩
  · rw [hfirst] at h
    cases h
  · rw [hfirst] at h
    cases h
    exact .inl ⟨rfl, rfl⟩
  · rw [hfirst] at h
    exact .inr ⟨c', log', memo', rfl, h⟩

theorem orElse_eq_some (h : first.orElse second c log memo = some out) :
    (first c log memo = some out ∧ out.cursor?.isSome = true) ∨
      ∃ log' memo', first c log memo = some ⟨none, log', memo'⟩ ∧
        second c log' memo' = some out := by
  rw [orElse] at h
  rcases hfirst : first c log memo with _ | ⟨_ | c', log', memo'⟩
  · rw [hfirst] at h
    cases h
  · rw [hfirst] at h
    exact .inr ⟨log', memo', rfl, h⟩
  · rw [hfirst] at h
    cases h
    exact .inl ⟨rfl, rfl⟩

theorem skipSpaces_eq_some (h : skipSpaces apply c log memo = some out) :
    ∃ c? inner, apply "spaces" c { log with failures := ∅ } memo = some ⟨c?, inner, out.memo⟩ ∧
      out.cursor? = some { c with pos := (c?.map (·.pos)).getD c.pos } ∧
      out.log = Log.markSpaces { inner with failures := log.failures } := by
  rw [skipSpaces] at h
  rcases hspaces : apply "spaces" c { log with failures := ∅ } memo with _ | ⟨_ | c', inner, memo'⟩
  · rw [hspaces] at h
    cases h
  · rw [hspaces] at h
    cases h
    exact ⟨none, inner, rfl, rfl, rfl⟩
  · rw [hspaces] at h
    cases h
    exact ⟨some c', inner, rfl, rfl, rfl⟩

/-- The node of an evaluation in the trace. -/
def evalNode (expr : Expr) (c : Cursor) (inner : Outcome) : Trace.Node where
  step := .eval expr
  start := c.pos
  stop := (inner.cursor?.map (·.pos)).getD c.pos
  succeeded := inner.cursor?.isSome
  memoized := false
  implicitSpaces := false
  children := inner.log.trace.reverse

theorem traced_eq_some {expr : Expr} (h : traced set expr e c log memo = some out) :
    ∃ inner, e c (if set.tracing then { log with trace := [] } else log) memo = some inner ∧
      out.cursor? = inner.cursor? ∧ out.memo = inner.memo ∧
      out.log = if set.tracing then { inner.log with trace := evalNode expr c inner :: log.trace }
        else inner.log := by
  rw [traced] at h
  split at h
  · rename_i hset
    rcases he : e c { log with trace := [] } memo with _ | ⟨_ | c', inner, memo'⟩
    · rw [he] at h
      cases h
    · rw [he] at h
      cases h
      exact ⟨⟨none, inner, memo'⟩, by rw [if_pos hset, he], rfl, rfl, by rw [if_pos hset]; rfl⟩
    · rw [he] at h
      cases h
      exact ⟨⟨some c', inner, memo'⟩, by rw [if_pos hset, he], rfl, rfl, by rw [if_pos hset]; rfl⟩
  · rename_i hset
    exact ⟨out, by rw [if_neg hset, h], rfl, rfl, by rw [if_neg hset]⟩

theorem not_eq_some {expr : Expr} (h : Evaluation.not expr e c log memo = some out) :
    ∃ c? inner, e c { log with failures := ∅ } memo = some ⟨c?, inner, out.memo⟩ ∧
      out.log.trace = inner.trace ∧ out.cursor? = if c?.isSome then none else some c := by
  rw [Evaluation.not] at h
  rcases he : e c { log with failures := ∅ } memo with _ | ⟨_ | c', inner, memo'⟩
  · rw [he] at h
    cases h
  · rw [he] at h
    cases h
    exact ⟨none, inner, rfl, rfl, rfl⟩
  · rw [he] at h
    cases h
    exact ⟨some c', inner, rfl, rfl, rfl⟩

theorem look_eq_some (h : look e c log memo = some out) :
    ∃ c?, e c log memo = some ⟨c?, out.log, out.memo⟩ ∧ out.cursor? = c?.map fun _ => c := by
  rw [look] at h
  rcases he : e c log memo with _ | ⟨c?, inner, memo'⟩
  · rw [he] at h
    cases h
  · rw [he] at h
    cases h
    exact ⟨c?, rfl, rfl⟩

theorem rounds_succ_eq_some {n : Nat} {matched : Bool}
    (h : rounds e (n + 1) matched c log memo = some out) :
    e c log memo = some ⟨none, out.log, out.memo⟩ ∧
        out.cursor? = (if matched then some c else none) ∨
      (∃ c', e c log memo = some out ∧ out.cursor? = some c' ∧ c'.pos = c.pos) ∨
      ∃ c' log' memo', e c log memo = some ⟨some c', log', memo'⟩ ∧ c'.pos ≠ c.pos ∧
        rounds e n true c' log' memo' = some out := by
  simp only [rounds] at h
  rcases he : e c log memo with _ | ⟨_ | c', log', memo'⟩
  · rw [he] at h
    cases h
  · rw [he] at h
    cases h
    exact .inl ⟨rfl, rfl⟩
  · rw [he] at h
    dsimp only at h
    split at h
    · rename_i hstays
      cases h
      exact .inr (.inl ⟨c', rfl, rfl, hstays⟩)
    · rename_i hmoved
      exact .inr (.inr ⟨c', log', memo', rfl, hmoved, h⟩)

theorem iter_eq_some {op : Repeat} (h : iter set op e c log memo = some out) :
    ∃ c?, rounds e (roundLimit set op c.pos) (op != .plus) ⟨c.pos, []⟩ log memo =
        some ⟨c?, out.log, out.memo⟩ ∧
      out.cursor? = c?.map fun c' =>
        c.push (.iter (op == .opt) (c'.pos - c.pos) (c'.children c.pos)) := by
  rw [iter] at h
  rcases hrounds : rounds e (roundLimit set op c.pos) (op != .plus) ⟨c.pos, []⟩ log memo with
    _ | ⟨_ | c', log', memo'⟩
  · rw [hrounds] at h
    cases h
  · rw [hrounds] at h
    cases h
    exact ⟨none, rfl, rfl⟩
  · rw [hrounds] at h
    cases h
    exact ⟨some c', rfl, rfl⟩

/-! ## Rule applications -/

section

variable {rule : String} {pos : Nat} {body : Evaluation} {r : Round}

theorem round_eq_some (h : round rule pos body log memo = some (r, log', memo')) :
    ∃ c?, body ⟨pos, []⟩ { log with trace := [] } memo = some ⟨c?, log', memo'⟩ ∧
      r.tree? = c?.map (fun c => .rule rule (c.pos - pos) (c.children pos)) ∧
      r.trace = log'.trace.reverse := by
  rw [round] at h
  rcases hbody : body ⟨pos, []⟩ { log with trace := [] } memo with _ | ⟨c?, inner, memo₁⟩
  · rw [hbody] at h
    cases h
  · rw [hbody] at h
    cases h
    exact ⟨c?, rfl, rfl, rfl⟩

/-- The entry of a rule that is evaluated again with its last match as the seed. -/
def reseeded (set : Setting) (rule : String) (pos : Nat) (best : Tree) (trace : List Trace.Node) :
    Entry :=
  .growing (some best)
    (if set.tracing then some (.application rule pos (pos + best.length) true trace) else none) true

/-- A round more, of which a longer match is the seed of the next one. -/
theorem grow_succ_eq (set : Setting) (rule : String) (pos n : Nat) (body : Evaluation) (best : Tree)
    (trace : List Trace.Node) (log : Log) (memo : Memo) :
    grow set rule pos body (n + 1) best trace log memo =
      (round rule pos body log (memo.put pos rule (reseeded set rule pos best trace))).bind
        fun (r, log, memo) =>
          match r.tree? with
          | none => some (⟨some best, trace⟩, log, memo)
          | some t =>
            if t.length ≤ best.length then some (⟨some best, trace⟩, log, memo)
            else grow set rule pos body n t r.trace log memo := by
  simp only [grow, reseeded]
  generalize round rule pos body log _ = result
  rcases result with _ | ⟨⟨_ | t, trace⟩, log, memo⟩ <;> rfl

theorem grow_eq_last {n : Nat} {best : Tree} {trace : List Trace.Node} {r₁ : Round} {log₁ : Log}
    {memo₁ : Memo}
    (hround : round rule pos body log (memo.put pos rule (reseeded set rule pos best trace)) =
      some (r₁, log₁, memo₁)) (hlast : ∀ t, r₁.tree? = some t → t.length ≤ best.length) :
    grow set rule pos body (n + 1) best trace log memo =
      some (⟨some best, trace⟩, log₁, memo₁) := by
  rw [grow_succ_eq, hround, Option.bind_some]
  dsimp only
  split
  · rfl
  · exact if_pos (hlast _ ‹_›)

theorem grow_eq_more {n : Nat} {best t : Tree} {trace : List Trace.Node} {r₁ : Round} {log₁ : Log}
    {memo₁ : Memo}
    (hround : round rule pos body log (memo.put pos rule (reseeded set rule pos best trace)) =
      some (r₁, log₁, memo₁)) (ht : r₁.tree? = some t) (hmore : best.length < t.length) :
    grow set rule pos body (n + 1) best trace log memo =
      grow set rule pos body n t r₁.trace log₁ memo₁ := by
  rw [grow_succ_eq, hround, Option.bind_some]
  simp only [ht, if_neg (Nat.not_le.mpr hmore)]

theorem grow_succ_eq_some {n : Nat} {best : Tree} {trace : List Trace.Node}
    (h : grow set rule pos body (n + 1) best trace log memo = some (r, log', memo')) :
    ∃ r₁ log₁ memo₁,
      round rule pos body log (memo.put pos rule (reseeded set rule pos best trace)) =
        some (r₁, log₁, memo₁) ∧
      ((∀ t, r₁.tree? = some t → t.length ≤ best.length) ∧
          r = ⟨some best, trace⟩ ∧ log' = log₁ ∧ memo' = memo₁ ∨
        ∃ t, r₁.tree? = some t ∧ best.length < t.length ∧
          grow set rule pos body n t r₁.trace log₁ memo₁ = some (r, log', memo')) := by
  rcases hround : round rule pos body log (memo.put pos rule (reseeded set rule pos best trace))
    with _ | ⟨r₁, log₁, memo₁⟩
  · rw [grow_succ_eq, hround] at h
    cases h
  refine ⟨r₁, log₁, memo₁, rfl, ?_⟩
  by_cases hmore : ∃ t, r₁.tree? = some t ∧ best.length < t.length
  · obtain ⟨t, ht, hmore⟩ := hmore
    rw [grow_eq_more hround ht hmore] at h
    exact .inr ⟨t, ht, hmore, h⟩
  · have hlast : ∀ t, r₁.tree? = some t → t.length ≤ best.length := fun t ht =>
      Nat.le_of_not_lt fun hlt => hmore ⟨t, ht, hlt⟩
    rw [grow_eq_last hround hlast] at h
    cases h
    exact .inl ⟨hlast, rfl, rfl, rfl⟩

/-- One round, which grows if the rule read its own seed. -/
theorem settle_eq (set : Setting) (rule : String) (pos : Nat) (body : Evaluation) (memo : Memo) :
    settle set rule pos body memo =
      (round rule pos body (.start pos) (memo.put pos rule (.growing none none false))).bind
        fun (r, log, memo) =>
          match r.tree? with
          | none => some (r, log, memo)
          | some t =>
            if seedRead memo pos rule then
              grow set rule pos body (set.input.size + 1) t r.trace log memo
            else some (r, log, memo) := by
  rw [settle]
  rcases round rule pos body (.start pos) (memo.put pos rule (.growing none none false)) with
    _ | ⟨⟨_ | t, trace⟩, log, memo⟩ <;> rfl

theorem settle_eq_once {r₁ : Round} {log₁ : Log} {memo₁ : Memo}
    (hround : round rule pos body (.start pos) (memo.put pos rule (.growing none none false)) =
      some (r₁, log₁, memo₁))
    (honce : ∀ t, r₁.tree? = some t → seedRead memo₁ pos rule = false) :
    settle set rule pos body memo = some (r₁, log₁, memo₁) := by
  rw [settle_eq, hround, Option.bind_some]
  dsimp only
  split
  · rfl
  · exact if_neg (Bool.eq_false_iff.mp (honce _ ‹_›))

theorem settle_eq_grow {r₁ : Round} {log₁ : Log} {memo₁ : Memo} {t : Tree}
    (hround : round rule pos body (.start pos) (memo.put pos rule (.growing none none false)) =
      some (r₁, log₁, memo₁)) (ht : r₁.tree? = some t) (hread : seedRead memo₁ pos rule = true) :
    settle set rule pos body memo =
      grow set rule pos body (set.input.size + 1) t r₁.trace log₁ memo₁ := by
  rw [settle_eq, hround, Option.bind_some]
  simp only [ht, if_pos hread]

theorem settle_eq_some (h : settle set rule pos body memo = some (r, log', memo')) :
    ∃ r₁ log₁ memo₁,
      round rule pos body (.start pos) (memo.put pos rule (.growing none none false)) =
        some (r₁, log₁, memo₁) ∧
      ((∀ t, r₁.tree? = some t → seedRead memo₁ pos rule = false) ∧
          r = r₁ ∧ log' = log₁ ∧ memo' = memo₁ ∨
        ∃ t, r₁.tree? = some t ∧ seedRead memo₁ pos rule = true ∧
          grow set rule pos body (set.input.size + 1) t r₁.trace log₁ memo₁ =
            some (r, log', memo')) := by
  rcases hround : round rule pos body (.start pos) (memo.put pos rule (.growing none none false))
    with _ | ⟨r₁, log₁, memo₁⟩
  · rw [settle_eq, hround] at h
    cases h
  refine ⟨r₁, log₁, memo₁, rfl, ?_⟩
  by_cases hread : ∃ t, r₁.tree? = some t ∧ seedRead memo₁ pos rule = true
  · obtain ⟨t, ht, hread⟩ := hread
    rw [settle_eq_grow hround ht hread] at h
    exact .inr ⟨t, ht, hread, h⟩
  · have honce : ∀ t, r₁.tree? = some t → seedRead memo₁ pos rule = false := fun t ht =>
      Bool.of_not_eq_true fun hread' => hread ⟨t, ht, hread'⟩
    rw [settle_eq_once hround honce] at h
    cases h
    exact .inl ⟨honce, rfl, rfl, rfl⟩

/-- The node of an application that was worked out. -/
def workNode (rule : String) (pos : Nat) (r : Round) : Trace.Node :=
  .application rule pos (pos + (r.tree?.map (·.length)).getD 0) r.tree?.isSome r.trace

theorem work_eq_some {rule : Rule} (h : work set rule body c log memo = some out) :
    ∃ r inner memo₁, settle set rule.name c.pos body memo = some (r, inner, memo₁) ∧
      out.cursor? = r.tree?.map c.push ∧
      out.log.trace =
        (if set.tracing then workNode rule.name c.pos r :: log.trace else log.trace) ∧
      (out.memo = memo₁.drop c.pos rule.name ∨ ∃ s : Settled, s.tree? = r.tree? ∧
        s.trace? = (if set.tracing then some (workNode rule.name c.pos r) else none) ∧
        out.memo = memo₁.put c.pos rule.name (.settled s)) := by
  rw [work] at h
  rcases hsettle : settle set rule.name c.pos body memo with _ | ⟨r, inner, memo₁⟩
  · rw [hsettle] at h
    cases h
  · rw [hsettle] at h
    cases h
    refine ⟨r, inner, memo₁, rfl, rfl, ?_, ?_⟩
    · rw [Log.note]
      split <;> rfl
    · dsimp only
      split
      · exact .inl rfl
      · exact .inr ⟨_, rfl, rfl, rfl⟩

/-- What is kept of an application whose rounds came to `r` and left the log `inner`. -/
def keptEntry (set : Setting) (rule : Rule) (pos : Nat) (r : Round) (inner : Log) : Settled where
  tree? := r.tree?
  examined := inner.reach - pos
  failures := (reported rule pos r.tree?.isSome inner.failures).relativeTo pos
  trace? := if set.tracing then some (workNode rule.name pos r) else none

/-- What an application comes to whose rounds came to `r` and left the log `inner` and the table. -/
def concluded (set : Setting) (rule : Rule) (c : Cursor) (log : Log) (r : Round) (inner : Log)
    (memo : Memo) : Outcome where
  cursor? := r.tree?.map c.push
  log := Log.note
    { failures := log.failures.merge (reported rule c.pos r.tree?.isSome inner.failures)
      reach := max log.reach inner.reach
      heads := max log.heads (inner.heads - 1)
      trace := log.trace } set.tracing (workNode rule.name c.pos r)
  memo :=
    if 2 ≤ inner.heads then memo.drop c.pos rule.name
    else memo.put c.pos rule.name (.settled (keptEntry set rule c.pos r inner))

theorem work_eq (set : Setting) (rule : Rule) (body : Evaluation) (c : Cursor) (log : Log)
    (memo : Memo) :
    work set rule body c log memo = (settle set rule.name c.pos body memo).map
      fun (r, inner, memo') => concluded set rule c log r inner memo' := by
  rw [work]
  rcases settle set rule.name c.pos body memo with _ | ⟨⟨tree?, trace⟩, inner, memo'⟩ <;> rfl

theorem ofRule_eq_some {depth : Nat} {frames : List Frame} {name : String}
    (h : ofRule set depth frames name c log memo = some out) :
    set.grammar.rule? name = none ∧ out = ⟨none, log, memo⟩ ∨
      ∃ rule, set.grammar.rule? name = some rule ∧
        ((∃ entry, memo.find? c.pos rule.name = some entry ∧
          out = reuse set frames rule.name entry c log memo) ∨
        memo.find? c.pos rule.name = none ∧ ∃ d, depth = d + 1 ∧
          work set rule (ofExpr set (ofRule set d ((c.pos, rule.name) :: frames))
            (isSyntactic rule.name) rule.body) c log memo = some out) := by
  rw [ofRule] at h
  cases hrule : set.grammar.rule? name with
  | none =>
      rw [hrule] at h
      cases h
      exact .inl ⟨rfl, rfl⟩
  | some rule =>
      simp only [hrule] at h
      refine .inr ⟨rule, rfl, ?_⟩
      cases hfind : memo.find? c.pos rule.name with
      | some entry =>
          simp only [hfind] at h
          cases h
          exact .inl ⟨entry, rfl, rfl⟩
      | none =>
          simp only [hfind] at h
          cases depth with
          | zero => cases h
          | succ d =>
              simp only [descend_eq] at h
              exact .inr ⟨rfl, d, rfl, h⟩

theorem reuse_eq (set : Setting) (frames : List Frame) (rule : String) (entry : Entry) (c : Cursor)
    (log : Log) (memo : Memo) :
    let out := reuse set frames rule entry c log memo
    out.cursor? = entry.tree?.map c.push ∧
      out.log.trace = (if set.tracing then reused rule c.pos entry.tree? entry.trace? :: log.trace
        else log.trace) ∧
      (out.memo = memo ∨ ∃ e : Entry, e.tree? = entry.tree? ∧ e.trace? = entry.trace? ∧
        out.memo = memo.put c.pos rule e) := by
  cases entry with
  | growing seed? trace? read =>
      refine ⟨rfl, ?_, .inr ⟨.growing seed? trace? true, rfl, rfl, rfl⟩⟩
      rw [reuse, Log.note]
      split <;> rfl
  | settled s =>
      refine ⟨rfl, ?_, .inl rfl⟩
      rw [reuse, Log.note]
      split <;> rfl

/-- An application that matches reads one tree. -/
theorem ofRule_push {depth : Nat} {frames : List Frame} {name : String} {c' : Cursor}
    (h : ofRule set depth frames name c log memo = some out) (hc' : out.cursor? = some c') :
    ∃ t, c' = c.push t := by
  have hpush : ∀ {tree? : Option Tree}, out.cursor? = tree?.map c.push → ∃ t, c' = c.push t := by
    intro tree? hcursor
    rw [hc'] at hcursor
    obtain ⟨t, -, ht⟩ := Option.map_eq_some_iff.mp hcursor.symm
    exact ⟨t, ht.symm⟩
  rcases ofRule_eq_some h with ⟨-, rfl⟩ | ⟨rule, -, ⟨entry, -, rfl⟩ | ⟨-, d, -, hwork⟩⟩
  · cases hc'
  · exact hpush (reuse_eq set frames rule.name entry c log memo).1
  · obtain ⟨r, inner, memo₁, -, hcursor, -⟩ := work_eq_some hwork
    exact hpush hcursor

end

/-! ## Matches -/

/-- Spaces before the start rule move the cursor, and nothing else. -/
theorem spaced_here {skip : Bool}
    (h : spaced apply skip (fun c log memo => some ⟨some c, log, memo⟩) c log memo = some out) :
    ∃ pos, out.cursor? = some { c with pos := pos } := by
  cases skip with
  | false =>
      cases h
      exact ⟨c.pos, rfl⟩
  | true =>
      rcases andThen_eq_some h with ⟨hskip, -⟩ | ⟨c', log', memo', hskip, h⟩
      · obtain ⟨c?, inner, -, hcursor, -⟩ := skipSpaces_eq_some hskip
        cases hcursor
      · obtain ⟨c?, inner, -, hcursor, -⟩ := skipSpaces_eq_some hskip
        cases h
        exact ⟨_, hcursor⟩

/-- To look for the end reads no tree. -/
theorem endOfInput_found {syntactic : Bool} {c' : Cursor}
    (h : ofExpr set apply syntactic .endOfInput c log memo = some out)
    (hc' : out.cursor? = some c') : c'.found = c.found := by
  have here : ∀ (c₁ : Cursor) (log : Log) (memo : Memo),
      traced set .endOfInput (endOfInput set) c₁ log memo = some out → c'.found = c₁.found := by
    intro c₁ log memo h
    obtain ⟨inner, hinner, hcursor, -⟩ := traced_eq_some h
    have hsame : c' = c₁ := (endOfInput_cursor hinner (hcursor ▸ hc')).1
    rw [hsame]
  rw [ofExpr] at h
  cases syntactic with
  | false => exact here c log memo h
  | true =>
      rcases andThen_eq_some h with ⟨-, hnone⟩ | ⟨c₁, log', memo', hskip, h⟩
      · cases hnone.symm.trans hc'
      · obtain ⟨c?, inner, -, hcursor, -⟩ := skipSpaces_eq_some hskip
        obtain rfl := Option.some.inj hcursor
        rw [here _ log' memo' h]

end Evaluation

variable {set : Setting} {limit : Nat} {start : String} {memo memo' : Memo} {a : Answer}

/-- The node of a match in its trace. -/
def rootNode (start : String) (out : Outcome) : Trace.Node where
  step := .root start
  start := 0
  stop := (out.cursor?.map (·.pos)).getD 0
  succeeded := out.cursor?.isSome
  memoized := false
  implicitSpaces := false
  children := out.log.trace.reverse

theorem run_eq_some (h : run set limit start memo = some (a, memo')) :
    ∃ pos log₁ memo₁ out,
      spaced (ofRule set limit []) (isSyntactic start) (fun c log memo => some ⟨some c, log, memo⟩)
        ⟨0, []⟩ (.start 0) memo = some ⟨some ⟨pos, []⟩, log₁, memo₁⟩ ∧
      (ofRule set limit [] start).andThen
        (ofExpr set (ofRule set limit []) (isSyntactic start) .endOfInput) ⟨pos, []⟩ log₁ memo₁ =
          some out ∧
      a = ⟨out.cursor?.bind (·.found.head?), out.log.failures, rootNode start out⟩ ∧
      memo' = out.memo := by
  rw [run] at h
  rcases hbefore : spaced (ofRule set limit []) (isSyntactic start)
    (fun c log memo => some ⟨some c, log, memo⟩) ⟨0, []⟩ (.start 0) memo with
    _ | ⟨c?, log₁, memo₁⟩
  · simp only [hbefore] at h
    cases h
  obtain ⟨pos, rfl⟩ : ∃ pos, c? = some ⟨pos, []⟩ := spaced_here hbefore
  simp only [hbefore, Option.getD_some] at h
  rcases hwhole : (ofRule set limit [] start).andThen
    (ofExpr set (ofRule set limit []) (isSyntactic start) .endOfInput) ⟨pos, []⟩ log₁ memo₁ with
    _ | out
  · simp only [hwhole] at h
    cases h
  · simp only [hwhole] at h
    cases h
    exact ⟨pos, log₁, memo₁, out, rfl, hwhole, rfl, rfl⟩

/-- The start rule found one tree where it began, and the end was looked for behind it. -/
theorem whole_found {apply : String → Evaluation} {depth pos : Nat} {frames : List Frame}
    {log : Log} {c' : Cursor} {out : Outcome} {syntactic : Bool}
    (h : (ofRule set depth frames start).andThen (ofExpr set apply syntactic .endOfInput)
      ⟨pos, []⟩ log memo = some out) (hc' : out.cursor? = some c') :
    ∃ t log' memo', c'.found = [(pos, t)] ∧
      ofRule set depth frames start ⟨pos, []⟩ log memo =
        some ⟨some (Cursor.push ⟨pos, []⟩ t), log', memo'⟩ ∧
      ofExpr set apply syntactic .endOfInput (Cursor.push ⟨pos, []⟩ t) log' memo' = some out := by
  rcases andThen_eq_some h with ⟨-, hnone⟩ | ⟨c₁, log', memo', hstart, hend⟩
  · cases hnone.symm.trans hc'
  · obtain ⟨t, rfl⟩ := ofRule_push hstart rfl
    exact ⟨t, log', memo', endOfInput_found hend hc', hstart, hend⟩

/-- The root of the trace has succeeded exactly if the match has a tree. -/
theorem run_succeeded (h : run set limit start memo = some (a, memo')) :
    a.trace.succeeded = a.tree?.isSome := by
  obtain ⟨pos, log₁, memo₁, out, -, hwhole, rfl, -⟩ := run_eq_some h
  rw [rootNode]
  cases hout : out.cursor? with
  | none => rfl
  | some c' =>
      obtain ⟨t, log', memo', hfound, -⟩ := whole_found hwhole hout
      simp [hfound]

/-- A match that has a tree applied the start rule behind the leading spaces, and found the end behind
what the rule had matched. -/
theorem run_tree {offset : Nat} {tree : Tree} (h : run set limit start memo = some (a, memo'))
    (htree : a.tree? = some (offset, tree)) :
    ∃ log₁ memo₁ log₂ memo₂ log₃ stop,
      spaced (ofRule set limit []) (isSyntactic start) (fun c log memo => some ⟨some c, log, memo⟩)
        ⟨0, []⟩ (.start 0) memo = some ⟨some ⟨offset, []⟩, log₁, memo₁⟩ ∧
      ofRule set limit [] start ⟨offset, []⟩ log₁ memo₁ =
        some ⟨some (Cursor.push ⟨offset, []⟩ tree), log₂, memo₂⟩ ∧
      ofExpr set (ofRule set limit []) (isSyntactic start) .endOfInput
        (Cursor.push ⟨offset, []⟩ tree) log₂ memo₂ =
          some ⟨some ⟨stop, [(offset, tree)]⟩, log₃, memo'⟩ ∧
      a.trace.children = log₃.trace.reverse := by
  obtain ⟨pos, log₁, memo₁, out, hbefore, hwhole, rfl, rfl⟩ := run_eq_some h
  obtain ⟨c', hc', hhead⟩ := Option.bind_eq_some_iff.mp htree
  obtain ⟨t, log₂, memo₂, hfound, hstart, hend⟩ := whole_found hwhole hc'
  rw [hfound] at hhead
  obtain ⟨rfl, rfl⟩ := Prod.mk.inj (Option.some.inj hhead)
  obtain ⟨c?, log₃, memo₃⟩ := out
  obtain rfl : c? = some c' := hc'
  obtain ⟨stop, found⟩ := c'
  obtain rfl : found = [(pos, t)] := hfound
  exact ⟨log₁, memo₁, log₂, memo₂, log₃, stop, hbefore, hstart, hend, rfl⟩

end Pegboard.Match
