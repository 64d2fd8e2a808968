import Pegboard.Proofs.Match.Within
import Mathlib.Order.WellFounded

/-!
# The moments of a match

The evaluator is a function, and what goes on inside it is not to be seen from its result. This
module takes it apart: a `Moment` is the beginning of one evaluation inside a match, with all that
it is given, and `Leads` lists which evaluations begin, and with what, in the course of another one.
A moment is `Reached` if the match comes to it.

What is known of every moment, `Moment.Holds`, follows step by step from the soundness of the
evaluations that have ended before it.

Main statements: `Reached.holds`, `leads_wellFounded`.
-/

namespace Pegboard

open Text

/-- Spaces are skipped before the expression in a syntactic context. -/
def Expr.Spaced : Expr → Prop
  | .any | .endOfInput | .terminal _ | .range _ _ => True
  | .apply q => q ≠ "spaces"
  | _ => False

namespace Match

open Evaluation

/-! ## Moments -/

/-- Something to be evaluated. -/
inductive Task
  | expr (syntactic : Bool) (e : Expr)
  /-- What is left of the choices of an alternative. -/
  | choices (syntactic : Bool) (es : List Expr)
  /-- What is left of the parts of a sequence. -/
  | parts (syntactic : Bool) (es : List Expr)
  /-- What is left of an iteration. -/
  | rounds (syntactic : Bool) (op : Repeat) (e : Expr) (n : Nat) (matched : Bool)
  | apply (rule : String)
  /-- What is left to be done for a rule that read its own seed. -/
  | grow (rule : Rule) (n : Nat) (best : Tree) (trace : List Trace.Node)

/-- The beginning of an evaluation. -/
structure Moment where
  /-- How many more applications may nest. -/
  depth : Nat
  frames : List Frame
  /-- Where the innermost rule or iteration began. -/
  base : Nat
  task : Task
  cursor : Cursor
  log : Log
  memo : Memo

namespace Moment

variable (set : Setting) (m : Moment)

def apply : String → Evaluation :=
  ofRule set m.depth m.frames

/-- The body of a rule, evaluated below its frame. -/
def body (rule : Rule) : Evaluation :=
  ofExpr set (m.apply set) (isSyntactic rule.name) rule.body

/-- What the evaluation comes to. -/
def outcome : Option Outcome :=
  match m.task with
  | .expr syntactic e => ofExpr set (m.apply set) syntactic e m.cursor m.log m.memo
  | .choices syntactic es => ofChoices set (m.apply set) syntactic es m.cursor m.log m.memo
  | .parts syntactic es => ofParts set (m.apply set) syntactic es m.cursor m.log m.memo
  | .rounds syntactic _ e n matched =>
    rounds (ofExpr set (m.apply set) syntactic e) n matched m.cursor m.log m.memo
  | .apply rule => m.apply set rule m.cursor m.log m.memo
  | .grow rule n best trace =>
    (grow set rule.name m.cursor.pos (m.body set rule) n best trace m.log m.memo).map
      fun (r, log, memo) => ⟨r.tree?.map (Cursor.push ⟨m.cursor.pos, []⟩), log, memo⟩

/-- The log below a node of the trace. -/
def nodeLog : Log :=
  if set.tracing then { m.log with trace := [] } else m.log

/-- The moment when a rule without an entry is evaluated, with `depth` more applications to nest. -/
def entered (depth : Nat) (rule : Rule) : Moment where
  depth := depth
  frames := (m.cursor.pos, rule.name) :: m.frames
  base := m.cursor.pos
  task := .expr (isSyntactic rule.name) rule.body
  cursor := ⟨m.cursor.pos, []⟩
  log := .start m.cursor.pos
  memo := m.memo.put m.cursor.pos rule.name (.growing none none false)

end Moment

/-- In the course of the first evaluation the second one begins. -/
inductive Leads (set : Setting) (m : Moment) : Moment → Prop
  | spaces {e : Expr} (htask : m.task = .expr true e) (he : e.Spaced) :
      Leads set m { m with task := .apply "spaces", log := { m.log with failures := ∅ } }
  | behindSpaces {e : Expr} {c : Cursor} {log : Log} {memo : Memo}
      (htask : m.task = .expr true e) (he : e.Spaced)
      (h : skipSpaces (m.apply set) m.cursor m.log m.memo = some ⟨some c, log, memo⟩) :
      Leads set m { m with task := .expr false e, cursor := c, log := log, memo := memo }
  | application {syntactic : Bool} {q : String} (htask : m.task = .expr syntactic (.apply q))
      (h : syntactic = false ∨ q = "spaces") : Leads set m { m with task := .apply q }
  | alt {syntactic : Bool} {es : List Expr} (htask : m.task = .expr syntactic (.alt es)) :
      Leads set m { m with task := .choices syntactic es, log := m.nodeLog set }
  | seq {syntactic : Bool} {es : List Expr} (htask : m.task = .expr syntactic (.seq es)) :
      Leads set m { m with task := .parts syntactic es, log := m.nodeLog set }
  | iter {syntactic : Bool} {op : Repeat} {e : Expr}
      (htask : m.task = .expr syntactic (.iter op e)) :
      Leads set m { m with
        base := m.cursor.pos
        task := .rounds syntactic op e (roundLimit set op m.cursor.pos) (op != .plus)
        cursor := ⟨m.cursor.pos, []⟩
        log := m.nodeLog set }
  | not {syntactic : Bool} {e : Expr} (htask : m.task = .expr syntactic (.not e)) :
      Leads set m { m with
        task := .expr syntactic e, log := { m.nodeLog set with failures := ∅ } }
  | look {syntactic : Bool} {e : Expr} (htask : m.task = .expr syntactic (.look e)) :
      Leads set m { m with task := .expr syntactic e, log := m.nodeLog set }
  | lex {syntactic : Bool} {e : Expr} (htask : m.task = .expr syntactic (.lex e)) :
      Leads set m { m with task := .expr false e, log := m.nodeLog set }
  | choice {syntactic : Bool} {e : Expr} {es : List Expr}
      (htask : m.task = .choices syntactic (e :: es)) :
      Leads set m { m with task := .expr syntactic e }
  | nextChoice {syntactic : Bool} {e : Expr} {es : List Expr} {log : Log} {memo : Memo}
      (htask : m.task = .choices syntactic (e :: es))
      (h : ofExpr set (m.apply set) syntactic e m.cursor m.log m.memo = some ⟨none, log, memo⟩) :
      Leads set m { m with task := .choices syntactic es, log := log, memo := memo }
  | part {syntactic : Bool} {e : Expr} {es : List Expr}
      (htask : m.task = .parts syntactic (e :: es)) :
      Leads set m { m with task := .expr syntactic e }
  | nextPart {syntactic : Bool} {e : Expr} {es : List Expr} {c : Cursor} {log : Log} {memo : Memo}
      (htask : m.task = .parts syntactic (e :: es))
      (h : ofExpr set (m.apply set) syntactic e m.cursor m.log m.memo = some ⟨some c, log, memo⟩) :
      Leads set m { m with task := .parts syntactic es, cursor := c, log := log, memo := memo }
  | round {syntactic : Bool} {op : Repeat} {e : Expr} {n : Nat} {matched : Bool}
      (htask : m.task = .rounds syntactic op e (n + 1) matched) :
      Leads set m { m with task := .expr syntactic e }
  | nextRound {syntactic : Bool} {op : Repeat} {e : Expr} {n : Nat} {matched : Bool} {c : Cursor}
      {log : Log} {memo : Memo} (htask : m.task = .rounds syntactic op e (n + 1) matched)
      (h : ofExpr set (m.apply set) syntactic e m.cursor m.log m.memo = some ⟨some c, log, memo⟩)
      (hmoved : c.pos ≠ m.cursor.pos) :
      Leads set m { m with
        task := .rounds syntactic op e n true, cursor := c, log := log, memo := memo }
  | enter {q : String} {rule : Rule} {depth : Nat} (htask : m.task = .apply q)
      (hrule : set.grammar.rule? q = some rule) (hnew : m.memo.find? m.cursor.pos rule.name = none)
      (hdepth : m.depth = depth + 1) : Leads set m (m.entered depth rule)
  | grow {q : String} {rule : Rule} {depth : Nat} {t : Tree} {trace : List Trace.Node} {log : Log}
      {memo : Memo} (htask : m.task = .apply q) (hrule : set.grammar.rule? q = some rule)
      (hnew : m.memo.find? m.cursor.pos rule.name = none) (hdepth : m.depth = depth + 1)
      (h : Evaluation.round rule.name m.cursor.pos ((m.entered depth rule).body set rule)
        (m.entered depth rule).log (m.entered depth rule).memo = some (⟨some t, trace⟩, log, memo))
      (hread : seedRead memo m.cursor.pos rule.name = true) :
      Leads set m { m.entered depth rule with
        task := .grow rule (set.input.size + 1) t trace, log := log, memo := memo }
  | regrow {rule : Rule} {n : Nat} {best : Tree} {trace : List Trace.Node}
      (htask : m.task = .grow rule (n + 1) best trace) :
      Leads set m { m with
        task := .expr (isSyntactic rule.name) rule.body
        cursor := ⟨m.cursor.pos, []⟩
        log := { m.log with trace := [] }
        memo := m.memo.put m.cursor.pos rule.name (.growing (some best) (if set.tracing then
          some (.application rule.name m.cursor.pos (m.cursor.pos + best.length) true trace)
          else none) true) }
  | grown {rule : Rule} {n : Nat} {best t : Tree} {trace trace' : List Trace.Node} {log : Log}
      {memo : Memo} (htask : m.task = .grow rule (n + 1) best trace)
      (h : Evaluation.round rule.name m.cursor.pos (m.body set rule) m.log
        (m.memo.put m.cursor.pos rule.name (.growing (some best) (if set.tracing then
          some (.application rule.name m.cursor.pos (m.cursor.pos + best.length) true trace)
          else none) true)) = some (⟨some t, trace'⟩, log, memo))
      (hlonger : best.length < t.length) :
      Leads set m { m with task := .grow rule n t trace', log := log, memo := memo }

/-- What a match of a whole text begins with: the spaces before it, the start rule behind them, and
the end behind that. -/
inductive Begins (set : Setting) (limit : Nat) (start : String) (memo : Memo) : Moment → Prop
  | spaces (h : isSyntactic start = true) :
      Begins set limit start memo ⟨limit, [], 0, .apply "spaces", ⟨0, []⟩, .start 0, memo⟩
  | start {c? : Option Cursor} {log : Log} {memo' : Memo}
      (h : spaced (ofRule set limit []) (isSyntactic start)
        (fun c log memo => some ⟨some c, log, memo⟩) ⟨0, []⟩ (.start 0) memo =
          some ⟨c?, log, memo'⟩) :
      Begins set limit start memo ⟨limit, [], 0, .apply start, c?.getD ⟨0, []⟩, log, memo'⟩
  | stop {c? : Option Cursor} {c : Cursor} {log log' : Log} {memo' memo'' : Memo}
      (h : spaced (ofRule set limit []) (isSyntactic start)
        (fun c log memo => some ⟨some c, log, memo⟩) ⟨0, []⟩ (.start 0) memo =
          some ⟨c?, log, memo'⟩)
      (hstart : ofRule set limit [] start (c?.getD ⟨0, []⟩) log memo' =
        some ⟨some c, log', memo''⟩) :
      Begins set limit start memo
        ⟨limit, [], 0, .expr (isSyntactic start) .endOfInput, c, log', memo''⟩

/-- A moment that a match comes to. -/
inductive Reached (set : Setting) (limit : Nat) (start : String) (memo : Memo) : Moment → Prop
  | begins {m : Moment} (h : Begins set limit start memo m) : Reached set limit start memo m
  | leads {m m' : Moment} (h : Reached set limit start memo m) (hleads : Leads set m m') :
      Reached set limit start memo m'

/-! ## Every evaluation ends -/

/-- How much there is left to do: how deep applications may still nest, how often the seed may still
grow, how large the expression is, whether spaces come before it, and how many rounds are left. -/
noncomputable def Moment.left (m : Moment) : Nat × Nat × Nat × Nat × Nat :=
  match m.task with
  | .expr syntactic e => (m.depth, 0, sizeOf e, syntactic.toNat, 0)
  | .choices _ es => (m.depth, 0, sizeOf es, 0, 0)
  | .parts _ es => (m.depth, 0, sizeOf es, 0, 0)
  | .rounds _ _ e n _ => (m.depth, 0, sizeOf e + 1, 0, n)
  | .apply _ => (m.depth, 0, 0, 0, 0)
  | .grow _ n _ _ => (m.depth, n + 1, 0, 0, 0)

/-- No evaluation leads to others for ever. -/
theorem leads_wellFounded (set : Setting) : WellFounded fun m' m => Leads set m m' := by
  refine Subrelation.wf (r := InvImage (Prod.Lex (· < ·) (Prod.Lex (· < ·) (Prod.Lex (· < ·)
    (Prod.Lex (· < ·) (· < ·))))) Moment.left) ?_ (InvImage.wf _ WellFoundedRelation.wf)
  intro m' m h
  have hop : ∀ op : Repeat, 0 < sizeOf op := by
    intro op
    cases op <;> decide
  have hexpr : ∀ e : Expr, 0 < sizeOf e := by
    intro e
    cases e <;> simp +arith
  have hsum : ∀ a b : Nat, a < 1 + a + b ∧ 0 < 1 + a := by omega
  cases h
  case iter op e htask =>
    have := hop op
    have hlt : sizeOf e + 1 < 1 + sizeOf op + sizeOf e := by omega
    simp [InvImage, Prod.lex_def, Moment.left, htask, hlt]
  all_goals simp_all [InvImage, Prod.lex_def, Moment.left, Moment.entered]

/-! ## What is known of every moment -/

/-- The evaluation is no loop. -/
def Task.Plain : Task → Prop
  | .rounds .. | .grow .. => False
  | _ => True

/-- What is true of a moment of a match in which `limit` applications may nest. -/
structure Moment.Holds (set : Setting) (limit : Nat) (m : Moment) : Prop where
  depth : m.depth + m.frames.length = limit
  ready : ∃ ends, (⟨set, m.frames, ends⟩ : Stack).Ready m.base m.cursor m.log m.memo
  /-- Every round but the last one moves the cursor, and there are rounds left for the rest. -/
  rounds : ∀ syntactic op e n matched, m.task = .rounds syntactic op e n matched →
    op = .opt ∨ set.input.size < m.cursor.pos + n
  /-- Every round but the last one covers more of the text, and there are rounds left for the rest. -/
  grow : ∀ rule n best trace, m.task = .grow rule n best trace →
    m.cursor = ⟨m.base, []⟩ ∧ set.input.size < n + best.length ∧
      ∃ (σ : Stack) (stop : Nat), σ.set = set ∧ m.frames = (m.base, rule.name) :: σ.frames ∧
        σ.Between (m.base, rule.name) stop m.log m.memo ∧ σ.Covers (m.base, rule.name) m.log best

variable {set : Setting} {limit : Nat} {start : String} {memo : Memo} {m m' : Moment}
variable {out : Outcome}

theorem Moment.Holds.ofPlain (hdepth : m.depth + m.frames.length = limit) (hplain : m.task.Plain)
    (hready : ∃ ends, (⟨set, m.frames, ends⟩ : Stack).Ready m.base m.cursor m.log m.memo) :
    m.Holds set limit where
  depth := hdepth
  ready := hready
  rounds := fun _ _ _ _ _ htask => by
    rw [htask] at hplain
    exact hplain.elim
  grow := fun _ _ _ _ htask => by
    rw [htask] at hplain
    exact hplain.elim

theorem Yields.of_eq_some {α : Type} {reason : Prop} {P : α → Prop} {x : Option α} {a : α}
    (h : Yields reason P x) (hx : x = some a) : P a := by
  rw [hx] at h
  exact h

theorem Moment.ready_nodeLog {σ : Stack} (h : σ.Ready m.base m.cursor m.log m.memo) :
    σ.Ready m.base m.cursor (m.nodeLog set) m.memo := by
  rw [nodeLog]
  split
  · exact h.congr rfl rfl rfl
  · exact h

/-- The evaluations of an expression below the frames of a moment are sound. -/
theorem Moment.expr_sound (set : Setting) (m : Moment) (ends : Frame → Nat) (syntactic : Bool)
    (e : Expr) :
    (⟨set, m.frames, ends⟩ : Stack).Sound
      (m.depth + m.frames.length < (set.input.size + 1) * set.grammar.rules.length)
      (ofExpr set (m.apply set) syntactic e) :=
  Stack.ofExpr_sound (σ := ⟨set, m.frames, ends⟩)
    (Stack.ofRule_sound ⟨set, m.frames, ends⟩ m.depth) syntactic e

theorem Moment.body_sound {σ : Stack} {f : Frame} (hset : σ.set = set)
    (hframes : m.frames = f :: σ.frames) (stop : Nat) (rule : Rule) :
    (σ.push f stop).Sound
      (m.depth + m.frames.length < (set.input.size + 1) * set.grammar.rules.length)
      (m.body set rule) := by
  subst hset
  have heq : (⟨σ.set, m.frames, (σ.push f stop).ends⟩ : Stack) = σ.push f stop := by
    rw [hframes]
    rfl
  exact heq ▸ m.expr_sound σ.set (σ.push f stop).ends (isSyntactic rule.name) rule.body

/-- A rule without an entry begins its first round below its frame. -/
theorem Moment.enter_between {ends : Frame → Nat} {q : String} {rule : Rule} (depth : Nat)
    (h : (⟨set, m.frames, ends⟩ : Stack).Ready m.base m.cursor m.log m.memo)
    (hrule : set.grammar.rule? q = some rule)
    (hnew : m.memo.find? m.cursor.pos rule.name = none) :
    (⟨set, m.frames, ends⟩ : Stack).Between (m.cursor.pos, rule.name) m.cursor.pos
      (m.entered depth rule).log (m.entered depth rule).memo :=
  h.enter (List.mem_map_of_mem (Grammar.rule?_mem hrule)) hnew

/-- What is known of a moment is known of those that it leads to. -/
theorem Leads.holds (h : Leads set m m') (hm : m.Holds set limit) : m'.Holds set limit := by
  obtain ⟨ends, hready⟩ := hm.ready
  have hsound := Moment.expr_sound set m ends
  cases h with
  | spaces htask he => exact .ofPlain hm.depth trivial ⟨ends, hready.withoutFailures⟩
  | behindSpaces htask he h =>
      have hdone := (Stack.skipSpaces_sound (σ := ⟨set, m.frames, ends⟩)
        (Stack.ofRule_sound ⟨set, m.frames, ends⟩ m.depth) _ _ _ _ hready).of_eq_some h
      exact .ofPlain hm.depth trivial ⟨ends, hdone.ready⟩
  | application htask h => exact .ofPlain hm.depth trivial ⟨ends, hready⟩
  | alt htask => exact .ofPlain hm.depth trivial ⟨ends, Moment.ready_nodeLog hready⟩
  | seq htask => exact .ofPlain hm.depth trivial ⟨ends, Moment.ready_nodeLog hready⟩
  | @iter _ op _ htask =>
      refine ⟨hm.depth, ⟨ends, (Moment.ready_nodeLog hready).anew⟩, ?_, fun _ _ _ _ h => nomatch h⟩
      rintro _ _ _ _ _ ⟨⟩
      have := hready.boundary.le
      cases op with
      | opt => exact .inl rfl
      | star => exact .inr (by simp only [roundLimit]; omega)
      | plus => exact .inr (by simp only [roundLimit]; omega)
  | not htask =>
      exact .ofPlain hm.depth trivial ⟨ends, (Moment.ready_nodeLog hready).withoutFailures⟩
  | look htask => exact .ofPlain hm.depth trivial ⟨ends, Moment.ready_nodeLog hready⟩
  | lex htask => exact .ofPlain hm.depth trivial ⟨ends, Moment.ready_nodeLog hready⟩
  | choice htask => exact .ofPlain hm.depth trivial ⟨ends, hready⟩
  | nextChoice htask h =>
      exact .ofPlain hm.depth trivial ⟨ends, ((hsound _ _ _ _ _ _ hready).of_eq_some h).ready⟩
  | part htask => exact .ofPlain hm.depth trivial ⟨ends, hready⟩
  | nextPart htask h =>
      exact .ofPlain hm.depth trivial ⟨ends, ((hsound _ _ _ _ _ _ hready).of_eq_some h).ready⟩
  | round htask => exact .ofPlain hm.depth trivial ⟨ends, hready⟩
  | nextRound htask h hmoved =>
      have hdone := (hsound _ _ _ _ _ _ hready).of_eq_some h
      refine ⟨hm.depth, ⟨ends, hdone.ready⟩, ?_, fun _ _ _ _ h => nomatch h⟩
      rintro _ _ _ _ _ ⟨⟩
      have := hdone.moved _ rfl
      refine (hm.rounds _ _ _ _ _ htask).imp_right fun hleft => ?_
      dsimp only
      omega
  | @enter _ _ depth htask hrule hnew hdepth =>
      have hbetween := Moment.enter_between depth hready hrule hnew
      refine .ofPlain ?_ trivial ⟨_, hbetween.ready⟩
      have := hm.depth
      simp only [Moment.entered, List.length_cons]
      omega
  | grow htask hrule hnew hdepth h hread =>
      have hround := (Stack.round_sound (Moment.enter_between _ hready hrule hnew)
        (Moment.expr_sound set (m.entered _ _) _ _ _)).of_eq_some h
      refine ⟨?_, ⟨_, hround.1.ready⟩, fun _ _ _ _ _ h => (nomatch h), ?_⟩
      · have := hm.depth
        simp only [Moment.entered, List.length_cons]
        omega
      · rintro _ _ _ _ ⟨⟩
        refine ⟨rfl, by omega, _, _, ?_, ?_, hround.1, hround.2.2.2 _ rfl⟩ <;> rfl
  | regrow htask =>
      obtain ⟨hcursor, -, σ, stop, rfl, hframes, hbetween, hcovers⟩ := hm.grow _ _ _ _ htask
      refine .ofPlain hm.depth trivial ?_
      simp only [hframes, hcursor]
      exact ⟨_, (hbetween.reseed hcovers _).ready.congr rfl rfl rfl⟩
  | grown htask h hlonger =>
      obtain ⟨hcursor, hn, σ, stop, rfl, hframes, hbetween, hcovers⟩ := hm.grow _ _ _ _ htask
      rw [hcursor] at h
      obtain ⟨hnext, -, -, ht⟩ := (Stack.round_sound (hbetween.reseed hcovers _)
        (Moment.body_sound rfl hframes _ _)).of_eq_some h
      refine ⟨hm.depth, ?_, fun _ _ _ _ _ h => (nomatch h), ?_⟩
      · simp only [hframes, hcursor]
        exact ⟨_, hnext.ready⟩
      · rintro _ _ _ _ ⟨⟩
        exact ⟨hcursor, by omega, σ, _, rfl, hframes, hnext, ht _ rfl⟩

/-- What is true of every moment that a match comes to. -/
theorem Reached.holds (hmemo : (Stack.bottom set).Intact memo)
    (h : Reached set limit start memo m) : m.Holds set limit := by
  induction h with
  | begins h =>
      cases h with
      | spaces h => exact .ofPlain rfl trivial ⟨_, Stack.ready_bottom hmemo⟩
      | start h =>
          have hdone := (Stack.spaces_done limit start hmemo).of_eq_some h
          exact .ofPlain rfl trivial ⟨_, hdone.ready⟩
      | stop h hstart =>
          have hdone := (Stack.spaces_done limit start hmemo).of_eq_some h
          have hdone' := (Stack.ofRule_sound_bottom start _ _ _ _ hdone.ready).of_eq_some hstart
          exact .ofPlain rfl trivial ⟨_, hdone'.ready⟩
  | leads h hleads ih => exact hleads.holds ih

/-- An evaluation that began at a moment went forwards, if at all, and another one can begin where it
ended. -/
structure Moment.Ends (set : Setting) (m : Moment) (out : Outcome) : Prop where
  moved : ∀ c, out.cursor? = some c → m.cursor.pos ≤ c.pos
  ready : ∃ ends, (⟨set, m.frames, ends⟩ : Stack).Ready m.base (out.cursor?.getD m.cursor) out.log
    out.memo

theorem Moment.Holds.ends (hm : m.Holds set limit) (h : m.outcome set = some out) :
    m.Ends set out := by
  obtain ⟨ends, hready⟩ := hm.ready
  have happly := Stack.ofRule_sound ⟨set, m.frames, ends⟩ m.depth
  have of_sound : ∀ {reason : Prop} {e : Evaluation},
      (⟨set, m.frames, ends⟩ : Stack).Sound reason e →
        e m.cursor m.log m.memo = some out → m.Ends set out := by
    intro reason e hsound h
    have hdone := (hsound _ _ _ _ hready).of_eq_some h
    exact ⟨hdone.moved, ends, hdone.ready⟩
  rw [Moment.outcome] at h
  cases htask : m.task with
  | expr syntactic e =>
      rw [htask] at h
      exact of_sound (Stack.ofExpr_sound happly syntactic e) h
  | choices syntactic es =>
      rw [htask] at h
      exact of_sound (Stack.ofChoices_sound happly syntactic es) h
  | parts syntactic es =>
      rw [htask] at h
      exact of_sound (Stack.ofParts_sound happly syntactic es) h
  | rounds syntactic op e n matched =>
      rw [htask] at h
      exact of_sound (Stack.rounds_sound (Stack.ofExpr_sound happly syntactic e) n matched) h
  | apply q =>
      rw [htask] at h
      exact of_sound (happly q) h
  | grow rule n best trace =>
      rw [htask] at h
      obtain ⟨hcursor, -, σ, stop, rfl, hframes, hbetween, hcovers⟩ := hm.grow _ _ _ _ htask
      rw [hcursor] at h
      obtain ⟨⟨r, log, memo⟩, hgrow, rfl⟩ := Option.map_eq_some_iff.mp h
      obtain ⟨-, ⟨stop', hnext⟩, ht⟩ := (Stack.grow_sound
        (fun stop => Moment.body_sound rfl hframes stop rule) n best trace hbetween
        hcovers).of_eq_some hgrow
      have hdone := hnext.ready.outcome r.tree? fun t h =>
        ⟨(ht t h).boundary, (ht t h).seen.push hnext.not_mem⟩
      refine ⟨by rw [hcursor]; exact hdone.moved, ?_⟩
      rw [hframes, hcursor]
      exact ⟨_, hdone.ready⟩

end Match

end Pegboard
