import Pegboard.Proofs.Match.Keeping

/-!
# What holds throughout a match

A fact that rule applications keep is true at every moment of a match that begins with it, and at
every moment nothing is about to be applied but what may be.

Main statement: `Lasting.reached`.
-/

namespace Pegboard

open Match Match.Evaluation

/-- Spaces are skipped before an expression in a syntactic context exactly if they are looked for at
its moment. -/
theorem Expr.Spaced.skipsSpaces {e : Expr} (h : e.Spaced) : e.skipsSpaces = true := by
  cases e <;> simp_all [Expr.Spaced, Expr.skipsSpaces, Expr.consumesInput]

/-- Behind the spaces the expression applies what it applies in a syntactic context. -/
theorem Grammar.Admits.unspaced {g : Grammar} {admitted : Nat → String → Prop} {e : Expr} {pos : Nat}
    (h : g.Admits admitted true e pos) (he : e.Spaced) : g.Admits admitted false e pos := by
  refine h.part (fun q hq => ?_) fun q hq => ?_
  · cases hq <;> simp_all only [Expr.Spaced]
    exact .apply
  · cases e <;> simp_all [Expr.Spaced, Expr.applied]

namespace Match

variable {set : Setting} {free : Prop} {admitted : List Frame → Nat → String → Prop}
variable {P : List Frame → Nat → Memo → Prop} {limit : Nat} {start : String} {memo : Memo}
variable {m m' : Moment} {ends : Frame → Nat}

/-- What the evaluation may apply is admitted, and a match that is to grow and took nothing is one of
a rule that may stay where it is. -/
def Moment.Admits (set : Setting) (free : Prop) (admitted : List Frame → Nat → String → Prop)
    (m : Moment) : Prop :=
  match m.task with
  | .expr syn e => set.grammar.Admits (admitted m.frames) syn e m.cursor.pos
  | .choices syn es => set.grammar.Admits (admitted m.frames) syn (.alt es) m.cursor.pos
  | .parts syn es => set.grammar.Admits (admitted m.frames) syn (.seq es) m.cursor.pos
  | .rounds syn _ e _ _ => set.grammar.Admits (admitted m.frames) syn e m.cursor.pos
  | .apply q => admitted m.frames m.cursor.pos q
  | .grow rule _ best _ => ∃ outer, m.frames = (m.cursor.pos, rule.name) :: outer ∧
      set.grammar.rule? rule.name = some rule ∧ admitted outer m.cursor.pos rule.name ∧
      (best.length = 0 → set.grammar.Rests free (.apply rule.name))

/-- The fact is true at the moment, and what is about to be applied may be. -/
structure Moment.Upholds (set : Setting) (free : Prop)
    (admitted : List Frame → Nat → String → Prop) (P : List Frame → Nat → Memo → Prop)
    (m : Moment) : Prop where
  kept : Lasting.Kept set free P m.frames m.log.heads m.memo
  admits : m.Admits set free admitted

@[simp] theorem Moment.heads_nodeLog (m : Moment) : (m.nodeLog set).heads = m.log.heads := by
  rw [nodeLog]
  split <;> rfl

namespace Lasting

variable (h : Lasting set admitted P) (hadmitting : Admitting set.grammar free admitted)

include h hadmitting

theorem expr_keeps (m : Moment) (ends : Frame → Nat) (syn : Bool) (e : Expr) :
    (⟨set, m.frames, ends⟩ : Stack).Keeps (Kept set free P m.frames)
      (set.grammar.Admits (admitted m.frames) syn e) (set.grammar.Rests free e)
      (ofExpr set (m.apply set) syn e) :=
  Stack.ofExpr_keeps (σ := ⟨set, m.frames, ends⟩) (fun hfree => hadmitting.free hfree _)
    (Stack.ofRule_sound ⟨set, m.frames, ends⟩ m.depth)
    (fun q => h.ofRule_keeps hadmitting m.depth ⟨set, m.frames, ends⟩ q rfl) syn e

/-- The body of a rule keeps what lasts below the frame of the rule. -/
theorem body_keeps {σ : Stack} {pos : Nat} {rule : Rule} (m : Moment) (hset : σ.set = set)
    (hframes : m.frames = (pos, rule.name) :: σ.frames)
    (hrule : set.grammar.rule? rule.name = some rule)
    (hadmitted : admitted σ.frames pos rule.name) :
    BodyKeeps set free P σ (pos, rule.name) (m.body set rule) := by
  subst hset
  intro stop
  have heq : (⟨σ.set, m.frames, (σ.push (pos, rule.name) stop).ends⟩ : Stack) =
      σ.push (pos, rule.name) stop := by
    rw [hframes]
    rfl
  have hkeeps := h.expr_keeps hadmitting m (σ.push (pos, rule.name) stop).ends
    (isSyntactic rule.name) rule.body
  rw [heq, hframes] at hkeeps
  refine ⟨(Moment.body_sound rfl hframes stop rule).weaken fun _ => trivial, hkeeps.weaken ?_ ?_⟩
  · rintro _ rfl
    exact hadmitting.body σ.frames _ rule hadmitted hrule
  · exact fun hstays => hstays.imp_right (.apply hrule)

omit hadmitting in
/-- What is known of a rule whose match is to grow. -/
theorem growing {rule : Rule} {n : Nat} {best : Tree} {trace : List Trace.Node}
    (hm : m.Holds set limit) (hk : m.Upholds set free admitted P)
    (htask : m.task = .grow rule n best trace) :
    ∃ (σ : Stack) (stop : Nat), σ.set = set ∧ m.cursor = ⟨m.base, []⟩ ∧
      m.frames = (m.base, rule.name) :: σ.frames ∧ set.grammar.rule? rule.name = some rule ∧
      admitted σ.frames m.base rule.name ∧ σ.Between (m.base, rule.name) stop m.log m.memo ∧
      σ.Covers (m.base, rule.name) m.log best ∧
      ∀ trace?, Kept set free P ((m.base, rule.name) :: σ.frames) m.log.heads
        (m.memo.put m.base rule.name (.growing (some best) trace? true)) := by
  obtain ⟨hkept, hadmits⟩ := hk
  rw [Moment.Admits, htask] at hadmits
  obtain ⟨outer, hframes, hrule, hadmitted, hstays⟩ := hadmits
  obtain ⟨hcursor, -, σ, stop, hset, hframes', hbetween, hcovers⟩ := hm.grow _ _ _ _ htask
  rw [hcursor] at hframes hadmitted
  obtain rfl := (List.cons.inj (hframes.symm.trans hframes')).2
  refine ⟨σ, stop, hset, hcursor, hframes', hrule, hadmitted, hbetween, hcovers, fun trace? => ?_⟩
  rw [hframes'] at hkept
  exact h.reseed_keeps hset hbetween hadmitted hkept hstays trace?

/-- What is kept at a moment is kept at those that it leads to. -/
theorem leads (hleads : Leads set m m') (hm : m.Holds set limit)
    (hk : m.Upholds set free admitted P) : m'.Upholds set free admitted P := by
  obtain ⟨ends, hready⟩ := hm.ready
  obtain ⟨hkept, hadmits⟩ := hk
  have hsound := Moment.expr_sound set m ends
  have hkeeps := h.expr_keeps hadmitting m ends
  cases hleads with
  | spaces htask he =>
      rw [Moment.Admits, htask] at hadmits
      exact ⟨hkept, hadmits.spaces rfl he.skipsSpaces⟩
  | behindSpaces htask he hskip =>
      rw [Moment.Admits, htask] at hadmits
      have hspaces := Stack.skipSpaces_keeps (h.ofRule_keeps hadmitting m.depth
        ⟨set, m.frames, ends⟩ "spaces" rfl)
      have hdone := (Stack.skipSpaces_sound (σ := ⟨set, m.frames, ends⟩)
        (Stack.ofRule_sound ⟨set, m.frames, ends⟩ m.depth) _ _ _ _ hready).of_eq_some hskip
      exact ⟨(hspaces _ _ _ _ _ hready (hadmits.spaces rfl he.skipsSpaces) hkept hskip).1,
        (hadmits.unspaced he).further (hdone.moved _ rfl)⟩
  | application htask hwhen =>
      rw [Moment.Admits, htask] at hadmits
      exact ⟨hkept, hadmits.left _ .apply⟩
  | alt htask =>
      rw [Moment.Admits, htask] at hadmits
      exact ⟨by rwa [Moment.heads_nodeLog], hadmits⟩
  | seq htask =>
      rw [Moment.Admits, htask] at hadmits
      exact ⟨by rwa [Moment.heads_nodeLog], hadmits⟩
  | iter htask =>
      rw [Moment.Admits, htask] at hadmits
      exact ⟨by rwa [Moment.heads_nodeLog],
        hadmits.part (fun _ hq => .iter hq) (fun _ hq => by rwa [Expr.applied])⟩
  | not htask =>
      rw [Moment.Admits, htask] at hadmits
      refine ⟨?_, hadmits.part (fun _ hq => .not hq) (fun _ hq => by rwa [Expr.applied])⟩
      show Kept set free P m.frames (m.nodeLog set).heads m.memo
      rwa [Moment.heads_nodeLog]
  | look htask =>
      rw [Moment.Admits, htask] at hadmits
      exact ⟨by rwa [Moment.heads_nodeLog],
        hadmits.part (fun _ hq => .look hq) (fun _ hq => by rwa [Expr.applied])⟩
  | lex htask =>
      rw [Moment.Admits, htask] at hadmits
      exact ⟨by rwa [Moment.heads_nodeLog],
        hadmits.part (fun _ hq => .lex hq) (fun _ hq => by rwa [Expr.applied])⟩
  | choice htask =>
      rw [Moment.Admits, htask] at hadmits
      exact ⟨hkept, hadmits.first⟩
  | nextChoice htask hfirst =>
      rw [Moment.Admits, htask] at hadmits
      exact ⟨(hkeeps _ _ _ _ _ _ _ hready hadmits.first hkept hfirst).1, hadmits.others⟩
  | part htask =>
      rw [Moment.Admits, htask] at hadmits
      exact ⟨hkept, hadmits.head⟩
  | nextPart htask hfirst =>
      rw [Moment.Admits, htask] at hadmits
      obtain ⟨hkept', hstay⟩ := hkeeps _ _ _ _ _ _ _ hready hadmits.head hkept hfirst
      have hdone := (hsound _ _ _ _ _ _ hready).of_eq_some hfirst
      exact ⟨hkept', hadmits.tail (fun hfree => hadmitting.free hfree _) (hdone.moved _ rfl)
        (hstay _ rfl)⟩
  | round htask =>
      rw [Moment.Admits, htask] at hadmits
      exact ⟨hkept, hadmits⟩
  | nextRound htask hfirst hmoved =>
      rw [Moment.Admits, htask] at hadmits
      have hdone := (hsound _ _ _ _ _ _ hready).of_eq_some hfirst
      exact ⟨(hkeeps _ _ _ _ _ _ _ hready hadmits hkept hfirst).1,
        hadmits.further (hdone.moved _ rfl)⟩
  | @enter q rule depth htask hrule hnew hdepth =>
      rw [Moment.Admits, htask] at hadmits
      obtain rfl := Grammar.rule?_name hrule
      exact ⟨h.enter_keeps (σ := ⟨set, m.frames, ends⟩) rfl hready hadmits hnew hkept,
        hadmitting.body m.frames m.cursor.pos rule hadmits hrule⟩
  | @grow q rule depth t trace log memo htask hrule hnew hdepth hround hread =>
      rw [Moment.Admits, htask] at hadmits
      obtain rfl := Grammar.rule?_name hrule
      have hbetween := Moment.enter_between depth hready hrule hnew
      have hkept₀ := h.enter_keeps (σ := ⟨set, m.frames, ends⟩) rfl hready hadmits hnew hkept
      obtain ⟨-, hkept', hcovers⟩ := round_keeps
        (h.body_keeps hadmitting (σ := ⟨set, m.frames, ends⟩) (m.entered depth rule) rfl rfl hrule
          hadmits) hbetween hkept₀ hround
      exact ⟨hkept', m.frames, rfl, hrule, hadmits, (hcovers t rfl).2⟩
  | @regrow rule n best trace htask =>
      obtain ⟨σ, stop, rfl, hcursor, hframes, hrule, hadmitted, -, -, hkept'⟩ :=
        h.growing hm ⟨hkept, hadmits⟩ htask
      refine ⟨?_, ?_⟩
      · simp only [hframes, hcursor]
        exact hkept' _
      · simp only [Moment.Admits, hframes, hcursor]
        exact hadmitting.body _ _ rule hadmitted hrule
  | @grown rule n best t trace trace' log memo htask hround hlonger =>
      obtain ⟨σ, stop, rfl, hcursor, hframes, hrule, hadmitted, hbetween, hcovers, hkept'⟩ :=
        h.growing hm ⟨hkept, hadmits⟩ htask
      rw [hcursor] at hround
      generalize (if σ.set.tracing then _ else _ : Option Trace.Node) = trace? at hround
      obtain ⟨-, hkept'', hcovers'⟩ := round_keeps
        (h.body_keeps hadmitting m rfl hframes hrule hadmitted) (hbetween.reseed hcovers trace?)
        (hkept' trace?) hround
      refine ⟨?_, σ.frames, ?_, hrule, ?_, (hcovers' t rfl).2⟩
      · simp only [hframes]
        exact hkept''
      · simp only [hcursor, hframes]
      · simp only [hcursor]
        exact hadmitted

/-- What a match begins with is kept at every moment that it comes to. -/
theorem reached (hstarts : Starts admitted start) (hmemo : (Stack.bottom set).Intact memo)
    (hkept : Kept set free P [] 0 memo) (hm : Reached set limit start memo m) :
    m.Upholds set free admitted P := by
  induction hm with
  | begins hbegins =>
      have hr := Stack.ready_bottom hmemo
      cases hbegins with
      | spaces hsyntactic => exact ⟨hkept, hstarts.spaces hsyntactic 0⟩
      | start hbefore =>
          have hkept' := (h.before_keeps hadmitting limit hstarts _ _ _ _ _ hr trivial hkept hbefore).1
          exact ⟨hkept', hstarts.rule _⟩
      | @stop c? c _ _ _ _ hbefore hstart =>
          have hkept' := (h.before_keeps hadmitting limit hstarts _ _ _ _ _ hr trivial hkept hbefore).1
          have hdone := (Stack.spaces_done limit start hmemo).of_eq_some hbefore
          have hkept'' := (h.outermost_keeps hadmitting limit hstarts.rule _ _ _ _ _ hdone.ready
            trivial hkept' hstart).1
          exact ⟨hkept'', fun q hq => hstarts.atEnd hq.mem_applied _,
            fun p _ q hq => hstarts.atEnd hq p⟩
  | leads hm hleads ih => exact h.leads hadmitting hleads (hm.holds hmemo) ih

end Lasting

end Match

end Pegboard
