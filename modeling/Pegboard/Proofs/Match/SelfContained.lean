import Pegboard.Proofs.Match.Confined
import Pegboard.Proofs.Match.Keeping

/-!
# Rules that keep to themselves

A set of rules whose bodies apply no others is a grammar of its own. Applications of its rules come
to the same in that grammar as in the whole one, and in any other grammar that has these rules,
whatever else is being evaluated and whatever else the table holds.

So what is known of grammars whose left calls have no cycles but loops is known of such a part of
any grammar: as long as the part is `Tame`, the entries of its rules tell the truth. They do so even
where they were made in the course of evaluations that are not tame, since these only pass through.

Main statements: `ofRule_over`, `run_over`, `ofRule_tame`; `table_lasts`, `Session.tells_after`.
-/

namespace Pegboard

open Relation Match

namespace Grammar

variable {g : Grammar} {S : String → Prop} {r q : String} {e : Expr} {syn : Bool}

/-- The body of the rule `r` applies `q` somewhere. -/
def Calls (g : Grammar) (r q : String) : Prop :=
  ∃ rule, g.rule? r = some rule ∧ q ∈ rule.body.applied (isSyntactic rule.name)

/-- The rules of the set apply no others. -/
def SelfContained (g : Grammar) (S : String → Prop) : Prop :=
  ∀ r q, S r → g.Calls r q → S q

/-- The rules of the set apply no others, and no cycle of left calls that begins in it passes
through two rules. -/
structure Tame (g : Grammar) (S : String → Prop) : Prop where
  closed : g.SelfContained S
  loops : ∀ r q, S r → r ≠ q → TransGen g.LeftCalls r q → ¬ TransGen g.LeftCalls q r

open Classical in
/-- The grammar with the rules of the set alone. -/
noncomputable def only (g : Grammar) (S : String → Prop) : Grammar :=
  { g with rules := g.rules.filter fun rule => S rule.name }

theorem LeftCalls.calls (h : g.LeftCalls r q) : g.Calls r q := by
  obtain ⟨rule, hrule, hleft⟩ := h
  exact ⟨rule, hrule, hleft.mem_applied⟩

theorem selfContained_reachable (g : Grammar) (r : String) :
    g.SelfContained (ReflTransGen g.Calls r) :=
  fun _ _ hr hcalls => hr.tail hcalls

/-! ## The grammar of the set -/

open Classical in
theorem only_rule? (hq : S q) : (g.only S).rule? q = g.rule? q := by
  have hrules : (g.only S).rules = g.rules.filter fun rule => S rule.name := rfl
  rw [rule?, rule?, hrules, List.find?_filter]
  congr 1
  funext rule
  by_cases h : rule.name = q <;> simp [h, hq]

open Classical in
theorem mem_of_only (h : (g.only S).rule? q ≠ none) : S q := by
  obtain ⟨rule, hrule⟩ := Option.ne_none_iff_exists'.mp h
  have hmem : rule ∈ g.rules.filter fun rule => S rule.name := rule?_mem hrule
  exact rule?_name hrule ▸ of_decide_eq_true (List.mem_filter.mp hmem).2

theorem rule?_of_only {rule : Rule} (h : (g.only S).rule? q = some rule) :
    S q ∧ g.rule? q = some rule := by
  have hq : S q := mem_of_only (h ▸ Option.some_ne_none _)
  exact ⟨hq, only_rule? hq ▸ h⟩

theorem mem_of_hasRule (h : (g.only S).hasRule q = true) : S q :=
  mem_of_only (Option.isSome_iff_ne_none.mp h)

theorem MayStay.of_only (h : (g.only S).MayStay e) : g.MayStay e := by
  induction h with
  | endOfInput => exact .endOfInput
  | terminal => exact .terminal
  | apply hrule _ ih => exact .apply (rule?_of_only hrule).2 ih
  | alt he _ ih => exact .alt he ih
  | seq _ ih => exact .seq ih
  | iter hop => exact .iter hop
  | plus _ ih => exact .plus ih
  | not => exact .not
  | look => exact .look
  | lex _ ih => exact .lex ih

theorem LeftApplies.of_only (h : (g.only S).LeftApplies syn e q) : g.LeftApplies syn e q := by
  induction h with
  | apply => exact .apply
  | spaces he => exact .spaces he
  | alt he _ ih => exact .alt he ih
  | seq before hbefore _ ih => exact .seq before (fun d hd => (hbefore d hd).of_only) ih
  | iter _ ih => exact .iter ih
  | not _ ih => exact .not ih
  | look _ ih => exact .look ih
  | lex _ ih => exact .lex ih

theorem LeftCalls.of_only (h : (g.only S).LeftCalls r q) : S r ∧ g.LeftCalls r q := by
  obtain ⟨rule, hrule, hleft⟩ := h
  obtain ⟨hr, hrule⟩ := rule?_of_only hrule
  exact ⟨hr, rule, hrule, hleft.of_only⟩

theorem transGen_of_only (h : TransGen (g.only S).LeftCalls r q) :
    S r ∧ TransGen g.LeftCalls r q := by
  obtain ⟨p, hrp, -⟩ := TransGen.head'_iff.mp h
  exact ⟨hrp.of_only.1, h.lift id fun _ _ hcalls => hcalls.of_only.2⟩

/-- A tame part has no cycles of left calls but loops. -/
theorem Tame.loopsOnly (h : g.Tame S) : (g.only S).LoopsOnly := by
  intro r q hne hrq hqr
  obtain ⟨hr, hrq⟩ := transGen_of_only hrq
  exact h.loops r q hr hne hrq (transGen_of_only hqr).2

/-! ## The order of the rules being evaluated -/

/-- Each of the frames lies before the application, or leads to it from its left. -/
def Ordered (g : Grammar) (frames : List Evaluation.Frame) (pos : Nat) (q : String) : Prop :=
  ∀ f ∈ frames, f.1 < pos ∨ f.1 = pos ∧ TransGen g.LeftCalls f.2 q

variable {frames : List Evaluation.Frame} {pos : Nat}

/-- An application of a rule of a tame part is under the frames, if they are in order and it is not
one of them. -/
theorem Tame.under (hS : g.Tame S) (hq : S q) (h : g.Ordered frames pos q)
    (hnew : (pos, q) ∉ frames) : (g.only S).Under frames (pos, q) := by
  intro f hf _
  refine (h f hf).imp_right fun ⟨hpos, hcalls⟩ => ⟨hpos, fun hback => ?_⟩
  by_cases hname : f.2 = q
  · exact hnew ((Prod.ext hpos hname : f = (pos, q)) ▸ hf)
  · have hback := (reflTransGen_iff_eq_or_transGen.mp hback).resolve_left hname
    exact hS.loops q f.2 hq (Ne.symm hname) (transGen_of_only hback).2 hcalls

end Grammar

namespace Match

open Evaluation Text

/-- The bodies of rules apply rules in order. -/
theorem admitting_ordered (g : Grammar) : Admitting g False g.Ordered where
  body := by
    intro frames pos rule h hrule
    have hle : ∀ f ∈ (pos, rule.name) :: frames, f.1 ≤ pos := by
      refine List.forall_mem_cons.mpr ⟨Nat.le_refl _, fun f hf => ?_⟩
      exact (h f hf).elim Nat.le_of_lt fun h => Nat.le_of_eq h.1
    refine ⟨fun q hq => ?_, fun p hp q _ f hf => .inl ((hle f hf).trans_lt hp)⟩
    have hcalls : g.LeftCalls rule.name q := ⟨rule, hrule, hq⟩
    refine List.forall_mem_cons.mpr ⟨.inr ⟨rfl, .single hcalls⟩, fun f hf => ?_⟩
    exact (h f hf).imp_right fun ⟨hpos, hbefore⟩ => ⟨hpos, hbefore.tail hcalls⟩
  free := False.elim

variable {set : Setting} {S : String → Prop} {apply apply' : String → Evaluation} {q : String}

/-! ## Evaluations in another grammar with the rules of the set -/

/-- The same text matched by another grammar. -/
abbrev Setting.over (set : Setting) (g : Grammar) : Setting :=
  { set with grammar := g }

/-- The same text matched with the rules of the set alone. -/
noncomputable abbrev Setting.only (set : Setting) (S : String → Prop) : Setting :=
  { set with grammar := set.grammar.only S }

/-- Where spaces are skipped it matters how they are applied, and nothing else. -/
theorem spaced_congr {e e' : Evaluation} (skip : Bool)
    (h : skip = true → apply "spaces" = apply' "spaces") (he : e = e') :
    spaced apply skip e = spaced apply' skip e' := by
  subst he
  cases skip with
  | false => rfl
  | true =>
      have hskip : skipSpaces apply = skipSpaces apply' := by
        funext c log memo
        rw [skipSpaces, skipSpaces, h rfl]
      rw [spaced, spaced, hskip]

section

variable (set) (g : Grammar)

mutual

theorem ofExpr_over (syn : Bool) : ∀ e : Expr, (∀ q ∈ e.applied syn, apply q = apply' q) →
    ofExpr set apply syn e = ofExpr (set.over g) apply' syn e
  | .any, h => by
      rw [ofExpr, ofExpr]
      exact spaced_congr syn (fun hsyn => h _ (by simp [Expr.applied, hsyn])) rfl
  | .endOfInput, h => by
      rw [ofExpr, ofExpr]
      exact spaced_congr syn (fun hsyn => h _ (by simp [Expr.applied, hsyn])) rfl
  | .terminal s, h => by
      rw [ofExpr, ofExpr]
      exact spaced_congr syn (fun hsyn => h _ (by simp [Expr.applied, hsyn])) rfl
  | .range lo hi, h => by
      rw [ofExpr, ofExpr]
      exact spaced_congr syn (fun hsyn => h _ (by simp [Expr.applied, hsyn])) rfl
  | .apply q, h => by
      rw [ofExpr, ofExpr]
      refine spaced_congr _ (fun hsyn => h _ ?_) (h q ?_)
      · simp [Expr.applied, (Bool.and_eq_true_iff.mp hsyn).1]
      · cases syn <;> simp [Expr.applied]
  | .alt es, h => by
      rw [ofExpr, ofExpr, ofChoices_over syn es (by rwa [Expr.applied] at h)]
      rfl
  | .seq es, h => by
      rw [ofExpr, ofExpr, ofParts_over syn es (by rwa [Expr.applied] at h)]
      rfl
  | .iter op e, h => by
      rw [ofExpr, ofExpr, ofExpr_over syn e (by rwa [Expr.applied] at h)]
      rfl
  | .not e, h => by
      rw [ofExpr, ofExpr, ofExpr_over syn e (by rwa [Expr.applied] at h)]
      rfl
  | .look e, h => by
      rw [ofExpr, ofExpr, ofExpr_over syn e (by rwa [Expr.applied] at h)]
      rfl
  | .lex e, h => by
      rw [ofExpr, ofExpr, ofExpr_over false e (by rwa [Expr.applied] at h)]
      rfl

theorem ofChoices_over (syn : Bool) :
    ∀ es : List Expr, (∀ q ∈ Expr.appliedInAll syn es, apply q = apply' q) →
      ofChoices set apply syn es = ofChoices (set.over g) apply' syn es
  | [], _ => rfl
  | e :: es, h => by
      rw [Expr.appliedInAll, List.forall_mem_append] at h
      rw [ofChoices, ofChoices, ofExpr_over syn e h.1, ofChoices_over syn es h.2]

theorem ofParts_over (syn : Bool) :
    ∀ es : List Expr, (∀ q ∈ Expr.appliedInAll syn es, apply q = apply' q) →
      ofParts set apply syn es = ofParts (set.over g) apply' syn es
  | [], _ => rfl
  | e :: es, h => by
      rw [Expr.appliedInAll, List.forall_mem_append] at h
      rw [ofParts, ofParts, ofExpr_over syn e h.1, ofParts_over syn es h.2]

end

end

theorem grow_over (set : Setting) (g : Grammar) (rule : String) (pos : Nat) (body : Evaluation)
    (n : Nat) (best : Tree) (trace : List Trace.Node) (log : Log) (memo : Memo) :
    grow set rule pos body n best trace log memo =
      grow (set.over g) rule pos body n best trace log memo := by
  induction n generalizing best trace log memo with
  | zero => rfl
  | succ n ih =>
      rw [grow, grow]
      simp only [ih]

theorem work_over (set : Setting) (g : Grammar) (rule : Rule) (body : Evaluation) :
    work set rule body = work (set.over g) rule body := by
  funext c log memo
  rw [work_eq, work_eq, settle, settle]
  simp only [grow_over set g]
  rfl

/-- Applications of rules of the set come to the same in each grammar that has them. -/
theorem ofRule_over {g : Grammar} (hS : set.grammar.SelfContained S)
    (hg : ∀ q, S q → g.rule? q = set.grammar.rule? q) (hq : S q) (depth : Nat)
    (frames : List Frame) : ofRule set depth frames q = ofRule (set.over g) depth frames q := by
  induction depth generalizing frames q with
  | zero =>
      funext c log memo
      rw [ofRule, ofRule, hg q hq]
      rfl
  | succ depth ih =>
      funext c log memo
      rw [ofRule, ofRule, hg q hq]
      cases hrule : set.grammar.rule? q with
      | none => rfl
      | some rule =>
          have hbody : ofExpr set (ofRule set depth ((c.pos, rule.name) :: frames))
                (isSyntactic rule.name) rule.body =
              ofExpr (set.over g) (ofRule (set.over g) depth ((c.pos, rule.name) :: frames))
                (isSyntactic rule.name) rule.body :=
            ofExpr_over set g _ rule.body fun q' hq' =>
              ih (hS q q' hq ⟨rule, hrule, hq'⟩) ((c.pos, rule.name) :: frames)
          cases hentry : memo.find? c.pos rule.name with
          | some entry => simp only [hentry]; rfl
          | none => simp only [hentry, descend_eq, hbody, work_over set g]

/-- Applications of rules of the set come to the same without the others. -/
theorem ofRule_only (hS : set.grammar.SelfContained S) (hq : S q) (depth : Nat)
    (frames : List Frame) : ofRule set depth frames q = ofRule (set.only S) depth frames q :=
  ofRule_over hS (fun _ => Grammar.only_rule?) hq depth frames

/-- A match from a rule of the set comes to the same in each grammar that has them. -/
theorem run_over {g : Grammar} {start : String} (hS : set.grammar.SelfContained S)
    (hg : ∀ q, S q → g.rule? q = set.grammar.rule? q) (hstart : S start)
    (hspaces : isSyntactic start = true → S "spaces") (limit : Nat) (memo : Memo) :
    run set limit start memo = run (set.over g) limit start memo := by
  have hrule (q : String) (hq : S q) : ofRule set limit [] q = ofRule (set.over g) limit [] q :=
    ofRule_over hS hg hq limit []
  have hbefore := spaced_congr (isSyntactic start) (fun hsyn => hrule _ (hspaces hsyn))
    (rfl : (fun c log memo => some ⟨some c, log, memo⟩ : Evaluation) = _)
  have hend : ofExpr set (ofRule set limit []) (isSyntactic start) .endOfInput =
      ofExpr (set.over g) (ofRule (set.over g) limit []) (isSyntactic start) .endOfInput := by
    refine ofExpr_over set g _ _ fun q hq => hrule q ?_
    cases hsyn : isSyntactic start <;> rw [hsyn] at hq <;> simp [Expr.applied] at hq
    exact hq ▸ hspaces hsyn
  rw [run, run]
  simp only [hbefore, hrule start hstart, hend]

/-- What an application of a rule of a tame part comes to, if it comes to anything. -/
theorem ofRule_tame {rule : Rule} {depth : Nat} {frames : List Frame} {c : Cursor} {log : Log}
    {memo : Memo} {out : Outcome} {cs : List Char} (hset : set.tracing = false)
    (hS : set.grammar.Tame S) (hq : S rule.name) (hrule : set.grammar.rule? rule.name = some rule)
    (hleft : set.input.LeftAt c.pos cs)
    (htable : Table (set.grammar.only S) set.input frames memo)
    (hunder : (set.grammar.only S).Under frames (c.pos, rule.name))
    (h : ofRule set depth frames rule.name c log memo = some out) :
    let a := (set.grammar.only S).meaning rule.name cs
    out.cursor? = a.tree?.map c.push ∧ out.log = log.tell c.pos a ∧
      Table (set.grammar.only S) set.input frames out.memo := by
  rw [ofRule_only hS.closed hq] at h
  have hloops : (set.only S).grammar.LoopsOnly := hS.loopsOnly
  exact ofRule_applied hloops hset ((Grammar.only_rule? hq).trans hrule) hleft htable hunder h

/-! ## The entries of a tame part -/

variable {i : Input} {frames : List Frame} {pos : Nat} {memo : Memo}

/-- Entries of rules that are not in the grammar make no difference. -/
theorem Table.put_other {g : Grammar} {f : Frame} (h : Table g i (f :: frames) memo)
    (hpos : f.1 < memo.slots.size) (hrule : ¬ g.hasRule f.2 = true) (e : Entry) :
    Table g i frames (memo.put f.1 f.2 e) where
  size := by rw [Memo.size_put, h.size]
  keyed := h.keyed.put
  settled := by
    intro p q s hq he
    rw [Memo.find?_put_of_ne hpos fun heq => hrule (by rwa [← (Prod.mk.inj heq).2])] at he
    exact h.settled p q s hq he
  growing := by
    intro p q seed? trace? read hq he
    have hne : (p, q) ≠ f := fun heq => hrule (heq ▸ hq)
    rw [Memo.find?_put_of_ne hpos hne] at he
    exact (List.mem_cons.mp (h.growing p q seed? trace? read hq he)).resolve_left hne

theorem Table.drop_other {g : Grammar} {f : Frame} (h : Table g i (f :: frames) memo)
    (hrule : ¬ g.hasRule f.2 = true) : Table g i frames (memo.drop f.1 f.2) where
  size := by rw [Memo.size_drop, h.size]
  keyed := h.keyed.drop
  settled := by
    intro p q s hq he
    rw [Memo.find?_drop h.keyed, if_neg fun heq => hrule (by rwa [← (Prod.mk.inj heq).2])] at he
    exact h.settled p q s hq he
  growing := by
    intro p q seed? trace? read hq he
    have hne : (p, q) ≠ f := fun heq => hrule (heq ▸ hq)
    rw [Memo.find?_drop h.keyed, if_neg hne] at he
    exact (List.mem_cons.mp (h.growing p q seed? trace? read hq he)).resolve_left hne

/-- The entries of a tame part tell the truth, whatever else is evaluated. -/
theorem table_lasts (hset : set.tracing = false) (hS : set.grammar.Tame S) :
    Lasting set set.grammar.Ordered fun frames _ memo =>
      Table (set.grammar.only S) set.input frames memo where
  read := by
    intro σ base c log memo q i seed? trace? read hσ hr _ hframe _ h
    exact h.plant (hr.intact.lt_size hr.boundary) (List.mem_of_getElem? hframe) seed? trace? true
  enter := by
    intro σ base c log memo rule hσ hr _ _ h
    exact (h.cons _).plant (hr.intact.lt_size hr.boundary) List.mem_cons_self none none false
  reseed := by
    intro σ f stop log memo t trace? hσ hbetween _ h
    exact h.plant (hbetween.intact.lt_size hbetween.boundary) List.mem_cons_self (some t) trace? true
  leave := by
    intro σ rule depth base c log memo r inner memo' hσ hfinished hordered h h'
    subst hσ
    -- a rule of the set leaves what it comes to on its own, and any other one has no entries here
    by_cases hq : S rule.name
    · have hnew : (c.pos, rule.name) ∉ σ.frames := by
        intro hmem
        obtain ⟨seed?, trace?, read, hentry⟩ := hfinished.ready.intact.active _ hmem
        cases hfinished.missing.symm.trans hentry
      obtain ⟨cs, hleft⟩ := hfinished.ready.boundary.exists_left
      exact (ofRule_tame hset hS hq hfinished.declared hleft h
        (hS.under hq hordered hnew) hfinished.applied).2.2
    · have hrule : ¬ (σ.set.grammar.only S).hasRule rule.name = true :=
        fun hrule => hq (Grammar.mem_of_hasRule hrule)
      obtain ⟨stop, hbetween⟩ := hfinished.between
      split
      · exact h'.drop_other (f := (c.pos, rule.name)) hrule
      · exact h'.put_other (f := (c.pos, rule.name))
          (hbetween.intact.lt_size hbetween.boundary) hrule _

/-! ## Sessions -/

theorem starts_ordered (g : Grammar) (start : String) : Lasting.Starts g.Ordered start :=
  ⟨fun _ => List.forall_mem_nil _, fun _ _ => List.forall_mem_nil _⟩

namespace Session

variable {g : Grammar} {s : Session}

/-- What a session has found of the rules in the set is true, and no rule has taken nothing that may
not stay where it is. -/
structure Tells (g : Grammar) (S : String → Prop) (s : Session) : Prop where
  fits : Fits g s
  table : Table (g.only S) s.input [] s.memo
  rests : s.memo.Rests g False

theorem Tells.step (hS : g.Tame S) (h : Tells g S s) (op : Operation) : Tells g S (s.step op) := by
  have hfits := h.fits.step op
  cases op with
  | setText text =>
      exact ⟨hfits, Table.blank (g.only S) (.ofString text), Memo.rests_blank g False _⟩
  | replaceRange start stop new =>
      rw [Session.step] at hfits ⊢
      split at hfits
      · rename_i s' hs
        obtain ⟨text, htext, rfl⟩ := replaceRange_eq_ok hs
        obtain ⟨front, old, back, hold, hnew, rfl, rfl⟩ := Text.replaceRange_eq_ok htext
        refine ⟨hfits, ?_, ?_⟩
        · rw [← byteSize_toList]
          exact h.table.splice hS.loopsOnly hold (by rw [Input.text_ofString]; exact hnew)
        · intro pos q e t he
          rw [← byteSize_toList] at he
          rcases Memo.of_find?_splice h.table.keyed (h.table.front_le hold) he with
            ⟨-, he, -⟩ | ⟨k, -, he⟩
          · exact h.rests _ q e t he
          · exact h.rests _ q e t he
      · exact h
  | matchRule start? =>
      obtain ⟨⟨rfl, hintact⟩, htable, hrests⟩ := h
      rw [Session.step, Session.matchRule] at hfits ⊢
      cases hstart : s.grammar.startRule start? with
      | error e =>
          simp only [hstart] at hfits ⊢
          exact ⟨hfits, htable, hrests⟩
      | ok rule =>
          cases hrun : run ⟨s.grammar, s.input, false⟩ nestingLimit rule.name s.memo with
          | none =>
              simp only [hstart, hrun] at hfits ⊢
              exact ⟨hfits, Table.blank _ s.input, Memo.rests_blank _ _ _⟩
          | some out =>
              simp only [hstart, hrun] at hfits ⊢
              obtain ⟨-, htable', hrests'⟩ := (table_lasts rfl hS).run_keeps
                (admitting_ordered _) (starts_ordered _ rule.name) hintact ⟨htable, hrests⟩ hrun
              exact ⟨hfits, htable', hrests'⟩

/-- Whatever was asked of a session, what it has found of the rules of a tame part is true. -/
theorem tells_after (hS : g.Tame S) (ops : List Operation) : Tells g S (after g ops) := by
  have run : ∀ s, Tells g S s → Tells g S (ops.foldl Session.step s) := by
    induction ops with
    | nil => exact fun s h => h
    | cons op ops ih => exact fun s h => ih _ (h.step hS op)
  exact run _ ⟨fits_after g [], Table.blank _ (.ofString ""), Memo.rests_blank g False _⟩

end Session

end Match

end Pegboard
