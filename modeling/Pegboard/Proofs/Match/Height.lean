import Pegboard.Grammar.Match
import Pegboard.Proofs.Match.Outcomes

/-!
# Rules of bounded height

Where rule applications go down, from each rule to rules of a lower height, they nest no deeper than
the height of the first one, whatever the text is. A match from such a rule comes to something, as
long as its height is within the limit.

Only lexical rules are considered, which apply nothing but what their bodies name.

Main statement: `Grammar.matchText_of_height`.
-/

namespace Pegboard

open Match Match.Evaluation

/-- Applications of the lexical rule `q` nest at most `n` deep. -/
def Grammar.heightAtMost (g : Grammar) : Nat → String → Bool
  | 0, q => !g.hasRule q
  | n + 1, q =>
    match g.rule? q with
    | none => true
    | some rule =>
      !isSyntactic rule.name &&
        (rule.body.applications true).all fun a => g.heightAtMost n a.1

namespace Match.Evaluation

/-- The evaluation comes to something wherever it begins. -/
def Total (e : Evaluation) : Prop :=
  ∀ c log memo, (e c log memo).isSome = true

namespace Total

variable {set : Setting} {e first second : Evaluation} {apply : String → Evaluation}

theorem any : (Evaluation.any set).Total := by
  intro c log memo
  rw [Evaluation.any]
  split <;> rfl

theorem endOfInput : (Evaluation.endOfInput set).Total := by
  intro c log memo
  rw [Evaluation.endOfInput]
  split <;> rfl

theorem terminal (s : String) : (Evaluation.terminal set s).Total := by
  intro c log memo
  rw [Evaluation.terminal]
  split <;> rfl

theorem range (lo hi : Char) : (Evaluation.range set lo hi).Total := by
  intro c log memo
  rw [Evaluation.range]
  split
  · rfl
  · dsimp only
    split <;> rfl

theorem andThen (h₁ : first.Total) (h₂ : second.Total) : (first.andThen second).Total := by
  intro c log memo
  obtain ⟨⟨c?, log', memo'⟩, hout⟩ := Option.isSome_iff_exists.mp (h₁ c log memo)
  rw [Evaluation.andThen, hout]
  cases c? with
  | none => rfl
  | some c' => exact h₂ c' log' memo'

theorem orElse (h₁ : first.Total) (h₂ : second.Total) : (first.orElse second).Total := by
  intro c log memo
  obtain ⟨⟨c?, log', memo'⟩, hout⟩ := Option.isSome_iff_exists.mp (h₁ c log memo)
  rw [Evaluation.orElse, hout]
  cases c? with
  | none => exact h₂ c log' memo'
  | some c' => rfl

theorem traced (expr : Expr) (h : e.Total) : (Evaluation.traced set expr e).Total := by
  intro c log memo
  rw [Evaluation.traced]
  split
  · obtain ⟨out, hout⟩ := Option.isSome_iff_exists.mp (h c { log with trace := [] } memo)
    rw [hout]
    rfl
  · exact h c log memo

theorem not (expr : Expr) (h : e.Total) : (Evaluation.not expr e).Total := by
  intro c log memo
  obtain ⟨⟨c?, log', memo'⟩, hout⟩ :=
    Option.isSome_iff_exists.mp (h c { log with failures := ∅ } memo)
  rw [Evaluation.not, hout]
  cases c? <;> rfl

theorem look (h : e.Total) : (Evaluation.look e).Total := by
  intro c log memo
  obtain ⟨out, hout⟩ := Option.isSome_iff_exists.mp (h c log memo)
  rw [Evaluation.look, hout]
  rfl

theorem rounds (h : e.Total) (n : Nat) (matched : Bool) :
    (Evaluation.rounds e n matched).Total := by
  induction n generalizing matched with
  | zero => exact fun c log memo => rfl
  | succ n ih =>
      intro c log memo
      obtain ⟨⟨c?, log', memo'⟩, hout⟩ := Option.isSome_iff_exists.mp (h c log memo)
      simp only [Evaluation.rounds, hout]
      cases c? with
      | none => rfl
      | some c' =>
          dsimp only
          split
          · rfl
          · exact ih true c' log' memo'

theorem iter (op : Repeat) (h : e.Total) : (Evaluation.iter set op e).Total := by
  intro c log memo
  obtain ⟨⟨c?, log', memo'⟩, hout⟩ := Option.isSome_iff_exists.mp
    (h.rounds (roundLimit set op c.pos) (op != .plus) ⟨c.pos, []⟩ log memo)
  rw [Evaluation.iter, hout]
  cases c? <;> rfl

mutual

/-- Where no spaces are skipped, an expression comes to something if the rules that it applies
do. -/
theorem ofExpr : (expr : Expr) → (∀ a ∈ expr.applications true, (apply a.1).Total) →
    (Evaluation.ofExpr set apply false expr).Total
  | .any, _ => by
      rw [Evaluation.ofExpr]
      exact traced _ any
  | .endOfInput, _ => by
      rw [Evaluation.ofExpr]
      exact traced _ endOfInput
  | .terminal s, _ => by
      rw [Evaluation.ofExpr]
      exact traced _ (terminal s)
  | .range lo hi, _ => by
      rw [Evaluation.ofExpr]
      exact traced _ (range lo hi)
  | .apply rule, h => by
      rw [Evaluation.ofExpr]
      exact h (rule, true) (List.mem_singleton_self _)
  | .alt es, h => by
      rw [Evaluation.ofExpr]
      exact traced _ (ofChoices es h)
  | .seq es, h => by
      rw [Evaluation.ofExpr]
      exact traced _ (ofParts es h)
  | .iter op expr, h => by
      rw [Evaluation.ofExpr]
      exact traced _ (iter op (ofExpr expr h))
  | .not expr, h => by
      rw [Evaluation.ofExpr]
      exact traced _ (not expr (ofExpr expr h))
  | .look expr, h => by
      rw [Evaluation.ofExpr]
      exact traced _ (look (ofExpr expr h))
  | .lex expr, h => by
      rw [Evaluation.ofExpr]
      exact traced _ (ofExpr expr h)

theorem ofChoices : (es : List Expr) → (∀ a ∈ Expr.applicationsAll true es, (apply a.1).Total) →
    (Evaluation.ofChoices set apply false es).Total
  | [], _ => by
      rw [Evaluation.ofChoices]
      exact fun c log memo => rfl
  | expr :: es, h => by
      rw [Expr.applicationsAll, List.forall_mem_append] at h
      rw [Evaluation.ofChoices]
      exact (ofExpr expr h.1).orElse (ofChoices es h.2)

theorem ofParts : (es : List Expr) → (∀ a ∈ Expr.applicationsAll true es, (apply a.1).Total) →
    (Evaluation.ofParts set apply false es).Total
  | [], _ => by
      rw [Evaluation.ofParts]
      exact fun c log memo => rfl
  | expr :: es, h => by
      rw [Expr.applicationsAll, List.forall_mem_append] at h
      rw [Evaluation.ofParts]
      exact (ofExpr expr h.1).andThen (ofParts es h.2)

end

/-! ## Rule applications -/

theorem round (h : e.Total) (rule : String) (pos : Nat) (log : Log) (memo : Memo) :
    (Evaluation.round rule pos e log memo).isSome = true := by
  obtain ⟨out, hout⟩ := Option.isSome_iff_exists.mp (h ⟨pos, []⟩ { log with trace := [] } memo)
  rw [Evaluation.round, hout]
  rfl

theorem grow (h : e.Total) (rule : String) (pos n : Nat) (best : Tree) (trace : List Trace.Node)
    (log : Log) (memo : Memo) :
    (Evaluation.grow set rule pos e n best trace log memo).isSome = true := by
  induction n generalizing best trace log memo with
  | zero => rfl
  | succ n ih =>
      obtain ⟨⟨⟨tree?, trace'⟩, log', memo'⟩, hround⟩ := Option.isSome_iff_exists.mp
        (h.round rule pos log (memo.put pos rule (reseeded set rule pos best trace)))
      rw [grow_succ_eq, hround, Option.bind_some]
      cases tree? with
      | none => rfl
      | some t =>
          dsimp only
          split
          · rfl
          · exact ih t trace' log' memo'

theorem work (h : e.Total) (rule : Rule) : (Evaluation.work set rule e).Total := by
  intro c log memo
  obtain ⟨⟨⟨tree?, trace'⟩, log', memo'⟩, hround⟩ := Option.isSome_iff_exists.mp
    (h.round rule.name c.pos (.start c.pos) (memo.put c.pos rule.name (.growing none none false)))
  rw [work_eq, Option.isSome_map, settle_eq, hround, Option.bind_some]
  cases tree? with
  | none => rfl
  | some t =>
      dsimp only
      split
      · exact h.grow rule.name c.pos _ t trace' log' memo'
      · rfl

/-- The induction is on the height: a rule uses up one level of nesting, and what it applies has one
level less to it. -/
theorem ofRule {n depth : Nat} {q : String} (h : set.grammar.heightAtMost n q = true)
    (hle : n ≤ depth) (frames : List Frame) : (Evaluation.ofRule set depth frames q).Total := by
  intro c log memo
  induction n generalizing depth q frames c log memo with
  | zero =>
      have hnone : set.grammar.rule? q = none := by
        simpa [Grammar.heightAtMost, Grammar.hasRule] using h
      rw [Evaluation.ofRule.eq_def, hnone]
      rfl
  | succ n ih =>
      obtain ⟨depth, rfl⟩ : ∃ d, depth = d + 1 := ⟨depth - 1, by omega⟩
      rw [Evaluation.ofRule]
      cases hrule : set.grammar.rule? q with
      | none => rfl
      | some rule =>
          simp only [Grammar.heightAtMost, hrule, Bool.and_eq_true, Bool.not_eq_true',
            List.all_eq_true] at h
          obtain ⟨hlexical, hcalls⟩ := h
          dsimp only
          cases memo.find? c.pos rule.name with
          | some entry => rfl
          | none =>
              rw [descend_eq, hlexical]
              have hbody : (Evaluation.ofExpr set (Evaluation.ofRule set depth
                  ((c.pos, rule.name) :: frames)) false rule.body).Total := ofExpr _ fun a ha =>
                ih (hcalls a ha) (Nat.le_of_succ_le_succ hle) ((c.pos, rule.name) :: frames)
              exact hbody.work rule c log memo

end Total

end Match.Evaluation

/-- A match from a lexical rule whose height is within the limit comes to something, whatever the
text. -/
theorem Grammar.matchText_of_height {g : Grammar} {start? : Option String} {rule : Rule} {n : Nat}
    (hstart : g.startRule start? = .ok rule) (hlexical : isSyntactic rule.name = false)
    (hheight : g.heightAtMost n rule.name = true) (hle : n ≤ nestingLimit) (text : String) :
    ∃ r, g.matchText text start? = .ok r := by
  let set : Setting := ⟨g, .ofString text, false⟩
  have hrule : (Evaluation.ofRule set nestingLimit [] rule.name).Total :=
    Evaluation.Total.ofRule hheight hle []
  have hend : (Evaluation.ofExpr set (Evaluation.ofRule set nestingLimit []) false
      .endOfInput).Total :=
    .ofExpr _ nofun
  obtain ⟨⟨c?, log, memo⟩, hout⟩ := Option.isSome_iff_exists.mp
    ((hrule.andThen hend) ⟨0, []⟩ (.start 0) (.blank set.input.size))
  have hrun : ∃ a, run set nestingLimit rule.name (.blank set.input.size) = some a := by
    simp only [run, hlexical, Evaluation.spaced, Bool.false_eq_true, if_false, Option.getD_some,
      hout]
    exact ⟨_, rfl⟩
  obtain ⟨⟨a, memo'⟩, hrun⟩ := hrun
  refine ⟨⟨set.input, rule.name, a.tree?, a.failures⟩, ?_⟩
  simp only [matchText, answer, hstart, bind, Except.bind]
  rw [show Match.run ⟨g, .ofString text, false⟩ nestingLimit rule.name
    (.blank (Text.Input.ofString text).size) = some (a, memo') from hrun]
  rfl

end Pegboard
