import Pegboard.Grammar.Match
import Pegboard.Proofs.Match.Rule

/-!
# Matches of a whole text

A match applies its start rule and looks for the end behind it, as the sequence of the two would.
What it comes to is therefore what that sequence comes to under the meaning of the grammar, as long
as the table it begins with holds the truth, and whether it nests too deep depends on the calls of
that reading alone (`run_cases`).
-/

namespace Pegboard

open Text

/-- The start rule and the end behind it. -/
def Expr.whole (start : String) : Expr :=
  .seq [.apply start, .endOfInput]

/-- The tree that a reading of a whole text found, with its offset. -/
def Reading.tree? (r : Reading) : Option (Nat × Tree) :=
  r.taken?.bind fun t => t.trees.head?

/-- The trees behind skipped spaces are those of what is read there. -/
theorem Reading.spaced_trees {m : Meaning} {skip : Bool} {read : List Char → Reading}
    {cs : List Char} {t : Taken} (h : (Reading.spaced m skip read cs).taken? = some t) :
    ∃ cs' base u, (read cs').taken? = some u ∧
      t.trees = u.trees.map fun (o, tree) => (base + o, tree) := by
  cases skip with
  | false => exact ⟨cs, 0, t, h, by simp⟩
  | true =>
      rw [Reading.spaced, if_pos rfl, Reading.andThen_of_some rfl] at h
      obtain ⟨u, hu, rfl⟩ := Option.map_eq_some_iff.mp h
      exact ⟨_, _, u, hu, rfl⟩

/-- A reading of a whole text found one tree, which is one of the start rule. -/
theorem Expr.read_whole_trees (m : Meaning) (syntactic : Bool) (start : String) (cs : List Char)
    {t : Taken} (h : ((Expr.whole start).read m syntactic cs).taken? = some t) :
    ∃ offset tree, t.trees = [(offset, tree)] ∧ ∃ cs', (m start cs').tree? = some tree := by
  rw [Expr.whole, Expr.read, Expr.readEach] at h
  cases hfirst : ((Expr.apply start).read m syntactic cs).taken? with
  | none =>
      rw [Reading.andThen_of_none hfirst, hfirst] at h
      cases h
  | some first =>
      rw [Reading.andThen_of_some hfirst] at h
      obtain ⟨rest, hrest, rfl⟩ := Option.map_eq_some_iff.mp h
      rw [Expr.read] at hfirst
      obtain ⟨cs₁, base, v, hv, htrees⟩ := Reading.spaced_trees hfirst
      obtain ⟨tree, htree, rfl⟩ := Option.map_eq_some_iff.mp hv
      rw [Expr.readEach] at hrest
      cases hend : (Expr.endOfInput.read m syntactic (dropBytes cs first.size)).taken? with
      | none =>
          rw [Reading.andThen_of_none hend, hend] at hrest
          cases hrest
      | some last =>
          rw [Reading.andThen_of_some hend, Expr.readEach] at hrest
          obtain rfl : last.append .nothing = rest := by
            simpa [Reading.followed, Reading.blank] using hrest
          rw [Expr.read] at hend
          obtain ⟨cs₂, base', w, hw, hlast⟩ := Reading.spaced_trees hend
          have hempty : w.trees = [] := by
            cases cs₂ with
            | nil => cases hw; rfl
            | cons c cs₂ => cases hw
          refine ⟨base + 0, tree, ?_, cs₁, htree⟩
          simp [Taken.append, Taken.nothing, htrees, hlast, hempty, Taken.ofTree]

namespace Match

open Evaluation

variable {set : Setting} {memo : Memo}

theorem andThen_some (e : Evaluation) :
    (e.andThen fun c log memo => some ⟨some c, log, memo⟩) = e := by
  funext c log memo
  rw [Evaluation.andThen]
  split <;> simp_all

/-- A match is the evaluation of its start rule and the end behind it. -/
theorem run_eq (hset : set.tracing = false) (limit : Nat) (start : String) (memo : Memo) :
    (run set limit start memo).map (fun (a, memo) => (a.tree?, a.failures, memo)) =
      (ofExpr set (ofRule set limit []) (isSyntactic start) (.whole start) ⟨0, []⟩ (.start 0)
        memo).map fun out => (out.cursor?.bind (·.found.head?), out.log.failures, out.memo) := by
  -- `spaces` is not syntactic itself
  have hspaces : (isSyntactic start && start != "spaces") = isSyntactic start := by
    by_cases h : start = "spaces"
    · subst h
      decide
    · simp [h]
  have hwhole : ofExpr set (ofRule set limit []) (isSyntactic start) (.whole start) =
      (spaced (ofRule set limit []) (isSyntactic start) (ofRule set limit [] start)).andThen
        (ofExpr set (ofRule set limit []) (isSyntactic start) .endOfInput) := by
    simp only [Expr.whole, ofExpr, Scope.traced_eq hset, ofParts, andThen_some, hspaces]
  rw [hwhole, run]
  cases hsyn : isSyntactic start with
  | false =>
      simp only [spaced, Bool.false_eq_true, if_false, Option.getD_some]
      split <;> simp_all
  | true =>
      simp only [spaced, if_true, andThen_some, Evaluation.andThen, skipSpaces]
      cases ofRule set limit [] "spaces" ⟨0, []⟩ { Log.start 0 with failures := ∅ } memo with
      | none => rfl
      | some out =>
          simp only [Option.getD_some]
          split <;> simp_all

/-- A match comes to nothing if the calls of its reading do, and else to that reading. -/
theorem run_cases (set : Setting) (hg : set.grammar.LoopsOnly) (hset : set.tracing = false)
    (htable : Table set.grammar set.input [] memo) (limit : Nat) (start : String) :
    let r := (Expr.whole start).read set.grammar.meaning (isSyntactic start) set.input.text.toList
    runCalls (touch set limit []) 0 r.calls memo = none ∧ run set limit start memo = none ∨
      ∃ memo' a, runCalls (touch set limit []) 0 r.calls memo = some memo' ∧
        Table set.grammar set.input [] memo' ∧ run set limit start memo = some (a, memo') ∧
        a.tree? = r.tree? ∧ a.failures = .ofList r.missed := by
  intro r
  have happly := (truthful hg hset limit).performs []
  have h := Scope.ofExpr_performs (s := outerScope set limit []) hset set.grammar.meaning_fits
    happly (isSyntactic start) (.whole start) ⟨0, []⟩ (.start 0) memo set.input.text.toList
    ⟨.start set.input, Nat.le_refl _, Nat.le_refl _⟩ htable
    (fun c _ => Grammar.Under.nil _)
  have hrun := run_eq hset limit start memo
  rcases h.cases with ⟨hcalls, hnone⟩ | ⟨memo', c?, log', hcalls, htable', hsome, hagrees⟩
  · refine .inl ⟨hcalls, ?_⟩
    simp only [outerScope] at hnone
    rw [hnone] at hrun
    simpa using hrun
  · simp only [outerScope] at hsome
    rw [hsome] at hrun
    obtain ⟨⟨a, m⟩, ha, heq⟩ := Option.map_eq_some_iff.mp hrun
    simp only [Prod.mk.injEq] at heq
    obtain ⟨htree, hfailures, rfl⟩ := heq
    refine .inr ⟨_, a, hcalls, htable', ha, ?_, ?_⟩
    · rw [htree, hagrees.cursor, Reading.tree?]
      cases ht : r.taken? with
      | none => rfl
      | some t =>
          obtain ⟨offset, tree, htrees, -⟩ := Expr.read_whole_trees _ _ start _ ht
          simp [Cursor.take, htrees]
    · rw [hfailures, hagrees.failures]
      simp [Log.start, Failures.ofList, r]

end Match

namespace Grammar

open Match

variable {g : Grammar} {text : String} {start? : Option String} {r : Match.Result}

theorem matchText_eq_ok :
    g.matchText text start? = .ok r ↔
      ∃ rule a memo, g.startRule start? = .ok rule ∧
        run ⟨g, .ofString text, false⟩ nestingLimit rule.name (.blank (Input.ofString text).size) =
          some (a, memo) ∧
        r = ⟨.ofString text, rule.name, a.tree?, a.failures⟩ := by
  rw [matchText, answer]
  cases hstart : g.startRule start? with
  | error e => simp [Except.map, bind, Except.bind]
  | ok rule =>
      simp only [bind, Except.bind, Except.ok.injEq]
      cases hrun : run ⟨g, .ofString text, false⟩ nestingLimit rule.name
          (.blank (Input.ofString text).size) with
      | none => simp [Except.map, hrun]
      | some out =>
          obtain ⟨a, memo⟩ := out
          simp [Except.map, hrun, eq_comm]

/-- A match that does not nest too deep comes to the reading of its start rule and the end. -/
theorem LoopsOnly.matchText_eq_reading (hg : g.LoopsOnly) (h : g.matchText text start? = .ok r) :
    ∃ rule, g.startRule start? = .ok rule ∧
      let reading := (Expr.whole rule.name).read g.meaning (isSyntactic rule.name) text.toList
      r = ⟨.ofString text, rule.name, reading.tree?, .ofList reading.missed⟩ := by
  obtain ⟨rule, a, memo, hrule, hrun, rfl⟩ := matchText_eq_ok.mp h
  refine ⟨rule, hrule, ?_⟩
  rcases run_cases ⟨g, .ofString text, false⟩ hg rfl (Table.blank g _) nestingLimit
    rule.name with ⟨-, hnone⟩ | ⟨memo', a', -, -, hsome, htree, hfailures⟩
  · rw [hrun] at hnone
    cases hnone
  · rw [hrun] at hsome
    obtain ⟨rfl, -⟩ : a = a' ∧ memo = memo' := by simpa using hsome
    rw [htree, hfailures]
    rfl

end Grammar

end Pegboard
