import Pegboard.Proofs.Grammar.Skipped
import Pegboard.Proofs.Grammar.Source

/-!
# Rows of steps

The rules that skip spaces put marks and other rules one behind the other: what such a rule takes of
a text is a row of steps, before each of which spaces are skipped. Which rows its body can take is
told by `Expr.rows`.

Main statements: `Took.row`; `Row.start`, where a row begins, its first step has the rest of the row
before it.
-/

namespace Pegboard

open Text Computability

/-- A step of a rule that skips spaces: a mark, or the application of a rule. -/
inductive Step
  | mark (s : String)
  | rule (q : String)

mutual

/-- The rows of steps that an expression can take. -/
def Expr.rows : Expr → Language Step
  | .terminal s => {[.mark s]}
  | .apply q => {[.rule q]}
  | .alt es => Expr.rowsOfAny es
  | .seq es => Expr.rowsOfEach es
  | .iter .star e => e.rows∗
  | .iter .plus e => e.rows * e.rows∗
  | .iter .opt e => 1 + e.rows
  | .lex e => e.rows
  | .any | .endOfInput | .range _ _ | .not _ | .look _ => 1

def Expr.rowsOfAny : List Expr → Language Step
  | [] => 0
  | e :: es => e.rows + Expr.rowsOfAny es

def Expr.rowsOfEach : List Expr → Language Step
  | [] => 1
  | e :: es => e.rows * Expr.rowsOfEach es

end

mutual

/-- Whether the expression reads the text by marks and rules only. -/
def Expr.isStepwise : Expr → Bool
  | .terminal _ | .not _ => true
  | .apply q => q != "spaces"
  | .alt es | .seq es => Expr.areStepwise es
  | .iter _ e => e.isStepwise
  | .any | .endOfInput | .range _ _ | .look _ | .lex _ => false

def Expr.areStepwise : List Expr → Bool
  | [] => true
  | e :: es => e.isStepwise && Expr.areStepwise es

end

/-- The steps took what stands in `cs` before `ds`, spaces skipped before each of them, and found
the trees. -/
inductive Row (p : Parser) (i : Input) :
    List Step → List Char → List Char → List Tree.Located → Prop
  | nil (cs : List Char) : Row p i [] cs cs []
  | mark {s : String} {w : List Step} {cs cs' ds : List Char} {ss : List Tree.Located}
      (h : skip cs = s.toList ++ cs') (hs : Row p i w cs' ds ss) : Row p i (.mark s :: w) cs ds ss
  | rule {q : String} {w : List Step} {cs cs' ds : List Char} {t : Tree.Located}
      {ss : List Tree.Located} (hinput : t.input = i) (h : p.Spans q (skip cs) cs' t)
      (hs : Row p i w cs' ds ss) : Row p i (.rule q :: w) cs ds (t :: ss)

variable {p : Parser} {i : Input} {e : Expr} {es : List Expr} {q : String} {v w : List Step}
  {cs cs' ds : List Char} {s t : Tree.Located} {ss ts : List Tree.Located}

theorem Parser.Spans.suffix (h : p.Spans q cs ds t) : ds <:+ cs :=
  let ⟨front, hcs, _⟩ := h.split
  ⟨front, hcs.symm⟩

namespace Row

theorem append (h : Row p i v cs cs' ss) (hs : Row p i w cs' ds ts) :
    Row p i (v ++ w) cs ds (ss ++ ts) := by
  induction h with
  | nil => exact hs
  | mark hskip _ ih => exact .mark hskip (ih hs)
  | rule hinput hspans _ ih => exact .rule hinput hspans (ih hs)

/-- Where a row begins, spaces are skipped; what the row took, and the trees in it, stand behind
them. -/
theorem start (h : Row p i w cs ds ss) : (w = [] ∧ ds = cs ∧ ss = []) ∨
    ds.length ≤ (skip cs).length ∧ ∀ s ∈ ss, ∃ q cs' ds', p.Spans q cs' ds' s ∧
      cs'.length ≤ (skip cs).length ∧ ds.length ≤ ds'.length := by
  induction h with
  | nil => exact .inl ⟨rfl, rfl, rfl⟩
  | @mark s w cs cs' ds ss hskip _ ih =>
      have hle : cs'.length ≤ (skip cs).length := by simp [hskip]
      refine .inr ?_
      rcases ih with ⟨-, rfl, rfl⟩ | ⟨hds, hin⟩
      · exact ⟨hle, nofun⟩
      · have hle' := (length_skip_le cs').trans hle
        refine ⟨hds.trans hle', fun s hs => ?_⟩
        obtain ⟨q, a, b, hspans, ha, hb⟩ := hin s hs
        exact ⟨q, a, b, hspans, ha.trans hle', hb⟩
  | @rule q w cs cs' ds t ss _ hspans hrest ih =>
      have hle := hspans.suffix.length_le
      refine .inr ?_
      rcases ih with ⟨-, rfl, rfl⟩ | ⟨hds, hin⟩
      · exact ⟨hle, List.forall_mem_singleton.mpr ⟨q, _, _, hspans, Nat.le_refl _, Nat.le_refl _⟩⟩
      · have hle' := (length_skip_le cs').trans hle
        refine ⟨hds.trans hle', List.forall_mem_cons.mpr ⟨⟨q, _, _, hspans, Nat.le_refl _,
          hds.trans (length_skip_le cs')⟩, fun s hs => ?_⟩⟩
        obtain ⟨q, a, b, hspans, ha, hb⟩ := hin s hs
        exact ⟨q, a, b, hspans, ha.trans hle', hb⟩

end Row

namespace Grammar.ParsedBy

variable (hp : ofGrammars.ParsedBy p)

include hp

/-- Where spaces are skipped, an expression takes what is left behind them. -/
theorem took_skip (he : e.consumesInput = true) (hne : e ≠ .apply "spaces")
    (h : Took p i true e cs ds ss) : Took p i false e (skip cs) ds ss := by
  obtain ⟨blank, cs', hcs, hskips, htook⟩ := h.spaced (hp.tidy acyclic_ofGrammars) he hne
  obtain ⟨blank', hcs', hskips'⟩ := hp.skips_skip cs
  rw [Reading.Skips, ← hcs] at hskips
  rw [Reading.Skips, ← hcs'] at hskips'
  obtain ⟨-, rfl⟩ := append_inj_of_byteSize (hcs.symm.trans hcs') (hskips.symm.trans hskips')
  exact htook

/-- The rounds of an iteration take rows one behind the other. -/
theorem took_rowOfRounds
    (hrow : ∀ {cs ds ss}, Took p i true e cs ds ss → ∃ w ∈ e.rows, Row p i w cs ds ss)
    (h : Took p i true (.iter .star e) cs ds ss) : ∃ w ∈ e.rows∗, Row p i w cs ds ss := by
  induction hlen : cs.length using Nat.strong_induction_on generalizing cs ss with
  | _ n ih =>
      subst hlen
      rcases h.star (hp.tidy acyclic_ofGrammars) with ⟨-, rfl, rfl⟩ |
        ⟨cs', ss₁, ss₂, hfirst, hlt, hrest, rfl⟩ | ⟨hstay, rfl⟩
      · exact ⟨[], Language.nil_mem_kstar _, .nil _⟩
      · obtain ⟨v, hv, hfirst⟩ := hrow hfirst
        obtain ⟨w, hw, hrest⟩ := ih _ hlt hrest rfl
        have hmore : e.rows * e.rows∗ ≤ e.rows∗ := mul_kstar_le_kstar
        exact ⟨v ++ w, hmore ⟨v, hv, w, hw, rfl⟩, hfirst.append hrest⟩
      · obtain ⟨v, hv, hstay⟩ := hrow hstay
        have hone : e.rows ≤ e.rows∗ := le_kstar
        exact ⟨v, hone hv, hstay⟩

omit hp

mutual

/-- An expression of marks and rules takes a row of steps. -/
theorem took_row (hp : ofGrammars.ParsedBy p) : ∀ {e : Expr} {cs ds : List Char} {ss : List Tree.Located},
    e.isStepwise = true → Took p i true e cs ds ss → ∃ w ∈ e.rows, Row p i w cs ds ss
  | .terminal s, cs, ds, ss, _, h => by
      obtain ⟨hskip, rfl⟩ := (hp.took_skip rfl (by simp) h).terminal
      exact ⟨[.mark s], rfl, .mark hskip (.nil _)⟩
  | .apply q, cs, ds, ss, he, h => by
      have hne : q ≠ "spaces" := bne_iff_ne.mp he
      obtain ⟨t, rfl, hinput, hspans⟩ :=
        (hp.took_skip rfl (fun heq => hne (Expr.apply.inj heq)) h).apply
          (hp.tidy acyclic_ofGrammars)
      exact ⟨[.rule q], rfl, .rule hinput hspans (.nil _)⟩
  | .not _, cs, ds, ss, _, h => by
      obtain ⟨-, rfl, rfl⟩ := h.not
      exact ⟨[], rfl, .nil _⟩
  | .alt es, _, _, _, he, h => hp.took_rowOfAny he h
  | .seq es, _, _, _, he, h => hp.took_rowOfEach he h
  | .iter .opt e, _, _, _, he, h => by
      rcases h.opt with ⟨-, rfl, rfl⟩ | h
      · exact ⟨[], .inl rfl, .nil _⟩
      · obtain ⟨w, hw, hrow⟩ := hp.took_row (e := e) he h
        exact ⟨w, .inr hw, hrow⟩
  | .iter .star e, _, _, _, he, h => hp.took_rowOfRounds (fun h => hp.took_row (e := e) he h) h
  | .iter .plus e, cs, ds, ss, he, h => by
      rcases h.plus (hp.tidy acyclic_ofGrammars) with ⟨cs', ss₁, ss₂, hfirst, hrest, rfl⟩ |
        ⟨hstay, rfl⟩
      · obtain ⟨v, hv, hrow⟩ := hp.took_row (e := e) he hfirst
        obtain ⟨w, hw, hrows⟩ := hp.took_rowOfRounds (fun h => hp.took_row (e := e) he h) hrest
        exact ⟨v ++ w, ⟨v, hv, w, hw, rfl⟩, hrow.append hrows⟩
      · obtain ⟨v, hv, hrow⟩ := hp.took_row (e := e) he hstay
        exact ⟨v ++ [], ⟨v, hv, [], Language.nil_mem_kstar _, rfl⟩, by simpa using hrow⟩

theorem took_rowOfAny (hp : ofGrammars.ParsedBy p) : ∀ {es : List Expr} {cs ds : List Char} {ss : List Tree.Located},
    Expr.areStepwise es = true → Took p i true (.alt es) cs ds ss →
      ∃ w ∈ Expr.rowsOfAny es, Row p i w cs ds ss
  | [], _, _, _, _, h => absurd h Took.not_alt_nil
  | e :: es, _, _, _, he, h => by
      obtain ⟨he, hes⟩ := Bool.and_eq_true_iff.mp he
      rcases h.alt_cons with h | ⟨-, h⟩
      · obtain ⟨w, hw, hrow⟩ := hp.took_row he h
        exact ⟨w, .inl hw, hrow⟩
      · obtain ⟨w, hw, hrow⟩ := hp.took_rowOfAny hes h
        exact ⟨w, .inr hw, hrow⟩

theorem took_rowOfEach (hp : ofGrammars.ParsedBy p) : ∀ {es : List Expr} {cs ds : List Char} {ss : List Tree.Located},
    Expr.areStepwise es = true → Took p i true (.seq es) cs ds ss →
      ∃ w ∈ Expr.rowsOfEach es, Row p i w cs ds ss
  | [], _, _, _, _, h => by
      obtain ⟨rfl, rfl⟩ := h.nil
      exact ⟨[], rfl, .nil _⟩
  | e :: es, _, _, _, he, h => by
      obtain ⟨he, hes⟩ := Bool.and_eq_true_iff.mp he
      obtain ⟨cs', ss₁, ss₂, hfirst, hrest, rfl⟩ := h.cons (hp.tidy acyclic_ofGrammars)
      obtain ⟨v, hv, hrow⟩ := hp.took_row he hfirst
      obtain ⟨w, hw, hrows⟩ := hp.took_rowOfEach hes hrest
      exact ⟨v ++ w, ⟨v, hv, w, hw, rfl⟩, hrow.append hrows⟩

end

end Grammar.ParsedBy

end Pegboard
