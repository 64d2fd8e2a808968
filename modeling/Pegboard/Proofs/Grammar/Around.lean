import Pegboard.Proofs.Grammar.CarriedTokens

/-!
# Trees around a piece of a text

The trees from the root of a source down to a node of it go around the text that the node covers. If
the node is one of a rule that skips spaces, so are all of them: from names, literals and comments no
such rule is reached.

Main statements: `ParsedBy.around` and `ParsedBy.not_reaches`.
-/

namespace Pegboard

open Text Computability

mutual

/-- What an expression can find are applications of rules that it applies. -/
theorem Expr.applied_of_shape {lexical : Bool} {q : String} : ∀ {e : Expr} {w : List String},
    w ∈ e.shapes → q ∈ w → ∃ inner, (q, inner) ∈ e.applications lexical
  | .apply r, w, hw, hq => by
      obtain rfl : w = [r] := hw
      obtain rfl := List.mem_singleton.mp hq
      exact ⟨lexical, List.mem_singleton_self _⟩
  | .alt _, _, hw, hq => Expr.applied_of_any hw hq
  | .seq _, _, hw, hq => Expr.applied_of_each hw hq
  | .iter .star e, _, hw, hq => by
      obtain ⟨ws, rfl, hws⟩ := Language.mem_kstar.mp hw
      obtain ⟨w, hw, hq⟩ := List.mem_flatten.mp hq
      exact Expr.applied_of_shape (e := e) (hws w hw) hq
  | .iter .plus e, _, hw, hq => by
      obtain ⟨v, hv, w, hw, rfl⟩ := hw
      rcases List.mem_append.mp hq with hq | hq
      · exact Expr.applied_of_shape (e := e) hv hq
      · obtain ⟨ws, rfl, hws⟩ := Language.mem_kstar.mp hw
        obtain ⟨w, hw, hq⟩ := List.mem_flatten.mp hq
        exact Expr.applied_of_shape (e := e) (hws w hw) hq
  | .iter .opt e, w, hw, hq => by
      rcases hw with hw | hw
      · obtain rfl : w = [] := hw
        cases hq
      · exact Expr.applied_of_shape (e := e) hw hq
  | .lex e, w, hw, hq => Expr.applied_of_shape (e := e) (show w ∈ e.shapes from hw) hq
  | .any, w, hw, hq | .endOfInput, w, hw, hq | .terminal _, w, hw, hq | .range _ _, w, hw, hq
  | .not _, w, hw, hq | .look _, w, hw, hq => by
      obtain rfl : w = [] := hw
      cases hq

theorem Expr.applied_of_any {lexical : Bool} {q : String} : ∀ {es : List Expr} {w : List String},
    w ∈ Expr.shapesOfAny es → q ∈ w → ∃ inner, (q, inner) ∈ Expr.applicationsAll lexical es
  | e :: es, _, hw, hq => by
      rcases hw with hw | hw
      · obtain ⟨inner, hmem⟩ := Expr.applied_of_shape hw hq
        exact ⟨inner, List.mem_append_left _ hmem⟩
      · obtain ⟨inner, hmem⟩ := Expr.applied_of_any hw hq
        exact ⟨inner, List.mem_append_right _ hmem⟩

theorem Expr.applied_of_each {lexical : Bool} {q : String} : ∀ {es : List Expr} {w : List String},
    w ∈ Expr.shapesOfEach es → q ∈ w → ∃ inner, (q, inner) ∈ Expr.applicationsAll lexical es
  | [], w, hw, hq => by
      obtain rfl : w = [] := hw
      cases hq
  | e :: es, _, hw, hq => by
      obtain ⟨u, hu, v, hv, rfl⟩ := hw
      rcases List.mem_append.mp hq with hq | hq
      · obtain ⟨inner, hmem⟩ := Expr.applied_of_shape hu hq
        exact ⟨inner, List.mem_append_left _ hmem⟩
      · obtain ⟨inner, hmem⟩ := Expr.applied_of_each hv hq
        exact ⟨inner, List.mem_append_right _ hmem⟩

end

namespace Grammar

/-- A rule that skips no spaces applies only rules that skip none. -/
theorem applied_of_lexical : ∀ rule ∈ ofGrammars.rules, isSyntactic rule.name = false →
    ∀ a ∈ rule.body.applications true, isSyntactic a.1 = false := by
  decide +kernel

/-- The rules that skip spaces are made of steps. -/
theorem isStepwise_of_syntactic : ∀ rule ∈ ofGrammars.rules, isSyntactic rule.name = true →
    rule.body.isStepwise = true := by
  decide +kernel

namespace ParsedBy

variable {p : Parser} {s t hole : Tree.Located} {q r : String} {cs ds : List Char}
  (hp : ofGrammars.ParsedBy p)

include hp

theorem found_of_reaches (h : p.Found q s) (hreach : s.Reaches t)
    (ht : t.tree.rule? = some r) : p.Found r t := by
  obtain ⟨r', hfound⟩ : ∃ r', p.Found r' t := by
    clear ht
    induction hreach with
    | refl => exact ⟨q, h⟩
    | tail _ hstep ih =>
        obtain ⟨r, hfound⟩ := ih
        obtain ⟨rule, hrule, w, hw, hfounds⟩ := hp.rule_found acyclic_ofGrammars hfound
        obtain ⟨r', -, hfound'⟩ := Build.exists_of_mem_right hfounds hstep
        exact ⟨r', hfound'⟩
  obtain ⟨cs, -, htree⟩ := id hfound
  have hrule := (hp.tidy acyclic_ofGrammars r' cs _ htree).1
  obtain rfl : r' = r := Option.some.inj (hrule.symm.trans ht)
  exact hfound

/-- Below a tree of a rule that skips no spaces there is none of a rule that does. -/
theorem lexical_of_reaches (h : p.Found q s) (hq : isSyntactic q = false) (hreach : s.Reaches t) :
    ∃ r, p.Found r t ∧ isSyntactic r = false := by
  induction hreach with
  | refl => exact ⟨q, h, hq⟩
  | tail _ hstep ih =>
      obtain ⟨r, hfound, hr⟩ := ih
      obtain ⟨rule, hrule, w, hw, hfounds⟩ := hp.rule_found acyclic_ofGrammars hfound
      obtain ⟨r', hr', hfound'⟩ := Build.exists_of_mem_right hfounds hstep
      obtain ⟨inner, hmem⟩ : ∃ inner, (r', inner) ∈ rule.body.applications true :=
        Expr.applied_of_shape hw hr'
      obtain rfl := rule?_name hrule
      exact ⟨r', hfound', applied_of_lexical rule (List.mem_of_find?_eq_some hrule) hr _ hmem⟩

theorem not_reaches (h : p.Found q s) (hq : isSyntactic q = false) (ht : t.tree.rule? = some r)
    (hr : isSyntactic r = true) : ¬ s.Reaches t := by
  intro hreach
  obtain ⟨r', ⟨cs, -, htree⟩, hr'⟩ := hp.lexical_of_reaches h hq hreach
  have hrule := (hp.tidy acyclic_ofGrammars r' cs _ htree).1
  obtain rfl : r' = r := Option.some.inj (hrule.symm.trans ht)
  exact Bool.false_ne_true (hr'.symm.trans hr)

/-- The steps of a rule that skips spaces took what its tree covers. -/
theorem row_of_spans (h : p.Spans q cs ds s) (hq : isSyntactic q = true) :
    ∃ w, Row p s.input w cs ds s.applications := by
  have hne : q ≠ "spaces" := by
    rintro rfl
    cases hq
  obtain ⟨rule, n, trees, hrule, -, -⟩ := hp.body_took h.tree
  have hbody : ofGrammars.HasBody q true rule.body := ⟨hne, rule, hrule, rfl, hq⟩
  have hstepwise := isStepwise_of_syntactic rule (List.mem_of_find?_eq_some hrule)
    (rule?_name hrule ▸ hq)
  obtain ⟨w, -, hrow⟩ := hp.took_row hstepwise (hp.took hbody h)
  exact ⟨w, hrow⟩

/-- A tree goes around those that are reached from it. -/
theorem around {b e : List Char} (hhole : p.Spans r b e hole) (hr : isSyntactic r = true)
    (hreach : s.Reaches hole) (h : p.Spans q cs ds s) :
    b.length ≤ cs.length ∧ ds.length ≤ e.length := by
  have htidy := hp.tidy acyclic_ofGrammars
  induction hreach using Relation.ReflTransGen.head_induction_on generalizing q cs ds with
  | refl =>
      obtain rfl := h.left.unique hhole.left
      obtain ⟨front, hfront, hsize⟩ := h.split
      obtain ⟨front', hfront', hsize'⟩ := hhole.split
      obtain ⟨-, rfl⟩ := append_inj_of_byteSize (hfront.symm.trans hfront') (hsize.trans hsize'.symm)
      exact ⟨Nat.le_refl _, Nat.le_refl _⟩
  | @head s t hstep hreach ih =>
      have hq : isSyntactic q = true := by
        refine Bool.eq_true_of_not_eq_false fun hq => ?_
        exact hp.not_reaches ⟨cs, h.left, h.tree⟩ hq (hhole.rule? htidy) hr
          (Relation.ReflTransGen.head hstep hreach)
      obtain ⟨w, hrow⟩ := hp.row_of_spans h hq
      rcases hrow.start with ⟨-, -, hnone⟩ | ⟨-, hin⟩
      · rw [hnone] at hstep
        cases hstep
      · obtain ⟨q', cs', ds', hspans, hbegin, hend⟩ := hin t hstep
        obtain ⟨hb, he⟩ := ih hspans
        exact ⟨hb.trans (hbegin.trans (length_skip_le cs)), hend.trans he⟩

end ParsedBy

end Grammar

end Pegboard
