import Pegboard.Proofs.Grammar.Tokens

/-!
# What the trees of grammar sources are built into

`Denotes` says of the tree of an expression which expression it is built into. Between an expression
and the tree that it is written in there are nodes for each level of binding: those that stand for
their only child denote what it denotes, and each operator adds itself to what its operand denotes.
-/

namespace Pegboard.Grammar

open Text

/-- The rule for an iteration. -/
def iterRule : Repeat → String
  | .star => "Iter_star"
  | .plus => "Iter_plus"
  | .opt => "Iter_opt"

namespace Build

/-- The application as an expression lists it. -/
def Application.listed (a : Application) : String × Bool :=
  (a.rule, a.lexical)

/-- The tree is one of the rule `q`, and is built into the expression. -/
def Denotes (q : String) (e : Expr) : Tree.Property := fun s =>
  s.tree.rule? = some q ∧ ∀ lexical, ∃ apps, readExpr s lexical = .ok (e, apps) ∧
    apps.map Application.listed = e.applications lexical

/-- What a name stands for in an expression. -/
def named (name : String) : Expr :=
  if name = "any" then .any else if name = "end" then .endOfInput else .apply name

/-- The rules for the levels of binding, whose nodes stand for their only child. -/
def levels : List String :=
  ["Iter", "Pred", "Lex", "Base"]

variable {s : Tree.Located} {q r : String} {e : Expr} {es : List Expr}

namespace Denotes

/-- A node that stands for its only child. -/
theorem only (hq : q ∈ levels) (hrule : s.tree.rule? = some q)
    (h : Tree.Each s.applications [Denotes r e]) : Denotes q e s := by
  obtain ⟨t, ht, -, hread⟩ := Tree.each_singleton h
  have hnode (parts : List Part) (lexical : Bool) :
      readNode 0 s parts lexical = readOnly s parts lexical := by
    simp only [levels, List.mem_cons, List.not_mem_nil, or_false] at hq
    rcases hq with rfl | rfl | rfl | rfl <;> simp only [readNode, hrule, Option.getD_some]
  refine ⟨hrule, fun lexical => ?_⟩
  obtain ⟨apps, heq, happs⟩ := hread lexical
  refine ⟨apps, ?_, happs⟩
  rw [readExpr_eq, ht, hnode]
  exact heq

/-- A node that puts an operator before or behind what its only child denotes. -/
theorem operator {f : Expr → Expr} {u : Bool → Bool}
    (hnode : ∀ parts lexical,
      readNode 0 s parts lexical = (readFirst s parts r).map f (u lexical))
    (happlied : ∀ lexical, (f e).applications lexical = e.applications (u lexical))
    (hrule : s.tree.rule? = some q) (h : Tree.Each s.applications [Denotes r e]) :
    Denotes q (f e) s := by
  obtain ⟨t, ht, hchild, hread⟩ := Tree.each_singleton h
  refine ⟨hrule, fun lexical => ?_⟩
  obtain ⟨apps, heq, happs⟩ := hread (u lexical)
  refine ⟨apps, ?_, by rw [happs, happlied]⟩
  rw [readExpr_eq, ht, hnode, Reading.map, readFirst]
  simp [Part.isOf, hchild, heq, Except.map]

theorem iteration (op : Repeat) (hrule : s.tree.rule? = some (iterRule op))
    (h : Tree.Each s.applications [Denotes "Pred" e]) : Denotes (iterRule op) (.iter op e) s := by
  refine operator (u := id) (fun parts lexical => ?_) (fun _ => rfl) hrule h
  cases op <;> simp only [readNode, hrule, iterRule, Option.getD_some, id]

theorem not (hrule : s.tree.rule? = some "Pred_not")
    (h : Tree.Each s.applications [Denotes "Lex" e]) : Denotes "Pred_not" (.not e) s := by
  refine operator (u := id) (fun parts lexical => ?_) (fun _ => rfl) hrule h
  simp only [readNode, hrule, Option.getD_some, id]

theorem look (hrule : s.tree.rule? = some "Pred_lookahead")
    (h : Tree.Each s.applications [Denotes "Lex" e]) : Denotes "Pred_lookahead" (.look e) s := by
  refine operator (u := id) (fun parts lexical => ?_) (fun _ => rfl) hrule h
  simp only [readNode, hrule, Option.getD_some, id]

theorem lex (hrule : s.tree.rule? = some "Lex_lex")
    (h : Tree.Each s.applications [Denotes "Base" e]) : Denotes "Lex_lex" (.lex e) s := by
  refine operator (u := fun _ => true) (fun parts lexical => ?_) (fun _ => rfl) hrule h
  simp only [readNode, hrule, Option.getD_some]

theorem paren (hrule : s.tree.rule? = some "Base_paren")
    (h : Tree.Each s.applications [Denotes "Alt" e]) : Denotes "Base_paren" e s := by
  refine operator (f := id) (u := id) (fun parts lexical => ?_) (fun _ => rfl) hrule h
  simp only [readNode, hrule, Option.getD_some, descend_eq, Reading.map, id_eq]
  cases readFirst s parts "Alt" lexical <;> rfl

theorem readAll_eq {ss : List Tree.Located} (h : Tree.Each ss (es.map (Denotes q)))
    (lexical : Bool) : ∃ apps,
    readAll lexical (ss.map fun s => ⟨s, readExpr s⟩) = .ok (es, apps) ∧
    apps.map Application.listed = es.flatMap (Expr.applications lexical) := by
  induction es generalizing ss with
  | nil =>
      obtain rfl := List.forall₂_nil_right_iff.mp h
      exact ⟨[], rfl, rfl⟩
  | cons e es ih =>
      obtain ⟨s, rest, ⟨-, hread⟩, hrest, rfl⟩ := List.forall₂_cons_right_iff.mp h
      obtain ⟨apps', heq', happs'⟩ := ih hrest
      obtain ⟨apps, heq, happs⟩ := hread lexical
      refine ⟨apps ++ apps', ?_, ?_⟩
      · rw [List.map_cons, readAll]
        simp [heq, heq', bind, Except.bind, pure, Except.pure]
      · rw [List.map_append, happs, happs', List.flatMap_cons]

/-- The parts below a node, where all of them are of the rule. -/
theorem filter_parts (h : Tree.Each s.applications (es.map (Denotes q))) :
    (s.applications.map fun s => (⟨s, readExpr s⟩ : Part)).filter (·.isOf q) =
      s.applications.map fun s => ⟨s, readExpr s⟩ := by
  refine List.filter_eq_self.mpr fun p hp => ?_
  obtain ⟨t, ht, rfl⟩ := List.mem_map.mp hp
  exact decide_eq_true (Tree.rule?_of_each (fun e t h => h.1) h t ht)

theorem alt (hrule : s.tree.rule? = some "Alt")
    (h : Tree.Each s.applications (es.map (Denotes "Seq"))) : Denotes "Alt" (.choice es) s := by
  refine ⟨hrule, fun lexical => ?_⟩
  obtain ⟨apps, heq, happs⟩ := readAll_eq h lexical
  refine ⟨apps, ?_, by rw [happs, Expr.applications_choice]⟩
  rw [readExpr_eq]
  simp only [readNode, hrule, Option.getD_some, filter_parts h, heq]
  rfl

theorem seq (hrule : s.tree.rule? = some "Seq")
    (h : Tree.Each s.applications (es.map (Denotes "Iter"))) :
    Denotes "Seq" (.sequence es) s := by
  refine ⟨hrule, fun lexical => ?_⟩
  obtain ⟨apps, heq, happs⟩ := readAll_eq h lexical
  refine ⟨apps, ?_, by rw [happs, Expr.applications_sequence]⟩
  rw [readExpr_eq]
  simp only [readNode, hrule, Option.getD_some, filter_parts h, heq]
  rfl

/-! ### Single expressions -/

theorem application {name : List Char} (hrule : s.tree.rule? = some "Base_application")
    (h : Tree.Each s.applications [Tree.Spells "ident" name]) :
    Denotes "Base_application" (named (.ofList name)) s := by
  obtain ⟨t, ht, hident, htext⟩ := Tree.each_singleton h
  have hchild : child s "ident" = .ok t := by
    simp [child, Tree.Located.first?, ht, hident]
  refine ⟨hrule, fun lexical => ?_⟩
  rw [readExpr_eq]
  simp only [readNode, hrule, Option.getD_some, readApplication, hchild, bind, Except.bind, htext]
  split
  · rename_i hname
    exact ⟨[], by rw [hname]; rfl, by rw [hname]; rfl⟩
  · rename_i hname
    exact ⟨[], by rw [hname]; rfl, by rw [hname]; rfl⟩
  · rename_i hany hend
    rw [named, if_neg hany, if_neg hend]
    exact ⟨_, rfl, rfl⟩

theorem terminal {cs : List Char} (hrule : s.tree.rule? = some "Base_terminal")
    (h : Tree.Each s.applications [Tree.Spells "terminal" cs]) :
    Denotes "Base_terminal" (.terminal (unquote (.ofList cs))) s := by
  obtain ⟨t, ht, hterminal, htext⟩ := Tree.each_singleton h
  have hchild : child s "terminal" = .ok t := by
    simp [child, Tree.Located.first?, ht, hterminal]
  refine ⟨hrule, fun lexical => ⟨[], ?_, rfl⟩⟩
  rw [readExpr_eq]
  simp only [readNode, hrule, Option.getD_some, readTerminal, hchild, bind, Except.bind, htext]
  rfl

theorem range {cs ds : List Char} {lo hi : Char} (hrule : s.tree.rule? = some "Base_range")
    (hlo : (unquote (.ofList cs)).toList.head? = some lo)
    (hhi : (unquote (.ofList ds)).toList.head? = some hi)
    (h : Tree.Each s.applications [Tree.Spells "oneCharTerminal" cs,
      Tree.Spells "oneCharTerminal" ds]) :
    Denotes "Base_range" (.range lo hi) s := by
  obtain ⟨t, ts, ⟨hfirst, hfirsttext⟩, hts, ht⟩ := List.forall₂_cons_right_iff.mp h
  obtain ⟨u, rfl, hlast, hlasttext⟩ := Tree.each_singleton hts
  refine ⟨hrule, fun lexical => ⟨[], ?_, rfl⟩⟩
  rw [readExpr_eq]
  simp only [readNode, hrule, Option.getD_some, readRange]
  simp [Tree.Located.named, ht, hfirst, hlast, firstChar?, hfirsttext, hlasttext, hlo, hhi]

end Denotes

end Build

end Pegboard.Grammar
