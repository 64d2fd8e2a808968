import Pegboard.Proofs.Grammar.Around
import Pegboard.Proofs.Grammar.Declarations
import Pegboard.Proofs.Grammar.Understood

/-!
# What was built was denoted

Whatever expression the build of a source has made of a node, the node denotes it: in another context
it would have been the same expression. All its choices and sequences have two elements at least, and
the rules that it applies have names that can be written.

Main statements: `denotes_of_readExpr`, `isBody_of_readBody`.
-/

namespace Pegboard.Grammar.Build

open Text

/-- An expression of which a source can speak. -/
structure Expressible (e : Expr) : Prop where
  full : e.full = true
  applicable : ∀ lexical, ∀ a ∈ e.applications lexical, Applicable a.1

/-- The node denotes an expression of which a source can speak. -/
def Expresses (q : String) (e : Expr) (s : Tree.Located) : Prop :=
  Denotes q e s ∧ Expressible e

/-- The rule that a step applies. -/
def Step.rule? : Step → Option String
  | .mark _ => none
  | .rule q => some q

section

variable {e f : Expr} {es : List Expr}

theorem Expressible.of_operand (h : Expressible e) (hfull : f.full = e.full)
    (happs : ∀ lexical, ∃ inner, f.applications lexical = e.applications inner) :
    Expressible f where
  full := hfull.trans h.full
  applicable lexical := by
    obtain ⟨inner, heq⟩ := happs lexical
    exact heq ▸ h.applicable inner

theorem Expressible.leaf (hfull : f.full = true) (happs : ∀ lexical, f.applications lexical = []) :
    Expressible f where
  full := hfull
  applicable lexical := by
    rw [happs]
    exact List.forall_mem_nil _

theorem expressible_named {name : String} (h : isName name.toList = true) :
    Expressible (named name) := by
  unfold named
  split_ifs with hany hend
  · exact .leaf rfl fun _ => rfl
  · exact .leaf rfl fun _ => rfl
  · exact ⟨rfl, fun lexical => List.forall_mem_singleton.mpr ⟨h, by simp [hany, hend]⟩⟩

theorem fullAll_iff : Expr.fullAll es = true ↔ ∀ e ∈ es, e.full = true := by
  induction es with
  | nil => simp [Expr.fullAll]
  | cons e es ih => rw [Expr.fullAll, Bool.and_eq_true, ih, List.forall_mem_cons]

/-- A choice or a sequence of one element stands for it. -/
theorem Expressible.of_all {combine : List Expr → Expr} (hone : ∀ e, combine [e] = e)
    (hfull : ∀ es, 2 ≤ es.length → (combine es).full = Expr.fullAll es)
    (happs : ∀ lexical es, (combine es).applications lexical =
      es.flatMap (Expr.applications lexical))
    (hne : es ≠ []) (h : ∀ e ∈ es, Expressible e) : Expressible (combine es) where
  full := by
    match es with
    | [e] =>
        rw [hone]
        exact (h e (List.mem_singleton_self e)).full
    | e :: e' :: es =>
        rw [hfull _ (by simp)]
        exact fullAll_iff.mpr fun e he => (h e he).full
  applicable lexical a ha := by
    rw [happs, List.mem_flatMap] at ha
    obtain ⟨e, he, ha⟩ := ha
    exact (h e he).applicable lexical a ha

theorem expressible_choice (hne : es ≠ []) (h : ∀ e ∈ es, Expressible e) :
    Expressible (.choice es) :=
  .of_all (fun _ => rfl) (fun es hes => by
    match es, hes with
    | _ :: _ :: _, _ => simp [Expr.choice, Expr.full]) Expr.applications_choice hne h

theorem expressible_sequence (hne : es ≠ []) (h : ∀ e ∈ es, Expressible e) :
    Expressible (.sequence es) :=
  .of_all (fun _ => rfl) (fun es hes => by
    match es, hes with
    | _ :: _ :: _, _ => simp [Expr.sequence, Expr.full]) Expr.applications_sequence hne h

end

section

variable {p : Parser} {root t c : Tree.Located} {q r : String} {e f : Expr} {es : List Expr}
  {ss : List Tree.Located} {apps : List Application} {lexical : Bool}
  (hp : ofGrammars.ParsedBy p)

/-! ## Parts of nodes -/

theorem each_of_single {P : Tree.Property} (hc : t.applications = [c]) (h : P c) :
    Tree.Each t.applications [P] := by
  rw [hc]
  exact .cons h .nil

theorem single_of_nodes (h : List.Forall₂ (Node p root) [r] ss) :
    ∃ c, ss = [c] ∧ Node p root r c := by
  obtain ⟨c, rest, hc, hrest, rfl⟩ := List.forall₂_cons_left_iff.mp h
  obtain rfl := List.forall₂_nil_left_iff.mp hrest
  exact ⟨c, rfl, hc⟩

/-- The rules among steps are what a row of them finds. -/
theorem shape_of_steps {v : List Step} {w : List String}
    (hw : w ∈ (Expr.seq (v.map Step.expr)).shapes) : w = v.filterMap Step.rule? := by
  rw [Expr.shapes] at hw
  induction v generalizing w with
  | nil => exact hw
  | cons x v ih =>
      obtain ⟨a, ha, b, hb, rfl⟩ := hw
      obtain rfl := ih hb
      cases x with
      | mark s =>
          obtain rfl : a = [] := ha
          rfl
      | rule q =>
          obtain rfl : a = [q] := ha
          rfl

include hp

theorem Node.of_steps {v : List Step} (hbody : ofGrammars.HasBody q true (.seq (v.map Step.expr)))
    (h : Node p root q t) : List.Forall₂ (Node p root) (v.filterMap Step.rule?) t.applications := by
  obtain ⟨w, hw, hnodes⟩ := h.applications hp hbody
  exact shape_of_steps hw ▸ hnodes

/-- The parts of a node whose rule applies one other rule only. -/
theorem Node.all_parts (hbody : ofGrammars.HasBody q true e) (halways : e.always r = true)
    (honly : ∀ a ∈ e.applications true, a.1 = r) (h : Node p root q t) :
    t.applications ≠ [] ∧ ∀ c ∈ t.applications, Node p root r c := by
  obtain ⟨w, hw, hnodes⟩ := h.applications hp hbody
  constructor
  · obtain ⟨c, hc, -⟩ := exists_of_mem_left hnodes (Expr.mem_of_always halways hw)
    exact List.ne_nil_of_mem hc
  · intro c hc
    obtain ⟨r', hr', hnode⟩ := exists_of_mem_right hnodes hc
    obtain ⟨inner, hmem⟩ : ∃ inner, (r', inner) ∈ e.applications true :=
      Expr.applied_of_shape hw hr'
    obtain rfl : r' = r := honly _ hmem
    exact hnode

omit hp

theorem forall₂_of_readAll
    (h : ∀ c ∈ ss, ∀ e apps, readExpr c lexical = .ok (e, apps) → Expresses r e c)
    (heq : readAll lexical (ss.map fun s => ⟨s, readExpr s⟩) = .ok (es, apps)) :
    List.Forall₂ (fun c e => Expresses r e c) ss es := by
  induction ss generalizing es apps with
  | nil =>
      obtain ⟨rfl, -⟩ := Prod.mk.inj (Except.ok.inj heq)
      exact .nil
  | cons c ss ih =>
      obtain ⟨hc, hss⟩ := List.forall_mem_cons.mp h
      rw [List.map_cons, readAll] at heq
      obtain ⟨⟨e, apps₁⟩, hread, heq⟩ := bind_eq_ok.mp heq
      obtain ⟨⟨es', apps₂⟩, hrest, heq⟩ := bind_eq_ok.mp heq
      obtain ⟨rfl, -⟩ := Prod.mk.inj (Except.ok.inj heq)
      exact .cons (hc e apps₁ hread) (ih hss hrest)

include hp

/-- The parts of one rule, put together. -/
theorem expresses_of_parts {combine : List Expr → Expr} (hbody : ofGrammars.HasBody q true f)
    (halways : f.always r = true) (honly : ∀ a ∈ f.applications true, a.1 = r)
    (h : Node p root q t)
    (ih : ∀ c ∈ t.applications, Node p root r c → ∀ e apps, readExpr c lexical = .ok (e, apps) →
      Expresses r e c)
    (hdenotes : ∀ es, Tree.Each t.applications (es.map (Denotes r)) → Denotes q (combine es) t)
    (hexpressible : ∀ es, es ≠ [] → (∀ e ∈ es, Expressible e) → Expressible (combine es))
    (heq : (do
      let (es, apps) ← readAll lexical
        ((t.applications.map fun s => (⟨s, readExpr s⟩ : Part)).filter (·.isOf r))
      return (combine es, apps)) = Except.ok (e, apps)) : Expresses q e t := by
  obtain ⟨hne, hparts⟩ := h.all_parts hp hbody halways honly
  have hall : (t.applications.map fun s => (⟨s, readExpr s⟩ : Part)).filter (·.isOf r) =
      t.applications.map fun s => ⟨s, readExpr s⟩ :=
    List.filter_eq_self.mpr fun part hpart => by
      obtain ⟨c, hc, rfl⟩ := List.mem_map.mp hpart
      exact decide_eq_true ((hparts c hc).rule?_eq hp)
  rw [hall] at heq
  obtain ⟨⟨es, apps'⟩, hread, heq⟩ := bind_eq_ok.mp heq
  obtain ⟨rfl, -⟩ := Prod.mk.inj (Except.ok.inj heq)
  have heach := forall₂_of_readAll (r := r) (fun c hc e apps => ih c hc (hparts c hc) e apps) hread
  refine ⟨hdenotes es (List.forall₂_map_right_iff.mpr (heach.imp fun _ _ h => h.1)),
    hexpressible es ?_ fun e he => ?_⟩
  · rintro rfl
    exact hne (List.forall₂_nil_right_iff.mp heach)
  · obtain ⟨c, -, hc⟩ := exists_of_mem_right heach he
    exact hc.2

/-- A node that stands for its only part. -/
theorem expresses_of_only (hq : q ∈ levels) (rs : List String)
    (hbody : ofGrammars.HasBody q true (.alt (rs.map .apply))) (h : Node p root q t)
    (ih : ∀ c ∈ t.applications, ∀ r ∈ rs, Node p root r c → ∀ e apps,
      readExpr c lexical = .ok (e, apps) → Expresses r e c)
    (heq : readOnly t (t.applications.map fun s => ⟨s, readExpr s⟩) lexical = .ok (e, apps)) :
    Expresses q e t := by
  obtain ⟨r, hr, c, happs, hc⟩ := h.only hp rs hbody
  rw [happs] at ih heq
  obtain ⟨hdenotes, hexpressible⟩ := ih c (List.mem_singleton_self c) r hr hc e apps heq
  exact ⟨.only hq (h.rule?_eq hp) (each_of_single happs hdenotes), hexpressible⟩

/-- A node that puts an operator to its only part. -/
theorem expresses_of_operator {u : Expr → Expr} (hc : t.applications = [c])
    (hnode : Node p root r c)
    (ih : ∀ e apps, readExpr c lexical = .ok (e, apps) → Expresses r e c)
    (hdenotes : ∀ e, Tree.Each t.applications [Denotes r e] → Denotes q (u e) t)
    (hfull : ∀ e, (u e).full = e.full)
    (happs : ∀ e lexical, ∃ inner, (u e).applications lexical = e.applications inner)
    (heq : ((readFirst t (t.applications.map fun s => ⟨s, readExpr s⟩) r).map u) lexical =
      .ok (e, apps)) : Expresses q e t := by
  have hfirst : readFirst t (t.applications.map fun s => ⟨s, readExpr s⟩) r lexical =
      readExpr c lexical := by
    rw [readFirst, hc]
    simp [Part.isOf, hnode.rule?_eq hp]
  rw [Reading.map, hfirst] at heq
  cases hread : readExpr c lexical with
  | error err =>
      rw [hread] at heq
      cases heq
  | ok read =>
      rw [hread] at heq
      obtain ⟨rfl, rfl⟩ := Prod.mk.inj (Except.ok.inj heq)
      obtain ⟨hdenotes', hexpressible⟩ := ih read.1 read.2 hread
      exact ⟨hdenotes _ (each_of_single hc hdenotes'), hexpressible.of_operand (hfull _) (happs _)⟩

/-! ## Single expressions -/

theorem spells_of_node (h : Node p root "ident" c) :
    ∃ name, isName name = true ∧ Tree.Spells "ident" name c := by
  obtain ⟨cs, hleft, htree⟩ := h.found
  obtain ⟨front, hfront, hsize⟩ := (hp.tidy acyclic_ofGrammars "ident" cs _ htree).2.split
  have hspans : p.Spans "ident" cs _ c := ⟨hleft, htree, front, hfront, hsize⟩
  rcases name_cases cs with hnone | ⟨name, rest, hname, hrest, rfl⟩
  · exact absurd (hp.ident_fails hnone) hspans.not_fails
  · exact ⟨name, hname, (hspans.of_parses (hp.ident_parses hname hrest)).2⟩

theorem expresses_application (h : Node p root "Base_application" t)
    (heq : readApplication t lexical = .ok (e, apps)) : Expresses "Base_application" e t := by
  obtain ⟨w, hw, hnodes⟩ := h.applications hp base_application_body
  obtain ⟨_, rfl, _, ⟨_, rfl, _, rfl, rfl⟩, rfl⟩ := hw
  obtain ⟨c, hc, hnode⟩ := single_of_nodes hnodes
  obtain ⟨name, hname, hspells⟩ := spells_of_node hp hnode
  have hdenotes := Denotes.application (h.rule?_eq hp) (each_of_single hc hspells)
  obtain ⟨apps', heq', -⟩ := hdenotes.2 lexical
  rw [readExpr_eq] at heq'
  simp only [readNode, h.rule?_eq hp, Option.getD_some] at heq'
  obtain ⟨rfl, -⟩ := Prod.mk.inj (Except.ok.inj (heq.symm.trans heq'))
  exact ⟨hdenotes, expressible_named (by rwa [String.toList_ofList])⟩

theorem expresses_terminal (h : Node p root "Base_terminal" t)
    (heq : readTerminal t lexical = .ok (e, apps)) : Expresses "Base_terminal" e t := by
  obtain ⟨w, hw, hnodes⟩ := h.applications hp base_terminal_body
  obtain rfl : w = ["terminal"] := hw
  obtain ⟨c, hc, hnode⟩ := single_of_nodes hnodes
  have hspells : Tree.Spells "terminal" c.text.toList c :=
    ⟨hnode.rule?_eq hp, String.ofList_toList.symm⟩
  have hdenotes := Denotes.terminal (h.rule?_eq hp) (each_of_single hc hspells)
  obtain ⟨apps', heq', -⟩ := hdenotes.2 lexical
  rw [readExpr_eq] at heq'
  simp only [readNode, h.rule?_eq hp, Option.getD_some] at heq'
  obtain ⟨rfl, -⟩ := Prod.mk.inj (Except.ok.inj (heq.symm.trans heq'))
  exact ⟨hdenotes, .leaf rfl fun _ => rfl⟩

theorem expresses_range (h : Node p root "Base_range" t)
    (heq : readRange t lexical = .ok (e, apps)) : Expresses "Base_range" e t := by
  obtain ⟨w, hw, hnodes⟩ := h.applications hp base_range_body
  obtain ⟨_, rfl, _, ⟨_, rfl, _, ⟨_, rfl, _, rfl, rfl⟩, rfl⟩, rfl⟩ := hw
  obtain ⟨lo, rest, hlo, hrest, happs⟩ := List.forall₂_cons_left_iff.mp hnodes
  obtain ⟨hi, rfl, hhi⟩ := single_of_nodes hrest
  have hnamed : t.named "oneCharTerminal" = [lo, hi] := by
    rw [Tree.Located.named, happs]
    simp [hlo.rule?_eq hp, hhi.rule?_eq hp]
  rw [readRange, hnamed] at heq
  cases hlochar : firstChar? lo with
  | none => simp [hlochar] at heq
  | some clo =>
      cases hhichar : firstChar? hi with
      | none => simp [hlochar, hhichar] at heq
      | some chi =>
          simp only [List.map, hlochar, hhichar] at heq
          obtain ⟨rfl, -⟩ := Prod.mk.inj (Except.ok.inj heq)
          rw [firstChar?, ← String.ofList_toList (s := lo.text)] at hlochar
          rw [firstChar?, ← String.ofList_toList (s := hi.text)] at hhichar
          refine ⟨.range (h.rule?_eq hp) hlochar hhichar (happs ▸ .cons ?_ (.cons ?_ .nil)),
            .leaf rfl fun _ => rfl⟩
          · exact ⟨hlo.rule?_eq hp, String.ofList_toList.symm⟩
          · exact ⟨hhi.rule?_eq hp, String.ofList_toList.symm⟩

end

/-- What a node of a source is built into, it denotes. -/
theorem denotes_of_readExpr {p : Parser} {root : Tree.Located} (hp : ofGrammars.ParsedBy p)
    (t : Tree.Located) : ∀ q ∈ expressions, Node p root q t → ∀ lexical e apps,
      readExpr t lexical = .ok (e, apps) → Expresses q e t := by
  induction t using Tree.Located.induction with
  | step t ih =>
      intro q hq h lexical e apps heq
      have hrule := h.rule?_eq hp
      rw [readExpr_eq] at heq
      have hpart (r : String) (hr : r ∈ expressions) (lexical : Bool) : ∀ c ∈ t.applications,
          Node p root r c → ∀ e apps, readExpr c lexical = .ok (e, apps) → Expresses r e c :=
        fun c hc hnode e apps heq => ih c hc r hr hnode lexical e apps heq
      have honly {rs : List String} (hrs : ∀ r ∈ rs, r ∈ expressions) : ∀ c ∈ t.applications,
          ∀ r ∈ rs, Node p root r c → ∀ e apps, readExpr c lexical = .ok (e, apps) →
            Expresses r e c :=
        fun c hc r hr => hpart r (hrs r hr) lexical c hc
      have hoperator {r q : String} {lexical : Bool} {u : Expr → Expr} {e : Expr}
          {apps : List Application} (hr : r ∈ expressions)
          (hnodes : List.Forall₂ (Node p root) [r] t.applications)
          (hdenotes : ∀ e, Tree.Each t.applications [Denotes r e] → Denotes q (u e) t)
          (hfull : ∀ e, (u e).full = e.full)
          (happs : ∀ e lexical, ∃ inner, (u e).applications lexical = e.applications inner)
          (heq : ((readFirst t (t.applications.map fun s => ⟨s, readExpr s⟩) r).map u) lexical =
            .ok (e, apps)) : Expresses q e t := by
        obtain ⟨c, hc, hnode⟩ := single_of_nodes hnodes
        refine expresses_of_operator hp hc hnode (hpart r hr lexical c ?_ hnode) hdenotes hfull
          happs heq
        rw [hc]
        exact List.mem_singleton_self c
      have hsame {u : Expr → Expr} (hu : ∀ e lexical, (u e).applications lexical =
          e.applications lexical) (e : Expr) (lexical : Bool) :
          ∃ inner, (u e).applications lexical = e.applications inner := ⟨lexical, hu e lexical⟩
      simp only [expressions, List.mem_cons, List.not_mem_nil, or_false] at hq
      -- in the order of `expressions`
      rcases hq with rfl | rfl | rfl | rfl | rfl | rfl | rfl | rfl | rfl | rfl | rfl | rfl | rfl |
        rfl | rfl | rfl
      all_goals simp only [readNode, hrule, Option.getD_some, descend_eq] at heq
      · exact expresses_of_parts hp alt_body rfl (by decide) h (hpart _ (by decide) _)
          (fun es => .alt hrule) (fun es => expressible_choice) heq
      · exact expresses_of_parts hp seq_body rfl (by decide) h (hpart _ (by decide) _)
          (fun es => .seq hrule) (fun es => expressible_sequence) heq
      · exact expresses_of_only hp (by decide) ["Iter_star", "Iter_plus", "Iter_opt", "Pred"]
          iter_body h (honly (by decide)) heq
      · exact expresses_of_only hp (by decide) ["Pred_not", "Pred_lookahead", "Lex"] pred_body h
          (honly (by decide)) heq
      · exact expresses_of_only hp (by decide) ["Lex_lex", "Base"] lex_body h
          (honly (by decide)) heq
      · exact expresses_of_only hp (by decide)
          ["Base_application", "Base_range", "Base_terminal", "Base_paren"] base_body h
          (honly (by decide)) heq
      · exact hoperator (by decide) (h.of_steps (v := [.rule "Pred", .mark "*"]) hp
          (iterRule_body .star)) (fun e => .iteration .star hrule) (fun _ => rfl)
          (hsame fun _ _ => rfl) heq
      · exact hoperator (by decide) (h.of_steps (v := [.rule "Pred", .mark "+"]) hp
          (iterRule_body .plus)) (fun e => .iteration .plus hrule) (fun _ => rfl)
          (hsame fun _ _ => rfl) heq
      · exact hoperator (by decide) (h.of_steps (v := [.rule "Pred", .mark "?"]) hp
          (iterRule_body .opt)) (fun e => .iteration .opt hrule) (fun _ => rfl)
          (hsame fun _ _ => rfl) heq
      · exact hoperator (by decide) (h.of_steps (v := [.mark "~", .rule "Lex"]) hp pred_not_body)
          (fun e => .not hrule) (fun _ => rfl) (hsame fun _ _ => rfl) heq
      · exact hoperator (by decide)
          (h.of_steps (v := [.mark "&", .rule "Lex"]) hp pred_lookahead_body)
          (fun e => .look hrule) (fun _ => rfl) (hsame fun _ _ => rfl) heq
      · exact hoperator (by decide) (h.of_steps (v := [.mark "#", .rule "Base"]) hp lex_lex_body)
          (fun e => .lex hrule) (fun _ => rfl) (fun _ _ => ⟨true, rfl⟩) heq
      · exact expresses_application hp h heq
      · exact expresses_range hp h heq
      · exact expresses_terminal hp h heq
      · have hparen : ((readFirst t (t.applications.map fun s => ⟨s, readExpr s⟩) "Alt").map id)
            lexical = .ok (e, apps) := by
          rw [Reading.map, heq]
          rfl
        exact hoperator (by decide)
          (h.of_steps (v := [.mark "(", .rule "Alt", .mark ")"]) hp base_paren_body)
          (fun e => .paren hrule) (fun _ => rfl) (hsame fun _ _ => rfl) hparen

/-! ## Bodies -/

section

variable {p : Parser} {root t c body : Tree.Located} {rule : String} {st : State} {b b' : Body}
  (hp : ofGrammars.ParsedBy p)

include hp

/-- A term without a case name, when it is read. -/
theorem isTerm_of_readTerm (h : Node p root "TopLevelTerm" t)
    (hplain : ∀ c ∈ t.applications, c.tree.rule? ≠ some "TopLevelTerm_inline")
    (heq : readTerm st rule b t = .ok b') : ∃ e apps, IsTerm e t ∧ Expressible e ∧
      b' = { b with terms := b.terms ++ [e], applications := b.applications ++ apps } := by
  obtain ⟨r, hr, c, happs, hc⟩ := h.only hp ["TopLevelTerm_inline", "Seq"] topLevelTerm_body
  have hrule := hc.rule?_eq hp
  have hinline : r ≠ "TopLevelTerm_inline" := by
    rintro rfl
    exact hplain c (happs ▸ List.mem_singleton_self c) hrule
  obtain rfl : r = "Seq" := by simpa [hinline] using hr
  have honly : onlyChild t = .ok (c, "Seq") := by
    simp [onlyChild, Tree.Located.onlyChild?, happs, hrule]
  cases termRead_of_readTerm heq with
  | @plain inner kind e apps honly' hkind hread =>
      obtain ⟨rfl, -⟩ := Prod.mk.inj (Except.ok.inj (honly.symm.trans honly'))
      obtain ⟨hdenotes, hexpressible⟩ :=
        denotes_of_readExpr hp c "Seq" (by decide) hc _ e apps hread
      exact ⟨e, apps, ⟨h.rule?_eq hp, each_of_single happs hdenotes⟩, hexpressible, rfl⟩
  | named honly' =>
      obtain ⟨-, hkind⟩ := Prod.mk.inj (Except.ok.inj (honly.symm.trans honly'))
      exact absurd hkind (by decide)

/-- A body without named cases, when it is read. -/
theorem isBody_of_readBody (h : Node p root "RuleBody" body)
    (hplain : ∀ s, body.Reaches s → s.tree.rule? ≠ some "TopLevelTerm_inline")
    (heq : readBody st rule body = .ok b) :
    IsBody b.terms body ∧ b.terms ≠ [] ∧ ∀ e ∈ b.terms, Expressible e := by
  obtain ⟨hne, hterms⟩ := h.all_parts hp (r := "TopLevelTerm") ruleBody_body rfl (by decide)
  have hnamed : body.named "TopLevelTerm" = body.applications :=
    List.filter_eq_self.mpr fun t ht => decide_eq_true ((hterms t ht).rule?_eq hp)
  rw [readBody, hnamed] at heq
  have hread : (∀ t ∈ body.applications, t ∈ body.applications) →
      List.Forall₂ (fun t e => IsTerm e t ∧ Expressible e) body.applications b.terms := by
    refine foldlM_history (P := fun ts b => (∀ t ∈ ts, t ∈ body.applications) →
      List.Forall₂ (fun t e => IsTerm e t ∧ Expressible e) ts b.terms) ?_ (fun _ => .nil) heq
    intro ts t b b' ih hstep hmem
    obtain ⟨hts, ht⟩ := List.forall_mem_append.mp hmem
    have ht := List.forall_mem_singleton.mp ht
    obtain ⟨e, apps, hterm, hexpressible, rfl⟩ := isTerm_of_readTerm hp (hterms t ht)
      (fun c hc => hplain c (.head ht (.single hc))) hstep
    exact List.rel_append (ih hts) (.cons ⟨hterm, hexpressible⟩ .nil)
  have hread := hread fun _ ht => ht
  refine ⟨⟨h.rule?_eq hp, List.forall₂_map_right_iff.mpr (hread.imp fun _ _ h => h.1)⟩, ?_, ?_⟩
  · intro hnil
    rw [hnil] at hread
    exact hne (List.forall₂_nil_right_iff.mp hread)
  · intro e he
    obtain ⟨t, -, ht⟩ := exists_of_mem_right hread he
    exact ht.2

end

end Pegboard.Grammar.Build
