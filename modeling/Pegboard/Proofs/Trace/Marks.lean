import Pegboard.Proofs.Trace.Spans

/-!
# The nodes that are marked as skipped spaces

A trace holds nodes that a grammar asks for, and nodes of the spaces that are skipped unasked. `Records`
says which nodes the evaluation of expressions records, and which of them are those of the expressions:
spaces have one marked node, unless the grammar has no rule for them, and no other node is marked.

The mark is put on the last node that was recorded, which is the one of the spaces if the grammar has a
rule for them. If it has none the mark goes to whatever stands there. Nodes may be marked wrongly in
this one way: a trace in which it did not happen (`Genuine`) is as it should be.

Main statement: `trace_marks`.
-/

namespace Pegboard

open Trace

/-- What is evaluated before the expression unasked. In a syntactic context spaces are skipped before all
that reads the text, apart from the spaces themselves. -/
def Expr.unasked (syntactic : Bool) : Expr → List Expr
  | apply rule => if syntactic && rule != "spaces" then [apply "spaces"] else []
  | e => if syntactic && e.consumesInput then [apply "spaces"] else []

theorem Expr.unasked_eq (syntactic : Bool) (e : Expr) :
    e.unasked syntactic = [] ∨ e.unasked syntactic = [apply "spaces"] := by
  unfold unasked
  split <;> split <;> simp

theorem Expr.unasked_of_combines {syntactic : Bool} {e : Expr} (h : e.consumesInput = false) :
    e.unasked syntactic = [] := by
  unfold unasked
  split
  · cases h
  · rw [h, Bool.and_false, if_neg Bool.false_ne_true]

namespace Trace

/-- The node as one that skips spaces unasked. -/
def Node.mark (n : Node) : Node :=
  { n with implicitSpaces := true }

mutual

/-- A node and all below it. -/
def Node.nodes : Node → List Node
  | ⟨step, start, stop, succeeded, memoized, implicitSpaces, children⟩ =>
    ⟨step, start, stop, succeeded, memoized, implicitSpaces, children⟩ :: nodesAll children

def nodesAll : List Node → List Node
  | [] => []
  | n :: ns => n.nodes ++ nodesAll ns

end

theorem Node.nodes_eq (n : Node) : n.nodes = n :: nodesAll n.children := by
  obtain ⟨step, start, stop, succeeded, memoized, implicitSpaces, children⟩ := n
  rw [Node.nodes]

theorem nodesAll_eq (ns : List Node) : nodesAll ns = ns.flatMap Node.nodes := by
  induction ns with
  | nil => rfl
  | cons n ns ih => rw [nodesAll, ih, List.flatMap_cons]

mutual

theorem Node.map_walkOnto (depth : Nat) (visited : List (Nat × Node)) : ∀ n : Node,
    (n.walkOnto depth visited).map (·.2) = n.nodes.reverse ++ visited.map (·.2)
  | ⟨step, start, stop, succeeded, memoized, implicitSpaces, children⟩ => by
      rw [Node.walkOnto, descend_eq, map_walkAllOnto, Node.nodes]
      simp

theorem map_walkAllOnto (depth : Nat) (visited : List (Nat × Node)) : ∀ ns : List Node,
    (walkAllOnto depth visited ns).map (·.2) = (nodesAll ns).reverse ++ visited.map (·.2)
  | [] => rfl
  | n :: ns => by
      rw [walkAllOnto, map_walkAllOnto, Node.map_walkOnto, nodesAll]
      simp

end

theorem nodesAll_append (ns ms : List Node) : nodesAll (ns ++ ms) = nodesAll ns ++ nodesAll ms := by
  simp only [nodesAll_eq, List.flatMap_append]

/-- What holds of marked nodes and of all that is below them. -/
theorem forall_marked {P Q : Node → Prop} {ns : List Node} (hns : ∀ n ∈ ns, Q n)
    (hbelow : ∀ n ∈ nodesAll ns, P n) (hmark : ∀ n, Q n → P n.mark) :
    ∀ n ∈ nodesAll (ns.map Node.mark), P n := by
  intro x hx
  rw [nodesAll_eq, List.flatMap_map] at hx
  obtain ⟨n, hn, hx⟩ := List.mem_flatMap.mp hx
  rw [Node.nodes_eq] at hx
  rcases List.mem_cons.mp hx with rfl | hx
  · exact hmark n (hns n hn)
  · refine hbelow x ?_
    rw [nodesAll_eq]
    exact List.mem_flatMap.mpr ⟨n, hn, by rw [Node.nodes_eq]; exact List.mem_cons_of_mem _ hx⟩

theorem spansAll_marked (ns : List Node) : spansAll (ns.map Node.mark) = [] := by
  induction ns with
  | nil => rfl
  | cons n ns ih => rw [List.map_cons, spansAll, ih, Node.spans_of_implicit rfl, List.append_nil]

theorem renderAllOnto_append (view : View) (input : Text.Input) (depth : Nat) (out : String)
    (ns ms : List Node) : renderAllOnto view input depth out (ns ++ ms) =
      renderAllOnto view input depth (renderAllOnto view input depth out ns) ms := by
  induction ns generalizing out with
  | nil => rfl
  | cons n ns ih => rw [List.cons_append, renderAllOnto, renderAllOnto, ih]

theorem renderAllOnto_marked (failures : Bool) (input : Text.Input) (depth : Nat) (out : String)
    (ns : List Node) :
    renderAllOnto ⟨failures, false⟩ input depth out (ns.map Node.mark) = out := by
  induction ns with
  | nil => rfl
  | cons n ns ih =>
      obtain ⟨step, start, stop, succeeded, memoized, implicitSpaces, children⟩ := n
      rw [List.map_cons, renderAllOnto, Node.mark, Node.renderOnto, if_pos (by simp), ih]

theorem map_walk (t : Trace) : t.walk.map (·.2) = nodesAll t.root.children := by
  rw [walk, List.map_reverse, map_walkAllOnto, List.map_nil, List.append_nil, List.reverse_reverse]

end Trace

namespace Match

open Evaluation

/-! ## What is recorded -/

/-- An expression has a node of this step, and below the node these expressions are evaluated, one after
the other, in a context that skips spaces or not. -/
inductive Unfolds (g : Grammar) : Bool → Expr → Trace.Step → Bool → List Expr → Prop
  | any {syntactic} : Unfolds g syntactic .any (.eval .any) syntactic []
  | endOfInput {syntactic} : Unfolds g syntactic .endOfInput (.eval .endOfInput) syntactic []
  | terminal {syntactic s} : Unfolds g syntactic (.terminal s) (.eval (.terminal s)) syntactic []
  | range {syntactic lo hi} :
      Unfolds g syntactic (.range lo hi) (.eval (.range lo hi)) syntactic []
  /-- Nothing is evaluated where a seed is read that there is none of yet. -/
  | apply {syntactic rule r es} (hrule : g.rule? rule = some r) (hbody : es <+: [r.body]) :
      Unfolds g syntactic (.apply rule) (.apply rule) (isSyntactic rule) es
  | alt {syntactic es tried} (h : tried <+: es) :
      Unfolds g syntactic (.alt es) (.eval (.alt es)) syntactic tried
  | seq {syntactic es tried} (h : tried <+: es) :
      Unfolds g syntactic (.seq es) (.eval (.seq es)) syntactic tried
  | iter {syntactic op e} (rounds : Nat) :
      Unfolds g syntactic (.iter op e) (.eval (.iter op e)) syntactic (.replicate rounds e)
  | not {syntactic e} : Unfolds g syntactic (.not e) (.eval (.not e)) syntactic [e]
  | look {syntactic e} : Unfolds g syntactic (.look e) (.eval (.look e)) syntactic [e]
  | lex {syntactic e} : Unfolds g syntactic (.lex e) (.eval (.lex e)) false [e]

/-- Expressions that are evaluated one after the other record these nodes. Without the skipped spaces and
what is below them, these are the nodes of the expressions. -/
inductive Records (g : Grammar) : Bool → List Expr → List Node → List Node → Prop
  | nil {syntactic} : Records g syntactic [] [] []
  /-- Nothing is recorded of a rule that there is none of. -/
  | undeclared {syntactic rule es spaces hidden nodes own} (hrule : g.rule? rule = none)
      (hspaces : Records g false ((Expr.apply rule).unasked syntactic) spaces hidden)
      (hrest : Records g syntactic es nodes own) :
      Records g syntactic (.apply rule :: es) (spaces.map Node.mark ++ nodes) own
  | node {syntactic e es spaces hidden step syntactic' es' children below nodes own}
      {start stop : Nat} {succeeded memoized : Bool}
      (hspaces : Records g false (e.unasked syntactic) spaces hidden)
      (hunfolds : Unfolds g syntactic e step syntactic' es')
      (hchildren : Records g syntactic' es' children below)
      (hrest : Records g syntactic es nodes own) :
      Records g syntactic (e :: es)
        (spaces.map Node.mark ++ ⟨step, start, stop, succeeded, memoized, false, children⟩ :: nodes)
        (⟨step, start, stop, succeeded, memoized, false, below⟩ :: own)

namespace Records

variable {g : Grammar} {syntactic : Bool} {e : Expr} {es es' : List Expr}
  {nodes nodes' own own' : List Node} {rule : String}

theorem eq_nil (h : Records g syntactic [] nodes own) : nodes = [] ∧ own = [] := by
  cases h
  exact ⟨rfl, rfl⟩

theorem append (h : Records g syntactic es nodes own) (h' : Records g syntactic es' nodes' own') :
    Records g syntactic (es ++ es') (nodes ++ nodes') (own ++ own') := by
  induction h with
  | nil => exact h'
  | undeclared hrule hspaces _ _ ih =>
      rw [List.append_assoc]
      exact .undeclared hrule hspaces (ih h')
  | node hspaces hunfolds hchildren _ _ _ ih =>
      rw [List.append_assoc]
      exact .node hspaces hunfolds hchildren (ih h')

/-- Where no spaces are skipped an application has one node, or the rule is not there. -/
theorem of_apply (h : Records g false [.apply rule] nodes own) :
    nodes = [] ∧ g.hasRule rule = false ∨
      ∃ n, nodes = [n] ∧ n.step = .apply rule ∧ g.hasRule rule = true := by
  cases h with
  | undeclared hrule hspaces hrest =>
      obtain ⟨rfl, -⟩ := eq_nil hspaces
      obtain ⟨rfl, rfl⟩ := eq_nil hrest
      exact .inl ⟨rfl, by rw [Grammar.hasRule, hrule, Option.isSome_none]⟩
  | node hspaces hunfolds _ hrest =>
      obtain ⟨rfl, -⟩ := eq_nil hspaces
      obtain ⟨rfl, rfl⟩ := eq_nil hrest
      cases hunfolds with
      | apply hrule => exact .inr ⟨_, rfl, rfl, by rw [Grammar.hasRule, hrule, Option.isSome_some]⟩

/-- What is evaluated unasked records an application of `spaces`, and nothing without that rule. -/
theorem of_unasked (h : Records g false (e.unasked syntactic) nodes own) :
    ∀ n ∈ nodes, n.step = .apply "spaces" ∧ g.hasRule "spaces" = true := by
  rcases e.unasked_eq syntactic with hnone | hspaces
  · rw [hnone] at h
    obtain ⟨rfl, -⟩ := eq_nil h
    exact List.forall_mem_nil _
  · rw [hspaces] at h
    rcases of_apply h with ⟨rfl, -⟩ | ⟨n, rfl, hn⟩
    · exact List.forall_mem_nil _
    · exact List.forall_mem_singleton.mpr hn

/-- Each marked node is one of skipped spaces. -/
theorem marked (h : Records g syntactic es nodes own) : ∀ n ∈ nodesAll nodes,
    n.implicitSpaces = true → n.step = .apply "spaces" ∧ g.hasRule "spaces" = true := by
  induction h with
  | nil => exact List.forall_mem_nil _
  | undeclared _ hspaces _ ihspaces ihrest =>
      rw [nodesAll_append]
      exact List.forall_mem_append.mpr ⟨forall_marked hspaces.of_unasked ihspaces fun _ h _ => h, ihrest⟩
  | node hspaces _ _ _ ihspaces ihchildren ihrest =>
      rw [nodesAll_append, nodesAll, Node.nodes]
      refine List.forall_mem_append.mpr ⟨forall_marked hspaces.of_unasked ihspaces fun _ h _ => h,
        List.forall_mem_append.mpr ⟨List.forall_mem_cons.mpr ⟨nofun, ihchildren⟩, ihrest⟩⟩

/-- No node of an expression is marked. -/
theorem own_unmarked (h : Records g syntactic es nodes own) :
    ∀ n ∈ nodesAll own, n.implicitSpaces = false := by
  induction h with
  | nil => exact List.forall_mem_nil _
  | undeclared _ _ _ _ ihrest => exact ihrest
  | node _ _ _ _ _ ihchildren ihrest =>
      rw [nodesAll, Node.nodes]
      exact List.forall_mem_append.mpr ⟨List.forall_mem_cons.mpr ⟨rfl, ihchildren⟩, ihrest⟩

/-- The rule applications shown are those of the expressions. -/
theorem spans_eq (h : Records g syntactic es nodes own) : spansAll nodes = spansAll own := by
  induction h with
  | nil => rfl
  | undeclared _ _ _ _ ihrest => rw [spansAll_append, spansAll_marked, List.nil_append, ihrest]
  | node _ _ _ _ _ ihchildren ihrest =>
      rw [spansAll_append, spansAll_marked, List.nil_append, spansAll, spansAll, Node.spans,
        Node.spans, ihchildren, ihrest]

/-- A rendering without skipped spaces has a line for each node of the expressions, as far as failures
are shown. -/
theorem render_eq (h : Records g syntactic es nodes own) (failures : Bool) (input : Text.Input)
    (depth : Nat) (out : String) :
    renderAllOnto ⟨failures, false⟩ input depth out nodes =
      renderAllOnto ⟨failures, true⟩ input depth out own := by
  induction h generalizing depth out with
  | nil => rfl
  | undeclared _ _ _ _ ihrest => rw [renderAllOnto_append, renderAllOnto_marked, ihrest]
  | node _ _ _ _ _ ihchildren ihrest =>
      rw [renderAllOnto_append, renderAllOnto_marked, renderAllOnto, renderAllOnto, ihrest,
        Node.renderOnto, Node.renderOnto, descend_eq, descend_eq, ihchildren]
      simp

end Records

/-! ## What evaluations record -/

/-- No node among these was marked for want of the nodes of spaces: the grammar has a rule for them, or
else there is no mark. -/
def Genuine (g : Grammar) (ns : List Node) : Prop :=
  g.hasRule "spaces" = true ∨ ∀ n ∈ nodesAll ns, n.implicitSpaces = false

/-- The nodes that an expression records behind those of the spaces before it. -/
def Behind (g : Grammar) (syntactic : Bool) (e : Expr) (nodes own : List Node) : Prop :=
  ∀ spaces hidden, Records g false (e.unasked syntactic) spaces hidden →
    Records g syntactic [e] (spaces.map Node.mark ++ nodes) own

/-- The node of an application, with what the body of the rule records below it. -/
def Applied (g : Grammar) (rule : String) (n : Node) : Prop :=
  n.step = .apply rule ∧ n.implicitSpaces = false ∧ ∃ r es below, g.rule? rule = some r ∧
    es <+: [r.body] ∧ Records g (isSyntactic rule) es n.children below

/-- Whoever reads the entry shows a node that is as it should be. -/
def Entry.Applied (g : Grammar) (pos : Nat) (rule : String) (e : Entry) : Prop :=
  Genuine g [reused rule pos e.tree? e.trace?] →
    Match.Applied g rule (reused rule pos e.tree? e.trace?)

def Memo.Applied (g : Grammar) (memo : Memo) : Prop :=
  memo.Each (Entry.Applied g)

/-- An evaluation recorded nodes of this kind behind those that were there. -/
structure Outcome.Adds (g : Grammar) (P : List Node → List Node → Prop) (log : Log)
    (out : Outcome) : Prop where
  nodes : Genuine g out.log.trace → ∃ nodes own, out.log.trace = nodes.reverse ++ log.trace ∧
    P nodes own
  memo : out.memo.Applied g

def Evaluation.Adds (g : Grammar) (e : Evaluation) (P : List Node → List Node → Prop) : Prop :=
  ∀ c log memo out, memo.Applied g → e c log memo = some out → out.Adds g P log

/-- The applications of rules record their nodes. -/
def Evaluation.Calls (g : Grammar) (apply : String → Evaluation) : Prop :=
  ∀ syntactic rule, (apply rule).Adds g (Behind g syntactic (.apply rule))

variable {g : Grammar} {syntactic : Bool} {rule : String} {expr : Expr} {es : List Expr}
  {P P' Q : List Node → List Node → Prop}

namespace Genuine

variable {ns ms : List Node} {n : Node}

theorem mono (h : Genuine g ns) (hsub : nodesAll ms ⊆ nodesAll ns) : Genuine g ms :=
  h.imp_right fun hns n hn => hns n (hsub hn)

theorem of_append (h : Genuine g (ns ++ ms)) : Genuine g ms :=
  h.mono (by rw [nodesAll_append]; exact List.subset_append_right _ _)

theorem below (h : Genuine g (n :: ns)) : Genuine g n.children :=
  h.mono (by
    rw [nodesAll, Node.nodes_eq]
    exact fun x hx => List.mem_append_left _ (List.mem_cons_of_mem n hx))

theorem of_reverse (h : Genuine g ns.reverse) : Genuine g ns :=
  h.mono fun x hx => by simpa [nodesAll_eq] using hx

theorem memoized {memoized : Bool} (h : Genuine g [{ n with memoized := memoized }])
    (hn : n.implicitSpaces = false) : Genuine g [n] := by
  refine h.imp_right fun hall x hx => ?_
  simp only [nodesAll, Node.nodes_eq, List.append_nil, List.mem_cons] at hall hx
  rcases hx with rfl | hx
  · exact hn
  · exact hall x (.inr hx)

end Genuine

theorem Behind.of_unfolds {nodes below : List Node} {step : Trace.Step} {syntactic' : Bool}
    {start stop : Nat} {succeeded memoized : Bool}
    (hunfolds : Unfolds g syntactic expr step syntactic' es)
    (hchildren : Records g syntactic' es nodes below) :
    Behind g syntactic expr [⟨step, start, stop, succeeded, memoized, false, nodes⟩]
      [⟨step, start, stop, succeeded, memoized, false, below⟩] :=
  fun _ _ hspaces => .node hspaces hunfolds hchildren .nil

/-- Where no spaces are skipped nothing stands before the nodes. -/
theorem Behind.records {nodes own : List Node} (h : Behind g syntactic expr nodes own)
    (hunasked : expr.unasked syntactic = []) : Records g syntactic [expr] nodes own :=
  h [] [] (hunasked ▸ .nil)

theorem Applied.behind {n : Node} (h : Applied g rule n) :
    ∃ own, Behind g syntactic (.apply rule) [n] own := by
  obtain ⟨step, start, stop, succeeded, memoized, implicitSpaces, children⟩ := n
  obtain ⟨rfl, rfl, r, es, below, hrule, hes, hbelow⟩ := h
  exact ⟨_, .of_unfolds (.apply hrule hes) hbelow⟩

/-- Some of the expressions, from the first one on. -/
def Tried (g : Grammar) (syntactic : Bool) (es : List Expr) (nodes own : List Node) : Prop :=
  ∃ tried, tried <+: es ∧ Records g syntactic tried nodes own

theorem Tried.head {e : Expr} {es : List Expr} {nodes own : List Node}
    (h : Records g syntactic [e] nodes own) : Tried g syntactic (e :: es) nodes own :=
  ⟨[e], ⟨es, rfl⟩, h⟩

theorem Tried.cons {e : Expr} {es : List Expr} {ns own ns' own' : List Node}
    (h : Records g syntactic [e] ns own) (h' : Tried g syntactic es ns' own') :
    Tried g syntactic (e :: es) (ns ++ ns') (own ++ own') := by
  obtain ⟨tried, htried, hrecords⟩ := h'
  exact ⟨e :: tried, List.cons_prefix_cons.mpr ⟨rfl, htried⟩, h.append hrecords⟩

/-! ## Combining evaluations -/

namespace Outcome.Adds

variable {c? : Option Cursor} {log log' : Log} {memo : Memo} {out : Outcome}

theorem mono (h : out.Adds g P log) (hPQ : ∀ nodes own, P nodes own → Q nodes own) :
    out.Adds g Q log := by
  refine ⟨fun hgenuine => ?_, h.memo⟩
  obtain ⟨nodes, own, htrace, hP⟩ := h.nodes hgenuine
  exact ⟨nodes, own, htrace, hPQ _ _ hP⟩

/-- An evaluation after another one. -/
theorem trans (h : Outcome.Adds g P log ⟨c?, log', memo⟩) (h' : out.Adds g P' log')
    (hQ : ∀ ns own ns' own', P ns own → P' ns' own' → Q (ns ++ ns') (own ++ own')) :
    out.Adds g Q log := by
  refine ⟨fun hgenuine => ?_, h'.memo⟩
  obtain ⟨ns', own', htrace', hP'⟩ := h'.nodes hgenuine
  rw [htrace'] at hgenuine
  obtain ⟨ns, own, htrace, hP⟩ := h.nodes hgenuine.of_append
  refine ⟨ns ++ ns', own ++ own', ?_, hQ _ _ _ _ hP hP'⟩
  rw [htrace', show log'.trace = _ from htrace, List.reverse_append, List.append_assoc]

end Outcome.Adds

namespace Evaluation.Adds

variable {set : Setting} {e first second : Evaluation} {apply : String → Evaluation}

theorem of_reads (h : e.Reads) : e.Adds g (Records g syntactic []) := by
  intro c log memo out hmemo heq
  obtain ⟨hout, htrace, -⟩ := h c log memo out heq
  exact ⟨fun _ => ⟨[], [], htrace, .nil⟩, hout ▸ hmemo⟩

theorem traced (hset : set.tracing = true) (h : e.Adds g P)
    (hP : ∀ nodes own, P nodes own → ∃ syntactic' es,
      Unfolds g syntactic expr (.eval expr) syntactic' es ∧ Records g syntactic' es nodes own) :
    (Evaluation.traced set expr e).Adds g (Behind g syntactic expr) := by
  intro c log memo out hmemo heq
  obtain ⟨inner, he, -, hout, hlog⟩ := traced_eq_some heq
  rw [if_pos hset] at he hlog
  have hadds := h c _ memo inner hmemo he
  refine ⟨fun hgenuine => ?_, hout ▸ hadds.memo⟩
  rw [hlog] at hgenuine ⊢
  obtain ⟨nodes, own, htrace, hnodes⟩ := hadds.nodes hgenuine.below.of_reverse
  obtain ⟨syntactic', es, hunfolds, hrecords⟩ := hP nodes own hnodes
  have hchildren : inner.log.trace.reverse = nodes := by simpa using congrArg List.reverse htrace
  exact ⟨[evalNode expr c inner], _, rfl, .of_unfolds hunfolds (hchildren ▸ hrecords)⟩

/-- Spaces that are skipped have their node marked, which is the last one if there is a rule for them. -/
theorem skipSpaces (happly : (apply "spaces").Adds g (Records g false [.apply "spaces"])) :
    (Evaluation.skipSpaces apply).Adds g fun nodes own => own = [] ∧
      ∃ spaces hidden, Records g false [.apply "spaces"] spaces hidden ∧
        nodes = spaces.map Node.mark := by
  intro c log memo out hmemo heq
  obtain ⟨c?, inner, hspaces, -, hlog⟩ := skipSpaces_eq_some heq
  have hadds := happly c _ memo _ hmemo hspaces
  refine ⟨fun hgenuine => ?_, hadds.memo⟩
  rw [hlog, Log.markSpaces] at hgenuine ⊢
  cases hinner : inner.trace with
  | nil =>
      obtain ⟨spaces, hidden, htrace, hrecords⟩ :=
        hadds.nodes (.inr (hinner ▸ List.forall_mem_nil _))
      obtain ⟨hnone, hlog⟩ := List.append_eq_nil_iff.mp (htrace.symm.trans hinner)
      obtain rfl := List.reverse_eq_nil_iff.mp hnone
      exact ⟨[], [], hlog.symm, rfl, [], hidden, hrecords, rfl⟩
  | cons n rest =>
      simp only [hinner] at hgenuine ⊢
      -- the grammar has a rule for spaces, since there is a mark
      have hthere : g.hasRule "spaces" = true := by
        refine hgenuine.resolve_right fun hall => ?_
        have hmem : n.mark ∈ nodesAll (n.mark :: rest) := by
          rw [nodesAll, Node.nodes_eq]
          exact List.mem_append_left _ List.mem_cons_self
        exact Bool.noConfusion (hall n.mark hmem)
      obtain ⟨spaces, hidden, htrace, hrecords⟩ := hadds.nodes (.inl hthere)
      rcases hrecords.of_apply with ⟨-, hnone⟩ | ⟨n', rfl, -⟩
      · cases hthere.symm.trans hnone
      · obtain ⟨rfl, rfl⟩ := List.cons_eq_cons.mp (hinner.symm.trans htrace)
        exact ⟨[n.mark], [], rfl, rfl, [n], hidden, hrecords, rfl⟩

/-- Spaces are skipped before an evaluation, or are not. -/
theorem spaced (happly : (apply "spaces").Adds g (Records g false [.apply "spaces"])) (skip : Bool)
    (h : e.Adds g P) (hQ : ∀ spaces hidden nodes own,
      Records g false (if skip then [.apply "spaces"] else []) spaces hidden → P nodes own →
        Q (spaces.map Node.mark ++ nodes) own) : (Evaluation.spaced apply skip e).Adds g Q := by
  cases skip with
  | false =>
      exact fun c log memo out hmemo heq =>
        (h c log memo out hmemo heq).mono fun nodes own hP => hQ [] [] nodes own .nil hP
  | true =>
      intro c log memo out hmemo heq
      rcases andThen_eq_some heq with ⟨hskip, -⟩ | ⟨c', log', memo', hskip, he⟩
      · obtain ⟨c?, inner, -, hcursor, -⟩ := skipSpaces_eq_some hskip
        cases hcursor
      · have hadds := skipSpaces happly c log memo _ hmemo hskip
        refine hadds.trans (h c' log' memo' out hadds.memo he) ?_
        rintro _ _ nodes own ⟨rfl, spaces, hidden, hspaces, rfl⟩ hP
        exact hQ spaces hidden nodes own hspaces hP

theorem andThen (h₁ : first.Adds g P) (h₂ : second.Adds g P')
    (hfirst : ∀ nodes own, P nodes own → Q nodes own)
    (hboth : ∀ ns own ns' own', P ns own → P' ns' own' → Q (ns ++ ns') (own ++ own')) :
    (first.andThen second).Adds g Q := by
  intro c log memo out hmemo heq
  rcases andThen_eq_some heq with ⟨he, -⟩ | ⟨c', log', memo', he, hrest⟩
  · have hadds := (h₁ c log memo _ hmemo he).mono hfirst
    exact ⟨hadds.nodes, hadds.memo⟩
  · have hadds := h₁ c log memo _ hmemo he
    exact hadds.trans (h₂ c' log' memo' out hadds.memo hrest) hboth

theorem orElse (h₁ : first.Adds g P) (h₂ : second.Adds g P')
    (hfirst : ∀ nodes own, P nodes own → Q nodes own)
    (hboth : ∀ ns own ns' own', P ns own → P' ns' own' → Q (ns ++ ns') (own ++ own')) :
    (first.orElse second).Adds g Q := by
  intro c log memo out hmemo heq
  rcases orElse_eq_some heq with ⟨he, -⟩ | ⟨log', memo', he, hrest⟩
  · exact (h₁ c log memo out hmemo he).mono hfirst
  · have hadds := h₁ c log memo _ hmemo he
    exact hadds.trans (h₂ c log' memo' out hadds.memo hrest) hboth

theorem not (h : e.Adds g P) : (Evaluation.not expr e).Adds g P := by
  intro c log memo out hmemo heq
  obtain ⟨c?, inner, he, htrace, -⟩ := not_eq_some heq
  have hadds := h c _ memo _ hmemo he
  exact ⟨htrace ▸ hadds.nodes, hadds.memo⟩

theorem look (h : e.Adds g P) : (Evaluation.look e).Adds g P := by
  intro c log memo out hmemo heq
  obtain ⟨c?, he, -⟩ := look_eq_some heq
  have hadds := h c log memo _ hmemo he
  exact ⟨hadds.nodes, hadds.memo⟩

/-- A round for each time that the expression is evaluated. -/
theorem rounds (h : e.Adds g (Records g syntactic [expr])) (n : Nat) (matched : Bool) :
    (Evaluation.rounds e n matched).Adds g fun nodes own =>
      ∃ k, Records g syntactic (.replicate k expr) nodes own := by
  have hone : ∀ nodes own, Records g syntactic [expr] nodes own →
      ∃ k, Records g syntactic (.replicate k expr) nodes own := fun _ _ hone => ⟨1, hone⟩
  induction n generalizing matched with
  | zero =>
      intro c log memo out hmemo heq
      obtain rfl := Option.some.inj heq
      exact ⟨fun _ => ⟨[], [], rfl, 0, .nil⟩, hmemo⟩
  | succ n ih =>
      intro c log memo out hmemo heq
      rcases rounds_succ_eq_some heq with ⟨he, -⟩ | ⟨c', he, -⟩ | ⟨c', log', memo', he, -, hrest⟩
      · have hadds := (h c log memo _ hmemo he).mono hone
        exact ⟨hadds.nodes, hadds.memo⟩
      · exact (h c log memo out hmemo he).mono hone
      · have hadds := h c log memo _ hmemo he
        refine hadds.trans (ih true c' log' memo' out hadds.memo hrest) ?_
        rintro ns own ns' own' hround ⟨k, hrounds⟩
        exact ⟨k + 1, hround.append hrounds⟩

theorem iter (op : Repeat) (h : e.Adds g (Records g syntactic [expr])) :
    (Evaluation.iter set op e).Adds g fun nodes own =>
      ∃ k, Records g syntactic (.replicate k expr) nodes own := by
  intro c log memo out hmemo heq
  obtain ⟨c?, hrounds, -⟩ := iter_eq_some heq
  have hadds := h.rounds _ _ _ _ _ _ hmemo hrounds
  exact ⟨hadds.nodes, hadds.memo⟩

theorem of_calls (happly : Calls g apply) :
    (apply "spaces").Adds g (Records g false [.apply "spaces"]) :=
  fun c log memo out hmemo heq =>
    (happly false "spaces" c log memo out hmemo heq).mono fun _ _ hbehind => hbehind.records rfl

theorem spaced_behind (happly : Calls g apply) {skip : Bool}
    (h : e.Adds g (Behind g syntactic expr))
    (hskip : expr.unasked syntactic = if skip then [.apply "spaces"] else []) :
    (Evaluation.spaced apply skip e).Adds g (Records g syntactic [expr]) := by
  refine spaced (of_calls happly) skip h fun spaces hidden nodes own hrecords hbehind => ?_
  exact hbehind spaces hidden (hskip ▸ hrecords)

theorem reads (hset : set.tracing = true) (happly : Calls g apply) (h : e.Reads)
    (hunfolds : Unfolds g syntactic expr (.eval expr) syntactic [])
    (hskip : expr.unasked syntactic = if syntactic then [.apply "spaces"] else []) :
    (Evaluation.spaced apply syntactic (Evaluation.traced set expr e)).Adds g
      (Records g syntactic [expr]) :=
  spaced_behind happly
    ((of_reads h).traced hset fun _ _ hrecords => ⟨syntactic, [], hunfolds, hrecords⟩) hskip

/-- What combines expressions has one node, and no spaces are skipped before it. -/
theorem combines (hset : set.tracing = true) (h : e.Adds g P) (hexpr : expr.consumesInput = false)
    (hP : ∀ nodes own, P nodes own → ∃ syntactic' es,
      Unfolds g syntactic expr (.eval expr) syntactic' es ∧ Records g syntactic' es nodes own) :
    (Evaluation.traced set expr e).Adds g (Records g syntactic [expr]) :=
  fun c log memo out hmemo heq =>
    (h.traced hset hP c log memo out hmemo heq).mono fun _ _ hbehind =>
      hbehind.records (Expr.unasked_of_combines hexpr)

mutual

theorem ofExpr (hset : set.tracing = true) (happly : Calls g apply) (syntactic : Bool) : ∀ e : Expr,
    (Evaluation.ofExpr set apply syntactic e).Adds g (Records g syntactic [e])
  | .any => by
      rw [Evaluation.ofExpr]
      exact reads hset happly (any_reads set) .any (by cases syntactic <;> rfl)
  | .endOfInput => by
      rw [Evaluation.ofExpr]
      exact reads hset happly (endOfInput_reads set) .endOfInput (by cases syntactic <;> rfl)
  | .terminal s => by
      rw [Evaluation.ofExpr]
      exact reads hset happly (terminal_reads set s) .terminal (by cases syntactic <;> rfl)
  | .range lo hi => by
      rw [Evaluation.ofExpr]
      exact reads hset happly (range_reads set lo hi) .range (by cases syntactic <;> rfl)
  | .apply rule => by
      rw [Evaluation.ofExpr]
      exact spaced_behind happly (happly syntactic rule) rfl
  | .alt es => by
      rw [Evaluation.ofExpr]
      refine combines hset (ofChoices hset happly syntactic es) rfl ?_
      exact fun _ _ ⟨tried, htried, hrecords⟩ => ⟨syntactic, tried, .alt htried, hrecords⟩
  | .seq es => by
      rw [Evaluation.ofExpr]
      refine combines hset (ofParts hset happly syntactic es) rfl ?_
      exact fun _ _ ⟨tried, htried, hrecords⟩ => ⟨syntactic, tried, .seq htried, hrecords⟩
  | .iter op e => by
      rw [Evaluation.ofExpr]
      refine combines hset (iter op (ofExpr hset happly syntactic e)) rfl ?_
      exact fun _ _ ⟨k, hrecords⟩ => ⟨syntactic, _, .iter k, hrecords⟩
  | .not e => by
      rw [Evaluation.ofExpr]
      refine combines hset (not (ofExpr hset happly syntactic e)) rfl ?_
      exact fun _ _ hrecords => ⟨syntactic, [e], .not, hrecords⟩
  | .look e => by
      rw [Evaluation.ofExpr]
      refine combines hset (look (ofExpr hset happly syntactic e)) rfl ?_
      exact fun _ _ hrecords => ⟨syntactic, [e], .look, hrecords⟩
  | .lex e => by
      rw [Evaluation.ofExpr]
      refine combines hset (ofExpr hset happly false e) rfl ?_
      exact fun _ _ hrecords => ⟨false, [e], .lex, hrecords⟩

theorem ofChoices (hset : set.tracing = true) (happly : Calls g apply) (syntactic : Bool) :
    ∀ es : List Expr,
      (Evaluation.ofChoices set apply syntactic es).Adds g (Tried g syntactic es)
  | [] => fun _ _ _ _ hmemo heq => by
      obtain rfl := Option.some.inj heq
      exact ⟨fun _ => ⟨[], [], rfl, [], List.prefix_rfl, .nil⟩, hmemo⟩
  | e :: es => by
      rw [Evaluation.ofChoices]
      exact orElse (ofExpr hset happly syntactic e) (ofChoices hset happly syntactic es)
        (fun _ _ => .head) fun _ _ _ _ => .cons

theorem ofParts (hset : set.tracing = true) (happly : Calls g apply) (syntactic : Bool) :
    ∀ es : List Expr,
      (Evaluation.ofParts set apply syntactic es).Adds g (Tried g syntactic es)
  | [] => fun _ _ _ _ hmemo heq => by
      obtain rfl := Option.some.inj heq
      exact ⟨fun _ => ⟨[], [], rfl, [], List.prefix_rfl, .nil⟩, hmemo⟩
  | e :: es => by
      rw [Evaluation.ofParts]
      exact andThen (ofExpr hset happly syntactic e) (ofParts hset happly syntactic es)
        (fun _ _ => .head) fun _ _ _ _ => .cons

end

end Evaluation.Adds

/-! ## Rule applications -/

section

variable {set : Setting} {body : Evaluation} {rule : Rule} {pos : Nat} {log log' : Log}
  {memo memo' : Memo} {r : Round}

/-- The nodes of a round are those of the body of the rule. -/
def Evaluation.Round.Records (g : Grammar) (rule : Rule) (r : Round) : Prop :=
  Genuine g r.trace →
    ∃ below, Match.Records g (isSyntactic rule.name) [rule.body] r.trace below

theorem Evaluation.Round.Records.applied (h : r.Records g rule)
    (hrule : g.rule? rule.name = some rule) {start stop : Nat} {succeeded memoized : Bool}
    (hgenuine : Genuine g r.trace) : Applied g rule.name
      ⟨.apply rule.name, start, stop, succeeded, memoized, false, r.trace⟩ := by
  obtain ⟨below, hbelow⟩ := h hgenuine
  exact ⟨rfl, rfl, rule, [rule.body], below, hrule, List.prefix_rfl, hbelow⟩

/-- Whoever reads an entry with the nodes of a round shows them. -/
theorem applied_entry {e : Entry} (h : r.Records g rule) (hrule : g.rule? rule.name = some rule)
    {stop : Nat} {succeeded : Bool}
    (he : e.trace? = some (.application rule.name pos stop succeeded r.trace)) :
    e.Applied g pos rule.name := by
  rw [Entry.Applied, he]
  exact fun hgenuine => h.applied hrule hgenuine.below

theorem round_adds (hbody : body.Adds g (Records g (isSyntactic rule.name) [rule.body]))
    (hmemo : memo.Applied g) (h : round rule.name pos body log memo = some (r, log', memo')) :
    r.Records g rule ∧ memo'.Applied g := by
  obtain ⟨c?, hb, -, htrace⟩ := round_eq_some h
  have hadds := hbody _ _ memo _ hmemo hb
  refine ⟨fun hgenuine => ?_, hadds.memo⟩
  rw [htrace] at hgenuine ⊢
  obtain ⟨nodes, below, hnodes, hrecords⟩ := hadds.nodes hgenuine.of_reverse
  have hround : log'.trace.reverse = nodes := by simpa using congrArg List.reverse hnodes
  exact ⟨below, hround ▸ hrecords⟩

theorem grow_adds (hset : set.tracing = true) (hrule : g.rule? rule.name = some rule)
    (hbody : body.Adds g (Records g (isSyntactic rule.name) [rule.body])) (n : Nat) {best : Tree}
    {trace : List Node} (hmemo : memo.Applied g) (hbest : Round.Records g rule ⟨some best, trace⟩)
    (h : grow set rule.name pos body n best trace log memo = some (r, log', memo')) :
    r.Records g rule ∧ memo'.Applied g := by
  induction n generalizing best trace log memo with
  | zero =>
      cases h
      exact ⟨hbest, hmemo⟩
  | succ n ih =>
      obtain ⟨r₁, log₁, memo₁, hround, hcases⟩ := grow_succ_eq_some h
      have hseed : (reseeded set rule.name pos best trace).Applied g pos rule.name :=
        applied_entry hbest hrule (by rw [reseeded, if_pos hset]; rfl)
      obtain ⟨hr₁, hmemo₁⟩ := round_adds hbody (hmemo.put hseed) hround
      rcases hcases with ⟨-, rfl, -, rfl⟩ | ⟨t, -, -, hgrow⟩
      · exact ⟨hbest, hmemo₁⟩
      · exact ih hmemo₁ hr₁ hgrow

theorem settle_adds (hset : set.tracing = true) (hrule : g.rule? rule.name = some rule)
    (hbody : body.Adds g (Records g (isSyntactic rule.name) [rule.body])) (hmemo : memo.Applied g)
    (h : settle set rule.name pos body memo = some (r, log', memo')) :
    r.Records g rule ∧ memo'.Applied g := by
  obtain ⟨r₁, log₁, memo₁, hround, hcases⟩ := settle_eq_some h
  have hnone : Entry.Applied g pos rule.name (.growing none none false) := fun _ =>
    ⟨rfl, rfl, rule, [], [], hrule, List.nil_prefix, .nil⟩
  obtain ⟨hr₁, hmemo₁⟩ := round_adds hbody (hmemo.put hnone) hround
  rcases hcases with ⟨-, rfl, -, rfl⟩ | ⟨t, -, -, hgrow⟩
  · exact ⟨hr₁, hmemo₁⟩
  · exact grow_adds hset hrule hbody _ hmemo₁ hr₁ hgrow

/-- An application has one node, behind those that were there. -/
theorem Outcome.Adds.applied {n : Node} {out : Outcome} (htrace : out.log.trace = n :: log.trace)
    (hn : Genuine g [n] → Match.Applied g rule.name n) (hmemo : out.memo.Applied g) :
    out.Adds g (Behind g syntactic (.apply rule.name)) log := by
  refine ⟨fun hgenuine => ?_, hmemo⟩
  have hhere : Genuine g [n] := by
    refine hgenuine.mono fun x hx => ?_
    rw [htrace, nodesAll]
    rw [nodesAll, nodesAll, List.append_nil] at hx
    exact List.mem_append_left _ hx
  obtain ⟨own, hbehind⟩ := (hn hhere).behind
  exact ⟨[n], own, htrace, hbehind⟩

theorem work_adds (hset : set.tracing = true) (hrule : g.rule? rule.name = some rule)
    (hbody : body.Adds g (Records g (isSyntactic rule.name) [rule.body])) :
    (work set rule body).Adds g (Behind g syntactic (.apply rule.name)) := by
  intro c log memo out hmemo h
  obtain ⟨r, inner, memo₁, hsettle, -, htrace, hput⟩ := work_eq_some h
  obtain ⟨hr, hmemo₁⟩ := settle_adds hset hrule hbody hmemo hsettle
  rw [if_pos hset] at htrace
  refine .applied htrace (fun hgenuine => hr.applied hrule hgenuine.below) ?_
  rcases hput with hdrop | ⟨s, -, hnode, hput⟩
  · exact hdrop ▸ hmemo₁.drop
  · rw [hput]
    exact hmemo₁.put (applied_entry hr hrule (hnode.trans (if_pos hset)))

theorem reuse_adds (hset : set.tracing = true) (frames : List Frame) {c : Cursor} {entry : Entry}
    (hentry : entry.Applied g c.pos rule.name) (hmemo : memo.Applied g) :
    (reuse set frames rule.name entry c log memo).Adds g (Behind g syntactic (.apply rule.name))
      log := by
  obtain ⟨-, htrace, hput⟩ := reuse_eq set frames rule.name entry c log memo
  rw [if_pos hset] at htrace
  refine .applied htrace hentry ?_
  rcases hput with hsame | ⟨e, htree, hnode, hput⟩
  · rw [hsame]
    exact hmemo
  · rw [hput]
    exact hmemo.put (by rwa [Entry.Applied, htree, hnode])

theorem ofRule_calls (hset : set.tracing = true) (depth : Nat) (frames : List Frame) :
    Calls set.grammar (ofRule set depth frames) := by
  induction depth using Nat.strongRecOn generalizing frames with
  | _ depth ih =>
      intro syntactic q c log memo out hmemo h
      rcases ofRule_eq_some h with ⟨hnone, rfl⟩ | ⟨rule, hrule, hcases⟩
      · exact ⟨fun _ => ⟨[], [], rfl, fun _ _ hspaces => .undeclared hnone hspaces .nil⟩, hmemo⟩
      obtain rfl : rule.name = q := Grammar.rule?_name hrule
      rcases hcases with ⟨entry, hfind, rfl⟩ | ⟨-, d, rfl, hwork⟩
      · exact reuse_adds hset frames (hmemo.entry _ _ _ hfind) hmemo
      · have hbelow := ih d (Nat.lt_succ_self d) ((c.pos, rule.name) :: frames)
        exact work_adds hset hrule (.ofExpr hset hbelow _ rule.body) c log memo out hmemo hwork

end

/-- A match applies its start rule, behind spaces if that is syntactic, and then looks for the end. -/
theorem run_adds {set : Setting} (hset : set.tracing = true) {limit : Nat} {start : String}
    {memo memo' : Memo} (hmemo : memo.Applied set.grammar) {a : Answer}
    (h : run set limit start memo = some (a, memo'))
    (hgenuine : Genuine set.grammar a.trace.children) : ∃ own,
      Tried set.grammar (isSyntactic start) [.apply start, .endOfInput] a.trace.children own := by
  obtain ⟨pos, log₁, memo₁, out, hbefore, hwhole, rfl, -⟩ := run_eq_some h
  have happly := ofRule_calls hset limit []
  have hhere : Evaluation.Adds set.grammar (fun c log memo => some ⟨some c, log, memo⟩)
      (Records set.grammar false []) := by
    intro c log memo out hmemo h
    obtain rfl := Option.some.inj h
    exact ⟨fun _ => ⟨[], [], rfl, .nil⟩, hmemo⟩
  -- the start rule is no rule for spaces if spaces are skipped before it
  have hunasked : (Expr.apply start).unasked (isSyntactic start) =
      if isSyntactic start then [.apply "spaces"] else [] := by
    rw [Expr.unasked]
    by_cases hstart : start = "spaces"
    · subst hstart
      rfl
    · simp [hstart]
  have hspaces := Evaluation.Adds.spaced (.of_calls happly) (isSyntactic start) hhere
    (Q := fun nodes own => own = [] ∧ ∃ spaces hidden, nodes = spaces.map Node.mark ∧
      Records set.grammar false ((Expr.apply start).unasked (isSyntactic start)) spaces hidden)
    (fun spaces hidden nodes own hrecords hnone => by
      obtain ⟨rfl, rfl⟩ := hnone.eq_nil
      exact ⟨rfl, spaces, hidden, List.append_nil _, hunasked ▸ hrecords⟩)
    _ _ _ _ hmemo hbefore
  have hrule := (happly (isSyntactic start) start).andThen
    (.ofExpr hset happly (isSyntactic start) .endOfInput)
    (Q := fun nodes own => ∀ spaces hidden,
      Records set.grammar false ((Expr.apply start).unasked (isSyntactic start)) spaces hidden →
        Tried set.grammar (isSyntactic start) [.apply start, .endOfInput]
          (spaces.map Node.mark ++ nodes) own)
    (fun nodes own hbehind spaces hidden hrecords => .head (hbehind spaces hidden hrecords))
    (fun ns own ns' own' hbehind hend spaces hidden hrecords => by
      rw [← List.append_assoc]
      exact .cons (hbehind spaces hidden hrecords) ⟨[.endOfInput], List.prefix_rfl, hend⟩)
    _ _ _ _ hspaces.memo hwhole
  obtain ⟨nodes, own, htrace, htried⟩ := (hspaces.trans hrule
    (Q := Tried set.grammar (isSyntactic start) [.apply start, .endOfInput])
    (by
      rintro _ _ nodes own ⟨rfl, spaces, hidden, rfl, hrecords⟩ hwhole
      exact hwhole spaces hidden hrecords)).nodes hgenuine.of_reverse
  have hchildren : out.log.trace.reverse = nodes := by
    simpa [Log.start] using congrArg List.reverse htrace
  refine ⟨own, ?_⟩
  rw [rootNode, hchildren]
  exact htried

end Match

namespace Grammar

open Match

variable {g : Grammar} {text : String} {start? : Option String} {t : Trace}

/-- In a grammar with a rule for spaces exactly the spaces that are skipped unasked are marked: each
marked node is an application of that rule, the nodes of the expressions are not marked, and the rule
applications and lines shown without skipped spaces are all those of the expressions. Without such a rule
this is so exactly if no node is marked. -/
theorem trace_marks (h : g.trace text start? = .ok t) :
    (g.hasRule "spaces" = true ∨ ∀ n ∈ t.walk.map (·.2), n.implicitSpaces = false) ↔
      ∃ rule own, g.startRule start? = .ok rule ∧
        Tried g (isSyntactic rule.name) [.apply rule.name, .endOfInput] t.root.children own ∧
        (∀ n ∈ t.walk.map (·.2), n.implicitSpaces = true → n.step = .apply "spaces") ∧
        (∀ n ∈ nodesAll own, n.implicitSpaces = false) ∧
        t.ruleSpans = spansAll own ∧
        ∀ failures, t.render ⟨failures, false⟩ =
          renderAllOnto ⟨failures, true⟩ t.result.input 0 "" own := by
  obtain ⟨rule, a, memo, hstart, hrun, rfl⟩ := trace_eq_ok h
  rw [Trace.map_walk]
  constructor
  · intro hgenuine
    obtain ⟨own, tried, htried, hrecords⟩ := run_adds rfl (Memo.Each.blank _) hrun hgenuine
    exact ⟨rule, own, hstart, ⟨tried, htried, hrecords⟩, fun n hn hmark => (hrecords.marked n hn hmark).1,
      hrecords.own_unmarked, (Trace.ruleSpans_eq _).trans hrecords.spans_eq,
      fun failures => hrecords.render_eq failures _ 0 ""⟩
  · rintro ⟨rule', own, -, ⟨tried, -, hrecords⟩, -⟩
    refine or_iff_not_imp_left.mpr fun hnone n hn => Bool.eq_false_iff.mpr fun hmark => ?_
    exact hnone (hrecords.marked n hn hmark).2

theorem trace_marks_chain : ∃ t rule own, chain.trace "1 + 2" none = .ok t ∧
    chain.startRule none = .ok rule ∧ rule.name = "Sum" ∧
    Tried chain true [.apply "Sum", .endOfInput] t.root.children own ∧
    (t.walk.filter (·.2.implicitSpaces)).length = 9 ∧
    (∀ n ∈ nodesAll own, n.implicitSpaces = false) ∧
    t.ruleSpans = [⟨"Sum", 0, 5⟩, ⟨"Sum", 0, 1⟩, ⟨"n", 0, 1⟩, ⟨"n", 4, 5⟩] ∧
    t.ruleSpans = spansAll own := by
  have hspans : (chain.trace "1 + 2" none).toOption.map
      (fun t => ((t.walk.filter (·.2.implicitSpaces)).length, t.ruleSpans)) =
        some (9, [⟨"Sum", 0, 5⟩, ⟨"Sum", 0, 1⟩, ⟨"n", 0, 1⟩, ⟨"n", 4, 5⟩]) := by
    decide +kernel
  obtain ⟨t, ht, hspans⟩ := toOption_map_eq_some hspans
  obtain ⟨hlength, hspans⟩ := Prod.mk.inj hspans
  obtain ⟨rule, own, hstart, htried, -, hown, hshown, -⟩ :=
    (trace_marks ht).mp (.inl (by decide +kernel))
  have hname : (chain.startRule none).toOption.map (·.name) = some "Sum" := by decide +kernel
  rw [hstart] at hname
  have hname : rule.name = "Sum" := Option.some.inj hname
  rw [hname] at htried
  exact ⟨t, rule, own, ht, hstart, hname, htried, hlength, hown, hspans, hshown⟩

/-- A grammar without a rule for spaces. -/
def unspaced : Grammar where
  name := "G"
  super := none
  start := some "X"
  rules :=
    [plainRule "G" "X" none (.seq [.apply "y", .terminal "b"]), plainRule "G" "y" none (.terminal "a")]

/-- Whatever stands before the place where spaces would be skipped is marked and hidden. -/
example : (unspaced.trace "ab" none).toOption.map
    (fun t => (t.result.tree?.isSome, t.ruleSpans, t.render ⟨false, false⟩)) =
      some (true, [], "end 2..2 \"\"\n") := by
  decide +kernel

end Grammar

end Pegboard
