import Pegboard.Grammar.BuiltIn
import Pegboard.Proofs.Match.Outcomes
import Pegboard.Proofs.Match.Stack
import Pegboard.Proofs.Text.Edit

/-!
# The trace shows the tree

A match keeps two records: trees, of which those found by an attempt that failed in the end are
dropped, and nodes of the trace, which are all kept. The rule applications that the trace shows are
nevertheless those of the tree: what lies below a node that failed is not shown, and each attempt
has a node of its own, so that a failed one shows nothing (`Outcome.Tells`). Spaces that are skipped
unasked have one node, which is hidden, and no tree. An entry of the table holds both records, and
they agree in the entry (`Memo.Tells`), be it settled or a seed that is still growing.

An expression that only looks ahead would show what it found and keep no tree of it.

Main statement: `ruleSpans_eq_outline`.
-/

namespace Pegboard

/-! ## Spans of nodes and of trees -/

namespace Trace

/-- The span of a step, if it applies a rule. -/
def Step.spans (start stop : Nat) : Step → List RuleSpan
  | apply rule => [⟨rule, start, stop⟩]
  | _ => []

mutual

/-- The rule applications that a node shows. -/
def Node.spans : Node → List RuleSpan
  | ⟨step, start, stop, succeeded, _, implicitSpaces, children⟩ =>
    if implicitSpaces || !succeeded then [] else step.spans start stop ++ spansAll children

def spansAll : List Node → List RuleSpan
  | [] => []
  | n :: ns => n.spans ++ spansAll ns

end

mutual

theorem Node.spansOnto_eq (depth : Nat) (spans : List RuleSpan) :
    ∀ n : Node, n.spansOnto depth spans = n.spans.reverse ++ spans
  | ⟨step, start, stop, succeeded, _, implicitSpaces, children⟩ => by
      unfold Node.spansOnto
      rw [Node.spans]
      split
      · rfl
      · rw [descend_eq, spansAllOnto_eq]
        cases step <;> simp [Step.spans]

theorem spansAllOnto_eq (depth : Nat) (spans : List RuleSpan) :
    ∀ ns : List Node, spansAllOnto depth spans ns = (spansAll ns).reverse ++ spans
  | [] => rfl
  | n :: ns => by
      rw [spansAllOnto, spansAll, spansAllOnto_eq, Node.spansOnto_eq]
      simp

end

theorem ruleSpans_eq (t : Trace) : t.ruleSpans = spansAll t.root.children := by
  rw [ruleSpans, spansAllOnto_eq, List.append_nil, List.reverse_reverse]

theorem spansAll_append (ns ms : List Node) : spansAll (ns ++ ms) = spansAll ns ++ spansAll ms := by
  induction ns with
  | nil => rfl
  | cons n ns ih => rw [List.cons_append, spansAll, spansAll, ih, List.append_assoc]

variable {n : Node}

theorem Node.spans_of_failed (h : n.succeeded = false) : n.spans = [] := by
  obtain ⟨step, start, stop, succeeded, memoized, implicitSpaces, children⟩ := n
  rw [Node.spans, if_pos (by simp [show succeeded = false from h])]

theorem Node.spans_of_implicit (h : n.implicitSpaces = true) : n.spans = [] := by
  obtain ⟨step, start, stop, succeeded, memoized, implicitSpaces, children⟩ := n
  rw [Node.spans, if_pos (by simp [show implicitSpaces = true from h])]

@[simp] theorem Node.spans_memoized (n : Node) (memoized : Bool) :
    Node.spans { n with memoized := memoized } = n.spans := by
  obtain ⟨step, start, stop, succeeded, _, implicitSpaces, children⟩ := n
  rw [Node.spans, Node.spans]

end Trace

namespace Tree

/-- The rule application in a row of an outline, if the row is one. -/
def Row.ruleSpan? (r : Row) : Option Trace.RuleSpan :=
  match r.label with
  | .rule name => some ⟨name, r.interval⟩
  | _ => none

mutual

/-- The rule applications in a tree at an offset, each before those below it. -/
def spans (offset : Nat) : Tree → List Trace.RuleSpan
  | terminal _ => []
  | rule name n cs => ⟨name, offset, offset + n⟩ :: spansBelow offset cs
  | iter _ _ cs => spansBelow offset cs

def spansBelow (offset : Nat) : List (Nat × Tree) → List Trace.RuleSpan
  | [] => []
  | (o, t) :: ts => t.spans (offset + o) ++ spansBelow offset ts

end

mutual

theorem filterMap_outlineOnto (depth offset : Nat) (rows : List Row) : ∀ t : Tree,
    (outlineOnto depth offset rows t).reverse.filterMap Row.ruleSpan? =
      rows.reverse.filterMap Row.ruleSpan? ++ t.spans offset
  | terminal _ => by simp [outlineOnto, spans, Row.ruleSpan?]
  | rule name n cs => by
      rw [outlineOnto, descend_eq, filterMap_outlineAllOnto]
      simp [spans, Row.ruleSpan?]
  | iter optional n cs => by
      rw [outlineOnto, descend_eq, filterMap_outlineAllOnto]
      simp [spans, Row.ruleSpan?]

theorem filterMap_outlineAllOnto (depth offset : Nat) (rows : List Row) :
    ∀ ts : List (Nat × Tree),
      (outlineAllOnto depth offset rows ts).reverse.filterMap Row.ruleSpan? =
        rows.reverse.filterMap Row.ruleSpan? ++ spansBelow offset ts
  | [] => by rw [outlineAllOnto, spansBelow, List.append_nil]
  | (o, t) :: ts => by
      rw [outlineAllOnto, filterMap_outlineAllOnto, filterMap_outlineOnto, spansBelow,
        List.append_assoc]

end

theorem filterMap_outline (t : Tree) (offset : Nat) :
    (t.outline offset).filterMap Row.ruleSpan? = t.spans offset :=
  filterMap_outlineOnto 0 offset [] t

theorem spansBelow_append (offset : Nat) (ts us : List (Nat × Tree)) :
    spansBelow offset (ts ++ us) = spansBelow offset ts ++ spansBelow offset us := by
  induction ts with
  | nil => rfl
  | cons t ts ih => rw [List.cons_append, spansBelow, spansBelow, ih, List.append_assoc]

/-- Trees that are placed from an offset on, and the same trees placed from the beginning on. -/
theorem spansBelow_sub {offset : Nat} {ts : List (Nat × Tree)} (h : ∀ x ∈ ts, offset ≤ x.1) :
    spansBelow offset (ts.map fun (o, t) => (o - offset, t)) = spansBelow 0 ts := by
  induction ts with
  | nil => rfl
  | cons x ts ih =>
      obtain ⟨hx, hts⟩ := List.forall_mem_cons.mp h
      rw [List.map_cons, spansBelow, spansBelow, ih hts, Nat.add_sub_cancel' hx, Nat.zero_add]

end Tree

namespace Expr

mutual

/-- Nothing in the expression only looks ahead for a match. -/
def lookFree : Expr → Bool
  | any | endOfInput | terminal _ | range _ _ | apply _ => true
  | alt es => lookFreeAll es
  | seq es => lookFreeAll es
  | iter _ e => e.lookFree
  | not e => e.lookFree
  | look _ => false
  | lex e => e.lookFree

def lookFreeAll : List Expr → Bool
  | [] => true
  | e :: es => e.lookFree && lookFreeAll es

end

end Expr

namespace Match

open Evaluation Trace

/-! ## Nodes and trees recorded side by side -/

/-- The rule applications that nodes show, the last one first. -/
def shown (nodes : List Node) : List RuleSpan :=
  spansAll nodes.reverse

@[simp] theorem shown_nil : shown [] = [] := rfl

@[simp] theorem shown_singleton (n : Node) : shown [n] = n.spans := by
  rw [shown, List.reverse_singleton, spansAll, spansAll, List.append_nil]

@[simp] theorem shown_append (later earlier : List Node) :
    shown (later ++ earlier) = shown earlier ++ shown later := by
  rw [shown, List.reverse_append, spansAll_append]
  rfl

/-- The rule applications in trees that were found, the last one first. -/
def foundSpans (found : List (Nat × Tree)) : List RuleSpan :=
  Tree.spansBelow 0 found.reverse

@[simp] theorem foundSpans_nil : foundSpans [] = [] := rfl

@[simp] theorem foundSpans_singleton (pos : Nat) (t : Tree) :
    foundSpans [(pos, t)] = t.spans pos := by
  rw [foundSpans, List.reverse_singleton, Tree.spansBelow, Tree.spansBelow, List.append_nil,
    Nat.zero_add]

@[simp] theorem foundSpans_append (later earlier : List (Nat × Tree)) :
    foundSpans (later ++ earlier) = foundSpans earlier ++ foundSpans later := by
  rw [foundSpans, List.reverse_append, Tree.spansBelow_append]
  rfl

/-- Between two cursors trees were found, and nodes recorded that show the same rule applications. -/
structure Shows (c c' : Cursor) (nodes : List Node) : Prop where
  moved : c.pos ≤ c'.pos
  found : ∃ found, c'.found = found ++ c.found ∧ (∀ x ∈ found, c.pos ≤ x.1) ∧
    shown nodes = foundSpans found

namespace Shows

variable {c c' c'' : Cursor} {nodes nodes' : List Node}

/-- No tree, and nothing shown. -/
theorem hidden (h : shown nodes = []) {pos : Nat} (hpos : c.pos ≤ pos) :
    Shows c { c with pos := pos } nodes :=
  ⟨hpos, [], rfl, nofun, h⟩

theorem push {t : Tree} (h : shown nodes = t.spans c.pos) : Shows c (c.push t) nodes :=
  ⟨Nat.le_add_right _ _, [(c.pos, t)], rfl, by simp, by rw [h, foundSpans_singleton]⟩

theorem trans (h : Shows c c' nodes) (h' : Shows c' c'' nodes') :
    Shows c c'' (nodes' ++ nodes) := by
  obtain ⟨found, hfound, hfrom, hspans⟩ := h.found
  obtain ⟨found', hfound', hfrom', hspans'⟩ := h'.found
  refine ⟨h.moved.trans h'.moved, found' ++ found, ?_, ?_, ?_⟩
  · rw [hfound', hfound, List.append_assoc]
  · exact List.forall_mem_append.mpr ⟨fun x hx => h.moved.trans (hfrom' x hx), hfrom⟩
  · rw [shown_append, foundSpans_append, hspans, hspans']

theorem congr (h : Shows c c' nodes) (hshown : shown nodes' = shown nodes) : Shows c c' nodes' :=
  ⟨h.moved, by rw [hshown]; exact h.found⟩

/-- The trees found from the beginning of a node on show the same below the node. -/
theorem children {pos : Nat} (h : Shows ⟨pos, []⟩ c nodes) :
    Tree.spansBelow pos (c.children pos) = shown nodes := by
  obtain ⟨found, hfound, hfrom, hspans⟩ := h.found
  rw [List.append_nil] at hfound
  rw [Cursor.children, hfound, hspans,
    Tree.spansBelow_sub fun x hx => hfrom x (List.mem_reverse.mp hx)]
  rfl

end Shows

/-- The rule applications in the tree of an application, if it matched. -/
def matchedSpans (pos : Nat) (tree? : Option Tree) : List RuleSpan :=
  (tree?.map (·.spans pos)).getD []

/-- Whoever reads the entry finds its tree and shows a node that agrees with it. -/
def Entry.Tells (pos : Nat) (rule : String) (e : Entry) : Prop :=
  (reused rule pos e.tree? e.trace?).spans = matchedSpans pos e.tree?

def Memo.Tells (memo : Memo) : Prop :=
  memo.Each Entry.Tells

/-- An evaluation recorded nodes that show what it found. If it failed, it shows nothing, unless it
leaves it to a node around it to hide what it had found before. -/
structure Outcome.Tells (quiet : Prop) (c : Cursor) (log : Log) (out : Outcome) : Prop where
  nodes : ∃ nodes, out.log.trace = nodes ++ log.trace ∧
    (∀ c', out.cursor? = some c' → Shows c c' nodes) ∧
    (quiet → out.cursor? = none → shown nodes = [])
  memo : out.memo.Tells

def Evaluation.Tells (quiet : Prop) (e : Evaluation) : Prop :=
  ∀ c log memo out, memo.Tells → e c log memo = some out → out.Tells quiet c log

/-! ## Combining evaluations -/

namespace Outcome.Tells

variable {quiet quiet' : Prop} {c c' : Cursor} {log log' : Log} {memo : Memo} {out : Outcome}

/-- Nothing was recorded, and no rule was applied. -/
theorem unrecorded (hmemo : out.memo.Tells) (htrace : out.log.trace = log.trace)
    (hshows : ∀ c', out.cursor? = some c' → Shows c c' []) : out.Tells quiet c log :=
  ⟨⟨[], htrace, hshows, fun _ _ => rfl⟩, hmemo⟩

/-- One node was recorded for an application that found a tree or failed. -/
theorem node {tree? : Option Tree} {n : Node} (hcursor : out.cursor? = tree?.map c.push)
    (htrace : out.log.trace = n :: log.trace) (hspans : n.spans = matchedSpans c.pos tree?)
    (hmemo : out.memo.Tells) : out.Tells quiet c log := by
  refine ⟨⟨[n], htrace, fun c' hc' => ?_, fun _ hnone => ?_⟩, hmemo⟩
  · rw [hcursor] at hc'
    obtain ⟨t, rfl, rfl⟩ := Option.map_eq_some_iff.mp hc'
    exact .push (by rw [shown_singleton, hspans]; rfl)
  · rw [hcursor, Option.map_eq_none_iff] at hnone
    rw [shown_singleton, hspans, hnone]
    rfl

/-- An evaluation where another one ended. -/
theorem trans (h : Outcome.Tells quiet c log ⟨some c', log', memo⟩) (h' : out.Tells quiet' c' log') :
    out.Tells False c log := by
  obtain ⟨nodes, htrace, hshows, -⟩ := h.nodes
  obtain ⟨nodes', htrace', hshows', -⟩ := h'.nodes
  refine ⟨⟨nodes' ++ nodes, ?_, fun c'' hc'' => ?_, False.elim⟩, h'.memo⟩
  · rw [htrace', htrace, List.append_assoc]
  · exact (hshows c' rfl).trans (hshows' c'' hc'')

/-- An evaluation behind nodes that show nothing. -/
theorem behind {nodes : List Node} {pos : Nat} (htrace : log'.trace = nodes ++ log.trace)
    (hnodes : shown nodes = []) (hpos : c.pos ≤ pos)
    (h : out.Tells quiet { c with pos := pos } log') : out.Tells quiet c log := by
  obtain ⟨nodes', htrace', hshows', hquiet'⟩ := h.nodes
  refine ⟨⟨nodes' ++ nodes, ?_, fun c' hc' => ?_, fun hq hnone => ?_⟩, h.memo⟩
  · rw [htrace', htrace, List.append_assoc]
  · exact (Shows.hidden hnodes hpos).trans (hshows' c' hc')
  · rw [shown_append, hnodes, hquiet' hq hnone, List.append_nil]

/-- An evaluation after one that failed. -/
theorem retry (h : Outcome.Tells True c log ⟨none, log', memo⟩) (h' : out.Tells quiet c log') :
    out.Tells quiet c log := by
  obtain ⟨nodes, htrace, -, hquiet⟩ := h.nodes
  exact behind htrace (hquiet trivial rfl) (Nat.le_refl _) h'

/-- A failure may be left to a node around it. -/
theorem loud (h : out.Tells quiet c log) : out.Tells False c log := by
  obtain ⟨nodes, htrace, hshows, -⟩ := h.nodes
  exact ⟨⟨nodes, htrace, hshows, False.elim⟩, h.memo⟩

end Outcome.Tells

/-- The applications of rules record what they find, and each application of `spaces` has a node. -/
structure Evaluation.Applies (apply : String → Evaluation) : Prop where
  tells : ∀ q, (apply q).Tells True
  spaces : ∀ c log memo out, memo.Tells → apply "spaces" c log memo = some out →
    ∃ n, out.log.trace = n :: log.trace

namespace Evaluation.Tells

variable {set : Setting} {quiet quiet' : Prop} {e first second : Evaluation}
  {apply : String → Evaluation}

theorem of_reads (h : e.Reads) : e.Tells False := by
  intro c log memo out hmemo heq
  obtain ⟨hout, htrace, hcursor⟩ := h c log memo out heq
  refine .unrecorded (hout ▸ hmemo) htrace fun c' hc' => ?_
  rcases hcursor c' hc' with rfl | ⟨n, rfl⟩
  · exact .hidden rfl (Nat.le_refl _)
  · exact .push rfl

theorem andThen (h₁ : first.Tells quiet) (h₂ : second.Tells quiet') :
    (first.andThen second).Tells False := by
  intro c log memo out hmemo heq
  rcases andThen_eq_some heq with ⟨hfirst, hnone⟩ | ⟨c', log', memo', hfirst, hsecond⟩
  · obtain ⟨⟨nodes, htrace, -, -⟩, hmemo'⟩ := h₁ c log memo _ hmemo hfirst
    exact ⟨⟨nodes, htrace, fun _ hsome => (nomatch hnone.symm.trans hsome), False.elim⟩, hmemo'⟩
  · have htells := h₁ c log memo _ hmemo hfirst
    exact htells.trans (h₂ c' log' memo' out htells.memo hsecond)

theorem orElse (h₁ : first.Tells True) (h₂ : second.Tells True) :
    (first.orElse second).Tells True := by
  intro c log memo out hmemo heq
  rcases orElse_eq_some heq with ⟨hfirst, -⟩ | ⟨log', memo', hfirst, hsecond⟩
  · exact h₁ c log memo out hmemo hfirst
  · have htells := h₁ c log memo _ hmemo hfirst
    exact htells.retry (h₂ c log' memo' out htells.memo hsecond)

/-- The nodes below another one show if it succeeded, and only then. -/
theorem traced (hset : set.tracing = true) (expr : Expr) (h : e.Tells quiet) :
    (Evaluation.traced set expr e).Tells True := by
  intro c log memo out hmemo heq
  obtain ⟨inner, he, hcursor, hout, hlog⟩ := traced_eq_some heq
  rw [if_pos hset] at he hlog
  obtain ⟨⟨nodes, htrace, hshows, -⟩, hmemo'⟩ := h c _ memo inner hmemo he
  have hnodes : inner.log.trace = nodes := by simpa using htrace
  refine ⟨⟨[evalNode expr c inner], by rw [hlog]; rfl, fun c' hc' => ?_, fun _ hnone => ?_⟩,
    hout ▸ hmemo'⟩
  · rw [hcursor] at hc'
    refine (hshows c' hc').congr ?_
    rw [shown_singleton, evalNode, Node.spans, hnodes, hc']
    rfl
  · rw [hcursor] at hnone
    rw [shown_singleton]
    exact Node.spans_of_failed (by rw [evalNode, hnone]; rfl)

/-- What an expression found that must not match is hidden by the node around it. -/
theorem not (expr : Expr) (h : e.Tells True) : (Evaluation.not expr e).Tells False := by
  intro c log memo out hmemo heq
  obtain ⟨c?, inner, he, htrace, hcursor⟩ := not_eq_some heq
  obtain ⟨⟨nodes, hnodes, -, hquiet⟩, hmemo'⟩ := h c _ memo _ hmemo he
  refine ⟨⟨nodes, htrace.trans hnodes, fun c' hc' => ?_, False.elim⟩, hmemo'⟩
  rw [hcursor] at hc'
  cases c? with
  | none =>
      cases hc'
      exact .hidden (hquiet trivial rfl) (Nat.le_refl _)
  | some c₁ => cases hc'

theorem rounds (h : e.Tells True) (n : Nat) (matched : Bool) :
    (Evaluation.rounds e n matched).Tells False := by
  induction n generalizing matched with
  | zero =>
      intro c log memo out hmemo heq
      obtain rfl := Option.some.inj heq
      refine .unrecorded hmemo rfl fun c' hc' => ?_
      cases matched <;> cases hc'
      exact .hidden rfl (Nat.le_refl _)
  | succ n ih =>
      intro c log memo out hmemo heq
      rcases rounds_succ_eq_some heq with
        ⟨he, hcursor⟩ | ⟨c', he, -, -⟩ | ⟨c', log', memo', he, -, hrest⟩
      · obtain ⟨⟨nodes, htrace, -, hquiet⟩, hmemo'⟩ := h c log memo _ hmemo he
        refine ⟨⟨nodes, htrace, fun c' hc' => ?_, False.elim⟩, hmemo'⟩
        rw [hcursor] at hc'
        cases matched <;> cases hc'
        exact .hidden (hquiet trivial rfl) (Nat.le_refl _)
      · exact (h c log memo out hmemo he).loud
      · have htells := h c log memo _ hmemo he
        exact htells.trans (ih true c' log' memo' out htells.memo hrest)

theorem iter (op : Repeat) (h : e.Tells True) : (Evaluation.iter set op e).Tells False := by
  intro c log memo out hmemo heq
  obtain ⟨c?, hrounds, hcursor⟩ := iter_eq_some heq
  obtain ⟨⟨nodes, htrace, hshows, -⟩, hmemo'⟩ := h.rounds _ _ _ _ _ _ hmemo hrounds
  refine ⟨⟨nodes, htrace, fun c' hc' => ?_, False.elim⟩, hmemo'⟩
  rw [hcursor] at hc'
  obtain ⟨c₁, rfl, rfl⟩ := Option.map_eq_some_iff.mp hc'
  exact .push (by rw [Tree.spans, (hshows c₁ rfl).children])

/-- Spaces move the cursor on, and their node is hidden. -/
theorem spaced (happly : Applies apply) (skip : Bool) (h : e.Tells True) :
    (Evaluation.spaced apply skip e).Tells True := by
  cases skip with
  | false => exact h
  | true =>
      intro c log memo out hmemo heq
      rcases andThen_eq_some heq with ⟨hskip, -⟩ | ⟨c', log', memo', hskip, he⟩
      · obtain ⟨c?, inner, -, hcursor, -⟩ := skipSpaces_eq_some hskip
        cases hcursor
      · obtain ⟨c?, inner, hspaces, hcursor, hlog⟩ := skipSpaces_eq_some hskip
        obtain ⟨⟨nodes, htrace, hshows, -⟩, hmemo'⟩ := happly.tells _ c _ memo _ hmemo hspaces
        obtain ⟨n, hn⟩ := happly.spaces c _ memo _ hmemo hspaces
        obtain rfl := Option.some.inj hcursor
        have hmark : log'.trace = [{ n with implicitSpaces := true }] ++ log.trace := by
          rw [show log' = _ from hlog, Log.markSpaces, show inner.trace = n :: log.trace from hn]
          rfl
        have hhidden : shown [{ n with implicitSpaces := true }] = [] := by
          rw [shown_singleton]
          exact Node.spans_of_implicit rfl
        refine (h _ _ memo' out hmemo' he).behind hmark hhidden ?_
        cases c? with
        | none => exact Nat.le_refl _
        | some c' => exact (hshows c' rfl).moved

mutual

theorem ofExpr (hset : set.tracing = true) (happly : Applies apply) (syntactic : Bool) :
    ∀ e : Expr, e.lookFree = true → (Evaluation.ofExpr set apply syntactic e).Tells True
  | .any, _ => by
      rw [Evaluation.ofExpr]
      exact spaced happly _ (traced hset _ (of_reads (any_reads set)))
  | .endOfInput, _ => by
      rw [Evaluation.ofExpr]
      exact spaced happly _ (traced hset _ (of_reads (endOfInput_reads set)))
  | .terminal s, _ => by
      rw [Evaluation.ofExpr]
      exact spaced happly _ (traced hset _ (of_reads (terminal_reads set s)))
  | .range lo hi, _ => by
      rw [Evaluation.ofExpr]
      exact spaced happly _ (traced hset _ (of_reads (range_reads set lo hi)))
  | .apply rule, _ => by
      rw [Evaluation.ofExpr]
      exact spaced happly _ (happly.tells rule)
  | .alt es, h => by
      rw [Evaluation.ofExpr]
      exact traced hset _ (ofChoices hset happly syntactic es h)
  | .seq es, h => by
      rw [Evaluation.ofExpr]
      exact traced hset _ (ofParts hset happly syntactic es h)
  | .iter op e, h => by
      rw [Evaluation.ofExpr]
      exact traced hset _ (iter op (ofExpr hset happly syntactic e h))
  | .not e, h => by
      rw [Evaluation.ofExpr]
      exact traced hset _ (not e (ofExpr hset happly syntactic e h))
  | .lex e, h => by
      rw [Evaluation.ofExpr]
      exact traced hset _ (ofExpr hset happly false e h)

theorem ofChoices (hset : set.tracing = true) (happly : Applies apply) (syntactic : Bool) :
    ∀ es : List Expr, Expr.lookFreeAll es = true →
      (Evaluation.ofChoices set apply syntactic es).Tells True
  | [], _ => by
      intro c log memo out hmemo heq
      obtain rfl := Option.some.inj heq
      exact .unrecorded hmemo rfl nofun
  | e :: es, h => by
      rw [Expr.lookFreeAll, Bool.and_eq_true] at h
      rw [Evaluation.ofChoices]
      exact orElse (ofExpr hset happly syntactic e h.1) (ofChoices hset happly syntactic es h.2)

theorem ofParts (hset : set.tracing = true) (happly : Applies apply) (syntactic : Bool) :
    ∀ es : List Expr, Expr.lookFreeAll es = true →
      (Evaluation.ofParts set apply syntactic es).Tells False
  | [], _ => by
      intro c log memo out hmemo heq
      obtain rfl := Option.some.inj heq
      refine .unrecorded hmemo rfl ?_
      rintro _ ⟨⟩
      exact .hidden rfl (Nat.le_refl _)
  | e :: es, h => by
      rw [Expr.lookFreeAll, Bool.and_eq_true] at h
      rw [Evaluation.ofParts]
      exact andThen (ofExpr hset happly syntactic e h.1) (ofParts hset happly syntactic es h.2)

end

end Evaluation.Tells

/-! ## Rule applications -/

section

variable {set : Setting} {body : Evaluation} {rule : String} {pos : Nat} {memo memo' : Memo}
  {log log' : Log} {r : Round}

/-- The node of an application that was worked out. -/
theorem spans_application {tree? : Option Tree} {trace : List Node}
    (h : ∀ t, tree? = some t → ⟨rule, pos, pos + t.length⟩ :: spansAll trace = t.spans pos) :
    (Node.application rule pos (pos + (tree?.map (·.length)).getD 0) tree?.isSome trace).spans =
      matchedSpans pos tree? := by
  cases tree? with
  | none => exact Node.spans_of_failed rfl
  | some t => exact h t rfl

/-- The nodes of a round show what is below the tree that the round found. -/
def Evaluation.Round.Tells (rule : String) (pos : Nat) (r : Round) : Prop :=
  ∀ t, r.tree? = some t → ⟨rule, pos, pos + t.length⟩ :: spansAll r.trace = t.spans pos

theorem round_tells (hbody : body.Tells False) (hmemo : memo.Tells)
    (h : Evaluation.round rule pos body log memo = some (r, log', memo')) :
    r.Tells rule pos ∧ memo'.Tells := by
  obtain ⟨c?, hb, htree, htrace⟩ := round_eq_some h
  obtain ⟨⟨nodes, hnodes, hshows, -⟩, hmemo'⟩ := hbody _ _ memo _ hmemo hb
  refine ⟨fun t ht => ?_, hmemo'⟩
  rw [htree] at ht
  obtain ⟨c, rfl, rfl⟩ := Option.map_eq_some_iff.mp ht
  rw [Tree.spans, (hshows c rfl).children, htrace, show log'.trace = nodes by simpa using hnodes]
  rfl

/-- A seed shows what the round did that found it. -/
theorem Evaluation.Round.Tells.seed (hset : set.tracing = true) {best : Tree} {trace : List Node}
    (h : Round.Tells rule pos ⟨some best, trace⟩) :
    (reseeded set rule pos best trace).Tells pos rule := by
  rw [reseeded, if_pos hset, Entry.Tells, Entry.trace?, reused, Node.spans_memoized]
  exact spans_application (show ∀ t, some best = some t → _ from h)

theorem grow_tells (hset : set.tracing = true) (hbody : body.Tells False) (n : Nat) {best : Tree}
    {trace : List Node} (hmemo : memo.Tells) (hbest : Round.Tells rule pos ⟨some best, trace⟩)
    (h : grow set rule pos body n best trace log memo = some (r, log', memo')) :
    r.Tells rule pos ∧ memo'.Tells := by
  induction n generalizing best trace log memo with
  | zero =>
      cases h
      exact ⟨hbest, hmemo⟩
  | succ n ih =>
      obtain ⟨r₁, log₁, memo₁, hround, hcases⟩ := grow_succ_eq_some h
      obtain ⟨hr₁, hmemo₁⟩ := round_tells hbody (hmemo.put (hbest.seed hset)) hround
      rcases hcases with ⟨-, rfl, -, rfl⟩ | ⟨t, ht, -, hgrow⟩
      · exact ⟨hbest, hmemo₁⟩
      · exact ih hmemo₁ (fun t' ht' => hr₁ t' (ht.trans ht')) hgrow

theorem settle_tells (hset : set.tracing = true) (hbody : body.Tells False) (hmemo : memo.Tells)
    (h : settle set rule pos body memo = some (r, log', memo')) :
    r.Tells rule pos ∧ memo'.Tells := by
  obtain ⟨r₁, log₁, memo₁, hround, hcases⟩ := settle_eq_some h
  have hplaced : (memo.put pos rule (.growing none none false)).Tells :=
    hmemo.put (Node.spans_of_failed rfl)
  obtain ⟨hr₁, hmemo₁⟩ := round_tells hbody hplaced hround
  rcases hcases with ⟨-, rfl, -, rfl⟩ | ⟨t, ht, -, hgrow⟩
  · exact ⟨hr₁, hmemo₁⟩
  · exact grow_tells hset hbody _ hmemo₁ (fun t' ht' => hr₁ t' (ht.trans ht')) hgrow

/-- A rule that is worked out has one node. -/
theorem work_tells (hset : set.tracing = true) (rule : Rule) (hbody : body.Tells False) {c : Cursor}
    {out : Outcome} (hmemo : memo.Tells) (h : work set rule body c log memo = some out) :
    out.Tells True c log ∧ ∃ n, out.log.trace = n :: log.trace := by
  obtain ⟨r, inner, memo₁, hsettle, hcursor, htrace, hput⟩ := work_eq_some h
  obtain ⟨hr, hmemo₁⟩ := settle_tells hset hbody hmemo hsettle
  rw [if_pos hset] at htrace
  have hspans : (workNode rule.name c.pos r).spans = matchedSpans c.pos r.tree? :=
    spans_application hr
  refine ⟨.node hcursor htrace hspans ?_, _, htrace⟩
  rcases hput with hdrop | ⟨s, htree, hnode, hput⟩
  · exact hdrop ▸ hmemo₁.drop
  · rw [hput]
    refine hmemo₁.put ?_
    rw [Entry.Tells, Entry.tree?, Entry.trace?, htree, hnode, if_pos hset, reused,
      Option.getD_some, Node.spans_memoized]
    exact hspans

/-- A rule that is looked up has one node. -/
theorem reuse_tells (hset : set.tracing = true) (frames : List Frame) {c : Cursor} {entry : Entry}
    (hentry : entry.Tells c.pos rule) (hmemo : memo.Tells) :
    (reuse set frames rule entry c log memo).Tells True c log ∧
      ∃ n, (reuse set frames rule entry c log memo).log.trace = n :: log.trace := by
  obtain ⟨hcursor, htrace, hput⟩ := reuse_eq set frames rule entry c log memo
  rw [if_pos hset] at htrace
  refine ⟨.node hcursor htrace hentry ?_, _, htrace⟩
  rcases hput with hsame | ⟨e, htree, hnode, hput⟩
  · rw [hsame]
    exact hmemo
  · rw [hput]
    exact hmemo.put (by rwa [Entry.Tells, htree, hnode])

/-- A rule that the grammar has is applied with one node. -/
theorem ofRule_node (hset : set.tracing = true)
    (hlook : ∀ r ∈ set.grammar.rules, r.body.lookFree = true) {depth : Nat} {frames : List Frame}
    (hbelow : ∀ d frames, depth = d + 1 → Applies (ofRule set d frames)) {q : String} {rule : Rule}
    (hrule : set.grammar.rule? q = some rule) {c : Cursor} {out : Outcome} (hmemo : memo.Tells)
    (h : ofRule set depth frames q c log memo = some out) :
    out.Tells True c log ∧ ∃ n, out.log.trace = n :: log.trace := by
  rcases ofRule_eq_some h with ⟨hnone, -⟩ | ⟨rule', hrule', hcases⟩
  · exact nomatch hrule.symm.trans hnone
  obtain rfl := Option.some.inj (hrule.symm.trans hrule')
  rcases hcases with ⟨entry, hfind, rfl⟩ | ⟨-, d, hdepth, hwork⟩
  · exact reuse_tells hset frames (hmemo.entry _ _ _ hfind) hmemo
  · have hbody := Evaluation.Tells.ofExpr hset (hbelow d ((c.pos, rule.name) :: frames) hdepth)
      (isSyntactic rule.name) rule.body (hlook rule (List.mem_of_find?_eq_some hrule))
    exact work_tells hset rule (fun c log memo out hmemo h =>
      (hbody c log memo out hmemo h).loud) hmemo hwork

theorem ofRule_applies (hset : set.tracing = true)
    (hspaces : set.grammar.hasRule "spaces" = true)
    (hlook : ∀ r ∈ set.grammar.rules, r.body.lookFree = true) (depth : Nat)
    (frames : List Frame) : Applies (ofRule set depth frames) := by
  induction depth using Nat.strongRecOn generalizing frames with
  | _ depth ih =>
      have hbelow : ∀ d frames, depth = d + 1 → Applies (ofRule set d frames) :=
        fun d frames hd => ih d (by omega) frames
      refine ⟨fun q c log memo out hmemo h => ?_, fun c log memo out hmemo h => ?_⟩
      · cases hrule : set.grammar.rule? q with
        | none =>
            rw [ofRule, hrule] at h
            cases h
            exact .unrecorded hmemo rfl nofun
        | some rule => exact (ofRule_node hset hlook hbelow hrule hmemo h).1
      · obtain ⟨rule, hrule⟩ := Option.isSome_iff_exists.mp hspaces
        exact (ofRule_node hset hlook hbelow hrule hmemo h).2

end

/-! ## Matches -/

/-- The trace of a match that has a tree shows the tree. -/
theorem run_spans (set : Setting) (hset : set.tracing = true)
    (hspaces : set.grammar.hasRule "spaces" = true)
    (hlook : ∀ r ∈ set.grammar.rules, r.body.lookFree = true) {limit : Nat} {start : String}
    {memo memo' : Memo} (hmemo : memo.Tells) {a : Answer} {offset : Nat} {tree : Tree}
    (h : run set limit start memo = some (a, memo')) (htree : a.tree? = some (offset, tree)) :
    spansAll a.trace.children = tree.spans offset := by
  have happly := ofRule_applies hset hspaces hlook limit []
  have hhere : Evaluation.Tells True fun c log memo => some ⟨some c, log, memo⟩ := by
    intro c log memo out hmemo h
    obtain rfl := Option.some.inj h
    refine .unrecorded hmemo rfl ?_
    rintro _ ⟨⟩
    exact .hidden rfl (Nat.le_refl _)
  obtain ⟨log₁, memo₁, log₂, memo₂, log₃, stop, hbefore, hstart, hend, htrace⟩ := run_tree h htree
  have hspaced := (Evaluation.Tells.spaced happly _ hhere) _ _ _ _ hmemo hbefore
  have hrule := happly.tells start _ _ _ _ hspaced.memo hstart
  have hstop := Evaluation.Tells.ofExpr hset happly _ .endOfInput rfl _ _ _ _ hrule.memo hend
  obtain ⟨nodes, hnodes, hshows, -⟩ := ((hspaced.trans hrule).trans hstop).nodes
  obtain ⟨found, hfound, -, hspans⟩ := (hshows _ rfl).found
  rw [List.append_nil] at hfound
  rw [htrace, show log₃.trace = nodes by simpa [Log.start] using hnodes, ← shown, hspans, ← hfound,
    foundSpans_singleton]

end Match

namespace Grammar

open Match

variable {g : Grammar} {text : String} {start? : Option String} {t : Trace}

theorem trace_eq_ok (h : g.trace text start? = .ok t) :
    ∃ rule a memo, g.startRule start? = .ok rule ∧
      run ⟨g, .ofString text, true⟩ nestingLimit rule.name (.blank (Text.Input.ofString text).size) =
        some (a, memo) ∧
      t = ⟨⟨.ofString text, rule.name, a.tree?, a.failures⟩, a.trace⟩ := by
  rw [trace, answer] at h
  cases hstart : g.startRule start? with
  | error e =>
      rw [hstart] at h
      cases h
  | ok rule =>
      simp only [hstart, bind, Except.bind] at h
      rcases hrun : run ⟨g, .ofString text, true⟩ nestingLimit rule.name
        (.blank (Text.Input.ofString text).size) with _ | ⟨a, memo⟩
      · rw [hrun] at h
        cases h
      · rw [hrun] at h
        cases h
        exact ⟨rule, a, memo, rfl, hrun, rfl⟩

/-- A match with a tree has a trace that shows exactly the rule applications in the tree, in the same
order and at the same places, where the grammar has a rule for spaces and none of its rules only
looks ahead. -/
theorem ruleSpans_eq_outline (hspaces : g.hasRule "spaces" = true)
    (hlook : ∀ r ∈ g.rules, r.body.lookFree = true) (h : g.trace text start? = .ok t)
    {offset : Nat} {tree : Tree} (htree : t.result.tree? = some (offset, tree)) :
    t.ruleSpans = (tree.outline offset).filterMap Tree.Row.ruleSpan? := by
  obtain ⟨rule, a, memo, -, hrun, rfl⟩ := trace_eq_ok h
  rw [Trace.ruleSpans_eq, Tree.filterMap_outline]
  exact run_spans ⟨g, .ofString text, true⟩ rfl hspaces hlook (Memo.Each.blank _) hrun htree

/-- A rule that grows from its left, with a term that is tried in vain, and spaces. -/
def chain : Grammar where
  name := "G"
  super := none
  start := some "Sum"
  rules :=
    [plainRule "G" "Sum" none (.alt [.seq [.apply "Sum", .terminal "+", .apply "n"],
       .seq [.apply "n", .terminal "-"], .apply "n"]),
     plainRule "G" "n" none (.range '0' '9'),
     plainRule "G" "spaces" none (.iter .star (.terminal " "))]

theorem ruleSpans_eq_outline_chain : ∃ t offset tree, chain.trace "1 + 2" none = .ok t ∧
    t.result.tree? = some (offset, tree) ∧
    t.ruleSpans = [⟨"Sum", 0, 5⟩, ⟨"Sum", 0, 1⟩, ⟨"n", 0, 1⟩, ⟨"n", 4, 5⟩] ∧
    t.ruleSpans = (tree.outline offset).filterMap Tree.Row.ruleSpan? := by
  have hspans : (chain.trace "1 + 2" none).toOption.map
      (fun t => (t.result.tree?.isSome, t.ruleSpans)) =
        some (true, [⟨"Sum", 0, 5⟩, ⟨"Sum", 0, 1⟩, ⟨"n", 0, 1⟩, ⟨"n", 4, 5⟩]) := by
    decide +kernel
  obtain ⟨t, ht, hspans⟩ := toOption_map_eq_some hspans
  obtain ⟨hsome, hspans⟩ := Prod.mk.inj hspans
  obtain ⟨⟨offset, tree⟩, htree⟩ := Option.isSome_iff_exists.mp hsome
  exact ⟨t, offset, tree, ht, htree, hspans,
    ruleSpans_eq_outline (by decide +kernel) (by decide +kernel) ht htree⟩

end Grammar

end Pegboard
