import Pegboard.Proofs.Found
import Pegboard.Proofs.Grammar.Source
import Pegboard.Proofs.Match.Stack

/-!
# Nodes of grammar sources

A node of the tree of a source was found by the parser where it stands, for the rule that it is an
application of. So are the applications below it, and which ones these are is told by the body of the
rule: what a build looks for is there.

Main statements: `Node.child_eq` and `Node.onlyChild_eq`.
-/

namespace Pegboard

open Text

/-- The part of the text begins and ends at boundaries. -/
structure Text.Input.Spans (i : Input) (v : Interval) : Prop where
  start : i.Boundary v.start
  stop : i.Boundary v.stop
  le : v.start ≤ v.stop

/-- The tree is an application below the other one, any number of steps down. -/
def Tree.Located.Reaches (root s : Tree.Located) : Prop :=
  Relation.ReflTransGen (fun t u => u ∈ t.applications) root s

theorem Tree.Located.Reaches.input_eq {root s : Tree.Located} (h : root.Reaches s) :
    s.input = root.input := by
  induction h with
  | refl => rfl
  | tail _ hstep ih =>
      obtain ⟨⟨o, t⟩, -, rfl⟩ := List.mem_map.mp hstep
      exact ih

/-! ## Nodes -/

namespace Grammar.Build

section

variable {α β : Type} {R : α → β → Prop} {as : List α} {bs : List β}

theorem exists_of_mem_left (h : List.Forall₂ R as bs) {a : α} (ha : a ∈ as) : ∃ b ∈ bs, R a b := by
  induction h with
  | nil => cases ha
  | cons hab _ ih =>
      rcases List.mem_cons.mp ha with rfl | ha
      · exact ⟨_, List.mem_cons_self, hab⟩
      · obtain ⟨b, hb, hab⟩ := ih ha
        exact ⟨b, List.mem_cons_of_mem _ hb, hab⟩

theorem exists_of_mem_right (h : List.Forall₂ R as bs) {b : β} (hb : b ∈ bs) : ∃ a ∈ as, R a b :=
  exists_of_mem_left h.flip hb

end

/-- A node of the tree below `root` for an application of the rule, where the parser found it. -/
structure Node (p : Parser) (root : Tree.Located) (q : String) (s : Tree.Located) : Prop where
  found : p.Found q s
  reached : root.Reaches s

namespace Node

variable {p : Parser} {root s c : Tree.Located} {q r : String} {e : Expr} {syntactic : Bool}

section

variable (hp : ofGrammars.ParsedBy p)

include hp

theorem rule?_eq (h : Node p root q s) : s.tree.rule? = some q := by
  obtain ⟨cs, -, htree⟩ := h.found
  exact (hp.tidy acyclic_ofGrammars q cs _ htree).1

theorem spans (h : Node p root q s) : root.input.Spans s.interval := by
  obtain ⟨cs, hleft, htree⟩ := h.found
  have hcut := (hp.tidy acyclic_ofGrammars q cs _ htree).2
  rw [← h.reached.input_eq]
  exact ⟨hleft.boundary, hleft.boundary_add hcut, Nat.le_add_right _ _⟩

/-- The applications below a node are nodes, in a shape of the rule's body. -/
theorem applications (hbody : ofGrammars.HasBody q syntactic e) (h : Node p root q s) :
    ∃ w ∈ e.shapes, List.Forall₂ (Node p root) w s.applications := by
  obtain ⟨w, hw, hfound⟩ := hp.applications_found acyclic_ofGrammars hbody h.found
  obtain ⟨hlength, hfound⟩ := List.forall₂_iff_zip.mp hfound
  exact ⟨w, hw, List.forall₂_iff_zip.mpr ⟨hlength, fun hmem =>
    ⟨hfound hmem, h.reached.tail (List.of_mem_zip hmem).2⟩⟩⟩

theorem of_mem (hbody : ofGrammars.HasBody q syntactic e) (h : Node p root q s)
    (hc : c ∈ s.applications) (hrule : c.tree.rule? = some r) : Node p root r c := by
  obtain ⟨w, -, hnodes⟩ := h.applications hp hbody
  obtain ⟨r', -, hnode⟩ := exists_of_mem_right hnodes hc
  obtain rfl : r' = r := Option.some.inj ((hnode.rule?_eq hp).symm.trans hrule)
  exact hnode

theorem of_first? (hbody : ofGrammars.HasBody q syntactic e) (h : Node p root q s)
    (hc : s.first? r = some c) : Node p root r c := by
  have hrule := List.find?_some hc
  exact h.of_mem hp hbody (List.mem_of_find?_eq_some hc) (of_decide_eq_true hrule)

theorem of_named (hbody : ofGrammars.HasBody q syntactic e) (h : Node p root q s) :
    ∀ c ∈ s.named r, Node p root r c := by
  intro c hc
  obtain ⟨hc, hrule⟩ := List.mem_filter.mp hc
  exact h.of_mem hp hbody hc (of_decide_eq_true hrule)

/-- What cannot be missing below a node is there. -/
theorem first?_eq (hbody : ofGrammars.HasBody q syntactic e) (halways : e.always r = true)
    (h : Node p root q s) : ∃ c, s.first? r = some c ∧ Node p root r c := by
  obtain ⟨w, hw, hnodes⟩ := h.applications hp hbody
  obtain ⟨c, hc, hnode⟩ := exists_of_mem_left hnodes (Expr.mem_of_always halways hw)
  have hsome : (s.first? r).isSome = true :=
    List.find?_isSome.mpr ⟨c, hc, decide_eq_true (hnode.rule?_eq hp)⟩
  obtain ⟨c', hc'⟩ := Option.isSome_iff_exists.mp hsome
  exact ⟨c', hc', h.of_first? hp hbody hc'⟩

theorem child_eq (hbody : ofGrammars.HasBody q syntactic e) (halways : e.always r = true)
    (h : Node p root q s) : ∃ c, child s r = .ok c ∧ Node p root r c := by
  obtain ⟨c, hc, hnode⟩ := h.first?_eq hp hbody halways
  exact ⟨c, by rw [child, hc], hnode⟩

/-- A rule that is a choice between others has one of them below it, and nothing else. -/
theorem only (rs : List String) (hbody : ofGrammars.HasBody q syntactic (.alt (rs.map .apply)))
    (h : Node p root q s) :
    ∃ r ∈ rs, ∃ c, s.applications = [c] ∧ Node p root r c := by
  obtain ⟨w, hw, hnodes⟩ := h.applications hp hbody
  obtain ⟨r, hr, rfl⟩ := Expr.shape_of_rules hw
  obtain ⟨c, rest, hc, hrest, happs⟩ := List.forall₂_cons_left_iff.mp hnodes
  obtain rfl := List.forall₂_nil_left_iff.mp hrest
  exact ⟨r, hr, c, happs, hc⟩

theorem onlyChild_eq (rs : List String)
    (hbody : ofGrammars.HasBody q syntactic (.alt (rs.map .apply))) (h : Node p root q s) :
    ∃ r ∈ rs, ∃ c, onlyChild s = .ok (c, r) ∧ Node p root r c := by
  obtain ⟨r, hr, c, happs, hc⟩ := h.only hp rs hbody
  refine ⟨r, hr, c, ?_, hc⟩
  simp only [onlyChild, Tree.Located.onlyChild?, happs, hc.rule?_eq hp]

end

end Node

end Grammar.Build

end Pegboard
