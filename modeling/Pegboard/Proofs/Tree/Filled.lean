import Mathlib.Logic.Relation
import Pegboard.Expr
import Pegboard.Tree

/-!
# What a tree covers

The children of a node stand one behind the other, and there may be gaps before, between and behind
them (`Fills`). Where a rule is lexical there are none; where it is syntactic, each gap is made up
of pieces, such as matches of the rule for spaces. `Accounted` says this of every node of a tree,
wherever it stands, and `Tiled` is the same by recursion along the tree.

Main statement: `Tiled.accounted`.
-/

namespace Pegboard.Tree

open Relation

/-! ## Gaps -/

/-- From `start` to `stop` the trees stand one behind the other, at offsets counted from `base`, with
a gap before each of them and behind the last one. -/
def Fills (gap : Nat → Nat → Prop) (base start : Nat) : List (Nat × Tree) → Nat → Prop
  | [], stop => gap start stop
  | (o, t) :: ts, stop => gap start (base + o) ∧ Fills gap base (base + o + t.length) ts stop

/-- The children fill the node, which stands at `pos`. -/
def FilledBy (gap : Nat → Nat → Prop) (pos : Nat) (t : Tree) : Prop :=
  Fills gap pos pos t.children (pos + t.length)

namespace Fills

variable {gap gap' : Nat → Nat → Prop} {base start mid stop : Nat} {ts us : List (Nat × Tree)}

theorem mono (hgap : ∀ p q, gap p q → gap' p q) (h : Fills gap base start ts stop) :
    Fills gap' base start ts stop := by
  induction ts generalizing start with
  | nil => exact hgap _ _ h
  | cons x ts ih => exact ⟨hgap _ _ h.1, ih h.2⟩

/-- A gap more before the trees. -/
theorem widen (htrans : ∀ p q r, gap p q → gap q r → gap p r) (hgap : gap start mid)
    (h : Fills gap base mid ts stop) : Fills gap base start ts stop := by
  cases ts with
  | nil => exact htrans _ _ _ hgap h
  | cons x ts => exact ⟨htrans _ _ _ hgap h.1, h.2⟩

theorem append (htrans : ∀ p q r, gap p q → gap q r → gap p r)
    (h : Fills gap base start ts mid) (h' : Fills gap base mid us stop) :
    Fills gap base start (ts ++ us) stop := by
  induction ts generalizing start with
  | nil => exact h'.widen htrans h
  | cons x ts ih => exact ⟨h.1, ih h.2⟩

/-- Where gaps go forwards, so do the trees, and they stay between the ends. -/
theorem le (hgap : ∀ p q, gap p q → p ≤ q) (h : Fills gap base start ts stop) :
    start ≤ stop ∧ ∀ x ∈ ts, start ≤ base + x.1 ∧ base + x.1 + x.2.length ≤ stop := by
  induction ts generalizing start with
  | nil => exact ⟨hgap _ _ h, nofun⟩
  | cons x ts ih =>
      have hfirst : start ≤ base + x.1 := hgap _ _ h.1
      obtain ⟨hle, hrest⟩ := ih h.2
      refine ⟨by omega, List.forall_mem_cons.mpr ⟨⟨hfirst, hle⟩, fun y hy => ?_⟩⟩
      obtain ⟨hy, hstop⟩ := hrest y hy
      exact ⟨by omega, hstop⟩

theorem pairwise (hgap : ∀ p q, gap p q → p ≤ q) (h : Fills gap base start ts stop) :
    ts.Pairwise fun x y => x.1 + x.2.length ≤ y.1 := by
  induction ts generalizing start with
  | nil => exact .nil
  | cons x ts ih =>
      refine List.pairwise_cons.mpr ⟨fun y hy => ?_, ih h.2⟩
      have := ((le hgap h.2).2 y hy).1
      omega

/-- The same trees, with their offsets counted from `base` on. -/
theorem rebase (h : Fills gap 0 start ts stop) (hbase : ∀ x ∈ ts, base ≤ x.1) :
    Fills gap base start (ts.map fun (o, t) => (o - base, t)) stop := by
  induction ts generalizing start with
  | nil => exact h
  | cons x ts ih =>
      obtain ⟨hx, hts⟩ := List.forall_mem_cons.mp hbase
      obtain ⟨hgap, hrest⟩ := h
      rw [Nat.zero_add] at hgap hrest
      have heq : base + (x.1 - base) = x.1 := Nat.add_sub_cancel' hx
      exact ⟨by rwa [heq], by rw [heq]; exact ih hrest hts⟩

end Fills

/-- Pieces that go forwards make up gaps that do. -/
theorem le_of_pieces {piece : Nat → Nat → Prop} (hpiece : ∀ p q, piece p q → p ≤ q) {p q : Nat}
    (h : ReflTransGen piece p q) : p ≤ q := by
  induction h with
  | refl => exact Nat.le_refl _
  | tail _ hlast ih => exact Nat.le_trans ih (hpiece _ _ hlast)

/-- The gaps that there may be in a lexical context, which are none, and in a syntactic one. -/
def Gap (piece : Nat → Nat → Prop) : (lexical : Bool) → Nat → Nat → Prop
  | true => Eq
  | false => ReflTransGen piece

namespace Gap

variable {piece : Nat → Nat → Prop} {lexical : Bool} {p q r : Nat}

theorem refl (lexical : Bool) (p : Nat) : Gap piece lexical p p := by
  cases lexical with
  | true => exact rfl
  | false => exact ReflTransGen.refl

theorem trans (lexical : Bool) (p q r : Nat) (h : Gap piece lexical p q)
    (h' : Gap piece lexical q r) : Gap piece lexical p r := by
  cases lexical with
  | true => exact Eq.trans h h'
  | false => exact ReflTransGen.trans h h'

theorem loosen (h : Gap piece lexical p q) : ReflTransGen piece p q := by
  cases lexical with
  | true => exact (show p = q from h) ▸ .refl
  | false => exact h

end Gap

/-! ## Nodes at their places -/

/-- The node stands at the place in a tree that begins at `offset`. -/
inductive At (offset : Nat) (t : Tree) : Nat → Tree → Prop
  | root : At offset t offset t
  | child {pos o : Nat} {s u : Tree} (h : At offset t pos s) (hu : (o, u) ∈ s.children) :
      At offset t (pos + o) u

/-- The node is the tree, which stands at `pos`, or is reached from it through iterations only. -/
inductive Iterated (pos : Nat) (t : Tree) : Nat → Tree → Prop
  | self : Iterated pos t pos t
  | iter {p o n : Nat} {s : Tree} {optional : Bool} {cs : List (Nat × Tree)}
      (h : Iterated pos t p s) (hu : (o, .iter optional n cs) ∈ s.children) :
      Iterated pos t (p + o) (.iter optional n cs)

/-- All that a tree covers is accounted for. In each node the children stand in order, none of them
overlaps another one, and none reaches out of the node; what no child covers of a rule or an
iteration is made up of pieces; and the children of a lexical rule, and those of the iterations
below it, leave nothing out. -/
structure Accounted (piece : Nat → Nat → Prop) (offset : Nat) (t : Tree) : Prop where
  ordered : ∀ pos s, t.At offset pos s →
    s.children.Pairwise (fun x y => x.1 + x.2.length ≤ y.1) ∧
      ∀ x ∈ s.children, x.1 + x.2.length ≤ s.length
  filled : ∀ pos s, t.At offset pos s → s.label ≠ .terminal → s.FilledBy (ReflTransGen piece) pos
  tiled : ∀ pos s q, t.At offset pos s → s.rule? = some q → isSyntactic q = false →
    ∀ p u, s.Iterated pos p u → u.FilledBy Eq p

/-! ## Trees without other gaps -/

/-- The tree, which stands at `pos`, has the gaps that there may be. Those of a rule depend on the
rule, and those of an iteration on where it stands. -/
inductive Tiled (piece : Nat → Nat → Prop) : (lexical : Bool) → (pos : Nat) → Tree → Prop
  | terminal (lexical : Bool) (pos n : Nat) : Tiled piece lexical pos (.terminal n)
  | rule {lexical : Bool} {pos n : Nat} {q : String} {cs : List (Nat × Tree)}
      (hfilled : FilledBy (Gap piece (!isSyntactic q)) pos (.rule q n cs))
      (hchildren : ∀ x ∈ cs, Tiled piece (!isSyntactic q) (pos + x.1) x.2) :
      Tiled piece lexical pos (.rule q n cs)
  | iter {lexical : Bool} {pos n : Nat} {optional : Bool} {cs : List (Nat × Tree)}
      (hfilled : FilledBy (Gap piece lexical) pos (.iter optional n cs))
      (hchildren : ∀ x ∈ cs, Tiled piece lexical (pos + x.1) x.2) :
      Tiled piece lexical pos (.iter optional n cs)

namespace Tiled

variable {piece : Nat → Nat → Prop} {lexical : Bool} {pos offset p : Nat} {t s u : Tree}

/-- Where a rule stands makes no difference to its gaps. -/
theorem ofRule {q : String} (h : Tiled piece lexical pos t) (hq : t.rule? = some q)
    (lexical' : Bool) : Tiled piece lexical' pos t := by
  cases h with
  | terminal => cases hq
  | rule hfilled hchildren => exact .rule hfilled hchildren
  | iter => cases hq

/-- What leaves nothing out leaves nothing out but pieces. -/
theorem loosen (h : Tiled piece true pos t) : Tiled piece false pos t := by
  generalize hlexical : true = lexical at h
  induction h with
  | terminal => exact .terminal ..
  | rule hfilled hchildren => exact .rule hfilled hchildren
  | iter hfilled hchildren ih =>
      subst hlexical
      exact .iter (hfilled.mono fun _ _ h => h.loosen) fun x hx => ih x hx rfl

theorem child {o : Nat} (h : Tiled piece lexical pos t) (hu : (o, u) ∈ t.children) :
    ∃ lexical', Tiled piece lexical' (pos + o) u := by
  cases h with
  | terminal => cases hu
  | rule _ hchildren => exact ⟨_, hchildren _ hu⟩
  | iter _ hchildren => exact ⟨_, hchildren _ hu⟩

theorem of_at (h : Tiled piece lexical offset t) (hs : t.At offset pos s) :
    ∃ lexical', Tiled piece lexical' pos s := by
  induction hs with
  | root => exact ⟨lexical, h⟩
  | child _ hu ih =>
      obtain ⟨_, hparent⟩ := ih
      exact hparent.child hu

theorem filledBy (h : Tiled piece lexical pos t) (ht : t.label ≠ .terminal) :
    t.FilledBy (ReflTransGen piece) pos := by
  cases h with
  | terminal => exact absurd rfl ht
  | rule hfilled _ => exact hfilled.mono fun _ _ h => h.loosen
  | iter hfilled _ => exact hfilled.mono fun _ _ h => h.loosen

/-- Through iterations the context stays that of the rule. -/
theorem of_iterated {q : String} (h : Tiled piece lexical pos t) (hq : t.rule? = some q)
    (hlexical : isSyntactic q = false) (hu : t.Iterated pos p u) :
    u.FilledBy Eq p ∧ ∀ x ∈ u.children, Tiled piece true (p + x.1) x.2 := by
  induction hu with
  | self =>
      cases h with
      | terminal => cases hq
      | rule hfilled hchildren =>
          obtain rfl := Option.some.inj hq
          rw [hlexical] at hfilled hchildren
          exact ⟨hfilled, hchildren⟩
      | iter => cases hq
  | iter _ hu ih =>
      cases ih.2 _ hu with
      | iter hfilled hchildren => exact ⟨hfilled, hchildren⟩

theorem accounted (hpiece : ∀ p q, piece p q → p ≤ q) (h : Tiled piece lexical offset t) :
    t.Accounted piece offset where
  ordered := by
    intro pos s hs
    by_cases hterminal : s.label = .terminal
    · cases s with
      | terminal n => exact ⟨.nil, nofun⟩
      | rule q n cs => cases hterminal
      | iter optional n cs => cases hterminal
    · obtain ⟨_, hs⟩ := h.of_at hs
      have hfilled := hs.filledBy hterminal
      have hle : ∀ p q, ReflTransGen piece p q → p ≤ q := fun _ _ => le_of_pieces hpiece
      refine ⟨hfilled.pairwise hle, fun x hx => ?_⟩
      have := ((hfilled.le hle).2 x hx).2
      omega
  filled pos s hs hterminal := by
    obtain ⟨_, hs⟩ := h.of_at hs
    exact hs.filledBy hterminal
  tiled pos s q hs hq hlexical p u hu := by
    obtain ⟨_, hs⟩ := h.of_at hs
    exact (hs.of_iterated hq hlexical hu).1

end Tiled

end Pegboard.Tree
