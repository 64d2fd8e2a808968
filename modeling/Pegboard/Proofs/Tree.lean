import Pegboard.Grammar.Build
import Pegboard.Proofs.Text.Cut

/-!
# Trees at their places

The rule applications below a tree, seen through iterations, are those below its parts one after the
other. An attribute worked out along a tree is worked out from the attributes of these applications;
in particular, so is what the tree of an expression is built into.

Main statements: `Located.text_eq`, a tree that covers some characters covers their text;
`Grammar.Build.readExpr_eq`.
-/

namespace Pegboard

open Text

namespace Text

theorem takeBytesOnto_append (taken front back : List Char) :
    takeBytesOnto taken (front ++ back) (byteSize front) = taken.reverse ++ front := by
  induction front generalizing taken with
  | nil =>
      cases back with
      | nil => simp [takeBytesOnto]
      | cons c back =>
          have := c.utf8Size_pos
          simp [takeBytesOnto, show ¬ c.utf8Size ≤ 0 by omega]
  | cons c front ih =>
      rw [List.cons_append, byteSize_cons, takeBytesOnto, if_pos (Nat.le_add_right _ _),
        Nat.add_sub_cancel_left, ih]
      simp

theorem takeBytes_append (front back : List Char) :
    takeBytes (front ++ back) (byteSize front) = front :=
  takeBytesOnto_append [] front back

end Text

namespace Tree

/-! ## Applications -/

mutual

theorem applicationsAt_add (base offset : Nat) : ∀ t : Tree,
    t.applicationsAt (base + offset) = (t.applicationsAt offset).map fun (o, s) => (base + o, s)
  | terminal _ => rfl
  | rule _ _ _ => rfl
  | iter _ _ cs => applicationsBelow_add base offset cs

theorem applicationsBelow_add (base offset : Nat) : ∀ ts : List (Nat × Tree),
    applicationsBelow (base + offset) ts =
      (applicationsBelow offset ts).map fun (o, s) => (base + o, s)
  | [] => rfl
  | (o, t) :: ts => by
      rw [applicationsBelow, applicationsBelow, Nat.add_assoc,
        applicationsAt_add base (offset + o) t,
        applicationsBelow_add base offset ts, List.map_append]

end

theorem applicationsBelow_append (offset : Nat) (ts us : List (Nat × Tree)) :
    applicationsBelow offset (ts ++ us) =
      applicationsBelow offset ts ++ applicationsBelow offset us := by
  induction ts with
  | nil => rfl
  | cons t ts ih =>
      rw [List.cons_append, applicationsBelow, applicationsBelow, ih, List.append_assoc]

/-- The applications below trees further on are those below the trees, further on. -/
theorem applicationsBelow_shift (offset n : Nat) (ts : List (Nat × Tree)) :
    applicationsBelow offset (ts.map fun (o, t) => (n + o, t)) =
      applicationsBelow (offset + n) ts := by
  induction ts with
  | nil => rfl
  | cons t ts ih =>
      rw [List.map_cons, applicationsBelow, applicationsBelow, ih, Nat.add_assoc]

/-! ## Induction -/

mutual

theorem holds_applicationsAt {P : Located → Prop} (step : ∀ t, (∀ s ∈ t.applications, P s) → P t)
    (input : Input) (offset : Nat) : ∀ t : Tree, ∀ x ∈ t.applicationsAt offset, P ⟨x.2, x.1, input⟩
  | terminal _ => nofun
  | rule name n cs => by
      refine List.forall_mem_singleton.mpr (step _ fun s hs => ?_)
      obtain ⟨x, hx, rfl⟩ := List.mem_map.mp hs
      exact holds_applicationsBelow step input offset cs x hx
  | iter _ _ cs => holds_applicationsBelow step input offset cs

theorem holds_applicationsBelow {P : Located → Prop}
    (step : ∀ t, (∀ s ∈ t.applications, P s) → P t) (input : Input) (offset : Nat) :
    ∀ ts : List (Nat × Tree), ∀ x ∈ applicationsBelow offset ts, P ⟨x.2, x.1, input⟩
  | [] => nofun
  | (o, t) :: ts => by
      rw [applicationsBelow]
      exact List.forall_mem_append.mpr ⟨holds_applicationsAt step input (offset + o) t,
        holds_applicationsBelow step input offset ts⟩

end

/-- What holds of a tree if it holds of the applications below it holds of all trees. -/
theorem Located.induction {P : Located → Prop} (step : ∀ t, (∀ s ∈ t.applications, P s) → P t)
    (t : Located) : P t := by
  refine step t fun s hs => ?_
  obtain ⟨x, hx, rfl⟩ := List.mem_map.mp hs
  exact holds_applicationsBelow step t.input t.offset t.tree.children x hx

/-! ## Attributes -/

section

variable {α : Type} {f : (level offset : Nat) → Tree → List (Nat × Tree × α) → α}

mutual

theorem attributesAt_eq (hf : ∀ level, f level = f 0) (level offset : Nat) : ∀ t : Tree,
    attributesAt f level offset t =
      (t.applicationsAt offset).map fun (o, s) => (o, s, attributed f o s)
  | terminal _ => rfl
  | rule name n cs => by
      simp only [attributesAt, descend_eq, applicationsAt, List.map_cons, List.map_nil, attributed,
        children, hf level, attributesBelow_eq hf _ offset cs]
  | iter _ _ cs => attributesBelow_eq hf level offset cs

theorem attributesBelow_eq (hf : ∀ level, f level = f 0) (level offset : Nat) :
    ∀ ts : List (Nat × Tree), attributesBelow f level offset ts =
      (applicationsBelow offset ts).map fun (o, s) => (o, s, attributed f o s)
  | [] => rfl
  | (o, t) :: ts => by
      rw [attributesBelow, applicationsBelow, attributesAt_eq hf level (offset + o) t,
        attributesBelow_eq hf level offset ts, List.map_append]

end

/-- The attribute of a tree has a property that each tree passes on from the applications below. -/
def Inherits (f : (level offset : Nat) → Tree → List (Nat × Tree × α) → α) (P : α → Prop) : Prop :=
  ∀ level offset t parts, (∀ p ∈ parts, P p.2.2) → P (f level offset t parts)

mutual

theorem Inherits.attributesAt {P : α → Prop} (hf : Inherits f P) (level offset : Nat) :
    ∀ t : Tree, ∀ p ∈ attributesAt f level offset t, P p.2.2
  | terminal _ => nofun
  | rule _ _ cs => by
      rw [Tree.attributesAt, descend_eq]
      exact List.forall_mem_singleton.mpr (hf _ _ _ _ (hf.attributesBelow _ _ cs))
  | iter _ _ cs => hf.attributesBelow level offset cs

theorem Inherits.attributesBelow {P : α → Prop} (hf : Inherits f P) (level offset : Nat) :
    ∀ ts : List (Nat × Tree), ∀ p ∈ attributesBelow f level offset ts, P p.2.2
  | [] => nofun
  | (o, t) :: ts => by
      rw [Tree.attributesBelow]
      exact List.forall_mem_append.mpr
        ⟨hf.attributesAt level (offset + o) t, hf.attributesBelow level offset ts⟩

end

theorem Inherits.attributed {P : α → Prop} (hf : Inherits f P) (offset : Nat) (t : Tree) :
    P (t.attributed f offset) :=
  hf _ _ _ _ (hf.attributesBelow _ _ t.children)

/-- Where the level of a descent makes no difference, an attribute is worked out from the attributes
of the applications below the tree. -/
theorem attributed_eq (hf : ∀ level, f level = f 0) (offset : Nat) (t : Tree) :
    t.attributed f offset = f 0 offset t
      ((applicationsBelow offset t.children).map fun (o, s) => (o, s, s.attributed f o)) := by
  rw [attributed, attributesBelow_eq hf]

end

namespace Located

/-- The text of a tree that covers the characters `front`. -/
theorem text_eq {t : Located} {front back : List Char}
    (hleft : t.input.LeftAt t.offset (front ++ back)) (hlength : t.tree.length = byteSize front) :
    t.text = String.ofList front := by
  rw [text, interval, Input.slice, hleft.rest_eq, Nat.add_sub_cancel_left, hlength,
    takeBytes_append]

end Located

end Tree

namespace Grammar.Build

theorem readNode_level (level : Nat) : readNode level = readNode 0 := by
  funext t parts lexical
  simp only [readNode, descend_eq]

/-- What the tree of an expression is built into, from what the applications below it are built
into. -/
theorem readExpr_eq (t : Tree.Located) :
    readExpr t = readNode 0 t (t.applications.map fun s => ⟨s, readExpr s⟩) := by
  rw [readExpr, Tree.attributed_eq, Tree.Located.applications]
  · simp only [List.map_map]
    rfl
  · intro level
    simp only [readNode_level]

end Grammar.Build

end Pegboard
