import Pegboard.Descent
import Pegboard.Text.Input

/-!
# Syntax trees

The tree of a successful match. A node knows how many bytes it covers and where its children begin
relative to its own beginning, never where it stands in the text, so that a subtree stays right
when an edit moves it. A tree at a place in a text is `Tree.Located`.
-/

namespace Pegboard

/-- A part of a text, from byte `start` to byte `stop`. -/
structure Interval where
  start : Nat
  stop : Nat
  deriving DecidableEq, Repr, Inhabited

/-- The empty interval at an offset. -/
def Interval.point (offset : Nat) : Interval :=
  ⟨offset, offset⟩

inductive Tree
  /-- Text read by a terminal, a range or `any`. -/
  | terminal (length : Nat)
  /-- An application of a rule. -/
  | rule (name : String) (length : Nat) (children : List (Nat × Tree))
  /-- The repetitions of an iteration, one after the other. -/
  | iter (optional : Bool) (length : Nat) (children : List (Nat × Tree))
  deriving Repr, Inhabited

namespace Tree

/-- The bytes that the tree covers. -/
def length : Tree → Nat
  | terminal n => n
  | rule _ n _ => n
  | iter _ n _ => n

def children : Tree → List (Nat × Tree)
  | terminal _ => []
  | rule _ _ cs => cs
  | iter _ _ cs => cs

def rule? : Tree → Option String
  | rule name _ _ => some name
  | _ => none

/-! ### Outlines -/

/-- What a node of a tree is. -/
inductive Label
  | terminal
  | rule (name : String)
  | iter (optional : Bool)
  deriving DecidableEq, Repr

def label : Tree → Label
  | terminal _ => .terminal
  | rule name _ _ => .rule name
  | iter optional _ _ => .iter optional

/-- A node with its depth in the tree and the text it covers. -/
structure Row where
  depth : Nat
  label : Label
  interval : Interval
  deriving DecidableEq, Repr

mutual

/-- The rows of a tree at an offset, the last one first, in front of the rows before it. -/
def outlineOnto (depth offset : Nat) (rows : List Row) : Tree → List Row
  | terminal n => ⟨depth, .terminal, offset, offset + n⟩ :: rows
  | rule name n cs =>
    descend depth fun _ =>
      outlineAllOnto (depth + 1) offset (⟨depth, .rule name, offset, offset + n⟩ :: rows) cs
  | iter optional n cs =>
    descend depth fun _ =>
      outlineAllOnto (depth + 1) offset (⟨depth, .iter optional, offset, offset + n⟩ :: rows) cs

def outlineAllOnto (depth offset : Nat) (rows : List Row) : List (Nat × Tree) → List Row
  | [] => rows
  | (o, t) :: ts => outlineAllOnto depth offset (outlineOnto depth (offset + o) rows t) ts

end

/-- The nodes of a tree that begins at an offset, each before its children. -/
def outline (t : Tree) (offset : Nat) : List Row :=
  (outlineOnto 0 offset [] t).reverse

/-! ### Rule applications below a node -/

mutual

/-- The rule applications that a child at an offset contributes to its parent: itself, or those
repeated in an iteration. -/
def applicationsAt (offset : Nat) : Tree → List (Nat × Tree)
  | terminal _ => []
  | rule name n cs => [(offset, rule name n cs)]
  | iter _ _ cs => applicationsBelow offset cs

def applicationsBelow (offset : Nat) : List (Nat × Tree) → List (Nat × Tree)
  | [] => []
  | (o, t) :: ts => t.applicationsAt (offset + o) ++ applicationsBelow offset ts

end

/-! ### Attributes

An attribute of a rule application is worked out from the attributes of the rule applications
directly below it, seen through iterations. -/

section

variable {α : Type} (f : (level offset : Nat) → Tree → List (Nat × Tree × α) → α)

mutual

/-- The attributes that a child at an offset contributes to its parent. -/
def attributesAt (level offset : Nat) : Tree → List (Nat × Tree × α)
  | terminal _ => []
  | rule name n cs =>
    [(offset, rule name n cs,
      f level offset (rule name n cs)
        (descend level fun _ => attributesBelow (level + 1) offset cs))]
  | iter _ _ cs => attributesBelow level offset cs

def attributesBelow (level offset : Nat) : List (Nat × Tree) → List (Nat × Tree × α)
  | [] => []
  | (o, t) :: ts => attributesAt level (offset + o) t ++ attributesBelow level offset ts

end

/-- The attribute of a tree at an offset. -/
def attributed (offset : Nat) (t : Tree) : α :=
  f 0 offset t (attributesBelow f 1 offset t.children)

end

/-! ### Trees in a text -/

/-- A tree at an offset of a text. -/
structure Located where
  tree : Tree
  offset : Nat
  input : Text.Input

namespace Located

def interval (t : Located) : Interval :=
  ⟨t.offset, t.offset + t.tree.length⟩

/-- The text that the tree covers. -/
def text (t : Located) : String :=
  t.input.slice t.interval.start t.interval.stop

/-- The rule applications directly below the tree, seen through iterations. -/
def applications (t : Located) : List Located :=
  (applicationsBelow t.offset t.tree.children).map fun (o, s) => ⟨s, o, t.input⟩

/-- The applications of one rule directly below the tree. -/
def named (t : Located) (rule : String) : List Located :=
  t.applications.filter (·.tree.rule? = some rule)

/-- The first application of a rule directly below the tree. -/
def first? (t : Located) (rule : String) : Option Located :=
  t.applications.find? (·.tree.rule? = some rule)

/-- The one rule application directly below the tree, if there is exactly one. -/
def onlyChild? (t : Located) : Option Located :=
  match t.applications with
  | [s] => some s
  | _ => none

end Located

end Tree

end Pegboard
