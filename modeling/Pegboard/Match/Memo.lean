import Pegboard.Failures
import Pegboard.Trace.Node
import Pegboard.Tree

/-!
# The memo table

For each offset of a text the table holds what applying a rule there came to. An entry knows how far
its evaluation looked, so that an edit can tell the entries it leaves true from the others. While a
rule is being evaluated its entry is the seed that an application of the rule to itself at the same
place reads.
-/

namespace Pegboard.Match

/-- What applying a rule at a place came to. -/
structure Settled where
  /-- The tree, if the rule matched. -/
  tree? : Option Tree
  /-- How many bytes from the place on were looked at, the end of the text counting as one more. -/
  examined : Nat
  /-- The failures met, counted from the place on. -/
  failures : Failures
  /-- The node of the application, if a trace was kept. -/
  trace? : Option Trace.Node

inductive Entry
  /-- The rule is being evaluated. An application to itself gets the seed, no match at first; `read`
  tells whether there was one. -/
  | growing (seed? : Option Tree) (trace? : Option Trace.Node) (read : Bool)
  | settled (s : Settled)

/-- How many bytes from its place on the evaluation behind an entry looked at, which counts when it has
ended. -/
def Entry.examined : Entry → Nat
  | .growing _ _ _ => 0
  | .settled s => s.examined

/-- Whether an entry at `pos` looked at nothing from the offset `bound` on. -/
def Entry.endsBy (pos bound : Nat) : Entry → Bool
  | .growing _ _ _ => pos ≤ bound
  | .settled s => pos + s.examined ≤ bound

theorem Entry.endsBy_iff {pos bound : Nat} {e : Entry} :
    e.endsBy pos bound = true ↔ pos + e.examined ≤ bound := by
  cases e <;> simp [endsBy, examined]

/-- The entries at one place, at most one for each rule. -/
abbrev Slot := List (String × Entry)

namespace Slot

def put (rule : String) (e : Entry) : Slot → Slot
  | [] => [(rule, e)]
  | (r, old) :: rest => if r == rule then (rule, e) :: rest else (r, old) :: put rule e rest

def drop (rule : String) : Slot → Slot
  | [] => []
  | (r, old) :: rest => if r == rule then rest else (r, old) :: drop rule rest

/-- How far the entry that looked furthest looked. -/
def furthest (slot : Slot) : Nat :=
  slot.foldl (fun n x => max n x.2.examined) 0

theorem mem_put {rule : String} {e : Entry} {slot : Slot} {x : String × Entry}
    (h : x ∈ put rule e slot) : x = (rule, e) ∨ x ∈ slot := by
  induction slot with
  | nil => exact .inl (List.mem_singleton.mp h)
  | cons y rest ih =>
      rw [put] at h
      split at h
      · exact (List.mem_cons.mp h).imp_right (List.mem_cons_of_mem y)
      · rcases List.mem_cons.mp h with rfl | h
        · exact .inr List.mem_cons_self
        · exact (ih h).imp_right (List.mem_cons_of_mem y)

theorem drop_sublist (rule : String) (slot : Slot) : List.Sublist (drop rule slot) slot := by
  induction slot with
  | nil => exact .slnil
  | cons y rest ih =>
      rw [drop]
      split
      · exact List.sublist_cons_self _ _
      · exact ih.cons_cons _

theorem examined_le_furthest {slot : Slot} {x : String × Entry} (h : x ∈ slot) :
    x.2.examined ≤ slot.furthest := by
  have le : ∀ (slot : Slot) (n : Nat), n ≤ slot.foldl (fun n x => max n x.2.examined) n ∧
      ∀ x ∈ slot, x.2.examined ≤ slot.foldl (fun n x => max n x.2.examined) n := by
    intro slot
    induction slot with
    | nil => exact fun n => ⟨Nat.le_refl n, nofun⟩
    | cons y rest ih =>
        intro n
        obtain ⟨hbase, hrest⟩ := ih (max n y.2.examined)
        exact ⟨Nat.le_trans (Nat.le_max_left _ _) hbase,
          List.forall_mem_cons.mpr ⟨Nat.le_trans (Nat.le_max_right _ _) hbase, hrest⟩⟩
  exact (le slot 0).2 x h

end Slot

/-- A place of a text with its entries. So that an edit need not look at each of them, the place knows
a bound on how far they looked. -/
structure Place where
  entries : Slot
  reach : Nat
  bounded : ∀ x ∈ entries, x.2.examined ≤ reach

namespace Place

/-- A place without entries. -/
def blank : Place := ⟨[], 0, nofun⟩

def put (rule : String) (e : Entry) (p : Place) : Place where
  entries := p.entries.put rule e
  reach := max p.reach e.examined
  bounded x hx := by
    rcases Slot.mem_put hx with rfl | hx
    · exact Nat.le_max_right _ _
    · exact Nat.le_trans (p.bounded x hx) (Nat.le_max_left _ _)

/-- Takes an entry out. The bound stays as it is. -/
def drop (rule : String) (p : Place) : Place where
  entries := p.entries.drop rule
  reach := p.reach
  bounded x hx := p.bounded x ((Slot.drop_sublist rule p.entries).subset hx)

/-- Takes out the entries that looked at the offset `bound` or further on, if there can be any. -/
def prune (pos bound : Nat) (p : Place) : Place :=
  if pos + p.reach ≤ bound then p
  else
    let kept := p.entries.filter fun (_, e) => e.endsBy pos bound
    ⟨kept, Slot.furthest kept, fun _ => Slot.examined_le_furthest⟩

/-- Whether the bound decides or the entries do, those stay that looked at nothing from the offset on. -/
theorem entries_prune (pos bound : Nat) (p : Place) :
    (p.prune pos bound).entries = p.entries.filter fun (_, e) => e.endsBy pos bound := by
  unfold prune
  split
  · refine (List.filter_eq_self.mpr fun x hx => Entry.endsBy_iff.mpr ?_).symm
    have := p.bounded x hx
    omega
  · rfl

end Place

/-- A place for each offset of a text, its end included. -/
structure Memo where
  slots : Array Place

namespace Memo

/-- The table without entries for a text of `size` bytes. -/
def blank (size : Nat) : Memo :=
  ⟨Array.replicate (size + 1) .blank⟩

/-- The entries at a place. -/
def entriesAt (m : Memo) (pos : Nat) : Slot :=
  (m.slots.getD pos .blank).entries

def find? (m : Memo) (pos : Nat) (rule : String) : Option Entry :=
  (m.entriesAt pos).lookup rule

def put (m : Memo) (pos : Nat) (rule : String) (e : Entry) : Memo :=
  ⟨m.slots.modify pos (Place.put rule e)⟩

def drop (m : Memo) (pos : Nat) (rule : String) : Memo :=
  ⟨m.slots.modify pos (Place.drop rule)⟩

/-- The number of entries. -/
def size (m : Memo) : Nat :=
  m.slots.foldl (fun n p => n + p.entries.length) 0

/-- The table after the bytes from `start` to `stop` gave way to `length` others: entries behind the
edit move with their text, and entries before it stay if they looked at nothing from it on. -/
def splice (m : Memo) (start stop length : Nat) : Memo :=
  let kept := (m.slots.extract 0 start).mapIdx fun pos p => p.prune pos start
  ⟨kept ++ Array.replicate length .blank ++ m.slots.extract stop m.slots.size⟩

end Memo

end Pegboard.Match
