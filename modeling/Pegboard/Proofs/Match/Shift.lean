import Pegboard.Proofs.Match.Outcomes
import Pegboard.Proofs.Match.Rule

/-!
# Counting from another place

An evaluation that begins at a place counts from there: move it in the text, and every offset that it
finds, meets or looks at moves along, while the lengths, the entries that are kept and the depth of
the frames stay as they are. Traces are not kept.

Main statements: `concluded_shift`, `findIdx?_shift`.
-/

namespace Pegboard

open Match Match.Evaluation

namespace Failures

variable (f g : Failures) (d p : Nat)

theorem absoluteFrom_absoluteFrom : (f.absoluteFrom p).absoluteFrom d = f.absoluteFrom (d + p) := by
  cases f with
  | empty => rfl
  | furthest pos es => simp [absoluteFrom, Nat.add_assoc, Nat.add_comm p d]

theorem relativeTo_shift : (f.absoluteFrom d).relativeTo (d + p) = f.relativeTo p := by
  cases f with
  | empty => rfl
  | furthest pos es => simp [absoluteFrom, relativeTo, Nat.add_comm pos d, Nat.add_sub_add_left]

theorem absoluteFrom_merge :
    (f.merge g).absoluteFrom d = (f.absoluteFrom d).merge (g.absoluteFrom d) := by
  cases g with
  | empty => rfl
  | furthest pos es =>
      show absoluteFrom (es.foldl _ f) d = es.foldl (fun f e => f.record (pos + d) e) _
      induction es generalizing f with
      | nil => rfl
      | cons e es ih => rw [List.foldl_cons, List.foldl_cons, ih, absoluteFrom_record, Nat.add_comm]

end Failures

namespace Match

/-- The frame counted from `d` bytes earlier on. -/
def Evaluation.shiftFrame (d : Nat) (f : Frame) : Frame :=
  (d + f.1, f.2)

/-- The cursor counted from `d` bytes earlier on. -/
def Cursor.shift (d : Nat) (c : Cursor) : Cursor :=
  ⟨d + c.pos, c.found.map fun (o, t) => (d + o, t)⟩

/-- The log counted from `d` bytes earlier on. -/
def Log.shift (d : Nat) (log : Log) : Log :=
  { log with failures := log.failures.absoluteFrom d, reach := d + log.reach }

namespace Cursor

variable (d : Nat) (c : Cursor)

@[simp] theorem shift_pos : (c.shift d).pos = d + c.pos := rfl

theorem shift_push (t : Tree) : (c.shift d).push t = (c.push t).shift d := by
  simp [push, shift, Nat.add_assoc]

theorem map_shift_push (tree? : Option Tree) :
    tree?.map (c.shift d).push = (tree?.map c.push).map (·.shift d) := by
  cases tree? with
  | none => rfl
  | some t => exact congrArg some (c.shift_push d t)

theorem shift_children (pos : Nat) : (c.shift d).children (d + pos) = c.children pos := by
  simp [children, shift, Function.comp_def, Nat.add_sub_add_left]

end Cursor

namespace Log

variable (d : Nat) (log : Log)

@[simp] theorem shift_reach : (log.shift d).reach = d + log.reach := rfl

@[simp] theorem shift_heads : (log.shift d).heads = log.heads := rfl

theorem shift_start (pos : Nat) : start (d + pos) = (start pos).shift d := rfl

theorem shift_examine (stop : Nat) : (log.shift d).examine (d + stop) = (log.examine stop).shift d := by
  simp [examine, shift]

theorem shift_fail (pos : Nat) (e : Expectation) :
    (log.shift d).fail (d + pos) e = (log.fail pos e).shift d := by
  simp [fail, shift, Failures.absoluteFrom_record]

theorem shift_tell (pos : Nat) (a : Application) :
    (log.shift d).tell (d + pos) a = (log.tell pos a).shift d := by
  simp only [tell, Nat.add_assoc, shift_examine]
  simp only [shift, ← Failures.merge_ofList, ← Failures.absoluteFrom_ofList,
    ← Failures.absoluteFrom_absoluteFrom, Failures.absoluteFrom_merge]

theorem shift_markSpaces : (log.shift d).markSpaces = log.markSpaces.shift d := by
  obtain ⟨failures, reach, heads, _ | ⟨n, rest⟩⟩ := log <;> rfl

end Log

namespace Evaluation

theorem reported_shift (rule : Rule) (d pos : Nat) (matched : Bool) (failures : Failures) :
    reported rule (d + pos) matched (failures.absoluteFrom d) =
      (reported rule pos matched failures).absoluteFrom d := by
  rw [reported, reported]
  split
  · rfl
  · split
    · rfl
    · rw [Failures.single, Failures.single, Failures.absoluteFrom, Nat.add_comm]

/-- What is kept does not depend on where the rule began. -/
theorem keptEntry_shift (set : Setting) (hset : set.tracing = false) (rule : Rule) (d pos : Nat)
    (r : Round) (inner : Log) :
    keptEntry set rule (d + pos) r (inner.shift d) = keptEntry set rule pos r inner := by
  simp only [keptEntry, Log.shift, reported_shift, Failures.relativeTo_shift,
    Nat.add_sub_add_left, hset, Bool.false_eq_true, if_false]

theorem concluded_shift (set : Setting) (hset : set.tracing = false) (rule : Rule) (d : Nat)
    (c : Cursor) (log : Log) (r : Round) (inner : Log) (memo : Memo) :
    concluded set rule (c.shift d) (log.shift d) r (inner.shift d) memo =
      ⟨(r.tree?.map c.push).map (·.shift d),
        Log.shift d
          { failures := log.failures.merge (reported rule c.pos r.tree?.isSome inner.failures)
            reach := max log.reach inner.reach
            heads := max log.heads (inner.heads - 1)
            trace := log.trace },
        if 2 ≤ inner.heads then memo.drop (d + c.pos) rule.name
        else memo.put (d + c.pos) rule.name (.settled (keptEntry set rule c.pos r inner))⟩ := by
  simp only [concluded, Cursor.shift_pos, Log.shift_heads, Log.shift_reach, keptEntry_shift set hset,
    Cursor.map_shift_push, Log.note, hset, Bool.false_eq_true, if_false]
  simp only [Log.shift, reported_shift, Failures.absoluteFrom_merge, Nat.add_max_add_left]

theorem findIdx?_shift (frames : List Frame) (d pos : Nat) (q : String) :
    (frames.map (shiftFrame d)).findIdx? (· == (d + pos, q)) = frames.findIdx? (· == (pos, q)) := by
  rw [List.findIdx?_map]
  congr 1
  funext f
  simp [shiftFrame, Prod.ext_iff]

end Evaluation

end Match

end Pegboard
