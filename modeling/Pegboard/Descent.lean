/-!
# Deep descents

Matches nest thousands of rule applications, and trees and traces are as deep as the matches that
made them. A walk down such a depth moves on to a fresh stack every thousand levels. Where a value
is computed makes no difference to it, so proofs drop the detour by `descend_eq`.
-/

namespace Pegboard

/-- The value of `f`, computed on a stack of its own. -/
def onFreshStack {α : Type} (f : Unit → α) : α :=
  (Task.spawn f Task.Priority.dedicated).get

/-- The value of `f`, which is wanted at a level of a descent. -/
@[inline] def descend {α : Type} (level : Nat) (f : Unit → α) : α :=
  if level % 1000 = 500 then onFreshStack f else f ()

@[simp] theorem onFreshStack_eq {α : Type} (f : Unit → α) : onFreshStack f = f () := rfl

@[simp] theorem descend_eq {α : Type} (level : Nat) (f : Unit → α) : descend level f = f () := by
  simp [descend]

end Pegboard
