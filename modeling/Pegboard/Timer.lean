/-!
# Clocks and timers

Moments and spans of time are nanoseconds. A clock that is moved by hand counts 64 bits of them and
then begins anew. A timer is armed for a moment or not armed at all.
-/

namespace Pegboard

/-- The span of some milliseconds. -/
def milliseconds (n : Nat) : Nat := n * 1000000

/-- The whole milliseconds in a span. -/
def toMilliseconds (span : Nat) : Nat := span / 1000000

/-- A clock that is moved by hand. -/
structure Clock where
  nanoseconds : UInt64
  deriving DecidableEq, Repr

namespace Clock

def zero : Clock := ⟨0⟩

def now (c : Clock) : Nat := c.nanoseconds.toNat

def advance (c : Clock) (span : Nat) : Clock := ⟨c.nanoseconds + .ofNat span⟩

end Clock

structure Timer where
  deadline? : Option Nat
  deriving DecidableEq, Repr

namespace Timer

def unarmed : Timer := ⟨none⟩

/-- Arms the timer, whatever it was armed for before. -/
def arm (_ : Timer) (now delay : Nat) : Timer := ⟨some (now + delay)⟩

def cancel (_ : Timer) : Timer := unarmed

def isPending (t : Timer) : Bool := t.deadline?.isSome

def isDue (t : Timer) (now : Nat) : Bool :=
  match t.deadline? with
  | some deadline => deadline ≤ now
  | none => false

/-- The time left, if the timer is armed. -/
def remaining (t : Timer) (now : Nat) : Option Nat :=
  t.deadline?.map (· - now)

end Timer

end Pegboard
