import Pegboard.Text.Quoted

/-!
# Failures of a match

A failed match is reported at the furthest place where something was expected in vain, together
with all that was expected there, in the order met.
-/

namespace Pegboard

/-- Something that a matcher expected to find. -/
inductive Expectation
  | terminal (text : String)
  | range (lo hi : Char)
  | any
  | endOfInput
  /-- What a rule is described to match. -/
  | description (text : String)
  /-- Anything but what the expression matches. -/
  | not (expr : String)
  deriving DecidableEq, Repr

def Expectation.text : Expectation → String
  | terminal s => Text.quote s
  | range lo hi => Text.quote lo.toString ++ ".." ++ Text.quote hi.toString
  | any => "any character"
  | endOfInput => "end of input"
  | description d => d
  | not e => "not " ++ e

/-- An expectation at an offset of the input. -/
structure Failure where
  offset : Nat
  expected : Expectation
  deriving DecidableEq, Repr

/-- The furthest place of a failure and what was expected there, without repetition. -/
inductive Failures
  | empty
  | furthest (pos : Nat) (expected : List Expectation)
  deriving DecidableEq, Repr

namespace Failures

instance : EmptyCollection Failures := ⟨empty⟩

instance : Inhabited Failures := ⟨empty⟩

def single (pos : Nat) (e : Expectation) : Failures :=
  furthest pos [e]

def pos? : Failures → Option Nat
  | empty => none
  | furthest pos _ => some pos

def expected : Failures → List Expectation
  | empty => []
  | furthest _ es => es

/-- The failures one by one. -/
def toList : Failures → List Failure
  | empty => []
  | furthest pos es => es.map (⟨pos, ·⟩)

/-- A place further on takes over; the place reached already gains the expectation unless it has
it; an earlier place is forgotten. -/
def record (f : Failures) (pos : Nat) (e : Expectation) : Failures :=
  match f with
  | empty => single pos e
  | furthest reached es =>
    if pos < reached then f
    else if pos = reached then
      if e ∈ es then f else furthest reached (es ++ [e])
    else single pos e

/-- Records every failure of `g`, in order. -/
def merge (f g : Failures) : Failures :=
  match g with
  | empty => f
  | furthest pos es => es.foldl (fun f e => f.record pos e) f

/-- The failures with their place counted from `base` on; places before it count as zero. -/
def relativeTo (f : Failures) (base : Nat) : Failures :=
  match f with
  | empty => empty
  | furthest pos es => furthest (pos - base) es

/-- The failures with their place, which was counted from `base` on, counted from zero on. -/
def absoluteFrom (f : Failures) (base : Nat) : Failures :=
  match f with
  | empty => empty
  | furthest pos es => furthest (pos + base) es

/-- The failures with their place as 64 bits hold it. -/
def wrapped (f : Failures) : Failures :=
  match f with
  | empty => empty
  | furthest pos es => furthest (pos % UInt64.size) es

/-- An enumeration with "or" before its last item. -/
def orList : List String → String
  | [] => "nothing"
  | [a] => a
  | [a, b] => a ++ " or " ++ b
  | as@(_ :: _ :: _ :: _) => ", ".intercalate as.dropLast ++ ", or " ++ as.getLastD ""

/-- What was expected, as a phrase. -/
def expectedText (f : Failures) : String :=
  orList (f.expected.map Expectation.text)

end Failures

end Pegboard
