import Pegboard.Failures
import Pegboard.Text.Lines
import Pegboard.Tree

/-!
# Results of a match

A match of a whole text either yields a tree or failed. A failure is reported at the furthest place
where something was expected in vain.
-/

namespace Pegboard.Match

structure Result where
  input : Text.Input
  /-- The rule that the match began with. -/
  start : String
  /-- The tree and its offset, if the text matched. -/
  tree? : Option (Nat × Tree)
  /-- The furthest failures, which a successful match has met as well. -/
  failures : Failures

namespace Result

def succeeded (r : Result) : Bool :=
  r.tree?.isSome

/-- The root of the tree, if the text matched. -/
def root? (r : Result) : Option Tree.Located :=
  r.tree?.map fun (offset, t) => ⟨t, offset, r.input⟩

/-- The bytes that the start rule matched. -/
def length (r : Result) : Nat :=
  match r.tree? with
  | some (_, t) => t.length
  | none => 0

/-- The offset that a failed match is reported at. -/
def failureOffset (r : Result) : Nat :=
  r.failures.pos?.getD 0

/-- The text that the start rule matched, or the place of the failure. -/
def interval (r : Result) : Interval :=
  match r.tree? with
  | some (offset, t) => ⟨offset, offset + t.length⟩
  | none => .point r.failureOffset

/-- The beginning of a message about a place: its line and column. -/
def placeText (p : Text.Place) : String :=
  "Line " ++ toString p.line ++ ", col " ++ toString p.column ++ ":"

/-- What was expected in vain, on one line. A successful match has no message. -/
def shortMessage (r : Result) : String :=
  if r.succeeded then ""
  else placeText (Text.place r.input.text r.failureOffset)
    ++ " expected " ++ r.failures.expectedText

/-- What was expected in vain, with the lines around the place. -/
def message (r : Result) : String :=
  if r.succeeded then ""
  else placeText (Text.place r.input.text r.failureOffset) ++ "\n"
    ++ Text.excerpt r.input.text r.failureOffset
    ++ "Expected " ++ r.failures.expectedText

/-- Equality of results, with trees compared node by node. -/
def beq (r s : Result) : Bool :=
  r.input.text == s.input.text && r.start == s.start && r.failures == s.failures
    && r.tree?.map (fun (offset, t) => t.outline offset)
      == s.tree?.map (fun (offset, t) => t.outline offset)

instance : BEq Result := ⟨beq⟩

end Result

end Pegboard.Match
