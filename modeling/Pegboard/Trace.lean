import Pegboard.Match.Result
import Pegboard.Text.Inspected
import Pegboard.Trace.Node

/-!
# Traces

The trace of a match: its result, and a tree of all that was attempted on the way. Walks over a
trace give the rule applications that succeeded, the attempts that failed, and a rendering of the
trace as indented text.
-/

namespace Pegboard

structure Trace where
  result : Match.Result
  root : Trace.Node

namespace Trace

mutual

/-- The nodes of a subtree with their depths, the last one first, in front of those before it. -/
def Node.walkOnto (depth : Nat) (visited : List (Nat × Node)) : Node → List (Nat × Node)
  | ⟨step, start, stop, succeeded, memoized, implicitSpaces, children⟩ =>
    descend depth fun _ =>
      walkAllOnto (depth + 1)
        ((depth, ⟨step, start, stop, succeeded, memoized, implicitSpaces, children⟩) :: visited)
        children

def walkAllOnto (depth : Nat) (visited : List (Nat × Node)) : List Node → List (Nat × Node)
  | [] => visited
  | n :: ns => walkAllOnto depth (n.walkOnto depth visited) ns

end

/-- All nodes below the root with their depths, each before its children. -/
def walk (t : Trace) : List (Nat × Node) :=
  (walkAllOnto 0 [] t.root.children).reverse

/-- The attempts that failed. -/
def failures (t : Trace) : List Node :=
  (t.walk.map (·.2)).filter (!·.succeeded)

/-- A rule and the text that an application of it matched. -/
structure RuleSpan where
  rule : String
  interval : Interval
  deriving DecidableEq, Repr

mutual

def Node.spansOnto (depth : Nat) (spans : List RuleSpan) : Node → List RuleSpan
  | ⟨step, start, stop, succeeded, _, implicitSpaces, children⟩ =>
    if implicitSpaces || !succeeded then spans
    else
      let spans := match step with
        | .apply rule => ⟨rule, start, stop⟩ :: spans
        | _ => spans
      descend depth fun _ => spansAllOnto (depth + 1) spans children

def spansAllOnto (depth : Nat) (spans : List RuleSpan) : List Node → List RuleSpan
  | [] => spans
  | n :: ns => spansAllOnto depth (n.spansOnto depth spans) ns

end

/-- The successful rule applications, each before those below it. What failed is left out with all
below it, and so are spaces that were skipped unasked. -/
def ruleSpans (t : Trace) : List RuleSpan :=
  (spansAllOnto 0 [] t.root.children).reverse

/-! ### Rendering -/

/-- A node on a line of its own: what was attempted, where, and the text matched. -/
def Node.line (input : Text.Input) (depth : Nat) (step : Step) (start stop : Nat)
    (succeeded : Bool) : String :=
  "".pushn ' ' (2 * depth) ++ step.text
    ++ (if succeeded then
          " " ++ toString start ++ ".." ++ toString stop ++ " "
            ++ Text.inspect (input.slice start stop)
        else " " ++ toString start ++ " FAILED")
    ++ "\n"

/-- What a rendering shows. A node that is not shown hides all below it. -/
structure View where
  failures : Bool
  spaces : Bool

mutual

def Node.renderOnto (view : View) (input : Text.Input) (depth : Nat) (out : String) :
    Node → String
  | ⟨step, start, stop, succeeded, _, implicitSpaces, children⟩ =>
    if (!succeeded && !view.failures) || (implicitSpaces && !view.spaces) then out
    else
      descend depth fun _ =>
        renderAllOnto view input (depth + 1)
          (out ++ Node.line input depth step start stop succeeded) children

def renderAllOnto (view : View) (input : Text.Input) (depth : Nat) (out : String) :
    List Node → String
  | [] => out
  | n :: ns => renderAllOnto view input depth (n.renderOnto view input depth out) ns

end

/-- The trace as text, a line for each node shown, indented by its depth. -/
def render (t : Trace) (view : View) : String :=
  renderAllOnto view t.result.input 0 "" t.root.children

end Trace

end Pegboard
