import Pegboard.Expr

/-!
# Nodes of a trace

A trace has a node for each expression and each rule application that a match attempted, the failed
ones included, in the order of the attempts.
-/

namespace Pegboard.Trace

/-- What was attempted. -/
inductive Step
  /-- The whole match. -/
  | root (start : String)
  | apply (rule : String)
  | eval (expr : Expr)
  deriving Repr, Inhabited

def Step.kind : Step → String
  | root _ => "root"
  | apply _ => "apply"
  | eval e =>
    match e with
    | .any => "any"
    | .endOfInput => "end"
    | .terminal _ => "terminal"
    | .range _ _ => "range"
    | .apply _ => "apply"
    | .alt _ => "alt"
    | .seq _ => "seq"
    | .iter _ _ => "iter"
    | .not _ => "not"
    | .look _ => "lookahead"
    | .lex _ => "lex"

/-- The rule's name, or the expression as it is written. -/
def Step.text : Step → String
  | root start => start
  | apply rule => rule
  | eval e => e.text

structure Node where
  step : Step
  start : Nat
  /-- The end of the text covered, which for a failed attempt is its start. -/
  stop : Nat
  succeeded : Bool
  /-- The result was looked up, not worked out. -/
  memoized : Bool
  /-- The application skips spaces that the grammar does not mention. -/
  implicitSpaces : Bool
  children : List Node
  deriving Repr, Inhabited

def Node.rule? (n : Node) : Option String :=
  match n.step with
  | .apply rule => some rule
  | _ => none

/-- The node of a rule application that was worked out. -/
def Node.application (rule : String) (start stop : Nat) (succeeded : Bool) (children : List Node) :
    Node where
  step := .apply rule
  start := start
  stop := stop
  succeeded := succeeded
  memoized := false
  implicitSpaces := false
  children := children

end Pegboard.Trace
