import Pegboard.Match.Eval
import Pegboard.Trace

/-!
# Matching texts against a grammar

A match begins with the rule asked for, or else with the grammar's start rule, and has to cover the
whole text.
-/

namespace Pegboard

/-- Why a match has no result. -/
inductive MatchError
  | unknownRule (grammar rule : String)
  | noStartRule (grammar : String)
  /-- Rule applications nested deeper than the evaluation allows. -/
  | tooDeep (grammar rule : String)
  deriving DecidableEq, Repr

def MatchError.message : MatchError → String
  | unknownRule grammar rule =>
    "Rule '" ++ rule ++ "' is not declared in grammar '" ++ grammar ++ "'"
  | noStartRule grammar =>
    "Missing start rule argument: grammar '" ++ grammar ++ "' has no default start rule"
  | tooDeep grammar rule =>
    "Matching '" ++ rule ++ "' in grammar '" ++ grammar ++ "' nested more than "
      ++ toString Match.nestingLimit ++ " rule applications"

namespace Grammar

/-- The rule that a match begins with. -/
def startRule (g : Grammar) (start? : Option String) : Except MatchError Rule :=
  match start?.or g.start with
  | none => .error (.noStartRule g.name)
  | some name =>
    match g.rule? name with
    | none => .error (.unknownRule g.name name)
    | some rule => .ok rule

/-- Matches a text with an empty memo table. -/
def answer (g : Grammar) (tracing : Bool) (text : String) (start? : Option String) :
    Except MatchError (Match.Result × Trace.Node) := do
  let rule ← g.startRule start?
  let input := Text.Input.ofString text
  match Match.run ⟨g, input, tracing⟩ Match.nestingLimit rule.name (.blank input.size) with
  | none => .error (.tooDeep g.name rule.name)
  | some (a, _) => .ok (⟨input, rule.name, a.tree?, a.failures⟩, a.trace)

/-- The result of matching a text. -/
def matchText (g : Grammar) (text : String) (start? : Option String) :
    Except MatchError Match.Result :=
  (g.answer false text start?).map (·.1)

/-- The trace of matching a text. -/
def trace (g : Grammar) (text : String) (start? : Option String) : Except MatchError Trace :=
  (g.answer true text start?).map fun (result, root) => ⟨result, root⟩

end Grammar

end Pegboard
