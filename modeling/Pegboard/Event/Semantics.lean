import Pegboard.Event

/-!
# Semantics events

What the editors of semantic operations tell each other.
-/

namespace Pegboard

inductive SemanticsEvent
  | addOperation (type name : String) (arguments : Option (List String))
  | selectOperation (name : String)
  | saveAction (operation key : String) (args : List String) (body : String)
  | addSemanticEditor (type name : String)
  deriving DecidableEq, Repr

namespace SemanticsEvent

def kinds : List EventKind :=
  [⟨"add:operation", "A semantic operation or attribute was added",
     ["type", "name", "optArguments"]⟩,
   ⟨"select:operation", "A semantic operation was selected", ["operationName"]⟩,
   ⟨"save:action", "A semantic action body was saved", ["operation", "key", "args", "body"]⟩,
   ⟨"add:semanticEditor", "An editor for a semantic operation was opened", ["type", "name"]⟩]

instance : Event SemanticsEvent where
  name
    | addOperation _ _ _ => "add:operation"
    | selectOperation _ => "select:operation"
    | saveAction _ _ _ _ => "save:action"
    | addSemanticEditor _ _ => "add:semanticEditor"
  arity
    | addOperation _ _ _ => 3
    | selectOperation _ => 1
    | saveAction _ _ _ _ => 4
    | addSemanticEditor _ _ => 2
  catalog := kinds

end SemanticsEvent

end Pegboard
