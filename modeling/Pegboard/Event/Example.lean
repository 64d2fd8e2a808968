import Pegboard.Event

/-!
# Example events

What happens to the example inputs of a grammar.
-/

namespace Pegboard

inductive ExampleEvent
  | addExample (id : String)
  | setExample (id : String) (oldValue newValue : Option String)
  | setSelected (id : String)
  | removeExample (id : String)
  deriving DecidableEq, Repr

namespace ExampleEvent

def kinds : List EventKind :=
  [⟨"add:example", "An example input was added", ["id"]⟩,
   ⟨"set:example", "An example input changed", ["id", "oldValue", "newValue"]⟩,
   ⟨"set:selected", "An example was selected", ["id"]⟩,
   ⟨"remove:example", "An example input was removed", ["id"]⟩]

instance : Event ExampleEvent where
  name
    | addExample _ => "add:example"
    | setExample _ _ _ => "set:example"
    | setSelected _ => "set:selected"
    | removeExample _ => "remove:example"
  arity
    | setExample _ _ _ => 3
    | _ => 1
  catalog := kinds

end ExampleEvent

end Pegboard
