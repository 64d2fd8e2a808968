import Pegboard.Json.Value
import Pegboard.Trace

/-!
# Traces as JSON

Each node of a trace is an object that holds its children.
-/

namespace Pegboard.Trace

mutual

def Node.toJson (level : Nat) : Node → Json
  | ⟨step, start, stop, succeeded, memoized, implicitSpaces, children⟩ =>
    descend level fun _ => .obj
      [("kind", .str step.kind),
       ("display", .str step.text),
       ("start", .nat start),
       ("end", .nat stop),
       ("succeeded", .bool succeeded),
       ("memoized", .bool memoized),
       ("implicit_spaces", .bool implicitSpaces),
       ("children", .arr (toJsonAll (level + 1) children))]

def toJsonAll (level : Nat) : List Node → List Json
  | [] => []
  | n :: ns => n.toJson level :: toJsonAll level ns

end

def toJson (t : Trace) : Json :=
  .obj
    [("start_rule", .str t.result.start),
     ("succeeded", .bool t.result.succeeded),
     ("root", t.root.toJson 0)]

end Pegboard.Trace
