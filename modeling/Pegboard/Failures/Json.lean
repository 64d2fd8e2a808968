import Pegboard.Failures
import Pegboard.Json.Value

/-!
# Failures as JSON

An expectation is an object with its kind, and with a value if its kind has one.
-/

namespace Pegboard

namespace Expectation

def kind : Expectation → String
  | terminal _ => "terminal"
  | range _ _ => "range"
  | any => "any"
  | endOfInput => "end"
  | description _ => "description"
  | not _ => "not"

def value? : Expectation → Option Json
  | terminal s | description s | not s => some (.str s)
  | range lo hi => some (.arr [.str lo.toString, .str hi.toString])
  | any | endOfInput => none

def toJson (e : Expectation) : Json :=
  .obj (("kind", .str e.kind) :: e.value?.toList.map fun v => ("value", v))

end Expectation

def Failure.toJson (f : Failure) : Json :=
  .obj [("offset", .nat f.offset), ("expected", f.expected.toJson)]

end Pegboard
