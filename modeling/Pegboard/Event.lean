import Pegboard.Json.Value

/-!
# Events

An event has a name and a number of arguments. Each category of events has a catalog of its kinds,
with the names of their parameters in order.
-/

namespace Pegboard

structure EventKind where
  name : String
  description : String
  params : List String
  deriving DecidableEq, Repr

def EventKind.schema (k : EventKind) : Json :=
  .obj [("description", .str k.description), ("params", .arr (k.params.map .str))]

/-- The kinds of a catalog by their names. -/
def catalogSchema (kinds : List EventKind) : Json :=
  .obj (kinds.map fun k => (k.name, k.schema))

/-- A category of events that a bus can carry. -/
class Event (ε : Type) where
  name : ε → String
  /-- The number of arguments. -/
  arity : ε → Nat
  /-- The kinds that a new bus knows. -/
  catalog : List EventKind

/-- An event whose name and arguments are only known when it is emitted. -/
structure NamedEvent where
  name : String
  args : List Json

instance : Event NamedEvent where
  name := NamedEvent.name
  arity e := e.args.length
  catalog := []

end Pegboard
