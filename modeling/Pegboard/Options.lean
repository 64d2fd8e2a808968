import Pegboard.Sorted

/-!
# Option flags

Named flags, in the order of their names. A flag that was never set is false.
-/

namespace Pegboard

/-- The flag that shows failed attempts in a trace. -/
def showFailures : String := "showFailures"

/-- The flag that shows spaces skipped unasked in a trace. -/
def showSpaces : String := "showSpaces"

structure Options where
  flags : List (String × Bool)
  deriving DecidableEq, Repr

namespace Options

def empty : Options := ⟨[]⟩

/-- The flags as listed; the last value of a name counts. -/
def ofList (flags : List (String × Bool)) : Options :=
  ⟨sortedByName flags⟩

def get (o : Options) (name : String) : Bool :=
  (o.flags.lookup name).getD false

def set (o : Options) (name : String) (value : Bool) : Options :=
  ⟨putSorted name value o.flags⟩

/-- Whether setting a flag would change it. A flag never set changes with any value. -/
def changes (o : Options) (name : String) (value : Bool) : Bool :=
  o.flags.lookup name != some value

end Options

/-- Who decides whether failures are shown. -/
inductive FailureDisplay
  /-- They are shown when the input failed to match. -/
  | implicit
  /-- The user set the flag by hand. -/
  | explicit (value : Bool)
  deriving DecidableEq, Repr

end Pegboard
