/-!
# Decimal numbers

Natural numbers written with decimal digits. Numbers that are read stay below 2 ^ 64.
-/

namespace Pegboard.Text

/-- The number that decimal digits write. -/
def decimal (digits : List Char) : Nat :=
  digits.foldl (fun n c => 10 * n + (c.toNat - '0'.toNat)) 0

/-- The number that a text writes with decimal digits alone, if it is below 2 ^ 64. -/
def decimal? (cs : List Char) : Option Nat :=
  if !cs.isEmpty && cs.all Char.isDigit && decimal cs < UInt64.size then some (decimal cs)
  else none

end Pegboard.Text
