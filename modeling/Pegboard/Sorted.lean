/-!
# Values in the order of their names

Lists of named values that hold each name once, in the order of the names.
-/

namespace Pegboard

/-- Puts a value under a name into a list that is in the order of its names. -/
def putSorted {α : Type} (name : String) (value : α) : List (String × α) → List (String × α)
  | [] => [(name, value)]
  | (n, v) :: rest =>
    if name < n then (name, value) :: (n, v) :: rest
    else if name = n then (n, value) :: rest
    else (n, v) :: putSorted name value rest

/-- The values in the order of their names; of several under one name the last one counts. -/
def sortedByName {α : Type} (values : List (String × α)) : List (String × α) :=
  values.foldl (fun sorted (name, value) => putSorted name value sorted) []

end Pegboard
