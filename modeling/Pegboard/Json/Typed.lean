import Pegboard.Json.Reader
import Pegboard.Sorted

/-!
# Reading values of known types

Readers for values whose type is known beforehand. A value of another type is a fault where it ends,
or where it begins if it is a list or an object. A record may be written as a list of its fields in
their order as well.
-/

namespace Pegboard.Json.Reader

/-- Reads a value that is not of the type wanted. -/
def found : Reader Found := do
  match ← peekValue with
  | 'n' =>
    word ['n', 'u', 'l', 'l']
    return .null
  | 't' =>
    word ['t', 'r', 'u', 'e']
    return .bool true
  | 'f' =>
    word ['f', 'a', 'l', 's', 'e']
    return .bool false
  | '"' => return .text (← string true)
  | '[' => return .list
  | '\x7b' => return .object
  | c => if c = '-' || c.isDigit then return (← number).found else failAhead .expectedValue

def mismatch {α : Type} (wanted : String) : Reader α := do
  let f ← found
  failHere (.wrongType f wanted)

/-! ### Single values -/

/-- A natural number below 2 ^ 64. -/
def natural : Reader Nat := do
  let c ← peekValue
  if c = '-' || c.isDigit then
    match ← number with
    | .natural n => return n
    | .negative n => failHere (.wrongInteger (-n) "u64")
    | .floating x => failHere (.wrongType (Number.floating x).found "u64")
  else mismatch "u64"

def boolean : Reader Bool := do
  match ← peekValue with
  | 't' =>
    word ['t', 'r', 'u', 'e']
    return true
  | 'f' =>
    word ['f', 'a', 'l', 's', 'e']
    return false
  | _ => mismatch "a boolean"

/-- A string, by the name of what it stands for. -/
def text (wanted : String) : Reader String := do
  if (← peekValue) = '"' then string true else mismatch wanted

/-- A value or null. -/
def nullable {α : Type} (r : Reader α) : Reader (Option α) := do
  if (← peekPastBlanks?) = some 'n' then
    word ['n', 'u', 'l', 'l']
    return none
  else some <$> r

/-! ### Objects -/

/-- Takes the comma between two fields and tells whether a key comes, or else the end of the object,
which is left where it is. -/
def keyComes (isFirst : Bool) : Reader Bool := do
  match ← peekPastBlanks? with
  | none => failAhead .endInObject
  | some '\x7d' => return false
  | some c =>
    if isFirst then
      if c = '"' then return true else failAhead .keyIsNoString
    else if c = ',' then
      skip
      match ← peekPastBlanks? with
      | some '"' => return true
      | some '\x7d' => failAhead .trailingComma
      | _ => failAt .endInValue .keyIsNoString
    else failAhead .expectedObjectEnd

/-- Reads the fields of an object of values, at most a number of them. -/
def valuesFrom {α : Type} (item : Reader α) :
    Nat → Bool → List (String × α) → Reader (List (String × α))
  | 0, _, values => return values
  | n + 1, isFirst, values => do
    if ← keyComes isFirst then
      let key ← string true
      colon
      valuesFrom item n false (putSorted key (← item) values)
    else
      skip
      return values

/-- An object of values, in the order of their names. The last one of a name counts. -/
def values {α : Type} (item : Reader α) : Reader (List (String × α)) := do
  if (← peekValue) = '\x7b' then
    skip
    valuesFrom item ((← get).rest.length + 1) true []
  else mismatch "a map"

/-! ### Records -/

/-- A field of a record: its name, and a reader that answers how its value changes a record. -/
structure Field (σ : Type) where
  name : String
  change : Reader (σ → σ)

/-- Fails at a field that the object had before. Its end is taken if it comes next. -/
def repeated {α : Type} (name : String) : Reader α := do
  if (← peekPastBlanks?) = some '\x7d' then skip
  failHere (.repeatedField name)

/-- Reads the fields of a record from an object, at most a number of them, after those seen. Fields
of other names do not matter. -/
def fieldsFrom {σ : Type} (fields : List (Field σ)) :
    Nat → Bool → List String → (σ → σ) → Reader (σ → σ)
  | 0, _, _, change => return change
  | n + 1, isFirst, seen, change => do
    if ← keyComes isFirst then
      let key ← string true
      if key ∈ seen then repeated key
      else
        match fields.find? (·.name == key) with
        | some field =>
          colon
          let next ← field.change
          fieldsFrom fields n false (key :: seen) (next ∘ change)
        | none =>
          colon
          let _ ← value
          fieldsFrom fields n false seen change
    else
      skip
      return change

/-- Takes the comma between two items and tells whether an item comes, or else the end of the list,
which is left where it is. -/
def itemComes (isFirst : Bool) : Reader Bool := do
  match ← peekPastBlanks? with
  | none => failAhead .endInList
  | some ']' => return false
  | some c =>
    if isFirst then return true
    else if c = ',' then
      skip
      match ← peekPastBlanks? with
      | some ']' => failAhead .trailingComma
      | some _ => return true
      | none => failAhead .endInValue
    else failAhead .expectedListEnd

/-- Takes the end of a list. -/
def listEnd : Reader Unit := do
  match ← peekPastBlanks? with
  | some ']' => skip
  | some ',' =>
    skip
    if (← peekPastBlanks?) = some ']' then failAhead .trailingComma
    else failAhead .trailingCharacters
  | _ => failAt .endInList .trailingCharacters

/-- Reads the fields of a record from a list of their values; those at the end may be missing. -/
def itemsFrom {σ : Type} : Bool → (σ → σ) → List (Field σ) → Reader (σ → σ)
  | _, change, [] => do
    listEnd
    return change
  | isFirst, change, field :: fields => do
    if ← itemComes isFirst then
      let next ← field.change
      itemsFrom false (next ∘ change) fields
    else
      skip
      return change

/-- Reads a record of a kind, and answers how its fields change a record. -/
def record {σ : Type} (kind : String) (fields : List (Field σ)) : Reader (σ → σ) := do
  match ← peekValue with
  | '\x7b' =>
    skip
    fieldsFrom fields ((← get).rest.length + 1) true [] id
  | '[' =>
    skip
    itemsFrom true id fields
  | _ => mismatch kind

end Pegboard.Json.Reader
