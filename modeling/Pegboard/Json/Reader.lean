import Pegboard.Json.Number
import Pegboard.Json.Strings
import Pegboard.Json.Value

/-!
# Reading values

Reads a value of any form, as deep as it may be: the lists and objects that are still open are on a
stack. Its strings only have to be well-formed, and its numbers may be of any size.
-/

namespace Pegboard.Json

/-- A list or an object that is still open, with what it holds, the last one first. An object waits
for the value of a key. -/
inductive Frame
  | list (items : List Json)
  | object (fields : List (String × Json)) (key : String)

/-- What a reader of values is about to do with the frames. -/
inductive Stage
  /-- Read a value in the innermost frame. -/
  | value (frames : List Frame)
  /-- Put a complete value into the innermost frame. -/
  | complete (frames : List Frame) (v : Json)

namespace Reader

/-- Takes a character that comes after blanks. -/
def punctuation (c : Char) (atEnd otherwise : Fault) : Reader Unit := do
  if (← peekPastBlanks?) = some c then skip else failAt atEnd otherwise

/-- Takes the colon after a key. -/
def colon : Reader Unit :=
  punctuation ':' .endInObject .expectedColon

/-- The next character that begins a value. -/
def peekValue : Reader Char := do
  match ← peekPastBlanks? with
  | some c => return c
  | none => failAhead .endInValue

/-- Takes a key and its colon, and goes on to the value. -/
def keyThen (frames : List Frame) (fields : List (String × Json)) : Reader Stage := do
  if (← peekPastBlanks?) = some '"' then
    let key ← string false
    colon
    return .value (.object fields key :: frames)
  else failAt .endInObject .keyIsNoString

/-- The value of a number: natural numbers are those below 2 ^ 64. -/
def ofLiteral (l : Literal) : Json :=
  match l.value with
  | .ok (.natural n) => .nat n
  | _ => .otherNumber l.text

def step : Stage → Reader Stage
  | .value frames => do
    match ← peekValue with
    | '[' =>
      skip
      match ← peekPastBlanks? with
      | none => failAhead .endInList
      | some ']' =>
        skip
        return .complete frames (.arr [])
      | some _ => return .value (.list [] :: frames)
    | '\x7b' =>
      skip
      match ← peekPastBlanks? with
      | some '\x7d' =>
        skip
        return .complete frames (.obj [])
      | _ => keyThen frames []
    | '"' => return .complete frames (.str (← string false))
    | 'n' =>
      word ['n', 'u', 'l', 'l']
      return .complete frames .null
    | 't' =>
      word ['t', 'r', 'u', 'e']
      return .complete frames (.bool true)
    | 'f' =>
      word ['f', 'a', 'l', 's', 'e']
      return .complete frames (.bool false)
    | c =>
      if c = '-' || c.isDigit then
        return .complete frames (ofLiteral (← literal .invalidNumber))
      else failAhead .expectedValue
  | .complete [] v => return .complete [] v
  | .complete (.list items :: frames) v => do
    match ← peekPastBlanks? with
    | some ',' =>
      skip
      return .value (.list (v :: items) :: frames)
    | some ']' =>
      skip
      return .complete frames (.arr (v :: items).reverse)
    | _ => failAt .endInList .expectedListEnd
  | .complete (.object fields key :: frames) v => do
    match ← peekPastBlanks? with
    | some ',' =>
      skip
      keyThen frames ((key, v) :: fields)
    | some '\x7d' =>
      skip
      return .complete frames (.obj ((key, v) :: fields).reverse)
    | _ => failAt .endInObject .expectedObjectEnd

/-- Goes on until a value is complete, in a number of steps. -/
def steps : Nat → Stage → Reader Json
  | _, .complete [] v => return v
  | 0, _ => failAhead .endInValue
  | n + 1, stage => do steps n (← step stage)

/-- Reads a value. Each step takes a character at least. -/
def value : Reader Json := do
  steps ((← get).rest.length + 1) (.value [])

end Reader

/-- The value that a text writes. -/
def read (text : String) : Except ReadError Json :=
  Reader.value.run text

end Pegboard.Json
