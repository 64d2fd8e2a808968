import Pegboard.Json.Source
import Pegboard.Text.Decimal
import Pegboard.Text.Shortest

/-!
# Numbers in JSON

A number is read by its parts, and its value computed from them. It counts as an integer if it has
neither a fraction nor an exponent and fits in 64 bits; all others are floating-point numbers.
-/

namespace Pegboard.Json

/-- The parts of a number as they are written. -/
structure Literal where
  negative : Bool
  whole : List Char
  /-- The digits behind the point, if there is one. -/
  fraction : List Char
  /-- Whether there is a minus, and the digits. -/
  exponent? : Option (Bool × List Char)
  deriving DecidableEq, Repr

namespace Literal

/-- The number as it may be written. -/
def text (l : Literal) : String :=
  let sign (negative : Bool) : List Char := if negative then ['-'] else []
  String.ofList
    (sign l.negative ++ l.whole ++ (if l.fraction.isEmpty then [] else '.' :: l.fraction)
      ++ match l.exponent? with
        | some (negative, digits) => 'e' :: (sign negative ++ digits)
        | none => [])

end Literal

/-! ### Reading -/

namespace Reader

/-- Takes digits, of which there has to be one. -/
def digits (atEnd : Fault) : Reader (List Char) := do
  let ds ← takeWhile Char.isDigit
  if ds.isEmpty then failAt atEnd .invalidNumber
  return ds

/-- Takes a zero, or digits that do not begin with one. -/
def wholePart (atEnd : Fault) : Reader (List Char) := do
  if (← peek?) = some '0' then
    skip
    if (← peek?).any Char.isDigit then failAhead .invalidNumber
    return ['0']
  else digits atEnd

/-- Takes one of these characters, if it is next. -/
def oneOf? (cs : List Char) : Reader (Option Char) := do
  match ← peek? with
  | some c =>
    if c ∈ cs then
      skip
      return some c
    else return none
  | none => return none

/-- Takes a number. The fault is the one of a text that ends before a digit. -/
def literal (atEnd : Fault) : Reader Literal := do
  let negative := (← oneOf? ['-']).isSome
  let whole ← wholePart atEnd
  let fraction ← match ← oneOf? ['.'] with
    | some _ => digits atEnd
    | none => pure []
  match ← oneOf? ['e', 'E'] with
  | some _ => do
    let sign? ← oneOf? ['+', '-']
    return ⟨negative, whole, fraction, some (sign? == some '-', ← digits atEnd)⟩
  | none => return ⟨negative, whole, fraction, none⟩

end Reader

/-! ### Values -/

inductive Number
  | natural (n : Nat)
  /-- The number `-n`, which is below zero. -/
  | negative (n : Nat)
  | floating (x : Float)

/-- The number that some digits write, and how many digits they are. -/
structure Significand where
  value : Nat
  size : Nat
  deriving DecidableEq, Repr

namespace Significand

/-- Takes digits until one does not fit in 64 bits. -/
def push (s : Significand) : List Char → Significand
  | [] => s
  | c :: cs =>
    let n := 10 * s.value + (c.toNat - '0'.toNat)
    if n < UInt64.size then push ⟨n, s.size + 1⟩ cs else s

/-- Takes digits behind those of a value, without counting these. -/
def behind (value : Nat) (digits : List Char) : Significand :=
  push ⟨value, 0⟩ digits

end Significand

/-- The exponent of the largest power of ten that is a floating-point number. -/
def maxPower : Nat := 308

def powerOfTen (n : Nat) : Float :=
  Float.ofScientific 1 false n

/-- The number divided by a power of ten, in steps where the power is too large. -/
def scaleDown (x : Float) (n : Nat) : Float :=
  if n ≤ maxPower then x / powerOfTen n
  else if x == 0 then x
  else scaleDown (x / powerOfTen maxPower) (n - maxPower)
termination_by n
decreasing_by simp only [maxPower] at *; omega

/-- The number times a power of ten, unless it is too large. -/
def scale? (significand : Nat) (exponent : Int) : Option Float :=
  let x := significand.toUInt64.toFloat
  if exponent < 0 then some (scaleDown x exponent.natAbs)
  else if exponent ≤ maxPower then
    let y := x * powerOfTen exponent.toNat
    if y.isInf then none else some y
  else if significand = 0 then some x
  else none

/-- The digits behind the one that takes a number beyond a limit, if any does. -/
def beyond? (limit n : Nat) : List Char → Option (List Char)
  | [] => none
  | c :: cs =>
    let n := 10 * n + (c.toNat - '0'.toNat)
    if limit < n then some cs else beyond? limit n cs

namespace Literal

/-- The largest exponent that is computed with. -/
def exponentLimit : Nat := 2147483647

/-- The digits of the whole part, as many as fit. -/
def front (l : Literal) : Significand :=
  .behind 0 l.whole

/-- The floating-point number written. A number that is too large answers how many of its characters
need not be read to know it. -/
def floating (l : Literal) : Except Nat Float :=
  let all := Significand.behind l.front.value l.fraction
  let shift : Int := (l.whole.length : Int) - l.front.size - all.size
  let scaled (exponent : Int) : Except Nat Float :=
    match scale? all.value exponent with
    | some x => .ok (if l.negative then -x else x)
    | none => .error 0
  match l.exponent? with
  | none => scaled shift
  | some (negative, digits) =>
    match beyond? exponentLimit 0 digits with
    | some unread =>
      if all.value = 0 || negative then .ok (if l.negative then -0.0 else 0.0)
      else .error unread.length
    | none =>
      let exponent : Int := Text.decimal digits
      scaled (if negative then shift - exponent else shift + exponent)

/-- The number written, or what `floating` answers where it is too large. -/
def value (l : Literal) : Except Nat Number :=
  let n := l.front.value
  let isInteger := l.fraction.isEmpty && l.exponent?.isNone && l.front.size = l.whole.length
  if isInteger && !l.negative then .ok (.natural n)
  else if isInteger && 0 < n && n ≤ UInt64.size / 2 then .ok (.negative n)
  else l.floating.map .floating

end Literal

/-- Reads a number. -/
def Reader.number : Reader Number := do
  let l ← literal .endInValue
  match l.value with
  | .ok n => return n
  | .error unread =>
    let a := (← get).place
    throw ⟨.numberOutOfRange, ⟨a.line, a.column - unread⟩⟩

def Number.found : Number → Found
  | natural n => .integer n
  | negative n => .integer (-n)
  | floating x => .floating (Text.numeral x)

end Pegboard.Json
