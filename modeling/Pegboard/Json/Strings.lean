import Pegboard.Json.Source
import Pegboard.Text.Quoted

/-!
# Strings in JSON

Strings are read in two ways. A string that is kept has to write characters: two escapes for the
halves of one character stand side by side. In one that only has to be well-formed a half without
the other one reads as U+FFFD.
-/

namespace Pegboard.Json

/-- What a character after a backslash denotes. -/
def simpleEscape? : Char → Option Char
  | '"' => some '"'
  | '\\' => some '\\'
  | '/' => some '/'
  | 'b' => some '\x08'
  | 'f' => some '\x0c'
  | 'n' => some '\n'
  | 'r' => some '\r'
  | 't' => some '\t'
  | _ => none

/-! ### Halves of characters -/

def isFirstHalf (unit : Nat) : Bool :=
  0xD800 ≤ unit && unit ≤ 0xDBFF

def isSecondHalf (unit : Nat) : Bool :=
  0xDC00 ≤ unit && unit ≤ 0xDFFF

/-- The character that two halves make. -/
def joinHalves (first second : Nat) : Char :=
  Char.ofNat (0x10000 + (first - 0xD800) * 0x400 + (second - 0xDC00))

/-- Puts what a half stands for alone behind characters, of which the last one comes first. -/
def endHalf (half? : Option Nat) (out : List Char) : List Char :=
  if half?.isSome then '\ufffd' :: out else out

/-- Puts a code unit behind characters, after the first half of one if there is any. A first half is
not put there yet. -/
def takeUnit (half? : Option Nat) (out : List Char) (unit : Nat) : List Char × Option Nat :=
  if isSecondHalf unit then
    match half? with
    | some first => (joinHalves first unit :: out, none)
    | none => ('\ufffd' :: out, none)
  else if isFirstHalf unit then (endHalf half? out, some unit)
  else (Char.ofNat unit :: endHalf half? out, none)

/-! ### Reading -/

/-- The fault of an escape with fewer than four characters behind its `u`. -/
def unitFault (a : At) (rest : List Char) : ReadError :=
  match a.onBy? 4 rest with
  | some b => ⟨.invalidEscape, b⟩
  | none => ⟨.endInString, rest.foldl At.next a⟩

/-- Reads a string from a place behind its opening quote on. The characters before the place come
with the last one first, and perhaps with the first half of another one. -/
def stringFrom (kept : Bool) (half? : Option Nat) (out : List Char) (a : At) :
    List Char → Except ReadError (String × Source)
  | [] => .error ⟨.endInString, a⟩
  | ['\\'] => .error ⟨.endInString, a.next '\\'⟩
  | '\\' :: 'u' :: x :: y :: z :: w :: rest =>
    let a := (a.next '\\').next 'u'
    match Text.hexNumber? [x, y, z, w] with
    | none => .error (unitFault a [x, y, z, w])
    | some unit =>
      let a := [x, y, z, w].foldl At.next a
      if kept && half?.isSome != isSecondHalf unit then .error ⟨.loneHalf, a⟩
      else
        let (out, half?) := takeUnit half? out unit
        stringFrom kept half? out a rest
  | '\\' :: 'u' :: rest => .error (unitFault ((a.next '\\').next 'u') rest)
  | '\\' :: c :: rest =>
    let a := a.next '\\'
    if kept && half?.isSome then .error ⟨.missingHalf, a.into c⟩
    else
      match simpleEscape? c with
      | some d => stringFrom kept none (d :: endHalf half? out) (a.next c) rest
      | none => .error ⟨.invalidEscape, a.into c⟩
  | c :: rest =>
    if kept && half?.isSome then .error ⟨.missingHalf, a.into c⟩
    else if c = '"' then .ok (String.ofList (endHalf half? out).reverse, ⟨rest, a.next c⟩)
    else if c.toNat < 0x20 then .error ⟨.controlCharacter, if kept then a.into c else a⟩
    else stringFrom kept none (c :: endHalf half? out) (a.next c) rest

namespace Reader

/-- Reads a string whose opening quote is next. -/
def string (kept : Bool) : Reader String := do
  skip
  fun s => stringFrom kept none [] s.place s.rest

end Reader

end Pegboard.Json
