import Pegboard.Text.Inspected

/-!
# Faults in JSON

What can be wrong with a text that is to write a value, and the place in the text where it shows.
-/

namespace Pegboard.Json

/-- A place in a text: its line, from one on, and the bytes of that line before it. -/
structure At where
  line : Nat
  column : Nat
  deriving DecidableEq, Repr

/-- What a text has where a value of another type is wanted. -/
inductive Found
  | null
  | bool (b : Bool)
  | integer (n : Int)
  /-- A number that counts as no integer. -/
  | floating (numeral : String)
  | text (s : String)
  | list
  | object
  deriving DecidableEq, Repr

inductive Fault
  | endInList
  | endInObject
  | endInString
  | endInValue
  | expectedColon
  | expectedListEnd
  | expectedObjectEnd
  | expectedValue
  | expectedWord
  | invalidEscape
  | invalidNumber
  | numberOutOfRange
  | controlCharacter
  | keyIsNoString
  /-- A second half of a character without the first one, or a first half with another one. -/
  | loneHalf
  /-- A first half of a character before something that is no half. -/
  | missingHalf
  | trailingComma
  | trailingCharacters
  | wrongType (found : Found) (wanted : String)
  | wrongInteger (n : Int) (wanted : String)
  | repeatedField (name : String)
  deriving DecidableEq, Repr

/-- A fault and its place. -/
structure ReadError where
  fault : Fault
  place : At
  deriving DecidableEq, Repr

def Found.message : Found → String
  | null => "null"
  | bool b => "boolean \x60" ++ (if b then "true" else "false") ++ "\x60"
  | integer n => "integer \x60" ++ toString n ++ "\x60"
  | floating numeral => "floating point \x60" ++ numeral ++ "\x60"
  | text s => "string " ++ Text.inspect s
  | list => "sequence"
  | object => "map"

def Fault.message : Fault → String
  | endInList => "EOF while parsing a list"
  | endInObject => "EOF while parsing an object"
  | endInString => "EOF while parsing a string"
  | endInValue => "EOF while parsing a value"
  | expectedColon => "expected \x60:\x60"
  | expectedListEnd => "expected \x60,\x60 or \x60]\x60"
  | expectedObjectEnd => "expected \x60,\x60 or \x60\x7d\x60"
  | expectedValue => "expected value"
  | expectedWord => "expected ident"
  | invalidEscape => "invalid escape"
  | invalidNumber => "invalid number"
  | numberOutOfRange => "number out of range"
  | controlCharacter => "control character (\\u0000-\\u001F) found while parsing a string"
  | keyIsNoString => "key must be a string"
  | loneHalf => "lone leading surrogate in hex escape"
  | missingHalf => "unexpected end of hex escape"
  | trailingComma => "trailing comma"
  | trailingCharacters => "trailing characters"
  | wrongType found wanted => "invalid type: " ++ found.message ++ ", expected " ++ wanted
  | wrongInteger n wanted =>
    "invalid value: " ++ (Found.integer n).message ++ ", expected " ++ wanted
  | repeatedField name => "duplicate field \x60" ++ name ++ "\x60"

def ReadError.message (e : ReadError) : String :=
  e.fault.message ++ " at line " ++ toString e.place.line ++ " column " ++ toString e.place.column

end Pegboard.Json
