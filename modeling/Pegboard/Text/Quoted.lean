/-!
# Quoted text

A text stands between double quotes with a backslash before what would end it or break the line.
`quote` escapes the quote, the backslash and the control characters below the space. `unquote`
reads those escapes and a few more: any escaped character without a meaning of its own stands for
itself, and `\xhh` gives a code point by two digits.
-/

namespace Pegboard.Text

/-! ### Hexadecimal digits -/

/-- The digit of a value below 16, in lower case. -/
def hexDigit (n : Nat) : Char :=
  if n < 10 then Char.ofNat ('0'.toNat + n) else Char.ofNat ('a'.toNat + (n - 10))

/-- The digits of a number, in lower case, the first one not zero unless the number is. -/
def hexDigits (n : Nat) : List Char :=
  Nat.toDigits 16 n

def hexValue? (c : Char) : Option Nat :=
  if '0' ≤ c ∧ c ≤ '9' then some (c.toNat - '0'.toNat)
  else if 'a' ≤ c ∧ c ≤ 'f' then some (c.toNat - 'a'.toNat + 10)
  else if 'A' ≤ c ∧ c ≤ 'F' then some (c.toNat - 'A'.toNat + 10)
  else none

/-- The number that the digits write; there has to be one. -/
def hexNumber? : List Char → Option Nat
  | [] => none
  | ds => ds.foldlM (fun n d => (hexValue? d).map (16 * n + ·)) 0

theorem hexValue?_hexDigit : ∀ n < 16, hexValue? (hexDigit n) = some n := by
  decide

theorem hexNumber?_hexDigit {n : Nat} (h : n < 0x100) :
    hexNumber? ['0', '0', hexDigit (n / 16), hexDigit (n % 16)] = some n := by
  have hzero : hexValue? '0' = some 0 := by decide
  have hhigh := hexValue?_hexDigit (n / 16) (by omega)
  have hlow := hexValue?_hexDigit (n % 16) (by omega)
  simp [hexNumber?, hzero, hhigh, hlow, Nat.div_add_mod n 16]

/-- The character of a code point, if it is a scalar value. -/
def scalar? (n : Nat) : Option Char :=
  if n.isValidChar then some (Char.ofNat n) else none

/-! ### Writing -/

def quoteChar (c : Char) : List Char :=
  match c with
  | '"' => ['\\', '"']
  | '\\' => ['\\', '\\']
  | '\x08' => ['\\', 'b']
  | '\t' => ['\\', 't']
  | '\n' => ['\\', 'n']
  | '\x0c' => ['\\', 'f']
  | '\r' => ['\\', 'r']
  | c =>
    if c.toNat < 0x20 then
      ['\\', 'u', '0', '0', hexDigit (c.toNat / 16), hexDigit (c.toNat % 16)]
    else [c]

def quoteChars (cs : List Char) : List Char :=
  '"' :: (cs.flatMap quoteChar ++ ['"'])

/-- The text between quotes, on one line. -/
def quote (s : String) : String :=
  String.ofList (quoteChars s.toList)

/-! ### Reading -/

/-- The character that digits denote, nothing if they denote none. -/
def codePoint (digits : List Char) : List Char :=
  ((hexNumber? digits).bind scalar?).toList

/-- What a character stands for after a backslash. -/
def escaped (c : Char) : Char :=
  match c with
  | 'n' => '\n'
  | 'r' => '\r'
  | 't' => '\t'
  | 'b' => '\x08'
  | c => c

/-- The characters that the inside of a literal denotes. -/
def unescape : List Char → List Char
  | [] => []
  | '\\' :: 'u' :: a :: b :: c :: d :: rest => codePoint [a, b, c, d] ++ unescape rest
  | '\\' :: 'x' :: a :: b :: rest => codePoint [a, b] ++ unescape rest
  | '\\' :: 'u' :: rest => codePoint rest
  | '\\' :: 'x' :: rest => codePoint rest
  | '\\' :: c :: rest => escaped c :: unescape rest
  | ['\\'] => []
  | c :: rest => c :: unescape rest

/-- The inside of a literal, the literal itself if it does not stand between two quotes. -/
def inside (cs : List Char) : List Char :=
  match cs with
  | '"' :: rest => if rest.getLast? = some '"' then rest.dropLast else cs
  | _ => cs

/-- The text that a literal denotes. -/
def unquote (literal : String) : String :=
  String.ofList (unescape (inside literal.toList))

end Pegboard.Text
