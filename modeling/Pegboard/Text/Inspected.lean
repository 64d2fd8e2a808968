import Pegboard.Text.GraphemeExtend
import Pegboard.Text.Printable
import Pegboard.Text.Quoted

/-!
# Inspected text

A text for a reader to inspect stands between double quotes, and every character in it shows: what
does not print, or would join the character before it, is written as its code point.
-/

namespace Pegboard.Text

def inspectChar (c : Char) : List Char :=
  match c with
  | '\x00' => ['\\', '0']
  | '\t' => ['\\', 't']
  | '\n' => ['\\', 'n']
  | '\r' => ['\\', 'r']
  | '"' => ['\\', '"']
  | '\\' => ['\\', '\\']
  | c =>
    if isGraphemeExtend c || !isPrintable c then ['\\', 'u', '\x7b'] ++ hexDigits c.toNat ++ ['\x7d']
    else [c]

def inspect (s : String) : String :=
  String.ofList ('"' :: (s.toList.flatMap inspectChar ++ ['"']))

end Pegboard.Text
