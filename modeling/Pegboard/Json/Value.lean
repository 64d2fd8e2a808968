import Pegboard.Descent
import Pegboard.Text.Quoted

/-!
# JSON values

Values of JSON as the program reads and writes them. Objects keep the order of their fields. Written
on one line a value has no blanks; written over several lines each level is indented by two more.
-/

namespace Pegboard

inductive Json
  | null
  | bool (b : Bool)
  | nat (n : Nat)
  /-- A number that is no natural number, or one too large, as it may be written. -/
  | otherNumber (literal : String)
  | str (s : String)
  | arr (items : List Json)
  | obj (fields : List (String × Json))
  deriving Inhabited, Repr

namespace Json

/-- The text of a value without parts. -/
def atom : Json → String
  | null => "null"
  | bool b => if b then "true" else "false"
  | nat n => toString n
  | otherNumber literal => literal
  | str s => Text.quote s
  | arr _ => "[]"
  | obj _ => "\x7b\x7d"

/-- Goes to a new line, with the indentation of a level. -/
def newLine (out : String) (level : Nat) : String :=
  (out.push '\n').pushn ' ' (2 * level)

mutual

/-- Writes a value over several lines, behind the text before it. -/
def prettyOnto (level : Nat) (out : String) : Json → String
  | arr (v :: vs) =>
    descend level fun _ =>
      newLine (prettyItems (level + 1) (prettyOnto (level + 1) (newLine (out.push '[') (level + 1)) v)
        vs) level ++ "]"
  | obj ((k, v) :: fs) =>
    descend level fun _ =>
      newLine (prettyFields (level + 1)
        (prettyOnto (level + 1)
          (newLine (out.push '\x7b') (level + 1) ++ Text.quote k ++ ": ") v) fs) level ++ "\x7d"
  | v => out ++ v.atom

def prettyItems (level : Nat) (out : String) : List Json → String
  | [] => out
  | v :: vs => prettyItems level (prettyOnto level (newLine (out.push ',') level) v) vs

def prettyFields (level : Nat) (out : String) : List (String × Json) → String
  | [] => out
  | (k, v) :: fs =>
    prettyFields level
      (prettyOnto level (newLine (out.push ',') level ++ Text.quote k ++ ": ") v) fs

end

/-- The value over several lines. -/
def pretty (v : Json) : String :=
  prettyOnto 0 "" v

end Json

end Pegboard
