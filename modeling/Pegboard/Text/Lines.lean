import Pegboard.Text.Bytes

/-!
# Lines and columns

Lines end at a line feed, and columns count characters. `excerpt` shows a place of a text with the
line before and the line after it, and a caret under its character.
-/

namespace Pegboard.Text

/-- Puts a character before the first line. -/
def consLine (c : Char) : List (List Char) → List (List Char)
  | [] => [[c]]
  | l :: ls => (c :: l) :: ls

/-- The lines of a text without their line feeds. There is always one line. -/
def lines (cs : List Char) : List (List Char) :=
  cs.foldr (fun c ls => if c = '\n' then [] :: ls else consLine c ls) [[]]

/-- The part of the text after its last line feed. -/
def lastLine (cs : List Char) : List Char :=
  (cs.reverse.takeWhile (· ≠ '\n')).reverse

/-- A line and a column, both counted from one. -/
structure Place where
  line : Nat
  column : Nat
  deriving DecidableEq, Repr

/-- The text before an offset. An offset past the end counts as the end; the whole text counts as
lying before an offset inside a character. -/
def before (cs : List Char) (offset : Nat) : List Char :=
  match splitAt? cs (min offset (byteSize cs)) with
  | some (b, _) => b
  | none => cs

def placeOf (cs : List Char) (offset : Nat) : Place :=
  let b := before cs offset
  { line := b.count '\n' + 1, column := (lastLine b).length + 1 }

/-- The line and column of a byte offset. -/
def place (s : String) (offset : Nat) : Place :=
  placeOf s.toList offset

/-! ### Excerpts -/

def padLeft (width : Nat) (s : String) : String :=
  String.ofList (List.replicate (width - s.length) ' ') ++ s

/-- A line of an excerpt: a marker, the line's number, and its text. -/
def numbered (marker : String) (width number : Nat) (text : List Char) : String :=
  marker ++ padLeft width (toString number) ++ " | " ++ String.ofList text ++ "\n"

/-- The lines around an offset with a caret under the character there. -/
def excerpt (s : String) (offset : Nat) : String :=
  let cs := s.toList
  let p := placeOf cs offset
  let ls := lines cs
  let next := ls[p.line]?
  let width := (toString (if next.isSome then p.line + 1 else p.line)).length
  let around (number : Nat) (text : Option (List Char)) : String :=
    match text with
    | some l => numbered "  " width number l
    | none => ""
  let previous := if p.line < 2 then none else ls[p.line - 2]?
  around (p.line - 1) previous
    ++ numbered "> " width p.line (ls[p.line - 1]?.getD [])
    ++ String.ofList (List.replicate (2 + width + 3 + (p.column - 1)) ' ') ++ "^\n"
    ++ around (p.line + 1) next

end Pegboard.Text
