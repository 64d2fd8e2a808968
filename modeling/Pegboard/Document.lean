import Pegboard.Text.Edit
import Pegboard.Text.Lines

/-!
# Documents

A document is a text with a version that grows with each change of the text. Editors give a place
as a line and a character in it, both counted from zero; a place past the end of its line means the
end of the line, and a line past the last one the end of the text.
-/

namespace Pegboard

structure Position where
  line : Nat
  ch : Nat
  deriving DecidableEq, Repr

/-- An editor's change: the lines that take the place of what was between two positions. -/
structure Change where
  start : Position
  stop : Position
  lines : List String
  deriving DecidableEq, Repr

namespace Change

/-- The change that puts a text in place of what was between two positions. -/
def ofText (start stop : Position) (text : String) : Change where
  start := start
  stop := stop
  lines := (Text.lines text.toList).map String.ofList

/-- The change that puts a text at a position. -/
def insertion (pos : Position) (text : String) : Change :=
  ofText pos pos text

def text (c : Change) : String :=
  "\n".intercalate c.lines

end Change

structure Document where
  text : String
  version : Nat
  deriving DecidableEq, Repr

namespace Document

def ofText (text : String) : Document :=
  ⟨text, 0⟩

def size (d : Document) : Nat :=
  d.text.utf8ByteSize

def lineCount (d : Document) : Nat :=
  (Text.lines d.text.toList).length

/-- The offset of a character in a line, from the beginning of the lines. -/
def offsetIn : List (List Char) → (line ch : Nat) → Nat
  | [], _, _ => 0
  | l :: _, 0, ch => Text.byteSize (l.take ch)
  | [l], _ + 1, _ => Text.byteSize l
  | l :: ls, line + 1, ch => Text.byteSize l + 1 + offsetIn ls line ch

/-- The byte offset of a position. -/
def offsetOf (d : Document) (p : Position) : Nat :=
  offsetIn (Text.lines d.text.toList) p.line p.ch

/-- The position of a byte offset. An offset inside a character means its beginning, and one past the
end the end. -/
def positionOf (d : Document) (offset : Nat) : Position :=
  let front := Text.takeBytes d.text.toList offset
  ⟨front.count '\n', (Text.lastLine front).length⟩

/-- The edit that a change makes to the text as it is. -/
def resolve (d : Document) (c : Change) : Except Text.EditError Text.Edit := do
  let (start, stop) := (d.offsetOf c.start, d.offsetOf c.stop)
  Text.checkRange d.text start stop
  return ⟨start, stop, c.text⟩

/-- Replaces the bytes from `start` to `stop`. -/
def replaceRange (d : Document) (start stop : Nat) (text : String) :
    Except Text.EditError Document := do
  return ⟨← Text.replaceRange d.text start stop text, d.version + 1⟩

/-- Makes a change, and tells the edit that it came to. -/
def apply (d : Document) (c : Change) : Except Text.EditError (Text.Edit × Document) := do
  let e ← d.resolve c
  return (e, ← d.replaceRange e.start e.stop e.text)

/-- Takes another text. The version stays if the text is the same. -/
def setText (d : Document) (text : String) : Document :=
  if d.text = text then d else ⟨text, d.version + 1⟩

end Document

end Pegboard
