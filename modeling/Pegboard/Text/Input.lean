import Pegboard.Text.Bytes

/-!
# Texts to be read

A matcher reads a text at byte offsets it has reached before, in any order. `Input` lays the text
out for that: what is left of it is at hand for each offset.
-/

namespace Pegboard.Text

/-- Adds to the table what is left at each byte of the characters: the rest of the text where a
character begins, nothing inside a character and at the end. -/
def addRests (table : Array (List Char)) : List Char → Array (List Char)
  | [] => table.push []
  | c :: cs => addRests (table.push (c :: cs) ++ Array.replicate (c.utf8Size - 1) []) cs

def restTable (s : String) : Array (List Char) :=
  addRests #[] s.toList

/-- A text together with its size in bytes and what is left of it at each byte offset. -/
structure Input where
  text : String
  size : Nat
  rests : Array (List Char)
  size_eq : size = text.utf8ByteSize
  rests_eq : rests = restTable text

namespace Input

def ofString (text : String) : Input where
  text := text
  size := text.utf8ByteSize
  rests := restTable text
  size_eq := rfl
  rests_eq := rfl

instance : Inhabited Input := ⟨ofString ""⟩

/-- The characters from a byte offset on. -/
def rest (i : Input) (offset : Nat) : List Char :=
  i.rests.getD offset []

/-- The text of the bytes from `start` to `stop`. -/
def slice (i : Input) (start stop : Nat) : String :=
  String.ofList (takeBytes (i.rest start) (stop - start))

@[simp] theorem text_ofString (s : String) : (ofString s).text = s := rfl

/-- An input is determined by its text. -/
theorem ofString_text (i : Input) : ofString i.text = i := by
  obtain ⟨text, size, rests, rfl, rfl⟩ := i
  rfl

@[ext] theorem ext {i j : Input} (h : i.text = j.text) : i = j := by
  rw [← ofString_text i, ← ofString_text j, h]

end Input

end Pegboard.Text
