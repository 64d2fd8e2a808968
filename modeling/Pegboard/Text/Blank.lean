import Pegboard.Text.CharRuns

/-!
# White space

The characters with the Unicode property `White_Space`, and texts without them at either end.
-/

namespace Pegboard.Text

/-- The characters with the property `White_Space`, in order. -/
def whiteSpaceRuns : List CharRun :=
  [⟨0x09, 0x0D, 1⟩, ⟨0x20, 0x20, 1⟩, ⟨0x85, 0x85, 1⟩, ⟨0xA0, 0xA0, 1⟩, ⟨0x1680, 0x1680, 1⟩,
   ⟨0x2000, 0x200A, 1⟩, ⟨0x2028, 0x2029, 1⟩, ⟨0x202F, 0x202F, 1⟩, ⟨0x205F, 0x205F, 1⟩,
   ⟨0x3000, 0x3000, 1⟩]

def isWhiteSpace (c : Char) : Bool :=
  CharRun.contains whiteSpaceRuns c.toNat

/-- The characters without the white space at the beginning and at the end. -/
def trimChars (cs : List Char) : List Char :=
  ((cs.dropWhile isWhiteSpace).reverse.dropWhile isWhiteSpace).reverse

def trim (s : String) : String :=
  String.ofList (trimChars s.toList)

end Pegboard.Text
