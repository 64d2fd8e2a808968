/-!
# Byte offsets

A place in a text is the number of UTF-8 bytes before it. Only the places between two characters,
the *boundaries*, cut a text in two: `splitAt?` is defined exactly there.
-/

namespace Pegboard.Text

/-- The bytes that the characters take. -/
def byteSize (cs : List Char) : Nat :=
  cs.foldl (fun n c => n + c.utf8Size) 0

/-- `splitAt?` with the characters already passed, the last one first. -/
def splitFrom? (passed : List Char) : List Char → Nat → Option (List Char × List Char)
  | rest, 0 => some (passed.reverse, rest)
  | [], _ + 1 => none
  | c :: rest, n + 1 =>
    if c.utf8Size ≤ n + 1 then splitFrom? (c :: passed) rest (n + 1 - c.utf8Size) else none

/-- The characters before and after a byte offset, if the offset is a boundary. -/
def splitAt? (cs : List Char) (offset : Nat) : Option (List Char × List Char) :=
  splitFrom? [] cs offset

def isBoundary (s : String) (offset : Nat) : Bool :=
  (splitAt? s.toList offset).isSome

/-- The characters of the bytes from `start` to `stop`, if both are boundaries in this order. -/
def slice? (cs : List Char) (start stop : Nat) : Option (List Char) := do
  guard (start ≤ stop)
  let (_, rest) ← splitAt? cs start
  let (middle, _) ← splitAt? rest (stop - start)
  return middle

/-- The text of the bytes from `start` to `stop`, empty if they cut no text out of `s`. -/
def slice (s : String) (start stop : Nat) : String :=
  String.ofList ((slice? s.toList start stop).getD [])

/-- `takeBytes` behind the characters already taken, the last one first. -/
def takeBytesOnto (taken : List Char) : List Char → Nat → List Char
  | [], _ => taken.reverse
  | c :: cs, n =>
    if c.utf8Size ≤ n then takeBytesOnto (c :: taken) cs (n - c.utf8Size) else taken.reverse

/-- The longest beginning of the text that fits into `n` bytes. -/
def takeBytes (cs : List Char) (n : Nat) : List Char :=
  takeBytesOnto [] cs n

/-! ### The view: offsets are sums of sizes -/

@[simp] theorem byteSize_nil : byteSize [] = 0 := rfl

theorem foldl_utf8Size (cs : List Char) (n : Nat) :
    cs.foldl (fun n c => n + c.utf8Size) n = n + cs.foldl (fun n c => n + c.utf8Size) 0 := by
  induction cs generalizing n with
  | nil => rfl
  | cons c cs ih => rw [List.foldl_cons, List.foldl_cons, ih, ih (0 + c.utf8Size)]; omega

@[simp] theorem byteSize_cons (c : Char) (cs : List Char) :
    byteSize (c :: cs) = c.utf8Size + byteSize cs := by
  rw [byteSize, List.foldl_cons, foldl_utf8Size, Nat.zero_add, byteSize]

@[simp] theorem byteSize_append (as bs : List Char) :
    byteSize (as ++ bs) = byteSize as + byteSize bs := by
  induction as with
  | nil => simp
  | cons c cs ih => simp [ih, Nat.add_assoc]

theorem byteSize_eq_zero_iff {cs : List Char} : byteSize cs = 0 ↔ cs = [] := by
  cases cs with
  | nil => simp
  | cons c cs => have := c.utf8Size_pos; simp; omega

theorem splitFrom?_eq_some_iff {passed cs b rest : List Char} {n : Nat} :
    splitFrom? passed cs n = some (b, rest) ↔
      ∃ middle, b = passed.reverse ++ middle ∧ cs = middle ++ rest ∧ byteSize middle = n := by
  fun_induction splitFrom? passed cs n with
  | case1 passed cs =>
    constructor
    · rintro h
      cases h
      exact ⟨[], by simp⟩
    · rintro ⟨middle, rfl, rfl, h⟩
      simp [byteSize_eq_zero_iff.1 h]
  | case2 passed n =>
    constructor
    · intro h; cases h
    · rintro ⟨middle, -, h, hn⟩
      simp [(List.append_eq_nil_iff.1 h.symm).1] at hn
  | case3 passed c cs n h ih =>
    rw [ih]
    constructor
    · rintro ⟨middle, hb, hcs, hn⟩
      exact ⟨c :: middle, by simp [hb], by simp [hcs], by rw [byteSize_cons]; omega⟩
    · rintro ⟨_ | ⟨d, middle⟩, hb, hcs, hn⟩
      · simp at hn
      · obtain ⟨rfl, h'⟩ := List.cons.inj hcs
        exact ⟨middle, by simp [hb], h', by rw [byteSize_cons] at hn; omega⟩
  | case4 passed c cs n h =>
    constructor
    · intro h; cases h
    · rintro ⟨_ | ⟨d, middle⟩, -, hcs, hn⟩
      · simp at hn
      · obtain ⟨rfl, -⟩ := List.cons.inj hcs
        rw [byteSize_cons] at hn
        omega

/-- A text is cut in two at the size of its first part. -/
theorem splitAt?_eq_some_iff {cs b rest : List Char} {n : Nat} :
    splitAt? cs n = some (b, rest) ↔ cs = b ++ rest ∧ byteSize b = n := by
  simp [splitAt?, splitFrom?_eq_some_iff]

end Pegboard.Text
