import Pegboard.Text.Input
import Mathlib.Tactic.Common

/-!
# Cutting a text

A matcher stands at a byte offset and sees what is left of the text behind it. This module relates
the two: `Input.LeftAt` says what is left at an offset, `Cuts` which steps lead from one boundary
to another, and `dropBytes` what such a step leaves. `SameFor` compares two texts as far as a
matcher has looked at them.
-/

namespace Pegboard.Text

theorem byteSize_toList (s : String) : byteSize s.toList = s.utf8ByteSize := by
  have ofList : ∀ cs : List Char, byteSize cs = (String.ofList cs).utf8ByteSize := by
    intro cs
    induction cs with
    | nil => simp
    | cons c cs ih =>
        rw [byteSize_cons, ih, ← List.singleton_append, String.ofList_append,
          String.utf8ByteSize_append]
        simp
  rw [ofList, String.ofList_toList]

/-! ## Steps of some bytes -/

/-- What is left behind the first `n` bytes. -/
def dropBytes : List Char → Nat → List Char
  | cs, 0 => cs
  | [], _ + 1 => []
  | c :: cs, n + 1 => dropBytes cs (n + 1 - c.utf8Size)

/-- The first `n` bytes end at a boundary. -/
def Cuts (cs : List Char) (n : Nat) : Prop :=
  ∃ front back, cs = front ++ back ∧ byteSize front = n

@[simp] theorem dropBytes_zero (cs : List Char) : dropBytes cs 0 = cs := by
  cases cs <;> rfl

theorem dropBytes_cons (c : Char) (cs : List Char) (n : Nat) :
    dropBytes (c :: cs) (c.utf8Size + n) = dropBytes cs n := by
  obtain ⟨k, hk⟩ : ∃ k, c.utf8Size = k + 1 :=
    Nat.exists_eq_succ_of_ne_zero (Nat.pos_iff_ne_zero.mp c.utf8Size_pos)
  have hn : c.utf8Size + n = (k + n) + 1 := by omega
  rw [hn, dropBytes]
  congr 1
  omega

theorem dropBytes_append (front back : List Char) :
    dropBytes (front ++ back) (byteSize front) = back := by
  induction front with
  | nil => simp
  | cons c front ih => rw [List.cons_append, byteSize_cons, dropBytes_cons, ih]

theorem dropBytes_length_lt {cs : List Char} {n : Nat} (hcs : cs ≠ []) (hn : 0 < n) :
    (dropBytes cs n).length < cs.length := by
  have le : ∀ (cs : List Char) (n : Nat), (dropBytes cs n).length ≤ cs.length := by
    intro cs
    induction cs with
    | nil => intro n; cases n <;> simp [dropBytes]
    | cons c cs ih =>
        intro n
        cases n with
        | zero => simp
        | succ n => exact Nat.le_succ_of_le (ih _)
  cases cs with
  | nil => exact absurd rfl hcs
  | cons c cs =>
      cases n with
      | zero => exact absurd hn (by simp)
      | succ n => exact Nat.lt_succ_of_le (le cs _)

namespace Cuts

theorem zero (cs : List Char) : Cuts cs 0 :=
  ⟨[], cs, rfl, rfl⟩

theorem head (c : Char) (cs : List Char) : Cuts (c :: cs) c.utf8Size :=
  ⟨[c], cs, rfl, by simp⟩

/-- A cut splits the text into what it passes and what it leaves. -/
theorem split {cs : List Char} {n : Nat} (h : Cuts cs n) :
    ∃ front, cs = front ++ dropBytes cs n ∧ byteSize front = n := by
  obtain ⟨front, back, rfl, rfl⟩ := h
  exact ⟨front, by rw [dropBytes_append], rfl⟩

theorem byteSize_drop {cs : List Char} {n : Nat} (h : Cuts cs n) :
    n + byteSize (dropBytes cs n) = byteSize cs := by
  obtain ⟨front, back, rfl, rfl⟩ := h
  rw [dropBytes_append, byteSize_append]

theorem le {cs : List Char} {n : Nat} (h : Cuts cs n) : n ≤ byteSize cs := by
  have := h.byteSize_drop
  omega

/-- Two steps, one after the other, are one step. -/
theorem add {cs : List Char} {n k : Nat} (h : Cuts cs n) (hk : Cuts (dropBytes cs n) k) :
    Cuts cs (n + k) ∧ dropBytes cs (n + k) = dropBytes (dropBytes cs n) k := by
  obtain ⟨front, back, rfl, rfl⟩ := h
  rw [dropBytes_append] at hk
  obtain ⟨front', back', rfl, rfl⟩ := hk
  rw [dropBytes_append, dropBytes_append, ← byteSize_append, ← List.append_assoc]
  exact ⟨⟨_, _, rfl, rfl⟩, dropBytes_append _ _⟩

/-- A step that leaves the whole text is none. -/
theorem eq_zero_of_drop_eq {cs : List Char} {n : Nat} (h : Cuts cs n) (hd : dropBytes cs n = cs) :
    n = 0 := by
  have := h.byteSize_drop
  rw [hd] at this
  omega

theorem length_drop_lt {cs : List Char} {n : Nat} (h : Cuts cs n) (hn : 0 < n) :
    (dropBytes cs n).length < cs.length := by
  refine dropBytes_length_lt ?_ hn
  rintro rfl
  have := h.le
  simp at this
  omega

end Cuts

/-! ## What is left at an offset -/

theorem addRests_eq (table : Array (List Char)) (cs : List Char) :
    ∃ more, addRests table cs = table ++ more := by
  induction cs generalizing table with
  | nil => exact ⟨#[[]], by simp [addRests]⟩
  | cons c cs ih =>
      obtain ⟨more, h⟩ := ih (table.push (c :: cs) ++ Array.replicate (c.utf8Size - 1) [])
      refine ⟨#[c :: cs] ++ Array.replicate (c.utf8Size - 1) [] ++ more, ?_⟩
      rw [addRests, h, Array.push_eq_append, Array.append_assoc, Array.append_assoc,
        Array.append_assoc]

/-- The table of rests has a text's rest at the offset where it begins. -/
theorem getD_addRests (table : Array (List Char)) (front back : List Char) :
    (addRests table (front ++ back)).getD (table.size + byteSize front) [] = back := by
  induction front generalizing table with
  | nil =>
      cases back with
      | nil => simp [addRests]
      | cons c back =>
          obtain ⟨more, h⟩ :=
            addRests_eq (table.push (c :: back) ++ Array.replicate (c.utf8Size - 1) []) back
          rw [List.nil_append, addRests, h]
          simp [Array.getElem?_append, Array.getD_eq_getD_getElem?]
  | cons c front ih =>
      have hpos := c.utf8Size_pos
      rw [List.cons_append, addRests]
      have := ih (table.push (c :: (front ++ back)) ++ Array.replicate (c.utf8Size - 1) [])
      rw [byteSize_cons]
      -- the table grew by as many bytes as the character takes
      convert this using 2
      simp
      omega

namespace Input

/-- `cs` is what is left of the input at the offset `pos`. -/
def LeftAt (i : Input) (pos : Nat) (cs : List Char) : Prop :=
  ∃ front, i.text.toList = front ++ cs ∧ byteSize front = pos

theorem size_eq_byteSize (i : Input) : i.size = byteSize i.text.toList := by
  rw [i.size_eq, byteSize_toList]

namespace LeftAt

variable {i : Input} {pos : Nat} {cs : List Char}

theorem start (i : Input) : i.LeftAt 0 i.text.toList :=
  ⟨[], rfl, rfl⟩

theorem rest_eq (h : i.LeftAt pos cs) : i.rest pos = cs := by
  obtain ⟨front, htext, rfl⟩ := h
  have := getD_addRests #[] front cs
  rw [rest, i.rests_eq, restTable, htext]
  simpa using this

theorem size_eq (h : i.LeftAt pos cs) : i.size = pos + byteSize cs := by
  obtain ⟨front, htext, rfl⟩ := h
  rw [i.size_eq_byteSize, htext, byteSize_append]

theorem unique {cs' : List Char} (h : i.LeftAt pos cs) (h' : i.LeftAt pos cs') : cs = cs' := by
  rw [← h.rest_eq, ← h'.rest_eq]

theorem drop {n : Nat} (h : i.LeftAt pos cs) (hn : Cuts cs n) :
    i.LeftAt (pos + n) (dropBytes cs n) := by
  obtain ⟨front, htext, rfl⟩ := h
  obtain ⟨front', hcs, rfl⟩ := hn.split
  refine ⟨front ++ front', ?_, by rw [byteSize_append]⟩
  rw [htext, List.append_assoc, ← hcs]

end LeftAt

end Input

/-! ## Texts that agree for a while -/

/-- What two texts have in common, for a matcher that looked at the first `n` bytes of one of them:
these bytes, or else everything. -/
def SameFor (n : Nat) (cs cs' : List Char) : Prop :=
  cs = cs' ∨ ∃ front back back', cs = front ++ back ∧ cs' = front ++ back' ∧ n ≤ byteSize front

namespace SameFor

variable {n : Nat} {cs cs' : List Char}

theorem refl (n : Nat) (cs : List Char) : SameFor n cs cs :=
  .inl rfl

/-- A step inside what two texts have in common is a step in both. -/
theorem drop {k : Nat} (h : SameFor n cs cs') (hk : Cuts cs k) (hkn : k ≤ n) :
    Cuts cs' k ∧ SameFor (n - k) (dropBytes cs k) (dropBytes cs' k) := by
  rcases h with rfl | ⟨front, back, back', rfl, rfl, hn⟩
  · exact ⟨hk, .refl _ _⟩
  · obtain ⟨passed, left, hcs, rfl⟩ := hk
    -- the step does not leave the common front
    obtain ⟨front', rfl⟩ : ∃ front', front = passed ++ front' := by
      rcases List.append_eq_append_iff.mp hcs with ⟨mid, rfl, -⟩ | ⟨mid, rfl, -⟩
      · have hmid : byteSize mid = 0 := by
          rw [byteSize_append] at hkn
          omega
        rw [byteSize_eq_zero_iff.mp hmid]
        exact ⟨[], by simp⟩
      · exact ⟨mid, rfl⟩
    rw [List.append_assoc, List.append_assoc, dropBytes_append, dropBytes_append]
    refine ⟨⟨passed, _, rfl, rfl⟩, .inr ⟨front', back, back', rfl, rfl, ?_⟩⟩
    rw [byteSize_append] at hn
    omega

theorem eq_nil (h : SameFor n [] cs') (hn : 0 < n) : cs' = [] := by
  rcases h with rfl | ⟨front, back, back', hcs, -, hle⟩
  · rfl
  · rw [(List.append_eq_nil_iff.mp hcs.symm).1] at hle
    simp at hle
    omega

theorem eq_cons {c : Char} (h : SameFor n (c :: cs) cs') (hn : 0 < n) :
    ∃ cs'', cs' = c :: cs'' := by
  rcases h with rfl | ⟨front, back, back', hcs, rfl, hle⟩
  · exact ⟨cs, rfl⟩
  · cases front with
    | nil =>
        simp at hle
        omega
    | cons d front =>
        rw [List.cons_append] at hcs ⊢
        obtain ⟨rfl, -⟩ := List.cons.inj hcs
        exact ⟨_, rfl⟩

/-- Texts that agree past their end are the same. -/
theorem eq_of_byteSize_lt (h : SameFor n cs cs') (hn : byteSize cs < n) : cs' = cs := by
  rcases h with rfl | ⟨front, back, back', rfl, rfl, hle⟩
  · rfl
  · rw [byteSize_append] at hn
    omega

theorem isPrefixOf_eq {s : List Char} (h : SameFor n cs cs') (hs : byteSize s ≤ n) :
    s.isPrefixOf cs' = s.isPrefixOf cs := by
  rcases h with rfl | ⟨front, back, back', rfl, rfl, hle⟩
  · rfl
  · -- `s` is too short to reach behind the common front
    have inFront : ∀ back, s <+: front ++ back ↔ s <+: front := by
      intro back
      constructor
      · intro hp
        rcases List.prefix_or_prefix_of_prefix hp (List.prefix_append front back) with h | ⟨mid, rfl⟩
        · exact h
        · have hmid : byteSize mid = 0 := by
            rw [byteSize_append] at hs
            omega
          rw [byteSize_eq_zero_iff.mp hmid]
          simp
      · intro hp
        exact hp.trans (List.prefix_append front back)
    rw [Bool.eq_iff_iff, List.isPrefixOf_iff_prefix, List.isPrefixOf_iff_prefix, inFront, inFront]

theorem byteSize_lt_iff {k : Nat} (h : SameFor n cs cs') (hk : k ≤ n) :
    byteSize cs' < k ↔ byteSize cs < k := by
  rcases h with rfl | ⟨front, back, back', rfl, rfl, hle⟩
  · rfl
  · rw [byteSize_append, byteSize_append]
    omega

end SameFor

end Pegboard.Text
