import Mathlib.Tactic.Common
import Pegboard.Proofs.Text.Cut

/-!
# Texts that are alike byte by byte

A matcher may have looked at a part of a character only: a literal of one byte is compared with the
first byte of what stands there. What it knows of a text is therefore a number of bytes, which need
not end at a boundary. Texts with the same bytes so far have the same characters in front, up to the
one that is cut through.

Main statements: `Alike.isPrefixOf_eq`, `Alike.min_eq`.
-/

namespace Pegboard.Text

/-- The bytes of the characters. -/
def encode (cs : List Char) : List UInt8 :=
  cs.flatMap String.utf8EncodeChar

@[simp] theorem encode_append (cs ds : List Char) : encode (cs ++ ds) = encode cs ++ encode ds :=
  List.flatMap_append

@[simp] theorem length_encode (cs : List Char) : (encode cs).length = byteSize cs := by
  induction cs with
  | nil => rfl
  | cons c cs ih =>
      rw [byteSize_cons, ← ih, ← String.length_utf8EncodeChar, ← List.length_append]
      rfl

theorem encode_toList (s : String) : encode s.toList = s.toUTF8.data.toList := by
  conv_rhs => rw [← String.ofList_toList (s := s)]
  rw [String.toUTF8_eq_toByteArray, String.toByteArray_ofList, List.utf8Encode,
    List.toList_data_toByteArray]
  rfl

/-- Characters come first where their bytes do. -/
theorem encode_prefix_iff {cs ds : List Char} : encode cs <+: encode ds ↔ cs <+: ds := by
  constructor
  · rintro ⟨rest, h⟩
    refine List.isPrefix_of_utf8Encode_append_eq_utf8Encode rest.toByteArray ?_
    rw [List.utf8Encode, List.utf8Encode, ← List.toByteArray_append]
    exact congrArg _ h
  · rintro ⟨rest, rfl⟩
    exact ⟨encode rest, (encode_append cs rest).symm⟩

/-- The texts have the same bytes for a while, where the end counts as one more. -/
def Alike (n : Nat) (cs cs' : List Char) : Prop :=
  ∀ k < n, (encode cs)[k]? = (encode cs')[k]?

namespace Alike

variable {n k : Nat} {cs cs' ds : List Char}

theorem symm (h : Alike n cs cs') : Alike n cs' cs :=
  fun k hk => (h k hk).symm

/-- The one text ends before the place exactly if the other one does. -/
theorem byteSize_lt_iff (h : Alike n cs cs') (hk : k ≤ n) : byteSize cs < k ↔ byteSize cs' < k := by
  cases k with
  | zero => simp
  | succ k =>
      have hends := h k hk
      have hiff : (encode cs)[k]? = none ↔ (encode cs')[k]? = none := by rw [hends]
      simpa [List.getElem?_eq_none_iff, Nat.lt_succ_iff] using hiff

/-- If the one text begins with the characters, so does the other one. -/
theorem prefix_of (h : Alike n cs cs') (hds : byteSize ds ≤ n) (hcs : ds <+: cs) : ds <+: cs' := by
  rw [← encode_prefix_iff, List.prefix_iff_getElem?] at hcs ⊢
  intro k hk
  rw [← h k (Nat.lt_of_lt_of_le hk (by rwa [length_encode]))]
  exact hcs k hk

theorem eq_nil (h : Alike n [] cs') (hn : 0 < n) : cs' = [] := by
  have hlt := (h.byteSize_lt_iff hn).mp Nat.zero_lt_one
  exact byteSize_eq_zero_iff.mp (by omega)

/-- Where a whole character was looked at, the other text begins with it as well. -/
theorem eq_cons {c : Char} (h : Alike n (c :: cs) cs') (hn : c.utf8Size ≤ n) :
    ∃ rest, cs' = c :: rest := by
  have hprefix : [c] <+: cs' := h.prefix_of (by simpa using hn) ⟨cs, rfl⟩
  obtain ⟨rest, hrest⟩ := hprefix
  exact ⟨rest, hrest.symm⟩

/-- To look for a literal of `k` bytes is to look as far in the other text. -/
theorem min_eq (h : Alike n cs cs') (hn : min (byteSize cs + 1) k ≤ n) :
    min (byteSize cs' + 1) k = min (byteSize cs + 1) k := by
  by_cases hk : byteSize cs < k
  · have hends := h.byteSize_lt_iff (k := byteSize cs + 1) (by omega)
    have hends' := h.byteSize_lt_iff (k := byteSize cs) (by omega)
    omega
  · have hends := h.byteSize_lt_iff (k := k) (by omega)
    omega

theorem isPrefixOf_eq (h : Alike n cs cs') (hn : min (byteSize cs + 1) (byteSize ds) ≤ n) :
    ds.isPrefixOf cs' = ds.isPrefixOf cs := by
  have short : ∀ {es : List Char}, ds <+: es → byteSize ds ≤ byteSize es := by
    rintro es ⟨rest, rfl⟩
    rw [byteSize_append]
    exact Nat.le_add_right _ _
  rw [Bool.eq_iff_iff, List.isPrefixOf_iff_prefix, List.isPrefixOf_iff_prefix]
  have hmin := h.min_eq hn
  constructor <;> intro hds <;> have hle := short hds
  · exact h.symm.prefix_of (by omega) hds
  · exact h.prefix_of (by omega) hds

end Alike

/-- What is left of the texts is alike where their bytes are. -/
theorem Input.LeftAt.alike {i i' : Input} {a b n : Nat} {cs cs' : List Char} (h : i.LeftAt a cs)
    (h' : i'.LeftAt b cs')
    (hbytes : ∀ k < n, i.text.toUTF8.data[a + k]? = i'.text.toUTF8.data[b + k]?) :
    Alike n cs cs' := by
  have left : ∀ {i : Input} {p : Nat} {cs : List Char}, i.LeftAt p cs →
      ∀ k, i.text.toUTF8.data[p + k]? = (encode cs)[k]? := by
    rintro i p cs ⟨front, hfront, rfl⟩ k
    rw [← Array.getElem?_toList, ← encode_toList, hfront, encode_append, List.getElem?_append_right]
    · simp
    · simp
  intro k hk
  rw [← left h, ← left h', hbytes k hk]

end Pegboard.Text
