import Pegboard.Text.Edit
import Pegboard.Proofs.Text.Cut

/-!
# Edits as cuts

An edit that is not refused cuts the text in three and puts another part in the middle. What was
left of the text in front of the middle part, or behind it, is left of it after the edit as well,
at an offset that moved with the part behind.
-/

namespace Pegboard

/-- What comes of two steps, if the first one may fail. -/
theorem bind_eq_ok {ε α β : Type} {x : Except ε α} {f : α → Except ε β} {b : β} :
    x >>= f = .ok b ↔ ∃ a, x = .ok a ∧ f a = .ok b := by
  cases x with
  | error e => simp [bind, Except.bind]
  | ok a => simp [bind, Except.bind]

/-- What an answer is known by is known of its value. -/
theorem toOption_map_eq_some {ε α β : Type} {x : Except ε α} {f : α → β} {b : β}
    (h : x.toOption.map f = some b) : ∃ a, x = .ok a ∧ f a = b := by
  cases x with
  | error e => cases h
  | ok a => exact ⟨a, rfl, Option.some.inj h⟩

theorem toOption_isSome {ε α : Type} {x : Except ε α} (h : x.toOption.isSome = true) :
    ∃ a, x = .ok a := by
  cases x with
  | error e => cases h
  | ok a => exact ⟨a, rfl⟩

namespace Text

theorem isBoundary_iff {s : String} {offset : Nat} :
    isBoundary s offset = true ↔ Cuts s.toList offset := by
  rw [isBoundary, Option.isSome_iff_exists]
  constructor
  · rintro ⟨⟨front, back⟩, h⟩
    exact ⟨front, back, splitAt?_eq_some_iff.mp h⟩
  · rintro ⟨front, back, h⟩
    exact ⟨(front, back), splitAt?_eq_some_iff.mpr h⟩

theorem checkRange_eq_ok {s : String} {start stop : Nat} (h : checkRange s start stop = .ok ()) :
    ∃ front old back, s.toList = front ++ old ++ back ∧ byteSize front = start ∧
      byteSize front + byteSize old = stop := by
  rw [checkRange] at h
  split at h
  · cases h
  split at h
  · cases h
  split at h
  · cases h
  split at h
  · cases h
  rename_i hle _ hstart hstop
  simp only [Bool.not_eq_true', Bool.not_eq_false] at hstart hstop
  obtain ⟨front, rest, hfront, rfl⟩ := isBoundary_iff.mp hstart
  obtain ⟨passed, back, hpassed, rfl⟩ := isBoundary_iff.mp hstop
  rw [hfront] at hpassed
  -- the second cut is not before the first one
  rcases List.append_eq_append_iff.mp hpassed with ⟨old, rfl, rfl⟩ | ⟨mid, rfl, rfl⟩
  · exact ⟨front, old, back, by rw [hfront, List.append_assoc], rfl, (byteSize_append _ _).symm⟩
  · have hmid : byteSize mid = 0 := by
      rw [byteSize_append] at hle
      omega
    obtain rfl := byteSize_eq_zero_iff.mp hmid
    exact ⟨passed, [], rest, by simpa using hfront, by simp, by simp⟩

/-- Only the check of its range refuses an edit. -/
theorem replaceRange_of_checkRange {s : String} {start stop : Nat}
    (h : checkRange s start stop = .ok ()) (new : String) :
    ∃ s', replaceRange s start stop new = .ok s' := by
  unfold replaceRange
  rw [h]
  exact ⟨_, rfl⟩

/-- What an edit that is not refused makes of the text. -/
theorem replaceRange_eq_ok {s s' new : String} {start stop : Nat}
    (h : replaceRange s start stop new = .ok s') :
    ∃ front old back, s.toList = front ++ old ++ back ∧ s'.toList = front ++ new.toList ++ back ∧
      byteSize front = start ∧ byteSize front + byteSize old = stop := by
  unfold replaceRange at h
  obtain ⟨⟨⟩, hcheck, hs'⟩ := bind_eq_ok.mp h
  obtain ⟨front, old, back, htext, hstart, hstop⟩ := checkRange_eq_ok hcheck
  have hfront : splitAt? s.toList start = some (front, old ++ back) :=
    splitAt?_eq_some_iff.mpr ⟨by rw [htext, List.append_assoc], hstart⟩
  have hback : splitAt? s.toList stop = some (front ++ old, back) :=
    splitAt?_eq_some_iff.mpr ⟨htext, by rw [byteSize_append, hstop]⟩
  obtain rfl := Except.ok.inj hs'
  refine ⟨front, old, back, htext, ?_, hstart, hstop⟩
  simp [replaceChars, hfront, hback]

/-- An edit of the whole text leaves the new part. -/
theorem replaceRange_whole {s s' new : String}
    (h : replaceRange s 0 s.utf8ByteSize new = .ok s') : s' = new := by
  obtain ⟨front, old, back, hs, hs', hfront, hold⟩ := replaceRange_eq_ok h
  have hsize := byteSize_toList s
  rw [hs, byteSize_append, byteSize_append, ← hold] at hsize
  obtain rfl := byteSize_eq_zero_iff.mp hfront
  obtain rfl : back = [] := byteSize_eq_zero_iff.mp (by omega)
  exact String.toList_injective (by simpa using hs')

namespace Input.LeftAt

variable {i j : Input} {pos k : Nat} {cs front passed left back : List Char}

/-- What is left before the end of a common front. -/
theorem before_edit (h : i.LeftAt pos cs) (hi : i.text.toList = front ++ left)
    (hpos : pos ≤ byteSize front) :
    ∃ mid, cs = mid ++ left ∧ pos + byteSize mid = byteSize front ∧
      ∀ {j : Input} {left' : List Char}, j.text.toList = front ++ left' →
        j.LeftAt pos (mid ++ left') := by
  obtain ⟨passed, htext, rfl⟩ := h
  rw [hi] at htext
  rcases List.append_eq_append_iff.mp htext with ⟨mid, rfl, rfl⟩ | ⟨mid, rfl, rfl⟩
  · -- only the end of the front itself is left
    have hmid : mid = [] := byteSize_eq_zero_iff.mp (by rw [byteSize_append] at hpos; omega)
    subst hmid
    exact ⟨[], by simp, by simp, fun hj => ⟨front, by simpa using hj, by simp⟩⟩
  · exact ⟨mid, rfl, (byteSize_append _ _).symm,
      fun hj => ⟨passed, by rw [hj, List.append_assoc], rfl⟩⟩

/-- What is left in a common back. -/
theorem behind_edit {passed' : List Char} (h : i.LeftAt (byteSize passed + k) cs)
    (hi : i.text.toList = passed ++ back) (hj : j.text.toList = passed' ++ back) :
    j.LeftAt (byteSize passed' + k) cs := by
  obtain ⟨all, htext, hsize⟩ := h
  rw [hi] at htext
  -- the place lies behind the middle part, or is its end
  rcases List.append_eq_append_iff.mp htext with ⟨mid, rfl, rfl⟩ | ⟨mid, rfl, rfl⟩
  · rw [byteSize_append] at hsize
    exact ⟨passed' ++ mid, by rw [hj, List.append_assoc], by rw [byteSize_append]; omega⟩
  · have hmid : mid = [] := byteSize_eq_zero_iff.mp (by rw [byteSize_append] at hsize; omega)
    subst hmid
    exact ⟨passed', by simpa using hj, by simp at hsize; omega⟩

end Input.LeftAt

end Text

end Pegboard
