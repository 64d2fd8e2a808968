import Pegboard.Proofs.Text.Edit

/-!
# The smallest edit between two texts

An edit between two texts spares a part at their beginning and a part at their end. `minimalEdit`
spares the longest common beginning, and of the rest the longest common end. That an edit cannot
spare more is not seen part by part: one that spares less at the beginning may spare more at the end
(`byteSize_spared_le`).

Main statement: `minimalEdit_least`.
-/

namespace Pegboard.Text

variable {as bs front mid mid' back f m m' b : List Char}

@[simp] theorem byteSize_reverse (cs : List Char) : byteSize cs.reverse = byteSize cs := by
  induction cs with
  | nil => rfl
  | cons c cs ih => simp [ih, Nat.add_comm]

/-- The texts have no first character in common. -/
def Parted (as bs : List Char) : Prop :=
  ∀ c ∈ as.head?, c ∉ bs.head?

/-- The front that was taken is common to both texts, and longer than any other common front. -/
theorem commonFront_eq (passed as bs : List Char) : ∃ front as' bs',
    commonFront passed as bs = (front.reverse ++ passed, as', bs') ∧ as = front ++ as' ∧
      bs = front ++ bs' ∧ Parted as' bs' := by
  fun_induction commonFront passed as bs with
  | case1 passed as c bs ih =>
      obtain ⟨front, as', bs', heq, rfl, rfl, hparted⟩ := ih
      exact ⟨c :: front, as', bs', by simp [heq], rfl, rfl, hparted⟩
  | case2 passed c as d bs hne =>
      refine ⟨[], c :: as, d :: bs, rfl, rfl, rfl, ?_⟩
      rintro _ ⟨⟩ ⟨⟩
      exact hne rfl
  | case3 passed as bs hnone =>
      refine ⟨[], as, bs, rfl, rfl, rfl, fun c ha hb => ?_⟩
      obtain ⟨as', rfl⟩ := List.head?_eq_some_iff.mp ha
      obtain ⟨bs', rfl⟩ := List.head?_eq_some_iff.mp hb
      exact hnone c as' c bs' rfl rfl

/-- The longest common front has every other one for its own front. -/
theorem prefix_of_parted (h : Parted as bs) (ha : f <+: front ++ as) (hb : f <+: front ++ bs) :
    f <+: front := by
  rcases List.prefix_or_prefix_of_prefix ha (List.prefix_append front as) with hf | ⟨more, rfl⟩
  · exact hf
  · rw [List.prefix_append_right_inj] at ha hb
    cases more with
    | nil => simp
    | cons c more =>
        obtain ⟨_, rfl⟩ := ha
        obtain ⟨_, rfl⟩ := hb
        exact absurd rfl (h c rfl)

/-- The middle of a text gives way to another one. -/
theorem replaceRange_of_cut {s : String} (new : String) (h : s.toList = front ++ mid ++ back) :
    checkRange s (byteSize front) (byteSize front + byteSize mid) = .ok () ∧
      replaceRange s (byteSize front) (byteSize front + byteSize mid) new =
        .ok (.ofList (front ++ new.toList ++ back)) := by
  have hsize := byteSize_toList s
  rw [h, byteSize_append, byteSize_append] at hsize
  have hstart : splitAt? s.toList (byteSize front) = some (front, mid ++ back) :=
    splitAt?_eq_some_iff.mpr ⟨by rw [h, List.append_assoc], rfl⟩
  have hstop : splitAt? s.toList (byteSize front + byteSize mid) = some (front ++ mid, back) :=
    splitAt?_eq_some_iff.mpr ⟨h, byteSize_append _ _⟩
  have hcheck : checkRange s (byteSize front) (byteSize front + byteSize mid) = .ok () := by
    rw [checkRange, if_neg (by omega), if_neg (by omega), isBoundary, isBoundary, hstart, hstop]
    rfl
  refine ⟨hcheck, ?_⟩
  rw [replaceRange, hcheck]
  simp [replaceChars, hstart, hstop, bind, Except.bind, pure, Except.pure]

/-- What the smallest edit spares: the longest common front, and of the rest the longest common
back. -/
theorem minimalEdit_eq_some {old new : String} {e : Edit} (h : minimalEdit old new = some e) :
    ∃ front mid mid' back, old.toList = front ++ mid ++ back ∧ new.toList = front ++ mid' ++ back ∧
      e = ⟨byteSize front, byteSize front + byteSize mid, .ofList mid'⟩ ∧
      Parted (mid ++ back) (mid' ++ back) ∧ Parted mid.reverse mid'.reverse := by
  obtain ⟨front, rest, rest', hfront, hold, hnew, hparted⟩ :=
    commonFront_eq [] old.toList new.toList
  obtain ⟨back, mid, mid', hback, hrest, hrest', hparted'⟩ :=
    commonFront_eq [] rest.reverse rest'.reverse
  rw [minimalEdit] at h
  split at h
  · cases h
  simp only [hfront, hback] at h
  obtain rfl := Option.some.inj h
  obtain rfl : rest = mid.reverse ++ back.reverse := by
    rw [← List.reverse_append, ← hrest, List.reverse_reverse]
  obtain rfl : rest' = mid'.reverse ++ back.reverse := by
    rw [← List.reverse_append, ← hrest', List.reverse_reverse]
  refine ⟨front, mid.reverse, mid'.reverse, back.reverse, ?_, ?_, ?_, hparted, by simpa⟩
  · rw [hold, List.append_assoc]
  · rw [hnew, List.append_assoc]
  · have hsize := byteSize_toList old
    rw [hold, byteSize_append, byteSize_append] at hsize
    have hstop : old.utf8ByteSize - byteSize back.reverse =
        byteSize front + byteSize mid.reverse := by omega
    simpa using hstop

/-- Texts that part behind a front, and whose middles part before a back, have no other front and
back in common that take more bytes together. A back that is longer goes over one of the middles, and
then the front is the shorter by as much at least. -/
theorem byteSize_spared_le (hfront : Parted (mid ++ back) (mid' ++ back))
    (hback : Parted mid.reverse mid'.reverse) (hold : front ++ mid ++ back = f ++ m ++ b)
    (hnew : front ++ mid' ++ back = f ++ m' ++ b) :
    byteSize f + byteSize b ≤ byteSize front + byteSize back := by
  obtain ⟨g, rfl⟩ : f <+: front := by
    refine prefix_of_parted hfront ?_ ?_
    · rw [← List.append_assoc, hold, List.append_assoc]
      exact List.prefix_append _ _
    · rw [← List.append_assoc, hnew, List.append_assoc]
      exact List.prefix_append _ _
  simp only [List.append_assoc, List.append_cancel_left_eq] at hold hnew
  rw [byteSize_append]
  rcases List.suffix_or_suffix_of_suffix (hold ▸ List.suffix_append m b)
    ((List.suffix_append mid back).trans (List.suffix_append g _)) with ⟨r, rfl⟩ | ⟨k, rfl⟩
  · rw [byteSize_append]
    omega
  · suffices hk : byteSize k ≤ byteSize g by
      rw [byteSize_append]
      omega
    simp only [← List.append_assoc, List.append_cancel_right_eq] at hold hnew
    rcases List.eq_nil_or_concat mid with rfl | ⟨mid, c, rfl⟩
    · rw [← List.append_nil g, hold, byteSize_append]
      omega
    rcases List.eq_nil_or_concat mid' with rfl | ⟨mid', d, rfl⟩
    · rw [← List.append_nil g, hnew, byteSize_append]
      omega
    rcases List.eq_nil_or_concat k with rfl | ⟨k, l, rfl⟩
    · exact Nat.zero_le _
    -- both middles would end with the last character of `k`
    simp only [List.concat_eq_append, ← List.append_assoc] at hold hnew
    obtain rfl : c = l := by simpa using (List.append_inj' hold rfl).2
    obtain rfl : d = c := by simpa using (List.append_inj' hnew rfl).2
    exact absurd (by simp) (hback d (by simp))

/-- The smallest edit is no edit for equal texts only. It fits the old text, turns it into the new
one, and no other edit that does takes less away or puts less in its place. -/
theorem minimalEdit_least (old new : String) :
    (minimalEdit old new = none ↔ old = new) ∧
      ∀ e, minimalEdit old new = some e →
        checkRange old e.start e.stop = .ok () ∧ e.apply old = .ok new ∧
          ∀ e' : Edit, e'.apply old = .ok new →
            e.stop - e.start ≤ e'.stop - e'.start ∧
              e.text.utf8ByteSize ≤ e'.text.utf8ByteSize := by
  refine ⟨?_, fun e he => ?_⟩
  · rw [minimalEdit]
    split <;> simp_all
  · obtain ⟨front, mid, mid', back, hold, hnew, rfl, hfront, hback⟩ := minimalEdit_eq_some he
    obtain ⟨hcheck, hreplace⟩ := replaceRange_of_cut (.ofList mid') hold
    refine ⟨hcheck, ?_, fun e' he' => ?_⟩
    · rw [Edit.apply, hreplace, String.toList_ofList, ← hnew, String.ofList_toList]
    · obtain ⟨f, m, b, hold', hnew', hstart, hstop⟩ := replaceRange_eq_ok he'
      have hspared := byteSize_spared_le hfront hback (hold.symm.trans hold')
        (hnew.symm.trans hnew')
      have hsize := congrArg byteSize (hold.symm.trans hold')
      have hsize' := congrArg byteSize (hnew.symm.trans hnew')
      simp only [byteSize_append] at hsize hsize'
      rw [← byteSize_toList, ← byteSize_toList, String.toList_ofList]
      dsimp only
      omega

example : minimalEdit "aéaé" "aé" = some ⟨3, 6, ""⟩ := by decide +kernel

end Pegboard.Text
