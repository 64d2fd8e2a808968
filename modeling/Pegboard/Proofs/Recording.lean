import Pegboard.Failures
import Mathlib.Data.List.Induction
import Mathlib.Order.Nat
import Mathlib.Tactic.Common

/-!
# Recording failures one by one

A matcher collects failures piecewise: each rule application keeps a set of its own, counted from
its place on, which is merged into the set of whoever applied the rule. This module reduces all of
that to one list of failures in the order in which they were met: merging sets is recording the
lists behind them, and moving a set is moving its list.
-/

namespace Pegboard

/-- The same failure counted from `base` bytes earlier on. -/
def Failure.shift (base : Nat) (f : Failure) : Failure :=
  ⟨base + f.offset, f.expected⟩

@[simp] theorem Failure.shift_zero : Failure.shift 0 = id := by
  funext f
  simp [Failure.shift]

theorem Failure.shift_shift (a b : Nat) (f : Failure) :
    (f.shift b).shift a = f.shift (a + b) := by
  simp [Failure.shift, Nat.add_assoc]

namespace Failures

/-- Records failures in the order of a list. -/
def recordAll (f : Failures) (fs : List Failure) : Failures :=
  fs.foldl (fun f x => f.record x.offset x.expected) f

/-- The set that a list of failures leaves. -/
def ofList (fs : List Failure) : Failures :=
  recordAll ∅ fs

@[simp] theorem recordAll_nil (f : Failures) : f.recordAll [] = f := rfl

theorem recordAll_append (f : Failures) (as bs : List Failure) :
    f.recordAll (as ++ bs) = (f.recordAll as).recordAll bs :=
  List.foldl_append

theorem recordAll_singleton (f : Failures) (x : Failure) :
    f.recordAll [x] = f.record x.offset x.expected := rfl

theorem ofList_concat (fs : List Failure) (x : Failure) :
    ofList (fs ++ [x]) = (ofList fs).record x.offset x.expected :=
  recordAll_append ∅ fs [x]

/-! ## Recording again and recording further on -/

theorem record_of_lt {f : Failures} {reached pos : Nat} {es : List Expectation} {e : Expectation}
    (hf : f = furthest reached es) (h : pos < reached) : f.record pos e = f := by
  subst hf
  simp [record, h]

/-- What is recorded behind a place makes no difference to a set that has come so far. -/
theorem record_record_of_lt (f : Failures) {p q : Nat} (e e' : Expectation) (h : q < p) :
    (f.record q e').record p e = f.record p e := by
  cases f with
  | empty => simp [record, single, show ¬ p < q by omega, show ¬ p = q by omega]
  | furthest r es =>
      rcases Nat.lt_trichotomy q r with hqr | rfl | hqr
      · simp [record, hqr]
      · simp only [record, Nat.lt_irrefl, if_false, if_true]
        by_cases he : e' ∈ es <;>
          simp [he, single, show ¬ p < q by omega, show ¬ p = q by omega]
      · simp [record, single, show ¬ q < r by omega, show ¬ q = r by omega,
          show ¬ p < q by omega, show ¬ p = q by omega, show ¬ p < r by omega,
          show ¬ p = r by omega]

/-- The place reached and the expectations that a recording leaves there. -/
theorem record_eq_furthest (f : Failures) (pos : Nat) (e : Expectation) :
    ∃ reached es, f.record pos e = furthest reached es ∧ pos ≤ reached ∧
      (pos = reached → e ∈ es) := by
  cases f with
  | empty => exact ⟨pos, [e], rfl, Nat.le_refl _, by simp⟩
  | furthest r es =>
      rcases Nat.lt_trichotomy pos r with h | rfl | h
      · exact ⟨r, es, by simp [record, h], h.le, fun heq => absurd heq h.ne⟩
      · by_cases he : e ∈ es
        · exact ⟨pos, es, by simp [record, he], Nat.le_refl _, fun _ => he⟩
        · exact ⟨pos, es ++ [e], by simp [record, he], Nat.le_refl _, by simp⟩
      · exact ⟨pos, [e], by simp [record, single, show ¬ pos < r by omega,
          show ¬ pos = r by omega], Nat.le_refl _, by simp⟩

/-- A failure recorded before makes no difference when it is recorded again later. -/
theorem record_recordAll_of_mem {pos : Nat} {e : Expectation} :
    ∀ {fs : List Failure} (f : Failures), ⟨pos, e⟩ ∈ fs →
      (f.recordAll fs).record pos e = f.recordAll fs := by
  intro fs
  induction fs using List.reverseRecOn with
  | nil => intro f h; cases h
  | append_singleton fs x ih =>
      intro f h
      rw [recordAll_append, recordAll_singleton]
      obtain ⟨r, es, hr, hle, hmem⟩ := record_eq_furthest (f.recordAll fs) x.offset x.expected
      rcases List.mem_append.mp h with h | h
      · have hback := ih f h
        obtain ⟨r', es', hr', hle', hmem'⟩ := record_eq_furthest (f.recordAll fs) pos e
        rw [hback] at hr'
        -- `x` was recorded further on, at the same place, or before
        rcases Nat.lt_trichotomy pos x.offset with hx | hx | hx
        · exact record_of_lt hr (by omega)
        · rw [hr'] at hr ⊢
          rw [← hx] at hr ⊢
          rcases hle'.lt_or_eq with hlt | heq
          · simp [record, hlt]
          · subst heq
            have he := hmem' rfl
            by_cases hxe : x.expected ∈ es' <;> simp [record, he, hxe]
        · have hstay : (f.recordAll fs).record x.offset x.expected = f.recordAll fs :=
            record_of_lt hr' (by omega)
          rw [hstay, hback]
      · obtain rfl : (⟨pos, e⟩ : Failure) = x := List.mem_singleton.mp h
        rcases hle.lt_or_eq with hlt | heq
        · exact record_of_lt hr hlt
        · subst heq
          rw [hr]
          simp [record, hmem rfl]

/-! ## Merging is recording the list behind a set -/

theorem eq_nil_of_ofList {fs : List Failure} (h : ofList fs = empty) : fs = [] := by
  rcases List.eq_nil_or_concat fs with rfl | ⟨gs, x, rfl⟩
  · rfl
  · rw [List.concat_eq_append, ofList_concat] at h
    obtain ⟨r, es, hr, -⟩ := record_eq_furthest (ofList gs) x.offset x.expected
    rw [hr] at h
    cases h

/-- A set made from a list is that list's last part: all that was expected at the furthest
place. -/
theorem ofList_eq_furthest {fs : List Failure} {reached : Nat} {es : List Expectation}
    (h : ofList fs = furthest reached es) :
    es ≠ [] ∧ (∀ x ∈ fs, x.offset ≤ reached) ∧ ∀ e ∈ es, ⟨reached, e⟩ ∈ fs := by
  induction fs using List.reverseRecOn generalizing reached es with
  | nil => cases h
  | append_singleton fs x ih =>
      rw [ofList_concat] at h
      cases hf : ofList fs with
      | empty =>
          obtain rfl := eq_nil_of_ofList hf
          rw [hf] at h
          cases h
          simp
      | furthest r es' =>
          obtain ⟨hne, hall, hmem⟩ := ih hf
          have kept : ∀ e ∈ es', ⟨r, e⟩ ∈ fs ++ [x] :=
            fun e he => List.mem_append_left _ (hmem e he)
          have bound : ∀ k, r ≤ k → x.offset ≤ k → ∀ y ∈ fs ++ [x], y.offset ≤ k := by
            intro k hr hx
            refine List.forall_mem_append.mpr ⟨fun y hy => (hall y hy).trans hr, ?_⟩
            rwa [List.forall_mem_singleton]
          rw [hf] at h
          rcases Nat.lt_trichotomy x.offset r with hx | hx | hx
          · simp only [record, hx, if_true] at h
            cases h
            exact ⟨hne, bound _ (Nat.le_refl _) hx.le, kept⟩
          · by_cases he : x.expected ∈ es'
            · simp only [record, hx, Nat.lt_irrefl, if_false, if_true, he] at h
              cases h
              exact ⟨hne, bound _ (Nat.le_refl _) hx.le, kept⟩
            · simp only [record, hx, Nat.lt_irrefl, if_false, if_true, he] at h
              cases h
              refine ⟨by simp, bound _ (Nat.le_refl _) hx.le, ?_⟩
              refine List.forall_mem_append.mpr ⟨kept, ?_⟩
              rw [List.forall_mem_singleton, ← hx]
              simp
          · -- what was expected before `x` is forgotten
            simp only [record, single, show ¬ x.offset < r by omega,
              show ¬ x.offset = r by omega, if_false] at h
            cases h
            exact ⟨by simp, bound x.offset hx.le (Nat.le_refl _), by simp⟩

/-- Recording a failure after a merge is merging a set that recorded it. -/
theorem merge_record (f : Failures) (fs : List Failure) (pos : Nat) (e : Expectation)
    (ih : f.merge (ofList fs) = f.recordAll fs) :
    f.merge ((ofList fs).record pos e) = (f.recordAll fs).record pos e := by
  cases hf : ofList fs with
  | empty =>
      rw [hf] at ih
      rw [← ih]
      rfl
  | furthest r es =>
      obtain ⟨hne, hall, hmem⟩ := ofList_eq_furthest hf
      rw [hf] at ih
      rcases Nat.lt_trichotomy pos r with h | rfl | h
      · rw [record_of_lt rfl h, ih]
        obtain ⟨e', he'⟩ := List.exists_mem_of_ne_nil es hne
        obtain ⟨r', es', hr', hle, -⟩ := record_eq_furthest (f.recordAll fs) r e'
        rw [record_recordAll_of_mem f (hmem e' he')] at hr'
        exact (record_of_lt hr' (by omega)).symm
      · by_cases he : e ∈ es
        · have hsame : (furthest pos es).record pos e = furthest pos es := by simp [record, he]
          rw [hsame, ih, record_recordAll_of_mem f (hmem e he)]
        · have hmore : (furthest pos es).record pos e = furthest pos (es ++ [e]) := by
            simp [record, he]
          rw [hmore, ← ih]
          exact List.foldl_append
      · -- all that the list recorded before `pos` is forgotten
        have skip : ∀ (gs : List Failure), (∀ x ∈ gs, x.offset < pos) →
            (f.recordAll gs).record pos e = f.record pos e := by
          intro gs
          induction gs using List.reverseRecOn with
          | nil => intro _; rfl
          | append_singleton gs x ihg =>
              intro hgs
              rw [recordAll_append, recordAll_singleton,
                record_record_of_lt _ _ _ (hgs x (by simp))]
              exact ihg fun y hy => hgs y (List.mem_append_left _ hy)
        rw [skip fs fun x hx => (hall x hx).trans_lt h]
        simp [record, single, merge, show ¬ pos < r by omega, show ¬ pos = r by omega]

theorem merge_ofList (f : Failures) (fs : List Failure) :
    f.merge (ofList fs) = f.recordAll fs := by
  induction fs using List.reverseRecOn with
  | nil => rfl
  | append_singleton fs x ih =>
      rw [ofList_concat, recordAll_append, recordAll_singleton]
      exact merge_record f fs x.offset x.expected ih

/-! ## Moving a set is moving its list -/

theorem absoluteFrom_record (f : Failures) (base pos : Nat) (e : Expectation) :
    (f.record pos e).absoluteFrom base = (f.absoluteFrom base).record (base + pos) e := by
  cases f with
  | empty => simp [record, absoluteFrom, single, Nat.add_comm]
  | furthest r es =>
      rcases Nat.lt_trichotomy pos r with h | rfl | h
      · simp [record, absoluteFrom, h, show base + pos < r + base by omega]
      · by_cases he : e ∈ es <;> simp [record, absoluteFrom, he, Nat.add_comm]
      · have hlt : ¬ base + pos < r + base := by omega
        have hne : ¬ base + pos = r + base := by omega
        simp only [record, absoluteFrom, single, h.not_gt, h.ne', hlt, hne, if_false]
        rw [Nat.add_comm]

theorem absoluteFrom_ofList (fs : List Failure) (base : Nat) :
    (ofList fs).absoluteFrom base = ofList (fs.map (Failure.shift base)) := by
  induction fs using List.reverseRecOn with
  | nil => rfl
  | append_singleton fs x ih =>
      rw [ofList_concat, absoluteFrom_record, ih, List.map_append, List.map_singleton,
        ofList_concat]
      rfl

theorem relativeTo_absoluteFrom (f : Failures) (base : Nat) :
    (f.absoluteFrom base).relativeTo base = f := by
  cases f <;> simp [absoluteFrom, relativeTo]

theorem relativeTo_ofList (fs : List Failure) (base : Nat) :
    (ofList (fs.map (Failure.shift base))).relativeTo base = ofList fs := by
  rw [← absoluteFrom_ofList, relativeTo_absoluteFrom]

end Failures

end Pegboard
