import Pegboard.Match.Memo
import Mathlib.Tactic.Common

/-!
# Looking up what was put

The memo table is used by looking up entries alone, and these lemmas say what is found: after a
change of one entry, and after the slots were moved by an edit. An edit filters slots, which keeps
an entry in place only if no second entry of the same rule hides behind it; `Memo.Keyed` says that
none does.
-/

namespace Pegboard.Match

namespace Slot

theorem lookup_put (rule q : String) (e : Entry) (slot : Slot) :
    (put rule e slot).lookup q = if q = rule then some e else slot.lookup q := by
  induction slot with
  | nil =>
      by_cases h : q = rule
      · simp [put, h]
      · simp [put, h, List.lookup_cons, beq_eq_false_iff_ne.mpr h]
  | cons entry rest ih =>
      obtain ⟨r, old⟩ := entry
      by_cases hr : r = rule
      · subst hr
        by_cases h : q = r
        · simp [put, h]
        · simp [put, h, List.lookup_cons, beq_eq_false_iff_ne.mpr h]
      · simp only [put, beq_eq_false_iff_ne.mpr hr, Bool.false_eq_true, if_false,
          List.lookup_cons, ih]
        by_cases h : q = rule
        · have hqr : ¬ q = r := fun hqr => hr (hqr.symm.trans h)
          simp [h, beq_eq_false_iff_ne.mpr (h ▸ hqr)]
        · simp [h]

theorem mem_keys_put {rule q : String} {e : Entry} {slot : Slot}
    (h : q ∈ (put rule e slot).map Prod.fst) : q = rule ∨ q ∈ slot.map Prod.fst := by
  induction slot with
  | nil => simpa [put] using h
  | cons entry rest ih =>
      obtain ⟨r, old⟩ := entry
      by_cases hr : r = rule
      · subst hr
        simpa [put] using h
      · simp only [put, beq_eq_false_iff_ne.mpr hr, Bool.false_eq_true, if_false, List.map_cons,
          List.mem_cons] at h ⊢
        tauto

theorem nodup_put {rule : String} {e : Entry} {slot : Slot} (h : (slot.map Prod.fst).Nodup) :
    ((put rule e slot).map Prod.fst).Nodup := by
  induction slot with
  | nil => simp [put]
  | cons entry rest ih =>
      obtain ⟨r, old⟩ := entry
      rw [List.map_cons, List.nodup_cons] at h
      by_cases hr : r = rule
      · subst hr
        simpa [put] using h
      · simp only [put, beq_eq_false_iff_ne.mpr hr, Bool.false_eq_true, if_false, List.map_cons,
          List.nodup_cons]
        refine ⟨fun hmem => ?_, ih h.2⟩
        rcases mem_keys_put hmem with heq | hmem
        · exact hr heq
        · exact h.1 hmem

theorem lookup_filter {slot : Slot} (h : (slot.map Prod.fst).Nodup) (p : Entry → Bool)
    (q : String) :
    List.lookup q (slot.filter fun (_, e) => p e) = (slot.lookup q).filter p := by
  have absent : ∀ {rest : Slot}, q ∉ rest.map Prod.fst → rest.lookup q = none := by
    intro rest hq
    rw [List.lookup_eq_none_iff]
    intro entry hmem
    rw [bne_iff_ne]
    rintro rfl
    exact hq (List.mem_map_of_mem hmem)
  induction slot with
  | nil => rfl
  | cons entry rest ih =>
      obtain ⟨r, e⟩ := entry
      rw [List.map_cons, List.nodup_cons] at h
      by_cases hr : q = r
      · subst hr
        by_cases hp : p e = true
        · simp [hp, Option.filter]
        · simp [hp, ih h.2, absent h.1, Option.filter]
      · by_cases hp : p e = true <;>
          simp [hp, List.lookup_cons, beq_eq_false_iff_ne.mpr hr, ih h.2]

end Slot

namespace Memo

/-- Each slot holds one entry for a rule at most. -/
def Keyed (m : Memo) : Prop :=
  ∀ pos : Nat, ((m.entriesAt pos).map Prod.fst).Nodup

/-- The entries of the first table are found in the second one as well. -/
def Extends (m m' : Memo) : Prop :=
  ∀ pos rule e, m.find? pos rule = some e → m'.find? pos rule = some e

variable {m m' m'' : Memo} {pos start stop length : Nat} {rule : String} {e : Entry}

theorem Extends.refl (m : Memo) : m.Extends m :=
  fun _ _ _ h => h

/-! ## Single entries -/

@[simp] theorem size_put : (m.put pos rule e).slots.size = m.slots.size := by
  simp [put]

theorem find?_put (hpos : pos < m.slots.size) (p : Nat) (q : String) :
    (m.put pos rule e).find? p q = if (p, q) = (pos, rule) then some e else m.find? p q := by
  simp only [find?, entriesAt, put, Array.getD_eq_getD_getElem?, Array.getElem?_modify,
    Prod.mk.injEq]
  by_cases hp : pos = p
  · subst hp
    simp [Array.getElem?_eq_getElem hpos, Place.put, Slot.lookup_put]
  · simp [hp, Ne.symm hp]

theorem find?_put_self (hpos : pos < m.slots.size) :
    (m.put pos rule e).find? pos rule = some e := by
  rw [find?_put hpos, if_pos rfl]

theorem find?_put_of_ne (hpos : pos < m.slots.size) {p : Nat} {q : String}
    (h : (p, q) ≠ (pos, rule)) : (m.put pos rule e).find? p q = m.find? p q := by
  rw [find?_put hpos, if_neg h]

/-- What is found after an entry was put in is this entry, or was there before; where the table has
no slot, nothing was put in. -/
theorem of_find?_put {p : Nat} {q : String} {e' : Entry}
    (h : (m.put pos rule e).find? p q = some e') :
    (p, q) = (pos, rule) ∧ e' = e ∨ m.find? p q = some e' := by
  by_cases hpos : pos < m.slots.size
  · rw [find?_put hpos] at h
    split at h
    · rename_i heq
      exact .inl ⟨heq, (Option.some.inj h).symm⟩
    · exact .inr h
  · refine .inr (h ▸ ?_)
    simp only [find?, entriesAt, put, Array.getD_eq_getD_getElem?, Array.getElem?_modify]
    split
    · rename_i heq
      rw [← heq, Array.getElem?_eq_none (by omega)]
      rfl
    · rfl

theorem Keyed.put (h : m.Keyed) : (m.put pos rule e).Keyed := by
  intro p
  have hp := h p
  simp only [entriesAt, Memo.put, Array.getD_eq_getD_getElem?, Array.getElem?_modify] at hp ⊢
  by_cases heq : pos = p
  · subst heq
    cases hslot : m.slots[pos]? with
    | none => simp [Place.blank]
    | some place =>
        rw [hslot] at hp
        simpa [Place.put] using Slot.nodup_put hp
  · simpa [heq] using hp

@[simp] theorem find?_blank (size : Nat) : (blank size).find? pos rule = none := by
  simp only [find?, entriesAt, blank, Array.getD_eq_getD_getElem?, Array.getElem?_replicate]
  split <;> rfl

theorem keyed_blank (size : Nat) : (blank size).Keyed := by
  intro p
  simp only [entriesAt, blank, Array.getD_eq_getD_getElem?, Array.getElem?_replicate]
  split <;> simp [Place.blank]

/-! ## Edits -/

/-- The entries after an edit: those before it, thinned out, none at the places that it put in, and
those behind it. -/
theorem entriesAt_splice (hstart : start ≤ m.slots.size) (p : Nat) :
    (m.splice start stop length).entriesAt p =
      if p < start then (m.entriesAt p).filter fun (_, e) => e.endsBy p start
      else if p < start + length then []
      else m.entriesAt (stop + (p - (start + length))) := by
  simp only [entriesAt, splice, Array.getD_eq_getD_getElem?, Array.getElem?_append,
    Array.getElem?_mapIdx, Array.getElem?_extract, Array.getElem?_replicate, Array.size_append,
    Array.size_mapIdx, Array.size_extract, Array.size_replicate, Nat.min_eq_left hstart,
    Nat.sub_zero]
  -- before the edit, in what it put in, or behind it
  by_cases h₁ : p < start
  · have hlt : p < start + length := by omega
    simp only [h₁, hlt, if_true, Nat.zero_add]
    cases m.slots[p]? <;> simp [Place.blank, Place.entries_prune]
  · by_cases h₂ : p < start + length
    · simp [h₁, h₂, show p - start < length by omega, Place.blank]
    · simp only [h₁, h₂, if_false, Nat.min_self]
      by_cases h₃ : p - (start + length) < m.slots.size - stop
      · simp [h₃]
      · rw [if_neg h₃, Array.getElem?_eq_none (by omega)]

theorem find?_splice_of_lt (h : m.Keyed) (hstart : start ≤ m.slots.size) (hpos : pos < start) :
    (m.splice start stop length).find? pos rule =
      (m.find? pos rule).filter fun e => e.endsBy pos start := by
  rw [find?, entriesAt_splice hstart, if_pos hpos, Slot.lookup_filter (h pos)]
  rfl

theorem find?_splice_of_mem (hstart : start ≤ m.slots.size) (hpos : start ≤ pos)
    (hstop : pos < start + length) : (m.splice start stop length).find? pos rule = none := by
  rw [find?, entriesAt_splice hstart, if_neg (by omega), if_pos hstop]
  rfl

theorem find?_splice_behind (hstart : start ≤ m.slots.size) (k : Nat) :
    (m.splice start stop length).find? (start + length + k) rule = m.find? (stop + k) rule := by
  rw [find?, entriesAt_splice hstart, if_neg (by omega), if_neg (by omega), find?]
  congr 2
  omega

/-- What is found after an edit was there before it. -/
theorem of_find?_splice (h : m.Keyed) (hstart : start ≤ m.slots.size)
    (he : (m.splice start stop length).find? pos rule = some e) :
    pos < start ∧ m.find? pos rule = some e ∧ e.endsBy pos start = true ∨
      ∃ k, pos = start + length + k ∧ m.find? (stop + k) rule = some e := by
  by_cases h₁ : pos < start
  · rw [find?_splice_of_lt h hstart h₁, Option.filter_eq_some_iff] at he
    exact .inl ⟨h₁, he⟩
  by_cases h₂ : pos < start + length
  · rw [find?_splice_of_mem hstart (by omega) h₂] at he
    cases he
  · obtain ⟨k, rfl⟩ : ∃ k, pos = start + length + k := ⟨pos - (start + length), by omega⟩
    rw [find?_splice_behind hstart] at he
    exact .inr ⟨k, rfl, he⟩

theorem Keyed.splice (h : m.Keyed) (hstart : start ≤ m.slots.size) :
    (m.splice start stop length).Keyed := by
  intro p
  rw [entriesAt_splice hstart]
  split
  · exact ((List.filter_sublist).map Prod.fst).nodup (h p)
  · split
    · simp
    · exact h _

theorem size_splice (hstart : start ≤ m.slots.size) (hstop : stop ≤ m.slots.size) :
    (m.splice start stop length).slots.size = start + length + (m.slots.size - stop) := by
  simp only [splice, Array.size_append, Array.size_mapIdx, Array.size_extract,
    Array.size_replicate]
  omega

end Memo

end Pegboard.Match
