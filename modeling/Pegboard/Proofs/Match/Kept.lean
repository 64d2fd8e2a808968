import Pegboard.Proofs.Match.Confined

/-!
# What an edit keeps

An edit keeps the entries behind it, which move with their text, and of those before it the ones
that looked at nothing from it on. Nothing else is left in the table and nothing of this is lost. The
bound that a place keeps for its entries saves looking at them, and never decides otherwise than they
do, whatever was put in and taken out before.

Main statement: `Session.entries_replaceRange`.
-/

namespace Pegboard.Match

namespace Memo

variable {m : Memo} {start stop length pos : Nat} {x : String × Entry}

/-- The entries after an edit. -/
theorem mem_entriesAt_splice (hstart : start ≤ stop) (hsize : start ≤ m.slots.size) :
    x ∈ (m.splice start stop length).entriesAt pos ↔
      (∃ old, stop ≤ old ∧ pos + (stop - start) = old + length ∧ x ∈ m.entriesAt old) ∨
        pos < start ∧ pos + x.2.examined ≤ start ∧ x ∈ m.entriesAt pos := by
  rw [entriesAt_splice hsize]
  -- before the edit, in what it put in, or behind it
  by_cases hbefore : pos < start
  · rw [if_pos hbefore, List.mem_filter, Entry.endsBy_iff]
    constructor
    · exact fun ⟨hmem, hends⟩ => .inr ⟨hbefore, hends, hmem⟩
    · rintro (⟨old, hold, hmoved, -⟩ | ⟨-, hends, hmem⟩)
      · omega
      · exact ⟨hmem, hends⟩
  rw [if_neg hbefore]
  by_cases hinside : pos < start + length
  · rw [if_pos hinside]
    constructor
    · nofun
    · rintro (⟨old, hold, hmoved, -⟩ | ⟨hpos, -⟩) <;> omega
  · rw [if_neg hinside]
    constructor
    · exact fun hmem => .inl ⟨_, by omega, by omega, hmem⟩
    · rintro (⟨old, hold, hmoved, hmem⟩ | ⟨hpos, -⟩)
      · obtain rfl : old = stop + (pos - (start + length)) := by omega
        exact hmem
      · exact absurd hpos hbefore

end Memo

namespace Session

open Text

/-- Whatever was asked of a session, after an edit its table holds exactly the entries that stood
behind the edited range, moved by what the text grew or shrank, and those before it that looked at
nothing from its beginning on, each as it was. An edit that is refused changes nothing. -/
theorem entries_replaceRange (g : Grammar) (ops : List Operation) (start stop : Nat)
    (new : String) :
    let s := after g ops
    match s.replaceRange start stop new with
    | .ok s' => ∀ pos x, x ∈ s'.memo.entriesAt pos ↔
        (∃ old, stop ≤ old ∧ pos + (stop - start) = old + new.utf8ByteSize ∧
            x ∈ s.memo.entriesAt old) ∨
          pos < start ∧ pos + x.2.examined ≤ start ∧ x ∈ s.memo.entriesAt pos
    | .error _ => s.step (.replaceRange start stop new) = s := by
  intro s
  cases hedit : s.replaceRange start stop new with
  | error e => simp only [step, hedit]
  | ok s' =>
      intro pos x
      obtain ⟨text, htext, rfl⟩ := replaceRange_eq_ok hedit
      obtain ⟨front, old, back, hold, -, rfl, rfl⟩ := Text.replaceRange_eq_ok htext
      have hsize : s.memo.slots.size = s.input.size + 1 := (fits_after g ops).intact.size
      have htotal := s.input.size_eq_byteSize
      rw [show s.input.text.toList = front ++ old ++ back from hold, byteSize_append,
        byteSize_append] at htotal
      exact Memo.mem_entriesAt_splice (by omega) (by omega)

end Session

end Pegboard.Match
