import Pegboard.Proofs.Match.Nesting
import Pegboard.Proofs.Text.Edit

/-!
# Tables after an edit

An edit leaves in the table what it cannot have changed: the entries before it that looked at
nothing from it on, and those behind it. Such an entry still says what the meaning of the grammar
says of the text as it is now, since that depends on nothing but what was looked at.

The table stays closed: what a kept entry needed lies before the edit as well, or behind it. Only
an application exactly where the edit begins may have lost its entry, if it looked at nothing at
all; and that is one of a blind rule.

Main statements: `Table.splice`, `Kept.splice`.
-/

namespace Pegboard.Match

open Text

variable {g : Grammar} {i j : Input} {memo : Memo} {front old new back : List Char}

theorem Table.front_le {frames : List Evaluation.Frame} (h : Table g i frames memo)
    (hi : i.text.toList = front ++ old ++ back) : byteSize front ≤ memo.slots.size := by
  have hsize := i.size_eq_byteSize
  rw [hi, byteSize_append, byteSize_append] at hsize
  rw [h.size]
  omega

/-- An entry after an edit, with what is left of the text at it before and after. -/
theorem entry_splice (hg : g.LoopsOnly) (h : Table g i [] memo)
    (hi : i.text.toList = front ++ old ++ back) (hj : j.text.toList = front ++ new ++ back)
    {pos : Nat} {q : String} (hrule : g.hasRule q) {s : Settled}
    (he : (memo.splice (byteSize front) (byteSize front + byteSize old) (byteSize new)).find? pos q =
      some (.settled s)) :
    ∃ pos₀ cs₀ cs, i.LeftAt pos₀ cs₀ ∧ j.LeftAt pos cs ∧
      memo.find? pos₀ q = some (.settled s) ∧ .settled s = (g.meaning q cs₀).entry ∧
      g.meaning q cs = g.meaning q cs₀ ∧
      (pos = pos₀ ∧ pos + s.examined ≤ byteSize front ∨
        ∃ k, pos = byteSize front + byteSize new + k ∧
          pos₀ = byteSize front + byteSize old + k) := by
  have hsize := h.front_le hi
  rcases Memo.of_find?_splice h.keyed hsize he with ⟨hlt, hfind, hends⟩ | ⟨k, rfl, hfind⟩
  · -- it lies before the edit and looked at nothing from there on
    have hends : pos + s.examined ≤ byteSize front := of_decide_eq_true hends
    obtain ⟨cs₀, hleft, hentry⟩ := h.settled pos q s hrule hfind
    obtain ⟨mid, rfl, hmid, hafter⟩ :=
      hleft.before_edit (by rw [hi, List.append_assoc]) (Nat.le_of_lt hlt)
    refine ⟨pos, _, mid ++ (new ++ back), hleft, hafter (by rw [hj, List.append_assoc]), hfind,
      hentry, ?_, .inl ⟨rfl, hends⟩⟩
    have hexamined := Application.examined_of_entry hentry
    exact hg.meaning_same q _ _ (.inr ⟨mid, _, _, rfl, rfl, by omega⟩)
  · obtain ⟨cs₀, hleft, hentry⟩ := h.settled _ q s hrule hfind
    refine ⟨_, cs₀, cs₀, hleft, ?_, hfind, hentry, rfl, .inr ⟨k, rfl, rfl⟩⟩
    rw [← byteSize_append] at hleft ⊢
    exact hleft.behind_edit hi hj

/-- What is backed before an edit, by something that ends there, or behind it, is so afterwards. -/
theorem backed_splice (hg : g.LoopsOnly) (h : Table g i [] memo)
    (hi : i.text.toList = front ++ old ++ back) {pos : Nat} {q : String} {cs : List Char}
    (hleft : i.LeftAt pos cs) (hbacked : Backed g memo pos q) {pos' : Nat}
    (hpos : pos' = pos ∧ pos + (g.meaning q cs).examined ≤ byteSize front ∨
      ∃ k, pos' = byteSize front + byteSize new + k ∧ pos = byteSize front + byteSize old + k) :
    Backed g (memo.splice (byteSize front) (byteSize front + byteSize old) (byteSize new)) pos' q := by
  have hsize := h.front_le hi
  rcases hbacked with hnone | hblind | ⟨s, hs⟩
  · exact .inl hnone
  · exact .inr (.inl hblind)
  cases hrule : g.rule? q with
  | none => exact .inl hrule
  | some rule =>
      rcases hpos with ⟨rfl, hends⟩ | ⟨k, rfl, rfl⟩
      · obtain ⟨cs', hleft', hentry⟩ := h.settled pos' q s (Grammar.hasRule_of_rule? hrule) hs
        obtain rfl := hleft.unique hleft'
        -- at the edit itself only what looked at nothing ended before it
        rcases Nat.lt_or_ge pos' (byteSize front) with hlt | hge
        · refine .inr (.inr ⟨s, ?_⟩)
          rw [Memo.find?_splice_of_lt h.keyed hsize hlt, hs, hentry]
          simpa [Option.filter, Application.entry, Entry.endsBy] using hends
        · exact .inr (.inl (Grammar.blind_of_examined hg (by simp [Grammar.hasRule, hrule])
            (show (g.meaning q cs).examined = 0 by omega)))
      · exact .inr (.inr ⟨s, by rw [Memo.find?_splice_behind hsize]; exact hs⟩)

/-- An edit keeps the table true. -/
theorem Table.splice (hg : g.LoopsOnly) (h : Table g i [] memo)
    (hi : i.text.toList = front ++ old ++ back) (hj : j.text.toList = front ++ new ++ back) :
    Table g j []
      (memo.splice (byteSize front) (byteSize front + byteSize old) (byteSize new)) := by
  have hi' := i.size_eq_byteSize
  have hj' := j.size_eq_byteSize
  simp only [hi, hj, byteSize_append] at hi' hj'
  have hsize := h.size
  refine ⟨?_, h.keyed.splice (by omega), ?_, ?_⟩
  · rw [Memo.size_splice (by omega) (by omega), hj', hsize, hi']
    omega
  · intro pos q s hrule he
    obtain ⟨_, cs₀, cs, -, hleft, -, hentry, hsame, -⟩ := entry_splice hg h hi hj hrule he
    exact ⟨cs, hleft, by rw [hsame, hentry]⟩
  · intro pos q seed? trace? read hrule he
    rcases Memo.of_find?_splice h.keyed (by omega) he with ⟨-, he, -⟩ | ⟨k, -, he⟩
    · exact absurd (h.growing _ _ _ _ _ hrule he) (by simp)
    · exact absurd (h.growing _ _ _ _ _ hrule he) (by simp)

/-- An edit keeps the table true and closed. -/
theorem Kept.splice (hg : g.LoopsOnly) (h : Kept g i memo)
    (hi : i.text.toList = front ++ old ++ back) (hj : j.text.toList = front ++ new ++ back) :
    Kept g j
      (memo.splice (byteSize front) (byteSize front + byteSize old) (byteSize new)) := by
  refine ⟨h.table.splice hg hi hj, ?_⟩
  intro pos q s cs' he hleft' c hc hne
  cases hrule : g.rule? q with
  | none => simp [Grammar.meaning_of_none hrule, Application.nothing, Application.calls] at hc
  | some rule =>
      obtain ⟨pos₀, cs₀, cs, hleft₀, hleft, hfind, hentry, hsame, hpos⟩ :=
        entry_splice hg h.table hi hj (Grammar.hasRule_of_rule? hrule) he
      obtain rfl := hleft.unique hleft'
      rw [hsame] at hc
      have hname := Grammar.rule?_name hrule
      subst hname
      have hsound := hg.meaning_sound hrule cs₀
      -- what was applied ended looking where the entry did, at the latest
      have hwithin := (hsound.calls c hc).2.resolve_left hne
      refine backed_splice hg h.table hi (hleft₀.drop (hsound.calls c hc).1)
        (h.closed pos₀ _ s cs₀ hfind hleft₀ c hc hne) ?_
      have hexamined := Application.examined_of_entry hentry
      rcases hpos with ⟨rfl, hends⟩ | ⟨k, rfl, rfl⟩
      · exact .inl ⟨rfl, by omega⟩
      · exact .inr ⟨k + c.offset, by omega, by omega⟩

end Pegboard.Match
