import Mathlib.Data.List.Induction

/-!
# Looking back over a run

A run does one operation after the other, each in the state that those before it came to. What holds
at the end of a run often depends on the last time that something was done: `Since` says that it was
done, and that something else was not done after it. What is done last decides it (`since_concat`), so
that a fact about the state which one thing brings about and another one ends holds exactly since the
one was done without the other (`since_iff`). Operations of some kind may be left out of the run.
-/

namespace Pegboard.History

variable {S O : Type} (step : S → O → S)

/-- Some operation of the run has the property in the state that it is done in. -/
def Sometime (P : S → O → Prop) (s : S) (ops : List O) : Prop :=
  ∃ before op behind, ops = before ++ op :: behind ∧ P (before.foldl step s) op

/-- Some operation of the run has the property `P`, and none behind it has `Q`. -/
def Since (Q P : S → O → Prop) (s : S) (ops : List O) : Prop :=
  ∃ before op behind, ops = before ++ op :: behind ∧ P (before.foldl step s) op ∧
    ¬ Sometime step Q ((before ++ [op]).foldl step s) behind

variable {step} {P Q : S → O → Prop} {s : S} {ops : List O} {op : O}

/-- One of the operations of a run is the last one, or it is followed by the last one. -/
theorem concat_eq_append_cons {before behind : List O} {o : O}
    (h : ops ++ [op] = before ++ o :: behind) :
    behind = [] ∧ before = ops ∧ o = op ∨
      ∃ between, behind = between ++ [op] ∧ ops = before ++ o :: between := by
  obtain rfl | ⟨between, last, rfl⟩ := List.eq_nil_or_concat behind
  · obtain ⟨rfl, hlast⟩ := List.append_inj' h rfl
    exact .inl ⟨rfl, rfl, (List.cons.inj hlast).1.symm⟩
  · rw [List.concat_eq_append, ← List.cons_append, ← List.append_assoc] at h
    obtain ⟨rfl, hlast⟩ := List.append_inj' h rfl
    obtain rfl := (List.cons.inj hlast).1
    exact .inr ⟨between, List.concat_eq_append, rfl⟩

theorem not_sometime_nil : ¬ Sometime step P s [] := by
  rintro ⟨before, op, behind, h, -⟩
  cases before <;> cases h

theorem sometime_concat :
    Sometime step P s (ops ++ [op]) ↔ Sometime step P s ops ∨ P (ops.foldl step s) op := by
  constructor
  · rintro ⟨before, o, behind, h, hP⟩
    rcases concat_eq_append_cons h with ⟨rfl, rfl, rfl⟩ | ⟨between, rfl, hops⟩
    · exact .inr hP
    · exact .inl ⟨before, o, between, hops, hP⟩
  · rintro (⟨before, o, behind, rfl, hP⟩ | hP)
    · exact ⟨before, o, behind ++ [op], by simp, hP⟩
    · exact ⟨ops, op, [], rfl, hP⟩

theorem not_sometime_false : ¬ Sometime step (fun _ _ => False) s ops := by
  rintro ⟨-, -, -, -, h⟩
  exact h

theorem not_since_nil : ¬ Since step Q P s [] := by
  rintro ⟨before, op, behind, h, -⟩
  cases before <;> cases h

theorem since_concat :
    Since step Q P s (ops ++ [op]) ↔
      P (ops.foldl step s) op ∨ Since step Q P s ops ∧ ¬ Q (ops.foldl step s) op := by
  constructor
  · rintro ⟨before, o, behind, h, hP, hQ⟩
    rcases concat_eq_append_cons h with ⟨rfl, rfl, rfl⟩ | ⟨between, rfl, rfl⟩
    · exact .inl hP
    · rw [sometime_concat, not_or, ← List.foldl_append] at hQ
      refine .inr ⟨⟨before, o, between, rfl, hP, hQ.1⟩, ?_⟩
      simpa using hQ.2
  · rintro (hP | ⟨⟨before, o, between, rfl, hP, hnot⟩, hQ⟩)
    · exact ⟨ops, op, [], rfl, hP, not_sometime_nil⟩
    · refine ⟨before, o, between ++ [op], by simp, hP, ?_⟩
      rw [sometime_concat, not_or, ← List.foldl_append]
      exact ⟨hnot, by simpa using hQ⟩

/-! ## Facts about states -/

section

variable {X : S → O → Prop} {I H : S → Prop} (hI : I s)

include hI

/-- What every operation without `X` preserves holds behind a run without any `X`. -/
theorem holds_run (hkeeps : ∀ s op, I s → ¬ X s op → I (step s op)) (hX : ¬ Sometime step X s ops) :
    I (ops.foldl step s) := by
  induction ops using List.reverseRecOn with
  | nil => exact hI
  | append_singleton ops op ih =>
      rw [sometime_concat, not_or] at hX
      rw [List.foldl_append]
      exact hkeeps _ _ (ih hX.1) hX.2

/-- A fact that only a `P` brings about, and that a `Q` ends, holds since a `P` without a `Q` behind it.
The operations may count on what each of them preserves. -/
theorem since_of_holds (hkeeps : ∀ s op, I s → I (step s op)) (hnot : ¬ H s)
    (hstep : ∀ s op, I s → H (step s op) → P s op ∨ H s ∧ ¬ Q s op) (hH : H (ops.foldl step s)) :
    Since step Q P s ops := by
  have run : ∀ ops : List O, I (ops.foldl step s) := fun ops =>
    holds_run hI (fun s op h _ => hkeeps s op h) not_sometime_false
  induction ops using List.reverseRecOn with
  | nil => exact absurd hH hnot
  | append_singleton ops op ih =>
      rw [List.foldl_append] at hH
      rw [since_concat]
      exact (hstep _ _ (run ops) hH).imp_right (And.imp_left ih)

/-- In a run without `X`, a fact that a `P` brings about, and only a `P`, and that a `Q` ends, and only a
`Q`, holds exactly since a `P` without a `Q` behind it. -/
theorem since_iff (hkeeps : ∀ s op, I s → ¬ X s op → I (step s op)) (hnot : ¬ H s)
    (hstep : ∀ s op, I s → ¬ X s op → (H (step s op) ↔ P s op ∨ H s ∧ ¬ Q s op))
    (hX : ¬ Sometime step X s ops) : H (ops.foldl step s) ↔ Since step Q P s ops := by
  induction ops using List.reverseRecOn with
  | nil => exact iff_of_false hnot not_since_nil
  | append_singleton ops op ih =>
      rw [sometime_concat, not_or] at hX
      rw [List.foldl_append, List.foldl_cons, List.foldl_nil, since_concat,
        hstep _ _ (holds_run hI hkeeps hX.1) hX.2, ih hX.1]

end

end Pegboard.History
