import Pegboard.Proofs.Applied

/-!
# What the rules of a grammar mean

A meaning of a grammar answers for every rule with what its rounds come to under that meaning
itself. Where left calls have no cycles but loops, there is exactly one: an application needs only
applications of shorter texts, and at its own place of rules with a smaller rank, its own seed
apart.

Main statements: `LoopsOnly.means` and `Means.unique`; `LoopsOnly.meaning_same`, an application
comes to the same on every text that agrees on what it looked at.
-/

namespace Pegboard

open Text

namespace Grammar

/-- The meaning answers for the rules of the grammar. -/
def Means (g : Grammar) (m : Meaning) : Prop :=
  ∀ q cs, m q cs =
    match g.rule? q with
    | none => .nothing
    | some rule => rule.applied m cs

open Classical in
/-- What applying a rule comes to, where it waits for nothing but applications that come before. -/
noncomputable def meaning (g : Grammar) (q : String) (cs : List Char) : Application :=
  match g.rule? q with
  | none => .nothing
  | some rule =>
    rule.applied (fun q' cs' =>
      if _ : g.Before (q', cs') (q, cs) then g.meaning q' cs' else .nothing) cs
termination_by (cs.length, g.rank q)
decreasing_by
  rename_i h
  rcases h with h | ⟨heq, h⟩
  · exact .left _ _ h
  · rw [heq]
    exact .right _ h

open Classical in
/-- The meaning, as far as it is known in front of an application. -/
noncomputable def meaningBefore (g : Grammar) (q : String) (cs : List Char) : Meaning :=
  fun q' cs' => if g.Before (q', cs') (q, cs) then g.meaning q' cs' else .nothing

variable {g : Grammar} {q : String} {rule : Rule} {cs cs' : List Char}

theorem meaning_of_none (h : g.rule? q = none) : g.meaning q cs = .nothing := by
  rw [meaning, h]

theorem meaning_eq_before (h : g.rule? q = some rule) :
    g.meaning q cs = rule.applied (g.meaningBefore q cs) cs := by
  rw [meaning, h]
  rfl

theorem meaningBefore_of_before {q' : String} (h : g.Before (q', cs') (q, cs)) :
    g.meaningBefore q cs q' cs' = g.meaning q' cs' :=
  if_pos h

/-! ## Bounds -/

/-- The application takes a part of the text, and nothing only if the rule may stay. -/
def FitsAndStays (g : Grammar) (a : String × List Char) : Prop :=
  (g.meaning a.1 a.2).Fits a.2 ∧
    ∀ t, (g.meaning a.1 a.2).tree? = some t → t.length = 0 → g.MayStay (.apply a.1)

theorem meaningBefore_fits (h : ∀ a, g.Before a (q, cs) → g.FitsAndStays a) :
    (g.meaningBefore q cs).Fits := by
  intro q' cs'
  rw [meaningBefore]
  split
  · exact (h _ ‹_›).1
  · simp [Application.Fits, Application.nothing]

theorem meaningBefore_stays (h : ∀ a, g.Before a (q, cs) → g.FitsAndStays a) :
    (g.meaningBefore q cs).Stays g := by
  intro q' cs' t ht h0
  rw [meaningBefore] at ht
  split at ht
  · exact (h _ ‹_›).2 t ht h0
  · cases ht

theorem fitsAndStays (g : Grammar) (a : String × List Char) : g.FitsAndStays a := by
  induction a using g.before_wellFounded.induction with
  | _ a ih =>
      obtain ⟨q, cs⟩ := a
      cases hrule : g.rule? q with
      | none =>
          rw [FitsAndStays, meaning_of_none hrule]
          exact ⟨by simp [Application.Fits, Application.nothing], by simp [Application.nothing]⟩
      | some rule =>
          have hname := rule?_name hrule
          rw [FitsAndStays, meaning_eq_before hrule]
          have hsound := Rule.applied_sound (meaningBefore_fits ih)
            (meaningBefore_stays ih) (by rwa [hname]) cs
          exact ⟨hsound.fits, fun t ht h0 => .apply hrule (hsound.stays t ht h0)⟩

theorem meaning_fits (g : Grammar) : Meaning.Fits g.meaning :=
  fun q cs => (g.fitsAndStays (q, cs)).1

theorem meaning_stays (g : Grammar) : Meaning.Stays g.meaning g :=
  fun q cs => (g.fitsAndStays (q, cs)).2

/-! ## The meaning of a grammar -/

/-- Where left calls have no cycles but loops, what an application needs comes before it. -/
theorem LoopsOnly.before (hg : g.LoopsOnly) (hrule : g.rule? rule.name = some rule) {m : Meaning}
    {a : Application} (ha : a.Sound g rule m cs) {c : Call} (hc : c ∈ a.calls)
    (hne : c ≠ ⟨0, rule.name⟩) :
    g.Before (c.rule, dropBytes cs c.offset) (rule.name, cs) := by
  rcases Nat.eq_zero_or_pos c.offset with h0 | hpos
  · refine .inr ⟨by simp [h0], hg.rank_lt ⟨rule, hrule, ha.left c hc h0⟩ ?_⟩
    intro (hname : c.rule = rule.name)
    exact hne (by rw [← hname, ← h0])
  · exact .inl ((ha.calls c hc).1.length_drop_lt hpos)

theorem LoopsOnly.meaning_eq (hg : g.LoopsOnly) (hrule : g.rule? rule.name = some rule) :
    g.meaning rule.name cs = rule.applied g.meaning cs := by
  have fits : (g.meaningBefore rule.name cs).Fits := meaningBefore_fits fun a _ => g.fitsAndStays a
  have stays : (g.meaningBefore rule.name cs).Stays g :=
    meaningBefore_stays fun a _ => g.fitsAndStays a
  have hsound := Rule.applied_sound fits stays hrule cs
  rw [meaning_eq_before hrule]
  symm
  -- the rounds apply nothing that does not come before
  refine Rule.applied_same fits stays hrule (.refl _ cs) ⟨Nat.le_refl _, fun c hc hne => ?_⟩
  exact (meaningBefore_of_before (hg.before hrule hsound hc hne)).symm

theorem LoopsOnly.means (hg : g.LoopsOnly) : g.Means g.meaning := by
  intro q cs
  cases hrule : g.rule? q with
  | none => exact meaning_of_none hrule
  | some rule =>
      have hname := rule?_name hrule
      subst hname
      exact hg.meaning_eq hrule

theorem LoopsOnly.meaning_sound (hg : g.LoopsOnly) (hrule : g.rule? rule.name = some rule)
    (cs : List Char) : (g.meaning rule.name cs).Sound g rule g.meaning cs := by
  rw [hg.meaning_eq hrule]
  exact Rule.applied_sound g.meaning_fits g.meaning_stays hrule cs

/-- What holds of names without a rule, and of an application if it holds of those that it needs,
itself left aside, holds of all. -/
theorem LoopsOnly.induction (hg : g.LoopsOnly) {P : String → List Char → Prop}
    (norule : ∀ q cs, g.rule? q = none → P q cs)
    (step : ∀ rule cs, g.rule? rule.name = some rule →
      (∀ c ∈ (g.meaning rule.name cs).calls, c ≠ ⟨0, rule.name⟩ →
        P c.rule (dropBytes cs c.offset)) → P rule.name cs) :
    ∀ q cs, P q cs := by
  have all : ∀ a : String × List Char, P a.1 a.2 := by
    intro a
    induction a using g.before_wellFounded.induction with
    | _ a ih =>
        obtain ⟨q, cs⟩ := a
        cases hrule : g.rule? q with
        | none => exact norule q cs hrule
        | some rule =>
            have hname := rule?_name hrule
            subst hname
            exact step rule cs hrule fun c hc hne =>
              ih _ (hg.before hrule (hg.meaning_sound hrule cs) hc hne)
  exact fun q cs => all (q, cs)

theorem Means.eq_applied {m : Meaning} (h : g.Means m) (hrule : g.rule? q = some rule) :
    m q cs = rule.applied m cs := by
  rw [h q cs, hrule]

/-- A grammar whose left calls have no cycles but loops has one meaning only. -/
theorem Means.unique (hg : g.LoopsOnly) {m : Meaning} (h : g.Means m) : m = g.meaning := by
  funext q cs
  refine hg.induction (P := fun q cs => m q cs = g.meaning q cs) ?_ ?_ q cs
  · intro q cs hrule
    rw [h q cs, hrule, meaning_of_none hrule]
  · intro rule cs hrule ih
    rw [h.eq_applied hrule, hg.meaning_eq hrule]
    refine Rule.applied_same g.meaning_fits g.meaning_stays hrule (.refl _ cs)
      ⟨Nat.le_refl _, fun c hc hne => ih c ?_ hne⟩
    rwa [hg.meaning_eq hrule]

/-- An application comes to the same on every text that agrees on what it looked at. -/
theorem LoopsOnly.meaning_same (hg : g.LoopsOnly) (q : String) (cs cs' : List Char)
    (h : SameFor (g.meaning q cs).examined cs cs') : g.meaning q cs' = g.meaning q cs := by
  refine hg.induction (P := fun q cs => ∀ n cs', (g.meaning q cs).examined ≤ n →
    SameFor n cs cs' → g.meaning q cs' = g.meaning q cs) ?_ ?_ q cs _ cs' (Nat.le_refl _) h
  · intro q cs hrule n cs' _ _
    rw [meaning_of_none hrule, meaning_of_none hrule]
  · intro rule cs hrule ih n cs' hn hsame
    have hsound := hg.meaning_sound hrule cs
    rw [hg.meaning_eq hrule, hg.meaning_eq hrule]
    rw [hg.meaning_eq hrule] at hn hsound ih
    refine Rule.applied_same g.meaning_fits g.meaning_stays hrule hsame ⟨hn, fun c hc hne => ?_⟩
    -- a call ends looking where the application does, at the latest
    obtain ⟨hcut, hown | hle⟩ := hsound.calls c hc
    · exact absurd hown hne
    · exact ih c hc hne (n - c.offset) _ (by omega) (hsame.drop hcut (by omega)).2

end Grammar

end Pegboard
