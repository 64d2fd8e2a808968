import Pegboard.Proofs.Grammar.Written

/-!
# Expressions taken apart

A choice in a choice, or a sequence in a sequence, matches what the larger one without it would. In
`Expr.flat` there are none of them. It changes nothing a second time, and the rules that are applied
stay the same.
-/

namespace Pegboard.Expr

/-- The expressions that the expression is a choice between. -/
def choices : Expr → List Expr
  | alt es => es
  | e => [e]

/-- The expressions that the expression is a sequence of. -/
def parts : Expr → List Expr
  | seq es => es
  | e => [e]

mutual

/-- The expression with each choice in a choice, and each sequence in a sequence, taken apart. -/
def flat : Expr → Expr
  | alt es => choice (flatChoices es)
  | seq es => sequence (flatParts es)
  | iter op e => iter op e.flat
  | not e => not e.flat
  | look e => look e.flat
  | lex e => lex e.flat
  | any => any
  | endOfInput => endOfInput
  | terminal s => terminal s
  | range lo hi => range lo hi
  | apply q => apply q

def flatChoices : List Expr → List Expr
  | [] => []
  | e :: es => e.flat.choices ++ flatChoices es

def flatParts : List Expr → List Expr
  | [] => []
  | e :: es => e.flat.parts ++ flatParts es

end

/-- The expression is no sequence. -/
def isSeq : Expr → Bool
  | seq _ => true
  | _ => false

variable {e f : Expr} {es fs : List Expr}

theorem choices_of_not (h : e.isAlt = false) : e.choices = [e] := by
  cases e <;> first | rfl | cases h

theorem parts_of_not (h : e.isSeq = false) : e.parts = [e] := by
  cases e <;> first | rfl | cases h

theorem flatChoices_eq (es : List Expr) : flatChoices es = es.flatMap (·.flat.choices) := by
  induction es with
  | nil => rfl
  | cons e es ih => rw [flatChoices, ih, List.flatMap_cons]

theorem flatParts_eq (es : List Expr) : flatParts es = es.flatMap (·.flat.parts) := by
  induction es with
  | nil => rfl
  | cons e es ih => rw [flatParts, ih, List.flatMap_cons]

theorem choice_of_two (h : 2 ≤ es.length) : choice es = alt es := by
  match es with
  | _ :: _ :: _ => rfl

theorem sequence_of_two (h : 2 ≤ es.length) : sequence es = seq es := by
  match es with
  | _ :: _ :: _ => rfl

theorem flat_alt (h : ∀ c ∈ es, c.flat = c ∧ c.isAlt = false) : (alt es).flat = choice es := by
  have hsingle : ∀ c ∈ es, c.flat.choices = [c] := fun c hc => by
    obtain ⟨hflat, hnot⟩ := h c hc
    rw [hflat, choices_of_not hnot]
  rw [flat, flatChoices_eq, List.flatMap_congr hsingle, List.flatMap_singleton']

theorem flat_seq (h : ∀ c ∈ es, c.flat = c ∧ c.isSeq = false) :
    (seq es).flat = sequence es := by
  have hsingle : ∀ c ∈ es, c.flat.parts = [c] := fun c hc => by
    obtain ⟨hflat, hnot⟩ := h c hc
    rw [hflat, parts_of_not hnot]
  rw [flat, flatParts_eq, List.flatMap_congr hsingle, List.flatMap_singleton']

/-- The expression is taken apart. -/
structure IsFlat (f : Expr) : Prop where
  flat_eq : f.flat = f
  choices_ne : f.choices ≠ []
  parts_ne : f.parts ≠ []
  choice_flat : ∀ c ∈ f.choices, c.flat = c ∧ c.isAlt = false
  part_flat : ∀ c ∈ f.parts, c.flat = c ∧ c.isSeq = false
  choice_eq : choice f.choices = f
  sequence_eq : sequence f.parts = f

namespace IsFlat

theorem single (h : f.flat = f) (halt : f.isAlt = false) (hseq : f.isSeq = false) : f.IsFlat := by
  have hchoices := choices_of_not halt
  have hparts := parts_of_not hseq
  constructor
  · exact h
  · simp [hchoices]
  · simp [hparts]
  · simpa [hchoices] using ⟨h, halt⟩
  · simpa [hparts] using ⟨h, hseq⟩
  · rw [hchoices, choice]
  · rw [hparts, sequence]

theorem alt (htwo : 2 ≤ es.length) (h : ∀ c ∈ es, c.flat = c ∧ c.isAlt = false) :
    (Expr.alt es).IsFlat := by
  have hflat : (Expr.alt es).flat = Expr.alt es := (flat_alt h).trans (choice_of_two htwo)
  constructor
  · exact hflat
  · exact List.ne_nil_of_length_pos (Nat.lt_of_lt_of_le Nat.two_pos htwo)
  · exact List.cons_ne_nil _ _
  · exact h
  · exact List.forall_mem_singleton.mpr ⟨hflat, rfl⟩
  · exact choice_of_two htwo
  · rfl

theorem seq (htwo : 2 ≤ es.length) (h : ∀ c ∈ es, c.flat = c ∧ c.isSeq = false) :
    (Expr.seq es).IsFlat := by
  have hflat : (Expr.seq es).flat = Expr.seq es := (flat_seq h).trans (sequence_of_two htwo)
  constructor
  · exact hflat
  · exact List.cons_ne_nil _ _
  · exact List.ne_nil_of_length_pos (Nat.lt_of_lt_of_le Nat.two_pos htwo)
  · exact List.forall_mem_singleton.mpr ⟨hflat, rfl⟩
  · exact h
  · rfl
  · exact sequence_of_two htwo

end IsFlat

/-- Each element contributes one expression at least. -/
theorem length_le_flatMap {f : Expr → List Expr} (h : ∀ e ∈ es, f e ≠ []) :
    es.length ≤ (es.flatMap f).length := by
  induction es with
  | nil => exact Nat.zero_le _
  | cons e es ih =>
      obtain ⟨he, hes⟩ := List.forall_mem_cons.mp h
      have hpos := List.length_pos_iff.mpr he
      have := ih hes
      rw [List.flatMap_cons, List.length_append, List.length_cons]
      omega

mutual

theorem isFlat_flat : ∀ e : Expr, e.full = true → e.flat.IsFlat
  | alt es, h => by
      rw [full, Bool.and_eq_true, decide_eq_true_eq] at h
      have hes := isFlat_flatAll es h.2
      have htwo : 2 ≤ (es.flatMap (·.flat.choices)).length :=
        Nat.le_trans h.1 (length_le_flatMap fun e he => (hes e he).choices_ne)
      rw [flat, flatChoices_eq, choice_of_two htwo]
      refine .alt htwo fun c hc => ?_
      obtain ⟨e, he, hc⟩ := List.mem_flatMap.mp hc
      exact (hes e he).choice_flat c hc
  | seq es, h => by
      rw [full, Bool.and_eq_true, decide_eq_true_eq] at h
      have hes := isFlat_flatAll es h.2
      have htwo : 2 ≤ (es.flatMap (·.flat.parts)).length :=
        Nat.le_trans h.1 (length_le_flatMap fun e he => (hes e he).parts_ne)
      rw [flat, flatParts_eq, sequence_of_two htwo]
      refine .seq htwo fun c hc => ?_
      obtain ⟨e, he, hc⟩ := List.mem_flatMap.mp hc
      exact (hes e he).part_flat c hc
  | iter op e, h => by
      refine .single ?_ rfl rfl
      rw [flat, flat, (isFlat_flat e h).flat_eq]
  | not e, h => by
      refine .single ?_ rfl rfl
      rw [flat, flat, (isFlat_flat e h).flat_eq]
  | look e, h => by
      refine .single ?_ rfl rfl
      rw [flat, flat, (isFlat_flat e h).flat_eq]
  | lex e, h => by
      refine .single ?_ rfl rfl
      rw [flat, flat, (isFlat_flat e h).flat_eq]
  | any, _ | endOfInput, _ | terminal _, _ | range _ _, _ | apply _, _ => .single rfl rfl rfl

theorem isFlat_flatAll : ∀ es : List Expr, fullAll es = true → ∀ e ∈ es, e.flat.IsFlat
  | [], _ => nofun
  | e :: es, h => by
      rw [fullAll, Bool.and_eq_true] at h
      exact List.forall_mem_cons.mpr ⟨isFlat_flat e h.1, isFlat_flatAll es h.2⟩

end

theorem flat_alt_of_full (h : (alt es).full = true) :
    (alt es).flat = alt (es.flatMap (·.flat.choices)) := by
  rw [full, Bool.and_eq_true, decide_eq_true_eq] at h
  have hes := isFlat_flatAll es h.2
  have htwo := Nat.le_trans h.1 (length_le_flatMap fun e he => (hes e he).choices_ne)
  rw [flat, flatChoices_eq, choice_of_two htwo]

theorem flat_seq_of_full (h : (seq es).full = true) :
    (seq es).flat = seq (es.flatMap (·.flat.parts)) := by
  rw [full, Bool.and_eq_true, decide_eq_true_eq] at h
  have hes := isFlat_flatAll es h.2
  have htwo := Nat.le_trans h.1 (length_le_flatMap fun e he => (hes e he).parts_ne)
  rw [flat, flatParts_eq, sequence_of_two htwo]

theorem choices_flat (h : e.full = true) (hnot : e.isAlt = false) : e.flat.choices = [e.flat] := by
  cases e with
  | alt es => cases hnot
  | seq es =>
      rw [flat_seq_of_full h]
      rfl
  | _ =>
      rw [flat]
      rfl

theorem parts_flat (h : e.full = true) (hnot : e.isSeq = false) : e.flat.parts = [e.flat] := by
  cases e with
  | seq es => cases hnot
  | alt es =>
      rw [flat_alt_of_full h]
      rfl
  | _ =>
      rw [flat]
      rfl

/-! ## Applications -/

theorem applications_choices (lexical : Bool) (e : Expr) :
    e.choices.flatMap (applications lexical) = e.applications lexical := by
  cases e with
  | alt es => rw [choices, applications, applicationsAll_eq]
  | _ => exact List.flatMap_singleton (applications lexical) _

theorem applications_parts (lexical : Bool) (e : Expr) :
    e.parts.flatMap (applications lexical) = e.applications lexical := by
  cases e with
  | seq es => rw [parts, applications, applicationsAll_eq]
  | _ => exact List.flatMap_singleton (applications lexical) _

mutual

theorem applications_flat (lexical : Bool) : ∀ e : Expr,
    e.flat.applications lexical = e.applications lexical
  | alt es => by
      rw [flat, applications_choice, flatChoices_eq, List.flatMap_assoc, applications,
        applicationsAll_eq]
      refine List.flatMap_congr fun e he => ?_
      rw [applications_choices, applications_flatAll lexical es e he]
  | seq es => by
      rw [flat, applications_sequence, flatParts_eq, List.flatMap_assoc, applications,
        applicationsAll_eq]
      refine List.flatMap_congr fun e he => ?_
      rw [applications_parts, applications_flatAll lexical es e he]
  | iter op e => by
      rw [flat, applications, applications, applications_flat lexical e]
  | not e => by
      rw [flat, applications, applications, applications_flat lexical e]
  | look e => by
      rw [flat, applications, applications, applications_flat lexical e]
  | lex e => by
      rw [flat, applications, applications, applications_flat true e]
  | any | endOfInput | terminal _ | range _ _ | apply _ => by rw [flat]

theorem applications_flatAll (lexical : Bool) : ∀ es : List Expr, ∀ e ∈ es,
    e.flat.applications lexical = e.applications lexical
  | [] => nofun
  | e :: es =>
      List.forall_mem_cons.mpr ⟨applications_flat lexical e, applications_flatAll lexical es⟩

end

end Pegboard.Expr
