import Pegboard.Proofs.LeftCalls

/-!
# Checking left calls

For a grammar at hand it can be computed that left calls have no cycles. Given are the rules that
may stay where they are and a rank for each rule; the check goes through the rules once, and reads
off their bodies which rules they may call from their left.

Main statements: `RankedBy.loopsOnly`, `RankedBy.acyclic`.
-/

namespace Pegboard

open Relation

namespace Expr

mutual

/-- Whether the expression may stay where it is, if the rules given may. -/
def staysIf (staying : List String) : Expr → Bool
  | .any | .range _ _ => false
  | .endOfInput | .not _ | .look _ => true
  | .terminal s => s == ""
  | .apply rule => staying.contains rule
  | .alt es => anyStaysIf staying es
  | .seq es => eachStaysIf staying es
  | .iter .plus e => e.staysIf staying
  | .iter .star _ | .iter .opt _ => true
  | .lex e => e.staysIf staying

def anyStaysIf (staying : List String) : List Expr → Bool
  | [] => false
  | e :: es => e.staysIf staying || anyStaysIf staying es

def eachStaysIf (staying : List String) : List Expr → Bool
  | [] => true
  | e :: es => e.staysIf staying && eachStaysIf staying es

end

mutual

/-- The rules that the expression may apply where it begins, in a syntactic context or not. -/
def leftRules (staying : List String) (syn : Bool) : Expr → List String
  | .any | .endOfInput | .terminal _ | .range _ _ => if syn then ["spaces"] else []
  | .apply rule => if syn then ["spaces", rule] else [rule]
  | .alt es => leftRulesOfAny staying syn es
  | .seq es => leftRulesOfEach staying syn es
  | .iter _ e | .not e | .look e => e.leftRules staying syn
  | .lex e => e.leftRules staying false

def leftRulesOfAny (staying : List String) (syn : Bool) : List Expr → List String
  | [] => []
  | e :: es => e.leftRules staying syn ++ leftRulesOfAny staying syn es

def leftRulesOfEach (staying : List String) (syn : Bool) : List Expr → List String
  | [] => []
  | e :: es =>
    e.leftRules staying syn ++ if e.staysIf staying then leftRulesOfEach staying syn es else []

end

variable {staying : List String} {syn : Bool} {e : Expr} {es : List Expr} {q : String}

theorem anyStaysIf_of_mem (he : e ∈ es) (h : e.staysIf staying = true) :
    anyStaysIf staying es = true := by
  induction es with
  | nil => simp at he
  | cons d es ih =>
      rw [anyStaysIf, Bool.or_eq_true]
      rcases List.mem_cons.mp he with rfl | he
      · exact .inl h
      · exact .inr (ih he)

theorem eachStaysIf_of_forall (h : ∀ e ∈ es, e.staysIf staying = true) :
    eachStaysIf staying es = true := by
  induction es with
  | nil => rfl
  | cons e es ih =>
      rw [eachStaysIf, Bool.and_eq_true]
      exact ⟨h e List.mem_cons_self, ih fun d hd => h d (List.mem_cons_of_mem _ hd)⟩

theorem mem_leftRulesOfAny (he : e ∈ es) (h : q ∈ e.leftRules staying syn) :
    q ∈ leftRulesOfAny staying syn es := by
  induction es with
  | nil => simp at he
  | cons d es ih =>
      rw [leftRulesOfAny, List.mem_append]
      rcases List.mem_cons.mp he with rfl | he
      · exact .inl h
      · exact .inr (ih he)

theorem mem_leftRulesOfEach {before after : List Expr}
    (hbefore : ∀ d ∈ before, d.staysIf staying = true) (h : q ∈ e.leftRules staying syn) :
    q ∈ leftRulesOfEach staying syn (before ++ e :: after) := by
  induction before with
  | nil =>
      rw [List.nil_append, leftRulesOfEach, List.mem_append]
      exact .inl h
  | cons d before ih =>
      rw [List.cons_append, leftRulesOfEach, List.mem_append, if_pos (hbefore d List.mem_cons_self)]
      exact .inr (ih fun c hc => hbefore c (List.mem_cons_of_mem _ hc))

/-- Where spaces are skipped, they are among the rules applied. -/
theorem spaces_mem_leftRules (h : e.skipsSpaces = true) : "spaces" ∈ e.leftRules staying true := by
  cases e <;> simp_all [skipsSpaces, consumesInput, leftRules]

end Expr

namespace Grammar

/-- The rules given include all that may stay, and a rule calls from its left none but itself and
rules of a smaller rank. -/
def RankedBy (g : Grammar) (staying : List String) (rank : String → Nat) : Prop :=
  ∀ rule ∈ g.rules,
    (rule.body.staysIf staying = true → rule.name ∈ staying) ∧
      ∀ q ∈ rule.body.leftRules staying (isSyntactic rule.name),
        q = rule.name ∨ rank q < rank rule.name

instance (g : Grammar) (staying : List String) (rank : String → Nat) :
    Decidable (g.RankedBy staying rank) :=
  inferInstanceAs (Decidable (∀ rule ∈ g.rules, _))

variable {g : Grammar} {staying : List String} {rank : String → Nat} {syn : Bool} {e : Expr}
variable {r q : String}

theorem MayStay.staysIf (h : g.MayStay e)
    (hstaying : ∀ rule ∈ g.rules, rule.body.staysIf staying = true → rule.name ∈ staying) :
    e.staysIf staying = true := by
  induction h with
  | endOfInput | terminal | not | look => rfl
  | apply hrule _ ih =>
      rw [Expr.staysIf, List.contains_iff_mem, ← rule?_name hrule]
      exact hstaying _ (rule?_mem hrule) ih
  | alt he _ ih => exact Expr.anyStaysIf_of_mem he ih
  | seq _ ih => exact Expr.eachStaysIf_of_forall ih
  | @iter op e hop =>
      cases op with
      | plus => exact absurd rfl hop
      | star | opt => rfl
  | plus _ ih => exact ih
  | lex _ ih => exact ih

theorem LeftApplies.mem_leftRules (h : g.LeftApplies syn e q)
    (hstaying : ∀ rule ∈ g.rules, rule.body.staysIf staying = true → rule.name ∈ staying) :
    q ∈ e.leftRules staying syn := by
  induction h with
  | @apply syn rule => cases syn <;> simp [Expr.leftRules]
  | spaces hskips => exact Expr.spaces_mem_leftRules hskips
  | alt he _ ih => exact Expr.mem_leftRulesOfAny he ih
  | seq before hbefore _ ih =>
      exact Expr.mem_leftRulesOfEach (fun d hd => (hbefore d hd).staysIf hstaying) ih
  | iter _ ih => exact ih
  | not _ ih => exact ih
  | look _ ih => exact ih
  | lex _ ih => exact ih

namespace RankedBy

variable (h : g.RankedBy staying rank)

include h

/-- The check has seen all left calls. -/
theorem mem_leftRules {rule : Rule}
    (hcall : g.LeftApplies (isSyntactic rule.name) rule.body q) :
    q ∈ rule.body.leftRules staying (isSyntactic rule.name) :=
  hcall.mem_leftRules fun d hd => (h d hd).1

theorem leftCalls (hcall : g.LeftCalls r q) : q = r ∨ rank q < rank r := by
  obtain ⟨rule, hrule, happlies⟩ := hcall
  rw [← rule?_name hrule]
  exact (h rule (rule?_mem hrule)).2 q (h.mem_leftRules happlies)

theorem transGen (hcalls : TransGen g.LeftCalls r q) : q = r ∨ rank q < rank r := by
  induction hcalls with
  | single hcall => exact h.leftCalls hcall
  | tail _ hcall ih =>
      rcases h.leftCalls hcall with rfl | hlt
      · exact ih
      · rcases ih with rfl | hlt'
        · exact .inr hlt
        · exact .inr (hlt.trans hlt')

theorem reflTransGen (hcalls : ReflTransGen g.LeftCalls r q) : rank q ≤ rank r := by
  rcases reflTransGen_iff_eq_or_transGen.mp hcalls with rfl | hcalls
  · exact Nat.le_refl _
  · exact (h.transGen hcalls).elim (fun heq => heq ▸ Nat.le_refl _) Nat.le_of_lt

theorem loopsOnly : g.LoopsOnly := by
  intro r q hne hrq hqr
  have hlt := (h.transGen hrq).resolve_left hne.symm
  have hlt' := (h.transGen hqr).resolve_left hne
  omega

theorem acyclic
    (hloop : ∀ rule ∈ g.rules,
      rule.name ∉ rule.body.leftRules staying (isSyntactic rule.name)) : g.Acyclic := by
  intro r hrr
  obtain ⟨q, hcall, hback⟩ := TransGen.head'_iff.mp hrr
  by_cases hq : q = r
  · subst hq
    obtain ⟨rule, hrule, happlies⟩ := hcall
    obtain rfl := rule?_name hrule
    exact hloop rule (rule?_mem hrule) (h.mem_leftRules happlies)
  · have hlt := (h.leftCalls hcall).resolve_left hq
    rcases Relation.reflTransGen_iff_eq_or_transGen.mp hback with heq | hback
    · exact hq heq.symm
    · have := (h.transGen hback).resolve_left (Ne.symm hq)
      omega

end RankedBy

end Grammar

end Pegboard
