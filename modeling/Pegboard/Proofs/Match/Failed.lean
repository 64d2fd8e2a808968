import Pegboard.Grammar.Compile
import Pegboard.Proofs.Match.Session
import Pegboard.Proofs.Match.Telling
import Pegboard.Proofs.Match.Whole
import Pegboard.Proofs.Text.Edit

/-!
# What a failed match says

The failures of a match stand at one place, none of them twice, and the messages of a failed match
read each of them out. Unless the start rule is mute there are some: a failed match says what was
expected. A mute rule may fail without a word, and a match from it is then reported at the beginning
of the text, where nothing is expected.

Main statement: `Grammar.matchText_failed`.
-/

namespace Pegboard

open Match

namespace Failures

/-- Each piece of an enumeration stands in it. -/
theorem infix_intercalate {α : Type} {sep x : List α} {xs : List (List α)} (h : x ∈ xs) :
    x <:+: sep.intercalate xs := by
  rw [List.intercalate]
  refine List.infix_of_mem_flatten ?_
  induction xs with
  | nil => cases h
  | cons y ys ih =>
      cases ys with
      | nil => simpa using h
      | cons z zs =>
          rcases List.mem_cons.mp h with rfl | h
          · simp
          · simp [ih h]

theorem infix_orList {a : String} {as : List String} (h : a ∈ as) :
    a.toList <:+: (orList as).toList := by
  match as with
  | [] => cases h
  | [b] =>
      obtain rfl := List.mem_singleton.mp h
      exact List.infix_rfl
  | [b, c] =>
      rw [orList, String.toList_append, String.toList_append]
      simp only [List.mem_cons, List.not_mem_nil, or_false] at h
      rcases h with rfl | rfl
      · exact ((List.prefix_append _ _).trans (List.prefix_append _ _)).isInfix
      · exact (List.suffix_append _ _).isInfix
  | b :: c :: d :: rest =>
      have hne : b :: c :: d :: rest ≠ [] := List.cons_ne_nil _ _
      rw [orList, String.toList_append, String.toList_append, String.toList_intercalate,
        List.getLastD_eq_getLast?, List.getLast?_eq_some_getLast hne, Option.getD_some]
      rw [← List.dropLast_concat_getLast hne, List.mem_append, List.mem_singleton] at h
      rcases h with h | rfl
      · have hmem : a.toList <:+: (", ".toList).intercalate
            ((b :: c :: d :: rest).dropLast.map String.toList) :=
          infix_intercalate (List.mem_map_of_mem h)
        exact hmem.trans ((List.prefix_append _ _).trans (List.prefix_append _ _)).isInfix
      · exact (List.suffix_append _ _).isInfix

variable {f : Failures} {x : Failure}

theorem infix_expectedText (h : x ∈ f.toList) :
    x.expected.text.toList <:+: f.expectedText.toList := by
  cases f with
  | empty => cases h
  | furthest pos es =>
      obtain ⟨e, he, rfl⟩ := List.mem_map.mp h
      exact infix_orList (List.mem_map_of_mem (f := Expectation.text) he)

theorem offset_of_mem (h : x ∈ f.toList) : f.pos? = some x.offset := by
  cases f with
  | empty => cases h
  | furthest pos es =>
      obtain ⟨e, -, rfl⟩ := List.mem_map.mp h
      rfl

theorem nodup_toList (h : f.expected.Nodup) : f.toList.Nodup := by
  cases f with
  | empty => exact List.nodup_nil
  | furthest pos es => exact h.map fun e e' heq => (Failure.mk.inj heq).2

theorem toList_ne_nil (h : f.expected ≠ []) : f.toList ≠ [] := by
  cases f with
  | empty => exact absurd rfl h
  | furthest pos es => simpa [toList, expected] using h

end Failures

namespace Match.Result

variable {r : Result} {x : Failure}

theorem infix_shortMessage (hfailed : r.succeeded = false) (h : x ∈ r.failures.toList) :
    x.expected.text.toList <:+: r.shortMessage.toList := by
  rw [shortMessage, hfailed, if_neg Bool.false_ne_true, String.toList_append]
  exact (Failures.infix_expectedText h).trans (List.suffix_append _ _).isInfix

theorem infix_message (hfailed : r.succeeded = false) (h : x ∈ r.failures.toList) :
    x.expected.text.toList <:+: r.message.toList := by
  rw [message, hfailed, if_neg Bool.false_ne_true, String.toList_append]
  exact (Failures.infix_expectedText h).trans (List.suffix_append _ _).isInfix

end Match.Result

namespace Grammar

theorem rule?_of_startRule {g : Grammar} {start : String} {rule : Rule}
    (h : g.startRule (some start) = .ok rule) : g.rule? start = some rule := by
  simp only [startRule, Option.some_or] at h
  cases hrule : g.rule? start with
  | none =>
      rw [hrule] at h
      cases h
  | some rule' =>
      rw [hrule] at h
      rw [Except.ok.inj h]

/-- The failures of a failed match are different ones at the place that it is reported at, and its
messages read each of them out. There are some unless the start rule is mute. -/
theorem matchText_failed {g : Grammar} {text start : String} {r : Match.Result}
    (h : g.matchText text (some start) = .ok r) (hfailed : r.succeeded = false) :
    (r.failures.toList.Nodup ∧
      ∀ x ∈ r.failures.toList, r.failures.pos? = some x.offset ∧ r.failureOffset = x.offset) ∧
    (∀ x ∈ r.failures.toList, x.expected.text.toList <:+: r.message.toList ∧
      x.expected.text.toList <:+: r.shortMessage.toList) ∧
    (¬ g.Mute start → r.failures.toList ≠ []) := by
  obtain ⟨rule, a, memo, hrule, hrun, rfl⟩ := matchText_eq_ok.mp h
  have hgathers : Failures.Gathers ∅ a.failures := Evaluation.run_gathers hrun
  refine ⟨⟨?_, fun x hx => ?_⟩, fun x hx => ?_, fun hmute => ?_⟩
  · exact Failures.nodup_toList (hgathers.nodup List.nodup_nil)
  · have hpos := Failures.offset_of_mem hx
    exact ⟨hpos, by rw [Match.Result.failureOffset, hpos, Option.getD_some]⟩
  · exact ⟨Match.Result.infix_message hfailed hx, Match.Result.infix_shortMessage hfailed hx⟩
  · obtain ⟨later, hlater, hstart⟩ : ∃ later, g.Telling later ∧ later start := by
      simpa [Mute] using hmute
    have hname : rule.name = start := rule?_name (rule?_of_startRule hrule)
    have hnone : a.tree? = none := by simpa [Match.Result.succeeded] using hfailed
    refine Failures.toList_ne_nil (hgathers.expected_ne_nil ?_)
    exact Stack.run_speaks hlater (hname ▸ hstart) (Stack.intact_blank _) (Memo.rests_blank _ _ _)
      (Memo.Spoken.blank _ _ _) hrun hnone

theorem matchText_failed_sums :
    ∃ r, Session.sums.matchText "1+" (some "sum") = .ok r ∧ r.succeeded = false ∧ ¬ Session.sums.Mute "sum" ∧
      (r.failures.toList.Nodup ∧
        ∀ x ∈ r.failures.toList, r.failures.pos? = some x.offset ∧ r.failureOffset = x.offset) ∧
      (∀ x ∈ r.failures.toList, x.expected.text.toList <:+: r.message.toList ∧
        x.expected.text.toList <:+: r.shortMessage.toList) ∧
      r.failures.toList ≠ [] := by
  have hmatch : (Session.sums.matchText "1+" (some "sum")).toOption.map (·.succeeded) = some false := by
    decide +kernel
  obtain ⟨r, hr, hfailed⟩ := toOption_map_eq_some hmatch
  have hmute : ¬ Session.sums.Mute "sum" := by
    have hmark : Session.sums.TellsIn (· ∈ ["sum", "digit", "mark"]) 1 "mark" :=
      ⟨_, rfl, .inr .terminal⟩
    have hdigit : Session.sums.TellsIn (· ∈ ["sum", "digit", "mark"]) 1 "digit" :=
      ⟨_, rfl, .inr (.cons .range nofun (.cons (.apply (by simp)) (fun _ => .nil) .nil))⟩
    have hsum : Session.sums.TellsIn (· ∈ ["sum", "digit", "mark"]) 2 "sum" :=
      ⟨_, rfl, .inr (.alt (List.mem_cons_of_mem _ (List.mem_singleton_self _)) (.apply hdigit))⟩
    intro h
    refine h (· ∈ ["sum", "digit", "mark"]) ?_ (by simp)
    simp only [Telling, List.forall_mem_cons]
    exact ⟨⟨2, hsum⟩, ⟨1, hdigit⟩, ⟨1, hmark⟩, List.forall_mem_nil _⟩
  obtain ⟨hplaces, hmessages, hsome⟩ := matchText_failed hr hfailed
  exact ⟨r, hr, hfailed, hmute, hplaces, hmessages, hsome hmute⟩

/-- A rule that only applies itself fails without a word: the application of it reads the seed. -/
theorem matchText_failed_silently :
    ∃ (g : Grammar) (r : Match.Result), compile "G \x7b\n  x = x\n\x7d" = .ok [g] ∧
      g.ownRules.map (·.name) = ["x"] ∧ g.matchText "a" (some "x") = .ok r ∧
        r.succeeded = false ∧ r.failures.toList = [] ∧
          r.shortMessage = "Line 1, col 1: expected nothing" := by
  have hcompile : (compile "G \x7b\n  x = x\n\x7d").toOption.map
      (·.map fun g => (g.ownRules.map (·.name), (g.matchText "a" (some "x")).toOption.map
        fun r => (r.succeeded, r.failures.toList.isEmpty, r.shortMessage))) =
      some [(["x"], some (false, true, "Line 1, col 1: expected nothing"))] := by
    decide +kernel
  obtain ⟨gs, hgs, heq⟩ := toOption_map_eq_some hcompile
  obtain ⟨g, rfl, heq⟩ := List.map_eq_singleton_iff.mp heq
  obtain ⟨hnames, hmatch⟩ := Prod.mk.inj (List.singleton_inj.mp heq)
  obtain ⟨r, hr, heq⟩ := toOption_map_eq_some hmatch
  obtain ⟨hfailed, heq⟩ := Prod.mk.inj heq
  obtain ⟨hfailures, hshort⟩ := Prod.mk.inj heq
  exact ⟨g, r, hgs, hnames, hr, hfailed, List.isEmpty_iff.mp hfailures, hshort⟩

end Grammar

end Pegboard
