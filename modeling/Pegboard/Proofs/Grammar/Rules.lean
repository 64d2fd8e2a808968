import Mathlib.Data.List.Nodup
import Pegboard.Grammar.Source

/-!
# The rules of a grammar

A rule is put in the place of the one with its name, or after all others; so the rules defined one
after the other under names of their own are all there in the end. Where every name is declared
once, a rule is found under its name.

Main statement: `hasBody_ofGrammars` looks up the rules of the grammar of grammar sources.
-/

namespace Pegboard.Grammar

variable {g : Grammar} {r s : Rule} {old : List Rule}

theorem placeRule_of_fresh (h : r.name ∉ old.map (·.name)) : placeRule r old = old ++ [r] := by
  induction old with
  | nil => rfl
  | cons s rest ih =>
      obtain ⟨hne, hrest⟩ := not_or.mp (mt List.mem_cons.mpr h)
      rw [placeRule, if_neg (by simpa using Ne.symm hne), ih hrest, List.cons_append]

theorem mem_placeRule (r : Rule) (old : List Rule) : r ∈ placeRule r old := by
  induction old with
  | nil => exact List.mem_singleton_self r
  | cons s rest ih =>
      rw [placeRule]
      split
      · exact List.mem_cons_self
      · exact List.mem_cons_of_mem s ih

theorem mem_placeRule_of_ne (hs : s ∈ old) (hne : s.name ≠ r.name) : s ∈ placeRule r old := by
  induction old with
  | nil => cases hs
  | cons t rest ih =>
      rw [placeRule]
      rcases List.mem_cons.mp hs with rfl | hs
      · rw [if_neg (by simpa using hne)]
        exact List.mem_cons_self
      · split
        · exact List.mem_cons_of_mem r hs
        · exact List.mem_cons_of_mem t (ih hs)

theorem mem_of_mem_placeRule (h : s ∈ placeRule r old) : s = r ∨ s ∈ old := by
  induction old with
  | nil => exact .inl (List.mem_singleton.mp h)
  | cons t rest ih =>
      rw [placeRule] at h
      split at h
      · exact (List.mem_cons.mp h).imp_right (List.mem_cons_of_mem t)
      · rcases List.mem_cons.mp h with rfl | h
        · exact .inr List.mem_cons_self
        · exact (ih h).imp_right (List.mem_cons_of_mem t)

/-- A rule with a new name comes after the others, any other one changes no names. -/
theorem names_placeRule (r : Rule) (old : List Rule) : (placeRule r old).map (·.name) =
    if r.name ∈ old.map (·.name) then old.map (·.name) else old.map (·.name) ++ [r.name] := by
  split
  · rename_i h
    induction old with
    | nil => cases h
    | cons s rest ih =>
        rw [placeRule]
        split
        · rename_i heq
          rw [List.map_cons, List.map_cons, beq_iff_eq.mp heq]
        · rename_i hne
          have hrest : r.name ∈ rest.map (·.name) :=
            (List.mem_cons.mp h).resolve_left fun heq => hne (beq_iff_eq.mpr heq.symm)
          rw [List.map_cons, List.map_cons, ih hrest]
  · rename_i h
    rw [placeRule_of_fresh h, List.map_append, List.map_cons, List.map_nil]

/-- Of rules defined one after the other, those are there that no later one takes the place of. -/
theorem mem_rules_foldl_define {rs : List Rule}
    (h : (s ∈ rs ∧ (rs.map (·.name)).Nodup) ∨ (s ∈ g.rules ∧ s.name ∉ rs.map (·.name))) :
    s ∈ (rs.foldl define g).rules := by
  induction rs generalizing g with
  | nil =>
      obtain ⟨hs, -⟩ | ⟨hs, -⟩ := h
      · cases hs
      · exact hs
  | cons r rs ih =>
      refine ih ?_
      obtain ⟨hs, hnodup⟩ | ⟨hs, hnot⟩ := h
      · obtain ⟨hr, hnodup⟩ := List.nodup_cons.mp hnodup
        rcases List.mem_cons.mp hs with rfl | hs
        · exact .inr ⟨mem_placeRule s g.rules, hr⟩
        · exact .inl ⟨hs, hnodup⟩
      · obtain ⟨hne, hnot⟩ := not_or.mp (mt List.mem_cons.mpr hnot)
        exact .inr ⟨mem_placeRule_of_ne hs hne, hnot⟩

theorem hasRule_iff {n : String} : g.hasRule n = true ↔ n ∈ g.ruleNames := by
  rw [hasRule, rule?, List.find?_isSome, ruleNames, List.mem_map]
  simp only [beq_iff_eq]

theorem rule?_of_mem (hnodup : g.ruleNames.Nodup) (hr : r ∈ g.rules) : g.rule? r.name = some r := by
  rw [ruleNames] at hnodup
  rw [rule?]
  generalize g.rules = rules at hnodup hr ⊢
  induction rules with
  | nil => cases hr
  | cons s rest ih =>
      obtain ⟨hs, hnodup⟩ := List.nodup_cons.mp hnodup
      rcases List.mem_cons.mp hr with rfl | hr
      · exact List.find?_cons_of_pos (by simp)
      · have hne : s.name ≠ r.name := fun heq => hs (List.mem_map.mpr ⟨r, hr, heq.symm⟩)
        rw [List.find?_cons_of_neg (by simpa using hne), ih hnodup hr]

/-- The body of a rule, and whether the rule skips spaces. The rule for these spaces is left out: it
is applied where nothing asks for it, and differently. -/
def HasBody (g : Grammar) (q : String) (syntactic : Bool) (e : Expr) : Prop :=
  q ≠ "spaces" ∧ ∃ rule, g.rule? q = some rule ∧ rule.body = e ∧ isSyntactic q = syntactic

/-- The rules that grammar sources declare. -/
def Source.rules : List Rule :=
  declarations ++ bodies ++ tokens ++ spacing

theorem nodup_ofGrammars : ofGrammars.ruleNames.Nodup := by
  decide +kernel

theorem nodup_rules : (Source.rules.map (·.name)).Nodup ∧ "spaces" ∉ Source.rules.map (·.name) := by
  decide +kernel

/-- A built-in rule is there, unless grammar sources declare it anew. -/
theorem rule?_builtIn {r : Rule} (hr : r ∈ builtInRules.rules) (hne : r.name ≠ "space") :
    ofGrammars.rule? r.name = some r := by
  have hfresh : ∀ n ∈ builtInRules.ruleNames, n ≠ "space" → n ∉ Source.rules.map (·.name) := by
    decide +kernel
  exact rule?_of_mem nodup_ofGrammars
    (mem_rules_foldl_define (.inr ⟨hr, hfresh r.name (List.mem_map_of_mem hr) hne⟩))

theorem hasBody_builtIn {q : String} {e : Expr} {syntactic : Bool} (d : Option String)
    (hr : builtInRules.rule q d e ∈ builtInRules.rules) (hne : q ∉ ["space", "spaces"])
    (hq : isSyntactic q = syntactic) : ofGrammars.HasBody q syntactic e :=
  ⟨fun h => hne (by simp [h]), _, rule?_builtIn hr fun h => hne (by simp [show q = "space" from h]),
    rfl, hq⟩

/-- A rule of the grammar of grammar sources, by the list that declares it. -/
theorem hasBody_ofGrammars {q : String} {e : Expr} {syntactic : Bool} (d : Option String)
    (hr : Source.rule q d e ∈ Source.rules)
    (hq : isSyntactic q = syntactic) : ofGrammars.HasBody q syntactic e := by
  have hmem : Source.rule q d e ∈ ofGrammars.rules :=
    mem_rules_foldl_define (.inl ⟨hr, nodup_rules.1⟩)
  refine ⟨?_, _, rule?_of_mem nodup_ofGrammars hmem, rfl, hq⟩
  rintro rfl
  exact nodup_rules.2 (List.mem_map_of_mem hr)

end Pegboard.Grammar
