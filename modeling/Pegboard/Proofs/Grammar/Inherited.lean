import Pegboard.Proofs.Grammar.Declarations
import Pegboard.Proofs.Match.Queries

/-!
# Inherited rules

A grammar begins with the rules of the one that it extends, and only an override or an extension of a
rule takes the place of one of them: what is defined is new, and so are the cases in its body. The
other rules are still there, and a rule that leads to none that was changed matches as it did. A
closed grammar applies no rule that it does not have, so no new rule can come in between.

Main statements: `Unchanged.matchText_alike`, `compile_inherited`.
-/

namespace Pegboard

open Relation

/-! ## Rules that lead to rules of the grammar -/

namespace Expr

/-- The rule for spaces, or one that is applied in what has these applications. -/
def AppliedIn (applications : Bool → List (String × Bool)) (syn : Bool) (q : String) : Prop :=
  q = "spaces" ∨ ∃ lexical, (q, lexical) ∈ applications (!syn)

theorem appliedIn_spaces {applications : Bool → List (String × Bool)} {syn : Bool} {q : String}
    (h : q ∈ if syn then ["spaces"] else []) : AppliedIn applications syn q := by
  cases syn with
  | false => cases h
  | true => exact .inl (List.mem_singleton.mp h)

mutual

/-- What is applied while an expression is matched is applied in it, or the rule for spaces. -/
theorem appliedIn_of_mem {q : String} :
    ∀ (e : Expr) (syn : Bool), q ∈ e.applied syn → AppliedIn (applications · e) syn q
  | .any, _, h => appliedIn_spaces h
  | .endOfInput, _, h => appliedIn_spaces h
  | .terminal _, _, h => appliedIn_spaces h
  | .range _ _, _, h => appliedIn_spaces h
  | .apply r, false, h => by
      obtain rfl := List.mem_singleton.mp h
      exact .inr ⟨true, List.mem_singleton_self _⟩
  | .apply r, true, h => by
      refine (List.mem_cons.mp h).imp_right fun h => ?_
      obtain rfl := List.mem_singleton.mp h
      exact ⟨false, List.mem_singleton_self _⟩
  | .alt es, syn, h => appliedIn_of_mem_all es syn h
  | .seq es, syn, h => appliedIn_of_mem_all es syn h
  | .iter _ e, syn, h => appliedIn_of_mem e syn h
  | .not e, syn, h => appliedIn_of_mem e syn h
  | .look e, syn, h => appliedIn_of_mem e syn h
  | .lex e, _, h => appliedIn_of_mem e false h

theorem appliedIn_of_mem_all {q : String} :
    ∀ (es : List Expr) (syn : Bool), q ∈ appliedInAll syn es → AppliedIn (applicationsAll · es) syn q
  | [], _, h => nomatch h
  | e :: es, syn, h => by
      rw [AppliedIn, applicationsAll]
      rcases List.mem_append.mp h with h | h
      · exact (appliedIn_of_mem e syn h).imp_right fun ⟨l, hl⟩ => ⟨l, List.mem_append_left _ hl⟩
      · refine (appliedIn_of_mem_all es syn h).imp_right fun ⟨l, hl⟩ => ?_
        exact ⟨l, List.mem_append_right _ hl⟩

end

end Expr

namespace Grammar

variable {g g' : Grammar} {start q : String} {S : String → Prop}

/-- A closed grammar that has a rule for spaces has all rules that one of its rules leads to. -/
theorem Closed.hasRule_of_reaches (hg : g.Closed) (hspaces : g.hasRule "spaces" = true)
    (hstart : g.hasRule start = true) (h : g.Reaches start q) : g.hasRule q = true := by
  have hcalls {r q : String} (h : g.Calls r q) : g.hasRule q = true := by
    obtain ⟨rule, hrule, hq⟩ := h
    rcases Expr.appliedIn_of_mem _ _ hq with rfl | ⟨lexical, happlied⟩
    · exact hspaces
    · exact (hg.applied rule (rule?_mem hrule) _ happlied).1
  have hreached {r q : String} (hr : g.hasRule r = true) (h : ReflTransGen g.Calls r q) :
      g.hasRule q = true := by
    cases h with
    | refl => exact hr
    | tail _ hlast => exact hcalls hlast
  exact h.elim (hreached hstart) fun ⟨_, h⟩ => hreached hspaces h

/-- Matches from a rule are alike in two grammars that have the same rules of a set that contains it and
keeps to itself. -/
theorem SelfContained.matchText_alike (hS : g.SelfContained S)
    (hsame : ∀ q, S q → g'.rule? q = g.rule? q) (hstart : S start)
    (hspaces : isSyntactic start = true → S "spaces") (hrule : g.hasRule start = true)
    (text : String) :
    (∃ r, g'.matchText text (some start) = .ok r ∧ g.matchText text (some start) = .ok r) ∨
      g'.matchText text (some start) = .error (.tooDeep g'.name start) ∧
        g.matchText text (some start) = .error (.tooDeep g.name start) := by
  obtain ⟨rule, hrule⟩ := Option.isSome_iff_exists.mp hrule
  have hrule' : g'.rule? start = some rule := (hsame start hstart).trans hrule
  have hname : rule.name = start := rule?_name hrule
  have hrun : Match.run ⟨g, .ofString text, false⟩ Match.nestingLimit start
        (.blank (Text.Input.ofString text).size) =
      Match.run ⟨g', .ofString text, false⟩ Match.nestingLimit start
        (.blank (Text.Input.ofString text).size) :=
    Match.run_over hS hsame hstart hspaces _ _
  simp only [matchText, answer, startRule, Option.some_or, hrule, hrule', hname, bind, Except.bind,
    hrun]
  cases Match.run ⟨g', .ofString text, false⟩ Match.nestingLimit start
      (.blank (Text.Input.ofString text).size) with
  | none => exact .inr ⟨rfl, rfl⟩
  | some found => exact .inl ⟨_, rfl, rfl⟩

namespace Build

/-! ## Rules that are not changed -/

/-- The rules of the extended grammar are still there, but for those that a declaration changes. -/
def Unchanged (super : Grammar) (ds : List Declaration) (g : Grammar) : Prop :=
  ∀ r ∈ super.rules, r.name ∉ ds.filterMap Declaration.changed? → r ∈ g.rules

namespace Unchanged

variable {super : Grammar} {ds : List Declaration} {s s' : State} {t : Tree.Located}

/-- What is put into the grammar is new to it, or the one rule that is changed. -/
theorem declare (h : Unchanged super ds s.grammar) {d : Declaration} {r : Rule} {b : Body}
    (hr : s.grammar.hasRule r.name = false ∨ d.changed? = some r.name)
    (hcases : ∀ n ∈ b.cases.map (·.name), s.grammar.hasRule n = false) :
    Unchanged super (ds ++ [d]) (s.declare r b).grammar := by
  intro rule hrule hkept
  rw [List.filterMap_append] at hkept
  obtain ⟨hbefore, hlast⟩ := not_or.mp (mt List.mem_append.mpr hkept)
  have hmem : rule ∈ s.grammar.rules := h rule hrule hbefore
  have hthere : s.grammar.hasRule rule.name = true := hasRule_iff.mpr (List.mem_map_of_mem hmem)
  refine mem_rules_foldl_define (.inr ⟨hmem, fun hname => ?_⟩)
  rcases List.mem_cons.mp hname with hname | hcase
  · rw [hname] at hthere hlast
    rcases hr with hnew | hchanged
    · exact absurd hthere (by simp [hnew])
    · exact hlast (by simp [hchanged])
  · exact absurd hthere (by simp [hcases _ hcase])

/-- A declaration changes no rules but the one that it names. -/
theorem read (h : Unchanged super ds s.grammar) (hread : RuleRead s t s') {d : Declaration}
    (hd : declaration? t = some d) : Unchanged super (ds ++ [d]) s'.grammar := by
  cases hread with
  | define _ _ _ hfresh hread hs' =>
      subst hs'
      exact h.declare (.inl hfresh.2) fun n hn => ((NewCases.readBody hread).fresh n hn).2
  | change honly hident hbody _ _ hread hchange =>
      obtain ⟨k, hk, hd'⟩ := declaration?_of_change honly hident hbody hchange
      obtain rfl := Option.some.inj (hd.symm.trans hd')
      exact h.declare (.inr (if_neg hk)) fun n hn => ((NewCases.readBody hread).fresh n hn).2

/-- A rule that leads to no changed one matches as it did. -/
theorem matchText_alike (h : Unchanged super ds g) (hsuper : super.Closed) (hg : g.Closed)
    (hspaces : super.hasRule "spaces" = true) (hstart : super.hasRule start = true)
    (hkept : ∀ q ∈ ds.filterMap Declaration.changed?, ¬ super.Reaches start q) (text : String) :
    (∃ r, g.matchText text (some start) = .ok r ∧ super.matchText text (some start) = .ok r) ∨
      g.matchText text (some start) = .error (.tooDeep g.name start) ∧
        super.matchText text (some start) = .error (.tooDeep super.name start) := by
  refine (super.selfContained_reaches start).matchText_alike (fun q hq => ?_) (.inl .refl)
    (fun hsyn => .inr ⟨hsyn, .refl⟩) hstart text
  obtain ⟨rule, hrule⟩ :=
    Option.isSome_iff_exists.mp (hsuper.hasRule_of_reaches hspaces hstart hq)
  have hname : rule.name = q := rule?_name hrule
  have hmem : rule ∈ g.rules :=
    h rule (rule?_mem hrule) (hname.symm ▸ fun hchanged => hkept q hchanged hq)
  rw [hrule, ← hname, rule?_of_mem hg.distinct hmem]

end Unchanged

/-! ## Grammars -/

variable {ns : Namespace} {t : Tree.Located} {super : Grammar}

/-- Of the rules of the grammar that it extends a grammar has those that it does not change. -/
theorem readGrammar_unchanged (h : readGrammar ns t = .ok g) :
    ∃ (super : Grammar) (ds : List Declaration), superGrammar ns t = .ok super ∧
      (t.named "Rule").map declaration? = ds.map some ∧ Unchanged super ds g := by
  obtain ⟨ident, super, s, -, -, hsuper, hrules, -, rfl⟩ := readGrammar_eq_ok h
  obtain ⟨ds, hds, -, hunchanged⟩ := Declares.history (P := fun ds s => Unchanged super ds s.grammar)
    (fun _ hrule _ => hrule) (fun _ _ _ _ _ _ _ hread hd h => h.read hread hd) hrules
  exact ⟨super, ds, hsuper, hds, hunchanged⟩

/-- Every grammar of a source has a rule for spaces, be it the built-in one. -/
theorem hasRule_spaces_ofResult {r : Match.Result} (h : ofResult r = .ok ns) :
    ∀ g ∈ ns, g.hasRule "spaces" = true := by
  refine ofResult_keeps (fun ns t g hns hg => ?_) h
  obtain ⟨super, ds, hsuper, hdeclared⟩ := readGrammar_declaredBy hg
  refine (hdeclared.hasRule_iff _).mpr (.inl ?_)
  rcases superGrammar_cases hsuper with ⟨-, rfl⟩ | hmem
  · decide +kernel
  · exact hns super hmem

end Build

open Build

/-- In a source that compiles, a grammar that only defines rules, with named cases or without, matches
from each rule of the grammar that it extends as that grammar does: the results are equal, or both
matches nest too deep. -/
theorem compile_inherited {source : String} {ns : Namespace} (h : compile source = .ok ns) :
    ∃ r root, ofGrammars.matchText source none = .ok r ∧ r.root? = some root ∧
      ∀ pre g post, ns = pre ++ g :: post → ∃ (t : Tree.Located) (super : Grammar)
          (ds : List Declaration),
        (root.named "Grammar")[pre.length]? = some t ∧ superGrammar pre t = .ok super ∧
        (t.named "Rule").map declaration? = ds.map some ∧
        ((∀ d ∈ ds, d.kind = .define) → ∀ start, super.hasRule start = true → ∀ text,
          (∃ r, g.matchText text (some start) = .ok r ∧
            super.matchText text (some start) = .ok r) ∨
          g.matchText text (some start) = .error (.tooDeep g.name start) ∧
            super.matchText text (some start) = .error (.tooDeep super.name start)) := by
  obtain ⟨r, hr, hbuilt⟩ := compile_eq_ok h
  have hclosed : ∀ g ∈ ns, g.Closed := closed_ofResult hbuilt
  obtain ⟨root, hroot, -, hreads⟩ := ofResult_reads hbuilt
  refine ⟨r, root, hr, hroot, fun pre g post hns => ?_⟩
  obtain ⟨t, ht, hread⟩ := hreads pre g post hns
  obtain ⟨super, ds, hsuper, hds, hunchanged⟩ := readGrammar_unchanged hread
  refine ⟨t, super, ds, ht, hsuper, hds, fun hdefines start hstart text => ?_⟩
  have hbefore : ∀ g ∈ pre, g ∈ ns := fun g hg => hns ▸ List.mem_append_left _ hg
  have hspaces : super.hasRule "spaces" = true := by
    rcases superGrammar_cases hsuper with ⟨-, rfl⟩ | hmem
    · decide +kernel
    · exact hasRule_spaces_ofResult hbuilt super (hbefore super hmem)
  have hnone : ds.filterMap Declaration.changed? = [] :=
    List.filterMap_eq_nil_iff.mpr fun d hd => if_pos (hdefines d hd)
  refine hunchanged.matchText_alike (closed_superGrammar (fun g hg => hclosed g (hbefore g hg)) hsuper)
    (hclosed g (hns ▸ List.mem_append_right _ List.mem_cons_self)) hspaces hstart (fun q hq => ?_) text
  rw [hnone] at hq
  cases hq

/-- A grammar extended by a rule with a case. -/
def defining : String :=
  "A\x7bs=any\x7dB<:A\x7bt=s--j\n\x7d"

theorem compile_inherited_defining : ∃ a b, compile defining = .ok [a, b] ∧
    a.ownRules.map (·.name) = ["s"] ∧ b.ownRules.map (·.name) = ["t", "t_j"] ∧ ∀ text,
      (∃ r, b.matchText text (some "s") = .ok r ∧ a.matchText text (some "s") = .ok r) ∨
        b.matchText text (some "s") = .error (.tooDeep b.name "s") ∧
          a.matchText text (some "s") = .error (.tooDeep a.name "s") := by
  have hgrammars : (compile defining).toOption.map
      (·.map fun g => (g.hasRule "s", g.ownRules.map (·.name))) =
        some [(true, ["s"]), (true, ["t", "t_j"])] := by
    decide +kernel
  have htrees : (ofGrammars.matchText defining none).toOption.map (fun r =>
      r.root?.map fun root => (root.named "Grammar").map fun t =>
        ((t.named "Rule").map declaration?, (t.first? "SuperGrammar").isSome)) =
      some (some [([some ⟨.define, "s", []⟩], false), ([some ⟨.define, "t", ["t_j"]⟩], true)]) := by
    decide +kernel
  obtain ⟨ns, hns, hgrammars⟩ := toOption_map_eq_some hgrammars
  obtain ⟨r, root, hr, hroot, hinherits⟩ := compile_inherited hns
  obtain ⟨r', hr', htrees⟩ := toOption_map_eq_some htrees
  obtain rfl : r = r' := Except.ok.inj (hr.symm.trans hr')
  obtain ⟨a, ns, rfl, ha, hgrammars⟩ := List.map_eq_cons_iff.mp hgrammars
  obtain ⟨b, rfl, hb⟩ := List.map_eq_singleton_iff.mp hgrammars
  obtain ⟨t, super, ds, ht, hsuper, hds, hmatch⟩ := hinherits [a] b [] rfl
  rw [hroot] at htrees
  have htree := congrArg (fun ts => ts[1]?) (Option.some.inj htrees)
  simp only [List.getElem?_map, show (root.named "Grammar")[1]? = some t from ht] at htree
  obtain ⟨hdeclared, hextends⟩ := Prod.mk.inj (Option.some.inj htree)
  have hsuper : super = a := by
    rcases superGrammar_cases hsuper with ⟨hnone, -⟩ | hmem
    · rw [hnone] at hextends
      cases hextends
    · exact List.mem_singleton.mp hmem
  have hdefines : ∀ d ∈ ds, d.kind = .define := by
    obtain ⟨d, rfl, hd⟩ := List.map_eq_singleton_iff.mp (hds.symm.trans hdeclared)
    exact List.forall_mem_singleton.mpr (Option.some.inj hd ▸ rfl)
  exact ⟨a, b, hns, (Prod.mk.inj ha).2, (Prod.mk.inj hb).2,
    hsuper ▸ hmatch hdefines "s" (hsuper ▸ (Prod.mk.inj ha).1)⟩

end Grammar

end Pegboard
