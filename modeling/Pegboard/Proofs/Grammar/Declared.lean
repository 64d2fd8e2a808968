import Pegboard.Grammar.Compile
import Pegboard.Proofs.Grammar.Denoted

/-!
# What the trees of rules are built into

`IsBody`, `IsRule` and `IsGrammar` say of the trees of a grammar source what stands in them: the
names, and the expressions that its terms denote. A rule with a new name is declared after all
others; so the rules of a grammar are there in the order in which they stand in the source.

Main statement: `IsGrammar.readGrammar_eq`.
-/

namespace Pegboard.Grammar.Build

open Text

/-- The tree of a term without a case name. -/
def IsTerm (e : Expr) : Tree.Property := fun s =>
  s.tree.rule? = some "TopLevelTerm" ∧ Tree.Each s.applications [Denotes "Seq" e]

/-- The tree of a body with these terms. -/
def IsBody (terms : List Expr) : Tree.Property := fun s =>
  s.tree.rule? = some "RuleBody" ∧ Tree.Each s.applications (terms.map IsTerm)

/-- The tree of a rule that is defined, not overridden or extended, and has no description. -/
def IsDefinition (name : String) (terms : List Expr) : Tree.Property := fun s =>
  s.tree.rule? = some "Rule_define" ∧
    Tree.Each s.applications [Tree.Spells "ident" name.toList, IsBody terms]

/-- The tree of the rule, by its name and its body. -/
def IsRule (r : String × Expr) : Tree.Property := fun s =>
  s.tree.rule? = some "Rule" ∧
    ∃ terms, .choice terms = r.2 ∧ Tree.Each s.applications [IsDefinition r.1 terms]

/-- The tree of a grammar that extends no other. -/
def IsGrammar (name : String) (rules : List (String × Expr)) : Tree.Property := fun s =>
  s.tree.rule? = some "Grammar" ∧
    Tree.Each s.applications (Tree.Spells "ident" name.toList :: rules.map IsRule)

variable {s : State} {t : Tree.Located} {b : Body} {e : Expr} {terms : List Expr}
  {name rule : String} {rules todo : List (String × Expr)}

/-! ## Bodies -/

theorem readTerm_eq (h : IsTerm e t) : ∃ apps,
    readTerm s rule b t =
      .ok { b with terms := b.terms ++ [e], applications := b.applications ++ apps } ∧
    apps.map Application.listed = e.applications (!isSyntactic rule) := by
  obtain ⟨-, h⟩ := h
  obtain ⟨u, hu, hseq, hread⟩ := Tree.each_singleton h
  obtain ⟨apps, heq, happs⟩ := hread (!isSyntactic rule)
  refine ⟨apps, ?_, happs⟩
  have honly : onlyChild t = .ok (u, "Seq") := by
    simp [onlyChild, Tree.Located.onlyChild?, hu, hseq]
  simp [readTerm, honly, heq, bind, Except.bind, pure, Except.pure]

theorem readTerms_eq {ts : List Tree.Located} (h : Tree.Each ts (terms.map IsTerm)) : ∃ apps,
    ts.foldlM (readTerm s rule) b =
      .ok { b with terms := b.terms ++ terms, applications := b.applications ++ apps } ∧
    apps.map Application.listed = terms.flatMap (Expr.applications (!isSyntactic rule)) := by
  induction terms generalizing ts b with
  | nil =>
      obtain rfl := List.forall₂_nil_right_iff.mp h
      exact ⟨[], by simp [pure, Except.pure], rfl⟩
  | cons e terms ih =>
      obtain ⟨t, rest, hterm, hrest, rfl⟩ := List.forall₂_cons_right_iff.mp h
      obtain ⟨apps, heq, happs⟩ := readTerm_eq (s := s) (b := b) hterm
      obtain ⟨apps', heq', happs'⟩ :=
        ih (b := ⟨b.terms ++ [e], b.cases, b.applications ++ apps⟩) hrest
      refine ⟨apps ++ apps', ?_, ?_⟩
      · rw [List.foldlM_cons, heq]
        simpa [bind, Except.bind] using heq'
      · rw [List.map_append, happs, happs', List.flatMap_cons]

theorem readBody_eq (s : State) (rule : String) (h : IsBody terms t) : ∃ apps,
    readBody s rule t = .ok ⟨terms, [], apps⟩ ∧
    apps.map Application.listed = (Expr.choice terms).applications (!isSyntactic rule) := by
  obtain ⟨apps, heq, happs⟩ := readTerms_eq (s := s) (b := ⟨[], [], []⟩) h.2
  refine ⟨apps, ?_, happs.trans (Expr.applications_choice _ terms).symm⟩
  have hterms : t.named "TopLevelTerm" = t.applications :=
    List.filter_eq_self.mpr fun u hu =>
      decide_eq_true (Tree.rule?_of_each (fun e u h => h.1) h.2 u hu)
  rw [readBody, hterms, heq]
  rfl

/-! ## Rules -/

theorem IsDefinition.children (h : IsDefinition name terms t) : ∃ ident body,
    child t "ident" = .ok ident ∧ ident.text = name ∧
    child t "RuleBody" = .ok body ∧ IsBody terms body := by
  obtain ⟨-, hparts⟩ := h
  obtain ⟨ident, rest, ⟨hident, htext⟩, hrest, hparts⟩ := List.forall₂_cons_right_iff.mp hparts
  obtain ⟨body, rfl, hbody⟩ := Tree.each_singleton hrest
  rw [String.ofList_toList] at htext
  refine ⟨ident, body, ?_, htext, ?_, hbody⟩
  · simp [child, Tree.Located.first?, hparts, hident]
  · simp [child, Tree.Located.first?, hparts, hident, hbody.1]

/-- The grammar of the name has the rules, after the built-in ones, as far as they were read. -/
structure Built (name : String) (rules : List (String × Expr)) (s : State) : Prop where
  name_eq : s.grammar.name = name
  own : ∃ own, s.grammar.rules = builtInRules.rules ++ own ∧
    own.map (fun r => (r.name, r.body)) = rules ∧ ∀ r ∈ own, r.declaredIn = name
  declared : ∀ n ∈ s.declared, n ∈ rules.map Prod.fst
  applications : s.applications.map Application.listed =
    rules.flatMap fun r => r.2.applications (!isSyntactic r.1)
  hasStart : s.hasStart = !rules.isEmpty
  start : s.grammar.start = rules.head?.map Prod.fst

namespace Built

theorem ruleNames_eq (h : Built name rules s) :
    s.grammar.ruleNames = builtInRules.ruleNames ++ rules.map Prod.fst := by
  obtain ⟨own, hrules, rfl, -⟩ := h.own
  rw [ruleNames, hrules, List.map_append, List.map_map]
  rfl

theorem checkNew_eq (h : Built name rules s) {n : String}
    (hn : n ∉ builtInRules.ruleNames ++ rules.map Prod.fst) (interval : Interval) :
    checkNew s n interval = .ok () := by
  have hnone : s.grammar.rule? n = none := by
    rw [rule?, List.find?_eq_none]
    intro r hr heq
    obtain rfl := beq_iff_eq.mp heq
    exact hn (h.ruleNames_eq ▸ List.mem_map_of_mem hr)
  have hdeclared : n ∉ s.declared := fun hmem =>
    hn (List.mem_append_right _ (h.declared n hmem))
  rw [checkNew, if_neg hdeclared, hnone]

/-- A rule with a new name is declared after the others. -/
theorem declare (h : Built name rules s) {r : Rule} (terms : List Expr) {apps : List Application}
    (hfresh : r.name ∉ builtInRules.ruleNames ++ rules.map Prod.fst) (hr : r.declaredIn = name)
    (happs : apps.map Application.listed = r.body.applications (!isSyntactic r.name)) :
    Built name (rules ++ [(r.name, r.body)])
      (if s.hasStart then s.declare r ⟨terms, [], apps⟩
      else { s.declare r ⟨terms, [], apps⟩ with
        grammar := { define s.grammar r with start := some r.name }
        hasStart := true }) := by
  have hnew : r.name ∉ s.grammar.ruleNames := h.ruleNames_eq ▸ hfresh
  have hplace : placeRule r s.grammar.rules = s.grammar.rules ++ [r] := placeRule_of_fresh hnew
  obtain ⟨own, hrules, hown, hdeclaredIn⟩ := h.own
  have hown' : ∃ own, placeRule r s.grammar.rules = builtInRules.rules ++ own ∧
      own.map (fun r => (r.name, r.body)) = rules ++ [(r.name, r.body)] ∧
      ∀ r ∈ own, r.declaredIn = name :=
    ⟨own ++ [r], by rw [hplace, hrules, List.append_assoc], by rw [List.map_append, hown]; rfl,
      List.forall_mem_append.mpr ⟨hdeclaredIn, List.forall_mem_singleton.mpr hr⟩⟩
  have hdeclared : ∀ n ∈ r.name :: s.declared, n ∈ (rules ++ [(r.name, r.body)]).map Prod.fst := by
    have := h.declared
    simp only [List.mem_cons, List.map_append, List.mem_append, List.map_cons]
    grind
  have happlications : (s.applications ++ apps).map Application.listed =
      (rules ++ [(r.name, r.body)]).flatMap fun r => r.2.applications (!isSyntactic r.1) := by
    rw [List.map_append, h.applications, happs, List.flatMap_append, List.flatMap_singleton]
  split
  · rename_i hstart
    obtain ⟨first, rest, rfl⟩ := List.exists_cons_of_ne_nil (l := rules) (by
      rintro rfl
      simp [h.hasStart] at hstart)
    exact ⟨h.name_eq, hown', hdeclared, happlications, by simp [State.declare, hstart],
      h.start⟩
  · rename_i hstart
    obtain rfl : rules = [] := by simpa [h.hasStart] using hstart
    exact ⟨h.name_eq, hown', hdeclared, happlications, rfl, rfl⟩

/-- The next rule is declared, if its name is new. -/
theorem readRule (super : String) (h : Built name rules s) {r : String × Expr} (ht : IsRule r t)
    (hfresh : r.1 ∉ builtInRules.ruleNames ++ rules.map Prod.fst) :
    ∃ s', readRule super s t = .ok s' ∧ Built name (rules ++ [r]) s' := by
  obtain ⟨n, e⟩ := r
  obtain ⟨-, terms, rfl, hcase⟩ := ht
  obtain ⟨case, hcase, hdefine⟩ := Tree.each_singleton hcase
  obtain ⟨ident, body, hident, htext, hchild, hbody⟩ := hdefine.children
  obtain ⟨apps, hread, happs⟩ := readBody_eq s n hbody
  have honly : onlyChild t = .ok (case, "Rule_define") := by
    simp [onlyChild, Tree.Located.onlyChild?, hcase, hdefine.1]
  let r : Rule := ⟨n, .choice terms, description? case, some case.interval, s.grammar.name⟩
  refine ⟨_, ?_, h.declare (r := r) terms hfresh h.name_eq happs⟩
  simp only [Build.readRule, honly, hident, hchild, htext, defineRule,
    h.checkNew_eq hfresh ident.interval, hread, bind, Except.bind]
  split <;> rfl

end Built

/-! ## Grammars -/

theorem checkApplications_eq {g : Grammar} {apps : List Application}
    (h : ∀ a ∈ apps, a.rule ∈ g.ruleNames ∧ ¬ (a.lexical = true ∧ isSyntactic a.rule = true)) :
    checkApplications g apps = .ok () := by
  induction apps with
  | nil => rfl
  | cons a apps ih =>
      obtain ⟨⟨hrule, hlexical⟩, h⟩ := List.forall_mem_cons.mp h
      have hhas : g.hasRule a.rule = true := by
        obtain ⟨r, hr, heq⟩ := List.mem_map.mp hrule
        rw [hasRule, rule?, List.find?_isSome]
        exact ⟨r, hr, beq_iff_eq.mpr heq⟩
      rw [checkApplications, if_neg (by simp [hhas]), if_neg (by simpa using hlexical), ih h]

namespace Built

/-- The rules of a source are declared one after the other. -/
theorem readRules (super : String) {ts : List Tree.Located} (h : Built name rules s)
    (hts : Tree.Each ts (todo.map IsRule))
    (hfresh : (builtInRules.ruleNames ++ (rules ++ todo).map Prod.fst).Nodup) :
    ∃ s', ts.foldlM (Build.readRule super) s = .ok s' ∧ Built name (rules ++ todo) s' := by
  induction todo generalizing rules s ts with
  | nil =>
      obtain rfl := List.forall₂_nil_right_iff.mp hts
      exact ⟨s, rfl, by simpa using h⟩
  | cons r todo ih =>
      obtain ⟨t, rest, ht, hrest, rfl⟩ := List.forall₂_cons_right_iff.mp hts
      have hnew : r.1 ∉ builtInRules.ruleNames ++ rules.map Prod.fst := by
        rw [List.map_append, ← List.append_assoc] at hfresh
        intro hmem
        exact (List.nodup_append.mp hfresh).2.2 r.1 hmem r.1 List.mem_cons_self rfl
      obtain ⟨s', heq, hbuilt⟩ := h.readRule super ht hnew
      rw [List.append_cons] at hfresh ⊢
      obtain ⟨s'', heq', hbuilt'⟩ := ih hbuilt hrest hfresh
      refine ⟨s'', ?_, hbuilt'⟩
      rw [List.foldlM_cons, heq]
      exact heq'

theorem nil (name : String) : Built name [] ⟨.extending (some builtInRules) name, [], [], false⟩ where
  name_eq := rfl
  own := ⟨[], (List.append_nil _).symm, rfl, nofun⟩
  declared := nofun
  applications := rfl
  hasStart := rfl
  start := rfl

/-- The rules that the grammar itself declares, where its name is not that of the built-in ones. -/
theorem ownRules_eq (h : Built name rules s) (hname : name ≠ builtInRules.name) :
    s.grammar.ownRules.map (fun r => (r.name, r.body)) = rules := by
  obtain ⟨own, hrules, hown, hdeclaredIn⟩ := h.own
  have hbuiltIn : builtInRules.rules.filter (·.declaredIn == name) = [] := by
    have hall : ∀ r ∈ builtInRules.rules, r.declaredIn = builtInRules.name := by
      simp [builtInRules, builtInRules.rule, plainRule]
    refine List.filter_eq_nil_iff.mpr fun r hr => ?_
    rw [hall r hr]
    simpa using hname.symm
  have hself : own.filter (·.declaredIn == name) = own :=
    List.filter_eq_self.mpr fun r hr => beq_iff_eq.mpr (hdeclaredIn r hr)
  rw [ownRules, h.name_eq, hrules, List.filter_append, hbuiltIn, hself, List.nil_append, hown]

end Built

/-- A grammar with new rules, which apply what there is, is built with exactly these. -/
theorem readGrammar_eq (h : IsGrammar name rules t) (hrules : Declarable rules) :
    ∃ s, readGrammar [] t = .ok s.grammar ∧ Built name rules s := by
  obtain ⟨-, h⟩ := h
  obtain ⟨ident, ts, ⟨hident, htext⟩, hts, hparts⟩ := List.forall₂_cons_right_iff.mp h
  have hall : ∀ t ∈ ts, t.tree.rule? = some "Rule" :=
    Tree.rule?_of_each (fun r t h => h.1) hts
  have hchild : child t "ident" = .ok ident := by
    simp [child, Tree.Located.first?, hparts, hident]
  have hsuper : superGrammar [] t = .ok builtInRules := by
    have : t.first? "SuperGrammar" = none := by
      rw [Tree.Located.first?, hparts, List.find?_eq_none]
      simp +contextual [hident, hall]
    rw [superGrammar, this]
  have hnamed : t.named "Rule" = ts := by
    rw [Tree.Located.named, hparts, List.filter_cons_of_neg (by simp [hident])]
    exact List.filter_eq_self.mpr fun u hu => decide_eq_true (hall u hu)
  obtain ⟨s, heq, hbuilt⟩ := (Built.nil name).readRules builtInRules.name hts hrules.nodup
  have hcheck : checkApplications s.grammar s.applications = .ok () := by
    refine checkApplications_eq fun a ha => ?_
    have hlisted : a.listed ∈ rules.flatMap fun r => r.2.applications (!isSyntactic r.1) := by
      have := List.mem_map_of_mem (f := Application.listed) ha
      rwa [hbuilt.applications] at this
    obtain ⟨r, hr, hmem⟩ := List.mem_flatMap.mp hlisted
    obtain ⟨hname, hlexical⟩ := hrules.applied r hr _ hmem
    refine ⟨?_, hlexical⟩
    rw [hbuilt.ruleNames_eq]
    exact List.mem_append.mpr (List.mem_append.mp hname).symm
  refine ⟨s, ?_, hbuilt⟩
  rw [String.ofList_toList] at htext
  simp only [readGrammar, hchild, htext, hsuper, hnamed, heq, hcheck, bind, Except.bind]
  rfl

end Pegboard.Grammar.Build
