import Pegboard.Proofs.Grammar.Declarations

/-!
# The rules that a grammar owns

A grammar's own rules are those that name it as the place of their declaration. A build gives each rule
that a source declares, changes or introduces as a case the name of its grammar, and leaves all others
as they are in the extended grammar (`Owns`). No grammar of a source has the name of an earlier one, so
that no inherited rule names it, unless it has the name of the built-in rules: that grammar owns what it
inherits from them too.

Main statement: `compile_ownRules`.
-/

namespace Pegboard.Grammar

/-- In a table without doublets a rule is known by its name. -/
theorem eq_of_name_eq {g : Grammar} {r r' : Rule} (hnodup : g.ruleNames.Nodup) (hr : r ∈ g.rules)
    (hr' : r' ∈ g.rules) (hname : r.name = r'.name) : r = r' := by
  have hfound := rule?_of_mem hnodup hr
  rw [hname, rule?_of_mem hnodup hr'] at hfound
  exact (Option.some.inj hfound).symm

theorem ruleNames_foldl_define_fresh {g : Grammar} {rs : List Rule}
    (hfresh : ∀ n ∈ rs.map (·.name), g.hasRule n = false) (hnodup : (rs.map (·.name)).Nodup) :
    (rs.foldl define g).ruleNames = g.ruleNames ++ rs.map (·.name) := by
  induction rs generalizing g with
  | nil => exact (List.append_nil _).symm
  | cons r rs ih =>
      obtain ⟨hr, hrs⟩ := List.forall_mem_cons.mp hfresh
      obtain ⟨hother, hnodup⟩ := List.nodup_cons.mp hnodup
      have hnames : (g.define r).ruleNames = g.ruleNames ++ [r.name] := by
        rw [ruleNames, define, names_placeRule, if_neg]
        · rfl
        · exact fun hmem => Bool.eq_false_iff.mp hr (hasRule_iff.mpr hmem)
      have hrest : ∀ n ∈ rs.map (·.name), (g.define r).hasRule n = false := by
        intro n hn
        rw [Bool.eq_false_iff, ne_eq, hasRule_iff, hnames, List.mem_append, List.mem_singleton]
        rintro (hold | rfl)
        · exact Bool.eq_false_iff.mp (hrs n hn) (hasRule_iff.mpr hold)
        · exact hother hn
      rw [List.foldl_cons, ih hrest hnodup, hnames, List.map_cons, List.append_assoc]
      rfl

theorem name_foldl_define (g : Grammar) (rs : List Rule) : (rs.foldl define g).name = g.name := by
  induction rs generalizing g with
  | nil => rfl
  | cons r rs ih => exact ih (g.define r)

namespace Build

variable {s s' : State} {t body : Tree.Located} {rule : String} {super : Grammar}
  {name : String} {ds : List Declaration}

/-! ## What one rule of a source adds -/

theorem declaredIn_readBody {b : Body} (h : readBody s rule body = .ok b) :
    ∀ c ∈ b.cases, c.declaredIn = s.grammar.name := by
  refine foldlM_keeps (P := fun b : Body => ∀ c ∈ b.cases, c.declaredIn = s.grammar.name)
    (fun b term b' hb heq => ?_) (List.forall_mem_nil _) h
  cases termRead_of_readTerm heq with
  | plain => exact hb
  | named => exact List.forall_mem_append.mpr ⟨hb, List.forall_mem_singleton.mpr rfl⟩

/-- A rule of a source puts rules into the grammar, under the names of its declaration, that all name
the grammar as the place where they were declared. -/
structure Adds (s : State) (d : Declaration) (rs : List Rule) (s' : State) : Prop where
  names : rs.map (·.name) = d.names
  declaredIn : ∀ r ∈ rs, r.declaredIn = s.grammar.name
  rules : s'.grammar.rules = (rs.foldl define s.grammar).rules
  name : s'.grammar.name = s.grammar.name

theorem Adds.declare (kind : Kind) {r : Rule} {b : Body} (hname : r.name = rule)
    (hr : r.declaredIn = s.grammar.name) (hb : readBody s rule body = .ok b) :
    Adds s ⟨kind, rule, (body.named "TopLevelTerm").filterMap (caseName? rule)⟩ (r :: b.cases)
      (s.declare r b) where
  names := by rw [List.map_cons, hname, (NewCases.readBody hb).names]; rfl
  declaredIn := List.forall_mem_cons.mpr ⟨hr, declaredIn_readBody hb⟩
  rules := rfl
  name := name_foldl_define _ _

theorem adds_of_ruleRead (h : RuleRead s t s') :
    ∃ d rs, declaration? t = some d ∧ Adds s d rs s' := by
  cases h with
  | @define case ident body b _ honly hident hbody _ hread _ hs' =>
      subst hs'
      have hadds : Adds s
          ⟨.define, ident.text, (body.named "TopLevelTerm").filterMap (caseName? ident.text)⟩ _
          (s.declare ⟨ident.text, .choice b.terms, description? case, some case.interval,
            s.grammar.name⟩ b) := .declare .define rfl rfl hread
      -- the start rule changes nothing else
      exact ⟨_, _, declaration?_of_parts honly hident hbody rfl, hadds.names, hadds.declaredIn,
        hadds.rules, hadds.name⟩
  | change honly hident hbody _ _ hread hchange =>
      obtain ⟨k, -, hd⟩ := declaration?_of_change honly hident hbody hchange
      exact ⟨_, _, hd, .declare k rfl rfl hread⟩

/-! ## What a grammar owns while it is built -/

theorem cases_subset_introduced (ds : List Declaration) :
    ds.flatMap Declaration.cases ⊆ ds.flatMap Declaration.introduced := by
  intro n hn
  obtain ⟨d, hd, hcase⟩ := List.mem_flatMap.mp hn
  exact List.mem_flatMap.mpr ⟨d, hd, Declaration.mem_introduced.mpr (.inr hcase)⟩

namespace Declares

variable {d : Declaration}

theorem hasRule_of_mem_names (h : Declares super ds s) {n : String}
    (hn : n ∈ ds.flatMap Declaration.names) : s.grammar.hasRule n = true := by
  rw [h.hasRule_iff]
  rcases List.mem_append.mp ((Coherent.names_perm ds).mem_iff.mp hn) with hchanged | hintroduced
  · exact (h.coherent.there_of_mem hchanged).imp_right (cases_subset_introduced ds ·)
  · exact .inr hintroduced

/-- What a declaration introduces was not there before. -/
theorem fresh_introduced (h : Declares super ds s) (h' : Declares super (ds ++ [d]) s') :
    ∀ n ∈ d.introduced, s.grammar.hasRule n = false := by
  intro n hn
  have hfresh := h'.coherent.fresh n (by simp [hn])
  have hnodup := h'.coherent.introduced
  rw [List.flatMap_append, List.flatMap_singleton, List.nodup_append] at hnodup
  rw [Bool.eq_false_iff, ne_eq, h.hasRule_iff]
  rintro (hsuper | hold)
  · exact Bool.eq_false_iff.mp hfresh hsuper
  · exact hnodup.2.2 n hold n hn rfl

/-- What a declaration changes was there. -/
theorem there_changed (h : Declares super ds s) (h' : Declares super (ds ++ [d]) s')
    (hkind : d.kind ≠ .define) : s.grammar.hasRule d.name = true := by
  rw [h.hasRule_iff]
  exact (h'.coherent.there ds d [] d.name rfl (if_neg hkind)).imp_right
    (cases_subset_introduced ds ·)

theorem nodup_introduced (h : Declares super (ds ++ [d]) s) : d.introduced.Nodup := by
  have hnodup := h.coherent.introduced
  rw [List.flatMap_append, List.flatMap_singleton, List.nodup_append] at hnodup
  exact hnodup.2.1

theorem nodup_names (h : Declares super ds s) (h' : Declares super (ds ++ [d]) s') :
    d.names.Nodup := by
  have hnodup := h'.nodup_introduced
  by_cases hkind : d.kind = .define
  · rwa [Declaration.introduced, if_pos hkind] at hnodup
  · have hfresh := h.fresh_introduced h'
    rw [Declaration.introduced, if_neg hkind] at hnodup hfresh
    refine List.nodup_cons.mpr ⟨fun hmem => ?_, hnodup⟩
    exact Bool.eq_false_iff.mp (hfresh _ hmem) (h.there_changed h' hkind)

end Declares

theorem Adds.ruleNames {d : Declaration} {rs : List Rule} (hadds : Adds s d rs s')
    (h : Declares super ds s) (h' : Declares super (ds ++ [d]) s') :
    s'.grammar.ruleNames = s.grammar.ruleNames ++ d.introduced := by
  have hfresh := h.fresh_introduced h'
  have hnodup := h'.nodup_introduced
  rw [Grammar.ruleNames, hadds.rules]
  by_cases hkind : d.kind = .define
  · rw [Declaration.introduced, if_pos hkind, ← hadds.names] at hfresh hnodup ⊢
    exact ruleNames_foldl_define_fresh hfresh hnodup
  · obtain ⟨r, cases, rfl, hname, hcases⟩ := List.map_eq_cons_iff.mp hadds.names
    -- the rule itself takes the place of the one that it changes
    have hthere : r.name ∈ s.grammar.ruleNames :=
      hname ▸ hasRule_iff.mp (h.there_changed h' hkind)
    have hsame : (s.grammar.define r).ruleNames = s.grammar.ruleNames :=
      (names_placeRule r s.grammar.rules).trans (if_pos hthere)
    rw [Declaration.introduced, if_neg hkind, ← hcases] at hfresh hnodup ⊢
    have hrest : ∀ n ∈ cases.map (·.name), (s.grammar.define r).hasRule n = false := by
      intro n hn
      rw [Bool.eq_false_iff, ne_eq, hasRule_iff, hsame, ← hasRule_iff]
      exact Bool.eq_false_iff.mp (hfresh n hn)
    rw [← hsame]
    exact ruleNames_foldl_define_fresh hrest hnodup

/-- The rules that the declarations speak of are the grammar's own, the others are those of the extended
grammar. The names of the latter come first, then those introduced, in the order of the declarations. -/
structure Owns (super : Grammar) (name : String) (ds : List Declaration) (s : State) : Prop where
  named : s.grammar.name = name
  ruleNames : s.grammar.ruleNames = super.ruleNames ++ ds.flatMap Declaration.introduced
  distinct : s.grammar.ruleNames.Nodup
  own : ∀ r ∈ s.grammar.rules, r.name ∈ ds.flatMap Declaration.names → r.declaredIn = name
  other : ∀ r ∈ s.grammar.rules, r.name ∉ ds.flatMap Declaration.names → r ∈ super.rules

namespace Owns

theorem initial {super : Grammar} (hsuper : super.ruleNames.Nodup) (name : String) :
    Owns super name [] ⟨.extending (some super) name, [], [], false⟩ where
  named := rfl
  ruleNames := (List.append_nil _).symm
  distinct := hsuper
  own _ _ h := (List.not_mem_nil h).elim
  other _ hr _ := hr

theorem concat {d : Declaration} {rs : List Rule} (howns : Owns super name ds s)
    (h : Declares super ds s) (h' : Declares super (ds ++ [d]) s') (hadds : Adds s d rs s') :
    Owns super name (ds ++ [d]) s' := by
  have hnames := hadds.names
  have hdistinct : s'.grammar.ruleNames.Nodup := by
    rw [Grammar.ruleNames, hadds.rules]
    exact nodup_foldl_define howns.distinct rs
  have horigin : ∀ r ∈ s'.grammar.rules, r ∈ rs ∨ r ∈ s.grammar.rules := fun r hr =>
    mem_of_mem_foldl_define (hadds.rules ▸ hr)
  refine ⟨hadds.name.trans howns.named, ?_, hdistinct, fun r hr hmem => ?_, fun r hr hmem => ?_⟩
  · rw [hadds.ruleNames h h', howns.ruleNames, List.flatMap_append, List.flatMap_singleton,
      List.append_assoc]
  · rw [List.flatMap_append, List.flatMap_singleton, List.mem_append, ← hnames] at hmem
    rcases hmem with hold | hnew
    · rcases horigin r hr with hr | hr
      · exact (hadds.declaredIn r hr).trans howns.named
      · exact howns.own r hr hold
    · -- an old rule of that name has given way to the new one
      obtain ⟨r', hr', hname⟩ := List.mem_map.mp hnew
      have hthere : r' ∈ s'.grammar.rules := by
        rw [hadds.rules]
        exact mem_rules_foldl_define (.inl ⟨hr', hnames ▸ h.nodup_names h'⟩)
      obtain rfl := eq_of_name_eq hdistinct hthere hr hname
      exact (hadds.declaredIn r' hr').trans howns.named
  · rw [List.flatMap_append, List.flatMap_singleton, List.mem_append, ← hnames, not_or] at hmem
    rcases horigin r hr with hr | hr
    · exact absurd (List.mem_map_of_mem hr) hmem.2
    · exact howns.other r hr hmem.1

theorem mem_ownRules (howns : Owns super name ds s) (h : Declares super ds s)
    (hdistinct : super.ruleNames.Nodup)
    (hsuper : ∀ r ∈ super.rules, r.declaredIn = name → name = builtInRules.name) (n : String) :
    n ∈ s.grammar.ownRules.map (·.name) ↔ n ∈ ds.flatMap Declaration.names ∨
      (s.grammar.name = builtInRules.name ∧
        ∃ r ∈ super.rules, r.name = n ∧ r.declaredIn = builtInRules.name) := by
  have hmem : n ∈ s.grammar.ownRules.map (·.name) ↔
      ∃ r ∈ s.grammar.rules, r.declaredIn = name ∧ r.name = n := by
    simp [ownRules, howns.named, and_assoc]
  rw [hmem, howns.named]
  constructor
  · rintro ⟨r, hr, hdeclared, rfl⟩
    by_cases hown : r.name ∈ ds.flatMap Declaration.names
    · exact .inl hown
    · have hinherited := howns.other r hr hown
      have hname := hsuper r hinherited hdeclared
      exact .inr ⟨hname, r, hinherited, rfl, hdeclared.trans hname⟩
  · intro hn
    -- the rule of that name in the table
    have hthere : n ∈ s.grammar.ruleNames := by
      rcases hn with hown | ⟨-, r, hr, rfl, -⟩
      · exact hasRule_iff.mp (h.hasRule_of_mem_names hown)
      · exact howns.ruleNames ▸ List.mem_append_left _ (List.mem_map_of_mem hr)
    obtain ⟨r, hr, rfl⟩ := List.mem_map.mp hthere
    refine ⟨r, hr, ?_, rfl⟩
    by_cases hown : r.name ∈ ds.flatMap Declaration.names
    · exact howns.own r hr hown
    · obtain ⟨hname, r', hr', heq, hdeclared⟩ := hn.resolve_left hown
      obtain rfl := eq_of_name_eq hdistinct hr' (howns.other r hr hown) heq
      exact hdeclared.trans hname.symm

end Owns

/-! ## Grammars -/

/-- What a grammar owns over the one that it extends: exactly the rules that it defines, changes or
introduces as cases, and, if it has the name of the built-in rules, those of them that it inherits as
they are. -/
structure OwnedBy (super g : Grammar) (t : Tree.Located) (ds : List Declaration) : Prop where
  declarations : (t.named "Rule").map declaration? = ds.map some
  own : ∀ n, n ∈ g.ownRules.map (·.name) ↔ n ∈ ds.flatMap Declaration.names ∨
    (g.name = builtInRules.name ∧
      ∃ r ∈ super.rules, r.name = n ∧ r.declaredIn = builtInRules.name)
  once : (g.ownRules.map (·.name)).Nodup
  ruleNames : g.ruleNames = super.ruleNames ++ ds.flatMap Declaration.introduced

/-- The rules of grammars name grammars among them, or the built-in rules. -/
def Native (ns : Namespace) : Prop :=
  ∀ g ∈ ns, ∀ r ∈ g.rules, r.declaredIn = builtInRules.name ∨ r.declaredIn ∈ ns.map (·.name)

theorem Native.concat {ns : Namespace} {g : Grammar} (hns : Native ns) (hg : ∀ r ∈ g.rules,
    r.declaredIn = builtInRules.name ∨ r.declaredIn ∈ ns.map (·.name) ∨ r.declaredIn = g.name) :
    Native (ns ++ [g]) := by
  rw [Native, List.map_append, List.map_singleton]
  simp only [List.mem_append, List.mem_singleton]
  rintro g' (hg' | rfl) r hr
  · exact (hns g' hg' r hr).imp_right .inl
  · exact hg r hr

theorem not_mem_of_grammar?_eq_none {ns : Namespace} (h : (grammar? ns name).isSome ≠ true) :
    name ∉ ns.map (·.name) := by
  intro hmem
  obtain ⟨g, hg, hname⟩ := List.mem_map.mp hmem
  exact h (List.find?_isSome.mpr ⟨g, hg, beq_iff_eq.mpr hname⟩)

theorem native_superGrammar {ns : Namespace} (hns : Native ns)
    (h : superGrammar ns t = .ok super) :
    ∀ r ∈ super.rules, r.declaredIn = builtInRules.name ∨ r.declaredIn ∈ ns.map (·.name) := by
  rcases superGrammar_cases h with ⟨-, rfl⟩ | hmem
  · have hall : ∀ r ∈ builtInRules.rules, r.declaredIn = builtInRules.name := by decide
    exact fun r hr => .inl (hall r hr)
  · exact hns super hmem

/-- A grammar that is read owns what its declarations speak of. -/
theorem readGrammar_ownedBy {ns : Namespace} {g : Grammar} (hclosed : ∀ g ∈ ns, g.Closed)
    (hnative : Native ns) (h : readGrammar ns t = .ok g) :
    (∃ super ds, superGrammar ns t = .ok super ∧ OwnedBy super g t ds) ∧ Native (ns ++ [g]) := by
  obtain ⟨ident, super, s, -, hnew, hsuper, hrules, -, rfl⟩ := readGrammar_eq_ok h
  obtain ⟨ds, hds, hdeclares, howns⟩ := Declares.history (P := Owns super ident.text)
    (.initial (closed_superGrammar hclosed hsuper).distinct ident.text)
    (fun ds d s s' t hs hs' hread hd howns => by
      obtain ⟨d', rs, hd', hadds⟩ := adds_of_ruleRead hread
      obtain rfl := Option.some.inj (hd.symm.trans hd')
      exact howns.concat hs hs' hadds) hrules
  have hsupernative := native_superGrammar hnative hsuper
  have hdistinct := (closed_superGrammar hclosed hsuper).distinct
  refine ⟨⟨super, ds, hsuper, hds, howns.mem_ownRules hdeclares hdistinct fun r hr heq => ?_,
    howns.distinct.sublist (List.filter_sublist.map _), howns.ruleNames⟩, ?_⟩
  · refine (hsupernative r hr).elim heq.symm.trans fun hmem => ?_
    exact absurd (heq ▸ hmem) (not_mem_of_grammar?_eq_none hnew)
  · refine hnative.concat fun r hr => ?_
    by_cases hown : r.name ∈ ds.flatMap Declaration.names
    · exact .inr (.inr ((howns.own r hr hown).trans howns.named.symm))
    · exact (hsupernative r (howns.other r hr hown)).imp_right .inl

/-- The grammars are those that the trees declare, one after the other, and each owns what its
declarations speak of. -/
def OwnedIn (ts : List Tree.Located) (ns : Namespace) : Prop :=
  ts.length = ns.length ∧
    ∀ pre g post, ns = pre ++ g :: post → ∃ t super ds,
      ts[pre.length]? = some t ∧ superGrammar pre t = .ok super ∧ OwnedBy super g t ds

/-- The grammars before one of a source name grammars among them. -/
theorem native_of_ofResult {r : Match.Result} {ns : Namespace} (h : ofResult r = .ok ns) :
    ∀ pre g post, ns = pre ++ g :: post → Native pre := by
  obtain ⟨_, -, -, hreads⟩ := ofResult_reads h
  intro pre
  induction pre using List.reverseRecOn with
  | nil => exact fun _ _ _ => List.forall_mem_nil _
  | append_singleton pre g ih =>
      intro g' post hns
      have hsplit : ns = pre ++ g :: g' :: post := by rw [hns, List.append_assoc]; rfl
      obtain ⟨t, -, hread⟩ := hreads pre g _ hsplit
      have hclosed : ∀ g ∈ pre, g.Closed := fun g hg =>
        closed_ofResult h g (hsplit ▸ List.mem_append_left _ hg)
      exact (readGrammar_ownedBy hclosed (ih g _ hsplit) hread).2

theorem ofResult_ownedIn {r : Match.Result} {ns : Namespace} (h : ofResult r = .ok ns) :
    ∃ root, r.root? = some root ∧ OwnedIn (root.named "Grammar") ns := by
  obtain ⟨root, hroot, hlength, hreads⟩ := ofResult_reads h
  refine ⟨root, hroot, hlength, fun pre g post hns => ?_⟩
  obtain ⟨t, ht, hread⟩ := hreads pre g post hns
  have hclosed : ∀ g ∈ pre, g.Closed := fun g hg =>
    closed_ofResult h g (hns ▸ List.mem_append_left _ hg)
  obtain ⟨⟨super, ds, hsuper, hown⟩, -⟩ :=
    readGrammar_ownedBy hclosed (native_of_ofResult h pre g post hns) hread
  exact ⟨t, super, ds, ht, hsuper, hown⟩

end Build

open Build

/-- In a source that compiles, the own rules of a grammar are those that it defines, overrides, extends
or introduces as cases, each of them once; only a grammar with the name of the built-in rules owns those
of them besides that it inherits unchanged. The rules of the extended grammar come first, in their order,
then those introduced, each with its cases behind it, in the order of their declarations. -/
theorem compile_ownRules {source : String} {ns : Namespace} (h : compile source = .ok ns) :
    ∃ r root, ofGrammars.matchText source none = .ok r ∧ r.root? = some root ∧
      OwnedIn (root.named "Grammar") ns := by
  obtain ⟨r, hr, hbuilt⟩ := compile_eq_ok h
  obtain ⟨root, hroot, howned⟩ := ofResult_ownedIn hbuilt
  exact ⟨r, root, hr, hroot, howned⟩

/-- A grammar with the name of the built-in rules overrides one of them. -/
def takenName : String :=
  "BuiltInRules\x7bdigit:=\"0\"--zero\nx=\"a\"\x7d"

theorem compile_ownRules_takenName : ∃ ns r root, compile takenName = .ok ns ∧
    ofGrammars.matchText takenName none = .ok r ∧ r.root? = some root ∧
    OwnedIn (root.named "Grammar") ns ∧
    ns.map (fun g => g.ownRules.map (·.name)) = [["alnum", "letter", "digit", "hexDigit", "lower",
      "upper", "space", "spaces", "digit_zero", "x"]] := by
  have hnames : (compile takenName).toOption.map (·.map fun g => g.ownRules.map (·.name)) =
      some [["alnum", "letter", "digit", "hexDigit", "lower", "upper", "space", "spaces",
        "digit_zero", "x"]] := by
    decide +kernel
  obtain ⟨ns, hns, hnames⟩ := toOption_map_eq_some hnames
  obtain ⟨r, root, hr, hroot, howned⟩ := compile_ownRules hns
  exact ⟨ns, r, root, hns, hr, hroot, howned, hnames⟩

end Pegboard.Grammar
