import Pegboard.Proofs.Grammar.Closed

/-!
# What grammar sources declare

A rule of a source defines a new rule, or overrides or extends one, and the named cases in its body
become rules as well. In a source that compiles, what the rules of one grammar introduce is new, and
nothing is changed twice (`Coherent`). What is changed is a rule of the extended grammar, or else a
case that stands further up in the same grammar: its name is in the table by then, and among the names
of the rules that the source has declared itself it is not.

Main statement: `compile_declarations`.
-/

namespace Pegboard.Grammar.Build

/-! ## Declarations -/

/-- What a source does with a rule. -/
inductive Kind
  | define
  | override
  | extend
  deriving DecidableEq

/-- A rule in a source: its name, and the names that the cases in its body have as rules. -/
structure Declaration where
  kind : Kind
  name : String
  cases : List String
  deriving DecidableEq

def Kind.ofRule? : String → Option Kind
  | "Rule_define" => some define
  | "Rule_override" => some override
  | "Rule_extend" => some extend
  | _ => none

/-- The name that a term of a rule has as a rule, if it is a named case. -/
def caseName? (rule : String) (term : Tree.Located) : Option String := do
  let inner ← term.onlyChild?
  guard (inner.tree.rule? = some "TopLevelTerm_inline")
  let name ← (← inner.first? "caseName").first? "name"
  return rule ++ "_" ++ name.text

/-- What the tree of a rule declares. -/
def declaration? (t : Tree.Located) : Option Declaration := do
  let case ← t.onlyChild?
  let kind ← Kind.ofRule? (← case.tree.rule?)
  let ident ← case.first? "ident"
  let body ← case.first? "RuleBody"
  return ⟨kind, ident.text, (body.named "TopLevelTerm").filterMap (caseName? ident.text)⟩

namespace Declaration

/-- All names that the declaration speaks of. -/
def names (d : Declaration) : List String :=
  d.name :: d.cases

/-- The names that it introduces. -/
def introduced (d : Declaration) : List String :=
  if d.kind = .define then d.names else d.cases

/-- The name of the rule that it gives another body, if it does. -/
def changed? (d : Declaration) : Option String :=
  if d.kind = .define then none else some d.name

theorem mem_introduced {d : Declaration} {n : String} :
    n ∈ d.introduced ↔ (d.kind = .define ∧ n = d.name) ∨ n ∈ d.cases := by
  unfold introduced
  split
  · simp [names, *]
  · simp [*]

end Declaration

/-- The declarations of a grammar that extends `super` go together. -/
structure Coherent (super : Grammar) (ds : List Declaration) : Prop where
  fresh : ∀ n ∈ ds.flatMap Declaration.introduced, super.hasRule n = false
  introduced : (ds.flatMap Declaration.introduced).Nodup
  changed : (ds.filterMap Declaration.changed?).Nodup
  /-- What is changed is there: in the extended grammar, or as a case further up. -/
  there : ∀ pre d post n, ds = pre ++ d :: post → d.changed? = some n →
    super.hasRule n = true ∨ n ∈ pre.flatMap Declaration.cases

/-- Only rules of the extended grammar are changed, and no name is declared twice in any way. -/
structure ChangesInherited (super : Grammar) (ds : List Declaration) : Prop where
  inherited : ∀ n ∈ ds.filterMap Declaration.changed?, super.hasRule n = true
  once : (ds.flatMap Declaration.names).Nodup

namespace Coherent

variable {super : Grammar} {ds : List Declaration}

theorem names_perm (ds : List Declaration) : (ds.flatMap Declaration.names).Perm
    (ds.filterMap Declaration.changed? ++ ds.flatMap Declaration.introduced) := by
  induction ds with
  | nil => exact .nil
  | cons d ds ih =>
      rw [List.flatMap_cons, List.flatMap_cons, List.filterMap_cons]
      by_cases hd : d.kind = .define
      · -- the name is introduced together with the cases
        simp only [Declaration.changed?, Declaration.introduced, hd, if_true]
        refine (ih.append_left _).trans ?_
        rw [← List.append_assoc, ← List.append_assoc]
        exact List.perm_append_comm.append_right _
      · simp only [Declaration.changed?, Declaration.introduced, hd, if_false, Declaration.names,
          List.cons_append]
        refine ((ih.append_left _).trans ?_).cons _
        rw [← List.append_assoc, ← List.append_assoc]
        exact List.perm_append_comm.append_right _

theorem there_of_mem (h : Coherent super ds) {n : String}
    (hn : n ∈ ds.filterMap Declaration.changed?) :
    super.hasRule n = true ∨ n ∈ ds.flatMap Declaration.cases := by
  obtain ⟨d, hd, hchanged⟩ := List.mem_filterMap.mp hn
  obtain ⟨pre, post, rfl⟩ := List.append_of_mem hd
  refine (h.there pre d post n rfl hchanged).imp_right fun hcase => ?_
  rw [List.flatMap_append]
  exact List.mem_append_left _ hcase

/-- Coherent declarations change inherited rules only, and name nothing twice, exactly if they change
none of their own cases. -/
theorem changesInherited_iff (h : Coherent super ds) : ChangesInherited super ds ↔
    ∀ n ∈ ds.filterMap Declaration.changed?, n ∉ ds.flatMap Declaration.cases := by
  have fresh_case : ∀ n ∈ ds.flatMap Declaration.cases, super.hasRule n = false := by
    intro n hn
    obtain ⟨d, hd, hcase⟩ := List.mem_flatMap.mp hn
    exact h.fresh n (List.mem_flatMap.mpr ⟨d, hd, Declaration.mem_introduced.mpr (.inr hcase)⟩)
  constructor
  · intro hchanges n hn hcase
    have := hchanges.inherited n hn
    rw [fresh_case n hcase] at this
    cases this
  · intro hcases
    have inherited : ∀ n ∈ ds.filterMap Declaration.changed?, super.hasRule n = true :=
      fun n hn => (h.there_of_mem hn).resolve_right (hcases n hn)
    refine ⟨inherited, (names_perm ds).nodup_iff.mpr (List.nodup_append.mpr
      ⟨h.changed, h.introduced, ?_⟩)⟩
    rintro n hn _ hintroduced rfl
    have := inherited n hn
    rw [h.fresh n hintroduced] at this
    cases this

end Coherent

/-! ## Bodies -/

/-- The cases of a body are those of the terms read, each under a new name. -/
structure NewCases (s : State) (rule : String) (terms : List Tree.Located) (b : Body) : Prop where
  names : b.cases.map (·.name) = terms.filterMap (caseName? rule)
  nodup : (b.cases.map (·.name)).Nodup
  fresh : ∀ n ∈ b.cases.map (·.name), n ∉ s.declared ∧ s.grammar.hasRule n = false

namespace NewCases

variable {s : State} {rule : String} {terms : List Tree.Located} {term : Tree.Located}
  {b b' : Body}

theorem read (h : NewCases s rule terms b) (hread : TermRead s rule b term b') :
    NewCases s rule (terms ++ [term]) b' := by
  cases hread with
  | plain honly hkind =>
      obtain ⟨hinner, hrule⟩ := onlyChild_eq_ok honly
      have hcase : caseName? rule term = none := by
        simp [caseName?, hinner, hrule, hkind, guard]
      refine ⟨?_, h.nodup, h.fresh⟩
      rw [h.names, List.filterMap_append, List.filterMap_cons, hcase, List.filterMap_nil,
        List.append_nil]
  | @named inner _ caseName name _ _ honly _ _ hcaseName hname hother hfresh =>
      obtain ⟨hinner, hrule⟩ := onlyChild_eq_ok honly
      have hcase : caseName? rule term = some (rule ++ "_" ++ name.text) := by
        simp [caseName?, hinner, hrule, child_eq_ok hcaseName, child_eq_ok hname]
      refine ⟨?_, ?_, ?_⟩
      · rw [List.map_append, h.names, List.filterMap_append, List.filterMap_cons, hcase]
        rfl
      · rw [List.map_append]
        refine List.nodup_append.mpr ⟨h.nodup, List.nodup_singleton _, ?_⟩
        rintro n hn _ hm rfl
        obtain rfl : n = rule ++ "_" ++ name.text := List.mem_singleton.mp hm
        exact hother hn
      · rw [List.map_append]
        exact List.forall_mem_append.mpr ⟨h.fresh, List.forall_mem_singleton.mpr hfresh⟩

theorem readBody {body : Tree.Located} (heq : readBody s rule body = .ok b) :
    NewCases s rule (body.named "TopLevelTerm") b := by
  have hnone : NewCases s rule [] ⟨[], [], []⟩ := ⟨rfl, List.nodup_nil, List.forall_mem_nil _⟩
  exact foldlM_history (fun _ _ _ _ h heq => h.read (termRead_of_readTerm heq)) hnone heq

end NewCases

theorem rule_ne_case (rule name : String) : rule ≠ rule ++ "_" ++ name := by
  intro heq
  have := congrArg String.length heq
  simp only [String.length_append] at this
  have : "_".length = 1 := rfl
  omega

/-- No case of a rule has the name of the rule. -/
theorem not_mem_filterMap_caseName? (rule : String) (terms : List Tree.Located) :
    rule ∉ terms.filterMap (caseName? rule) := by
  intro hmem
  obtain ⟨term, -, hcase⟩ := List.mem_filterMap.mp hmem
  simp only [caseName?, Option.bind_eq_bind, Option.bind_eq_some_iff] at hcase
  obtain ⟨inner, -, ⟨⟩, -, caseName, -, name, -, heq⟩ := hcase
  exact rule_ne_case rule name.text (Option.some.inj heq).symm

/-! ## Rules -/

section

variable {t case ident body : Tree.Located} {kind : String}

theorem declaration?_of_parts {k : Kind} (honly : onlyChild t = .ok (case, kind))
    (hident : child case "ident" = .ok ident) (hbody : child case "RuleBody" = .ok body)
    (hkind : Kind.ofRule? kind = some k) : declaration? t =
      some ⟨k, ident.text, (body.named "TopLevelTerm").filterMap (caseName? ident.text)⟩ := by
  obtain ⟨hcase, hrule⟩ := onlyChild_eq_ok honly
  simp [declaration?, hcase, hrule, hkind, child_eq_ok hident, child_eq_ok hbody]

theorem declaration?_of_change {P Q : Prop} (honly : onlyChild t = .ok (case, kind))
    (hident : child case "ident" = .ok ident) (hbody : child case "RuleBody" = .ok body)
    (hchange : kind = "Rule_override" ∧ P ∨ kind = "Rule_extend" ∧ Q) :
    ∃ k, k ≠ .define ∧ declaration? t =
      some ⟨k, ident.text, (body.named "TopLevelTerm").filterMap (caseName? ident.text)⟩ := by
  rcases hchange with ⟨rfl, -⟩ | ⟨rfl, -⟩
  · exact ⟨.override, by decide, declaration?_of_parts honly hident hbody rfl⟩
  · exact ⟨.extend, by decide, declaration?_of_parts honly hident hbody rfl⟩

end

/-- The grammar being built has the rules of the one that it extends, and those that were introduced. -/
structure Declares (super : Grammar) (ds : List Declaration) (s : State) : Prop where
  hasRule_iff : ∀ n, s.grammar.hasRule n = true ↔
    super.hasRule n = true ∨ n ∈ ds.flatMap Declaration.introduced
  declared_iff : ∀ n, n ∈ s.declared ↔ n ∈ ds.map (·.name)
  coherent : Coherent super ds

theorem mem_ruleNames_foldl_define {g : Grammar} {rs : List Rule} {n : String} :
    n ∈ (rs.foldl define g).ruleNames ↔ n ∈ g.ruleNames ∨ n ∈ rs.map (·.name) := by
  induction rs generalizing g with
  | nil => simp
  | cons r rs ih =>
      have hdefine : n ∈ (g.define r).ruleNames ↔ n ∈ g.ruleNames ∨ n = r.name := by
        rw [ruleNames, define, names_placeRule]
        split
        · rename_i hmem
          exact ⟨.inl, fun h => h.elim id fun heq => heq ▸ hmem⟩
        · rw [List.mem_append, List.mem_singleton]
          rfl
      rw [List.foldl_cons, ih, hdefine, List.map_cons, List.mem_cons, or_assoc]

namespace Declares

variable {super : Grammar} {ds : List Declaration} {s s' : State} {t : Tree.Located}

theorem initial (super : Grammar) (name : String) :
    Declares super [] ⟨.extending (some super) name, [], [], false⟩ where
  hasRule_iff n := ⟨.inl, fun h => h.elim id nofun⟩
  declared_iff n := by simp
  coherent :=
    { fresh := nofun
      introduced := List.nodup_nil
      changed := List.nodup_nil
      there := by
        intro pre d post n h
        cases pre <;> cases h }

/-- A rule that is in the grammar, but was not declared by its own name, is an inherited one or a
case. -/
theorem there (h : Declares super ds s) {n : String} (hn : s.grammar.hasRule n = true)
    (hdeclared : n ∉ s.declared) :
    super.hasRule n = true ∨ n ∈ ds.flatMap Declaration.cases := by
  refine ((h.hasRule_iff n).mp hn).imp_right fun hmem => ?_
  obtain ⟨d, hd, hintroduced⟩ := List.mem_flatMap.mp hmem
  rcases Declaration.mem_introduced.mp hintroduced with ⟨-, rfl⟩ | hcase
  · exact absurd ((h.declared_iff _).mpr (List.mem_map_of_mem hd)) hdeclared
  · exact List.mem_flatMap.mpr ⟨d, hd, hcase⟩

/-- One declaration more: of a rule that was not declared before, and is new exactly if it is defined
here, with new cases. -/
theorem coherent_concat (h : Declares super ds s) {d : Declaration} (hd : d.name ∉ s.declared)
    (hkind : s.grammar.hasRule d.name = false ↔ d.kind = .define)
    (hnodup : d.names.Nodup) (hcases : ∀ n ∈ d.cases, s.grammar.hasRule n = false) :
    Coherent super (ds ++ [d]) := by
  have hfresh : ∀ n ∈ d.introduced, s.grammar.hasRule n = false := by
    intro n hn
    rcases Declaration.mem_introduced.mp hn with ⟨hdefine, rfl⟩ | hcase
    · exact hkind.mpr hdefine
    · exact hcases n hcase
  have hnew : ∀ n ∈ d.introduced,
      super.hasRule n = false ∧ n ∉ ds.flatMap Declaration.introduced := by
    intro n hn
    have hnot := mt (h.hasRule_iff n).mpr (Bool.not_eq_true _ ▸ hfresh n hn)
    exact ⟨Bool.eq_false_iff.mpr fun heq => hnot (.inl heq), fun hmem => hnot (.inr hmem)⟩
  refine ⟨?_, ?_, ?_, ?_⟩
  · rw [List.flatMap_append, List.flatMap_singleton]
    exact List.forall_mem_append.mpr ⟨h.coherent.fresh, fun n hn => (hnew n hn).1⟩
  · rw [List.flatMap_append, List.flatMap_singleton]
    refine List.nodup_append.mpr ⟨h.coherent.introduced, ?_, ?_⟩
    · unfold Declaration.introduced
      split
      · exact hnodup
      · exact hnodup.of_cons
    · rintro n hn _ hmem rfl
      exact (hnew n hmem).2 hn
  · rw [List.filterMap_append]
    refine List.nodup_append.mpr ⟨h.coherent.changed, ?_, ?_⟩
    · rw [List.filterMap_cons]
      split
      · exact List.nodup_nil
      · exact List.nodup_singleton _
    · rintro n hn _ hmem rfl
      obtain ⟨d', hd', hchanged'⟩ := List.mem_filterMap.mp hn
      obtain ⟨d'', hd'', hchanged⟩ := List.mem_filterMap.mp hmem
      obtain rfl := List.mem_singleton.mp hd''
      unfold Declaration.changed? at hchanged hchanged'
      split at hchanged
      · cases hchanged
      split at hchanged'
      · cases hchanged'
      obtain rfl := Option.some.inj hchanged
      refine hd ((h.declared_iff _).mpr (List.mem_map.mpr ⟨d', hd', Option.some.inj hchanged'⟩))
  · intro pre d' post n heq hchanged
    rcases History.concat_eq_append_cons heq with ⟨rfl, rfl, rfl⟩ | ⟨post', rfl, hearlier⟩
    · unfold Declaration.changed? at hchanged
      split at hchanged
      · cases hchanged
      rename_i hne
      obtain rfl := Option.some.inj hchanged
      have hthere : s.grammar.hasRule d'.name = true := by
        simpa using mt hkind.mp hne
      exact h.there hthere hd
    · exact h.coherent.there pre d' post' n hearlier hchanged

/-- A rule is declared together with its cases. -/
theorem declare (h : Declares super ds s) {d : Declaration} {r : Rule} {b : Body}
    {terms : List Tree.Located} (hr : r.name = d.name) (hd : d.name ∉ s.declared)
    (hkind : s.grammar.hasRule d.name = false ↔ d.kind = .define)
    (hb : NewCases s d.name terms b) (hcases : d.cases = terms.filterMap (caseName? d.name)) :
    Declares super (ds ++ [d]) (s.declare r b) := by
  have hnames : b.cases.map (·.name) = d.cases := hb.names.trans hcases.symm
  have hnodup := hb.nodup
  have hfresh := hb.fresh
  rw [hnames] at hnodup hfresh
  refine ⟨fun n => ?_, fun n => ?_, h.coherent_concat hd hkind ?_ fun n hn => (hfresh n hn).2⟩
  · rw [State.declare, Grammar.hasRule_iff, mem_ruleNames_foldl_define, ← Grammar.hasRule_iff,
      h.hasRule_iff,
      List.map_cons, hnames, hr, List.flatMap_append, List.flatMap_singleton, List.mem_append,
      List.mem_cons, Declaration.mem_introduced, or_assoc]
    constructor
    · rintro (hsuper | hold | rfl | hcase)
      · exact .inl hsuper
      · exact .inr (.inl hold)
      · -- a rule that is changed is there already
        by_cases hdefine : d.kind = .define
        · exact .inr (.inr (.inl ⟨hdefine, rfl⟩))
        · have hthere : s.grammar.hasRule d.name = true := by simpa using mt hkind.mp hdefine
          exact ((h.hasRule_iff _).mp hthere).imp_right .inl
      · exact .inr (.inr (.inr hcase))
    · rintro (hsuper | hold | ⟨-, rfl⟩ | hcase)
      · exact .inl hsuper
      · exact .inr (.inl hold)
      · exact .inr (.inr (.inl rfl))
      · exact .inr (.inr (.inr hcase))
  · rw [State.declare, List.mem_cons, h.declared_iff, List.map_append, List.mem_append,
      List.map_singleton, List.mem_singleton, hr, or_comm]
  · exact List.nodup_cons.mpr ⟨hcases ▸ not_mem_filterMap_caseName? d.name terms, hnodup⟩

/-- The next rule of a source declares something, and it is coherent with what came before. -/
theorem read (h : Declares super ds s) (hread : RuleRead s t s') :
    ∃ d, declaration? t = some d ∧ Declares super (ds ++ [d]) s' := by
  cases hread with
  | @define case ident body b _ honly hident hbody hfresh hread _ hs' =>
      subst hs'
      have hdeclare := h.declare
        (d := ⟨.define, ident.text, (body.named "TopLevelTerm").filterMap (caseName? ident.text)⟩)
        (r := ⟨ident.text, .choice b.terms, description? case, some case.interval, s.grammar.name⟩)
        rfl hfresh.1 (by simp [hfresh.2]) (NewCases.readBody hread) rfl
      exact ⟨_, declaration?_of_parts honly hident hbody rfl,
        hdeclare.hasRule_iff, hdeclare.declared_iff, hdeclare.coherent⟩
  | @change _ ident _ _ _ _ _ honly hident hbody hold hdeclared hread hchange =>
      obtain ⟨k, hk, hd⟩ := declaration?_of_change honly hident hbody hchange
      have hthere : s.grammar.hasRule ident.text = true := by rw [hasRule, hold, Option.isSome_some]
      exact ⟨_, hd, h.declare (d := ⟨k, ident.text, _⟩) rfl hdeclared (by simp [hthere, hk])
        (NewCases.readBody hread) rfl⟩

/-- What holds of the declarations read so far, and survives one more, holds of all of a grammar. -/
theorem history {P : List Declaration → State → Prop} {name : String} {ts : List Tree.Located}
    (hinitial : P [] ⟨.extending (some super) name, [], [], false⟩)
    (hstep : ∀ ds d s s' t, Declares super ds s → Declares super (ds ++ [d]) s' →
      RuleRead s t s' → declaration? t = some d → P ds s → P (ds ++ [d]) s')
    (h : ts.foldlM (readRule super.name) ⟨.extending (some super) name, [], [], false⟩ = .ok s) :
    ∃ ds, ts.map declaration? = ds.map some ∧ Declares super ds s ∧ P ds s := by
  refine foldlM_history (P := fun ts s => ∃ ds, ts.map declaration? = ds.map some ∧
    Declares super ds s ∧ P ds s) ?_ ⟨[], rfl, .initial super name, hinitial⟩ h
  rintro ts t s s' ⟨ds, hds, hdeclares, hP⟩ hrule
  have hread := ruleRead_of_readRule hrule
  obtain ⟨d, hd, hdeclares'⟩ := hdeclares.read hread
  refine ⟨ds ++ [d], ?_, hdeclares', hstep ds d s s' t hdeclares hdeclares' hread hd hP⟩
  rw [List.map_append, List.map_append, hds, List.map_singleton, hd]
  rfl

end Declares

/-! ## Grammars -/

/-- What a grammar of a source declares, over the one that it extends. -/
structure DeclaredBy (super : Grammar) (g : Grammar) (t : Tree.Located) (ds : List Declaration) :
    Prop where
  declarations : (t.named "Rule").map declaration? = ds.map some
  coherent : Coherent super ds
  /-- The rules of the grammar are those of the other one and those introduced. -/
  hasRule_iff : ∀ n, g.hasRule n = true ↔
    super.hasRule n = true ∨ n ∈ ds.flatMap Declaration.introduced

theorem readGrammar_declaredBy {ns : Namespace} {t : Tree.Located} {g : Grammar}
    (h : readGrammar ns t = .ok g) :
    ∃ super ds, superGrammar ns t = .ok super ∧ DeclaredBy super g t ds := by
  obtain ⟨ident, super, s, -, -, hsuper, hrules, -, rfl⟩ := readGrammar_eq_ok h
  obtain ⟨ds, hds, hdeclares, -⟩ := Declares.history (P := fun _ _ => True) trivial
    (fun _ _ _ _ _ _ _ _ _ _ => trivial) hrules
  exact ⟨super, ds, hsuper, hds, hdeclares.coherent, hdeclares.hasRule_iff⟩

/-- The grammars are those that the trees declare, one after the other, each over one of those before
it or over the built-in rules. Only inherited rules are changed, and nothing is named twice, exactly
if none changes a case of its own. -/
def DeclaredIn (ts : List Tree.Located) (ns : Namespace) : Prop :=
  ts.length = ns.length ∧
    ∀ pre g post, ns = pre ++ g :: post → ∃ t super ds,
      ts[pre.length]? = some t ∧ superGrammar pre t = .ok super ∧ DeclaredBy super g t ds ∧
        (ChangesInherited super ds ↔
          ∀ n ∈ ds.filterMap Declaration.changed?, n ∉ ds.flatMap Declaration.cases)

theorem ofResult_declaredIn {r : Match.Result} {ns : Namespace} (h : ofResult r = .ok ns) :
    ∃ root, r.root? = some root ∧ DeclaredIn (root.named "Grammar") ns := by
  obtain ⟨root, hroot, hlength, hreads⟩ := ofResult_reads h
  refine ⟨root, hroot, hlength, fun pre g post hns => ?_⟩
  obtain ⟨t, ht, hread⟩ := hreads pre g post hns
  obtain ⟨super, ds, hsuper, hdeclared⟩ := readGrammar_declaredBy hread
  exact ⟨t, super, ds, ht, hsuper, hdeclared, hdeclared.coherent.changesInherited_iff⟩

end Build

open Build

/-- In a source that compiles, the rules of each grammar introduce names that are new to it, each of
them once, and change no rule twice. What they change is a rule of the extended grammar, or a case
that one of them introduced before: exactly if there is none of these, only inherited rules are
changed and no name is declared twice. -/
theorem compile_declarations {source : String} {ns : Namespace} (h : compile source = .ok ns) :
    ∃ r root, ofGrammars.matchText source none = .ok r ∧ r.root? = some root ∧
      DeclaredIn (root.named "Grammar") ns := by
  obtain ⟨r, hr, hbuilt⟩ := compile_eq_ok h
  obtain ⟨root, hroot, hdeclared⟩ := ofResult_declaredIn hbuilt
  exact ⟨r, root, hr, hroot, hdeclared⟩

/-- A rule is overridden that is a case of the rule before it. -/
def caseOverridden : String :=
  "G\x7bx=\"a\"--c\nx_c:=\"b\"\x7d"

theorem compile_declarations_caseOverridden : ∃ ns r root, compile caseOverridden = .ok ns ∧
    ofGrammars.matchText caseOverridden none = .ok r ∧ r.root? = some root ∧
    DeclaredIn (root.named "Grammar") ns ∧
    (root.named "Grammar").map (fun t => (t.named "Rule").map declaration?) =
      [[some ⟨.define, "x", ["x_c"]⟩, some ⟨.override, "x_c", []⟩]] := by
  have hcompiles : (compile caseOverridden).toOption.isSome = true := by decide +kernel
  have hdeclarations : (ofGrammars.matchText caseOverridden none).toOption.map
      (fun r => r.root?.map fun root =>
        (root.named "Grammar").map fun t => (t.named "Rule").map declaration?) =
      some (some [[some ⟨.define, "x", ["x_c"]⟩, some ⟨.override, "x_c", []⟩]]) := by
    decide +kernel
  obtain ⟨ns, hns⟩ := Option.isSome_iff_exists.mp hcompiles
  obtain ⟨ns, hns, -⟩ := toOption_map_eq_some (f := fun _ => ()) (b := ()) (by rw [hns]; rfl)
  obtain ⟨r, root, hr, hroot, hdeclared⟩ := compile_declarations hns
  obtain ⟨r', hr', hds⟩ := toOption_map_eq_some hdeclarations
  obtain rfl : r = r' := Except.ok.inj (hr.symm.trans hr')
  rw [hroot] at hds
  exact ⟨ns, r, root, hns, hr, hroot, hdeclared, Option.some.inj hds⟩

end Pegboard.Grammar
