import Pegboard.Proofs.Grammar.Exchanged
import Pegboard.Proofs.Grammar.Expressed

/-!
# Where rules come from

A rule of a built grammar that names a place in the source comes from a node at that place, which
defines or changes it, or has it as a case. Where a rule is defined no other such node begins, so that
the place alone tells that the rule has the body which stands there.

Main statement: `isBody_of_source`.
-/

namespace Pegboard.Grammar

open Text

namespace Build

/-- The rule is the one that the node defines, or the node changes it, or it is a case. -/
inductive Origin (t : Tree.Located) (r : Rule) : Prop
  | define {st : State} {body : Tree.Located} {b : Body} (ht : t.tree.rule? = some "Rule_define")
      (hbody : child t "RuleBody" = .ok body) (hread : readBody st r.name body = .ok b)
      (heq : r.body = .choice b.terms)
  | other {q : String} (hq : q ∈ ["Rule_override", "Rule_extend", "TopLevelTerm_inline"])
      (ht : t.tree.rule? = some q)

/-- The place that the rule names is that of a node that it comes from. -/
def Originates (root : Tree.Located) (r : Rule) : Prop :=
  ∀ i ∈ r.source, ∃ t, root.Reaches t ∧ t.interval = i ∧ Origin t r

section

variable {root t ident body : Tree.Located} {r : Rule} {st st' : State} {b b' : Body}
  {rule name : String} {ns : Namespace} {g : Grammar}

theorem Originates.of_node (ht : root.Reaches t) (h : Origin t r)
    (hsource : r.source = some t.interval) : Originates root r := by
  rw [Originates, hsource]
  rintro _ ⟨⟩
  exact ⟨t, ht, rfl, h⟩

theorem reaches_named {s : Tree.Located} {q : String} (h : root.Reaches t) (hs : s ∈ t.named q) :
    root.Reaches s :=
  h.tail (List.mem_filter.mp hs).1

theorem reaches_child {s : Tree.Located} {q : String} (h : root.Reaches t)
    (hs : child t q = .ok s) : root.Reaches s :=
  h.tail (List.mem_of_find?_eq_some (child_eq_ok hs))

theorem reaches_onlyChild {s : Tree.Located} {q : String} (h : root.Reaches t)
    (hs : onlyChild t = .ok (s, q)) : root.Reaches s ∧ s.tree.rule? = some q := by
  obtain ⟨honly, hrule⟩ := onlyChild_eq_ok hs
  refine ⟨h.tail ?_, hrule⟩
  unfold Tree.Located.onlyChild? at honly
  split at honly
  · rename_i happs
    obtain rfl := Option.some.inj honly
    rw [happs]
    exact List.mem_singleton_self _
  · cases honly

theorem originates_readTerm (ht : root.Reaches t) (hb : ∀ c ∈ b.cases, Originates root c)
    (h : readTerm st rule b t = .ok b') : ∀ c ∈ b'.cases, Originates root c := by
  cases termRead_of_readTerm h with
  | plain => exact hb
  | named honly =>
      obtain ⟨hinner, hkind⟩ := reaches_onlyChild ht honly
      exact List.forall_mem_append.mpr ⟨hb, List.forall_mem_singleton.mpr
        (.of_node hinner (.other (by decide) hkind) rfl)⟩

theorem originates_readBody (hbody : root.Reaches body) (h : readBody st rule body = .ok b) :
    ∀ c ∈ b.cases, Originates root c :=
  foldlM_keeps_each (P := fun b : Body => ∀ c ∈ b.cases, Originates root c)
    (fun _ hterm _ _ hb => originates_readTerm (reaches_named hbody hterm) hb)
    (List.forall_mem_nil _) h

theorem originates_declare (hst : ∀ r ∈ st.grammar.rules, Originates root r)
    (hr : Originates root r) (hcases : ∀ c ∈ b.cases, Originates root c) :
    ∀ r' ∈ (st.declare r b).grammar.rules, Originates root r' := fun r' hr' =>
  (mem_of_mem_foldl_define hr').elim
    (fun hnew => List.forall_mem_cons.mpr ⟨hr, hcases⟩ r' hnew) (hst r')

theorem originates_ruleRead (ht : root.Reaches t) (hst : ∀ r ∈ st.grammar.rules, Originates root r)
    (h : RuleRead st t st') : ∀ r ∈ st'.grammar.rules, Originates root r := by
  cases h with
  | define honly _ hbody _ hread hs' =>
      subst hs'
      obtain ⟨hcase, hrule⟩ := reaches_onlyChild ht honly
      exact originates_declare hst (.of_node hcase (.define hrule hbody hread rfl) rfl)
        (originates_readBody (reaches_child hcase hbody) hread)
  | @change _ _ _ kind _ _ _ honly _ hbody _ _ hread hchange =>
      obtain ⟨hcase, hrule⟩ := reaches_onlyChild ht honly
      have hkind : kind ∈ ["Rule_override", "Rule_extend", "TopLevelTerm_inline"] := by
        rcases hchange with ⟨rfl, -⟩ | ⟨rfl, -⟩ <;> decide
      exact originates_declare hst (.of_node hcase (.other hkind hrule) rfl)
        (originates_readBody (reaches_child hcase hbody) hread)

theorem originates_superGrammar (hns : ∀ g ∈ ns, ∀ r ∈ g.rules, Originates root r)
    (h : superGrammar ns t = .ok g) : ∀ r ∈ g.rules, Originates root r := by
  rcases superGrammar_cases h with ⟨-, rfl⟩ | hg
  · have hnone : ∀ r ∈ builtInRules.rules, r.source = none := by decide
    intro r hr
    rw [Originates, hnone r hr]
    exact nofun
  · exact hns g hg

theorem originates_readGrammar (ht : root.Reaches t)
    (hns : ∀ g ∈ ns, ∀ r ∈ g.rules, Originates root r) (h : readGrammar ns t = .ok g) :
    ∀ r ∈ g.rules, Originates root r := by
  obtain ⟨ident, super, st, -, -, hsuper, hrules, -, rfl⟩ := readGrammar_eq_ok h
  exact foldlM_keeps_each (P := fun st : State => ∀ r ∈ st.grammar.rules, Originates root r)
    (fun _ hrule _ _ hst h =>
      originates_ruleRead (reaches_named ht hrule) hst (ruleRead_of_readRule h))
    (fun r hr => originates_superGrammar hns hsuper r hr) hrules

theorem originates_ofResult {result : Match.Result} (hroot : result.root? = some root)
    (h : ofResult result = .ok ns) : ∀ g ∈ ns, ∀ r ∈ g.rules, Originates root r := by
  have hhistory := ofResult_history
    (P := fun ts ns => (∀ t ∈ ts, root.Reaches t) → ∀ g ∈ ns, ∀ r ∈ g.rules, Originates root r)
    (fun _ => List.forall_mem_nil _) (fun ts t ns g ih hg hts => by
      obtain ⟨hts, ht⟩ := List.forall_mem_append.mp hts
      exact List.forall_mem_append.mpr ⟨ih hts, List.forall_mem_singleton.mpr
        (originates_readGrammar (List.forall_mem_singleton.mp ht) (ih hts) hg)⟩) h
  obtain ⟨root', hroot', hns⟩ := hhistory
  obtain rfl := Option.some.inj (hroot.symm.trans hroot')
  exact hns fun t ht => reaches_named .refl ht

end

end Build

open Build

/-- A tree that was found covers some text. -/
theorem spans_of_found {p : Parser} {q : String} {t : Tree.Located} (hp : p.Tidy)
    (h : p.Found q t) : ∃ cs ds, p.Spans q cs ds t := by
  obtain ⟨cs, hleft, htree⟩ := h
  exact ⟨cs, _, hleft, htree, (hp q cs _ htree).2.split⟩

/-- Where a rule is defined, no rule is changed, and there is no case. -/
theorem ParsedBy.define_unique {p : Parser} {q : String} {d t : Tree.Located}
    (hp : ofGrammars.ParsedBy p) (hd : p.Found "Rule_define" d) (ht : p.Found q t)
    (hq : q ∈ ["Rule_define", "Rule_override", "Rule_extend", "TopLevelTerm_inline"])
    (hinput : t.input = d.input) (hoffset : t.offset = d.offset) : q = "Rule_define" ∧ t = d := by
  have htidy := hp.tidy acyclic_ofGrammars
  obtain ⟨cs, _, hd⟩ := spans_of_found htidy hd
  obtain ⟨cs', _, ht⟩ := spans_of_found htidy ht
  obtain rfl : cs' = cs := (hinput ▸ hoffset ▸ ht.left).unique hd.left
  simp only [List.mem_cons, List.not_mem_nil, or_false] at hq
  rcases hq with rfl | rfl | rfl | rfl
  · refine ⟨rfl, ?_⟩
    obtain ⟨tree, offset, input⟩ := t
    obtain ⟨tree', offset', input'⟩ := d
    obtain rfl : tree = tree' := Option.some.inj (ht.tree.symm.trans hd.tree)
    obtain rfl : offset = offset' := hoffset
    obtain rfl : input = input' := hinput
    rfl
  · exact absurd (hp.rule_define_fails (d := ':') rule_override_body rfl (by decide) ht.not_fails)
      hd.not_fails
  · exact absurd (hp.rule_define_fails (d := '+') rule_extend_body rfl (by decide) ht.not_fails)
      hd.not_fails
  · have hheader := hp.rule_define_begins hd.not_fails
    rw [← skip_skip] at hheader
    exact absurd (hp.fails topLevelTerm_inline_body
      (.head (hp.misses_rule (hp.seq_fails (.inr hheader))))) ht.not_fails

/-- A rule that a node defines by terms without case names has them as its body. -/
theorem isBody_of_source {source : String} {ns : Namespace} {root d body : Tree.Located}
    {g : Grammar} {r : Rule} (hns : compile source = .ok ns)
    (hroot : sourceTree? source = some root) (hreach : root.Reaches d)
    (hd : d.tree.rule? = some "Rule_define") (hbody : d.first? "RuleBody" = some body)
    (hplain : ∀ s, body.Reaches s → s.tree.rule? ≠ some "TopLevelTerm_inline")
    (hg : g ∈ ns) (hr : r ∈ g.rules) (hsource : r.source = some d.interval) :
    ∃ terms, IsBody terms body ∧ r.body = .choice terms ∧ Expressible r.body := by
  have hp := acyclic_ofGrammars.parsedBy
  obtain ⟨hmatch, hroot⟩ := hp.sourceTree_eq hroot
  have hbuilt := compileResult_eq_ok ((compile_eq hmatch).symm.trans hns)
  obtain ⟨t, ht, hplace, horigin⟩ := originates_ofResult hroot hbuilt g hg r hr _ hsource
  obtain ⟨-, hfound⟩ := (hp.tidy acyclic_ofGrammars).found_root hroot
  have hfoundd := hp.found_of_reaches hfound hreach hd
  have hsame {q : String} (hq : q ∈ ["Rule_define", "Rule_override", "Rule_extend",
      "TopLevelTerm_inline"]) (hrule : t.tree.rule? = some q) : q = "Rule_define" ∧ t = d :=
    hp.define_unique hfoundd (hp.found_of_reaches hfound ht hrule) hq
      (ht.input_eq.trans hreach.input_eq.symm) (congrArg Interval.start hplace)
  cases horigin with
  | @define st body' b hdefine hchild hread heq =>
      obtain ⟨-, rfl⟩ := hsame (by decide) hdefine
      obtain rfl := Option.some.inj (hbody.symm.trans (child_eq_ok hchild))
      have hnode : Node _ root "Rule_define" t := ⟨hfoundd, hreach⟩
      obtain ⟨hterms, hne, hexpressible⟩ :=
        isBody_of_readBody hp (hnode.of_first? hp rule_define_body hbody) hplain hread
      exact ⟨b.terms, hterms, heq, heq ▸ expressible_choice hne hexpressible⟩
  | other hq hother =>
      obtain ⟨rfl, -⟩ := hsame (List.mem_cons_of_mem _ hq) hother
      exact absurd hq (by decide)

end Pegboard.Grammar
