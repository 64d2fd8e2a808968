import Pegboard.Grammar.Compile
import Pegboard.Proofs.History
import Pegboard.Proofs.Text.Edit

/-!
# The steps of a build

A source is built grammar by grammar, a grammar rule by rule and a rule term by term, and the build
stops at the first step that fails. This module says what a step that did not fail has read, what it
has checked and what came of it: `TermRead` for a term, `RuleRead` for a rule, `readGrammar_eq_ok` for
a grammar. What is kept by these steps is kept by the build (`foldlM_history`).

Main statements: `termRead_of_readTerm`, `ruleRead_of_readRule`, `ofResult_reads`.
-/

namespace Pegboard.Grammar

namespace Build

/-! ## One step after the other -/

/-- What holds of the steps taken so far, and survives one more, holds of all of them. -/
theorem foldlM_history {α β : Type} {f : β → α → Attempt β} {P : List α → β → Prop}
    (hf : ∀ as a b b', P as b → f b a = .ok b' → P (as ++ [a]) b') {as : List α} {b b' : β}
    (hb : P [] b) (h : as.foldlM f b = .ok b') : P as b' := by
  have run : ∀ todo done b, P done b → todo.foldlM f b = .ok b' → P (done ++ todo) b' := by
    intro todo
    induction todo with
    | nil =>
        intro done b hb h
        rw [List.append_nil]
        exact Except.ok.inj h ▸ hb
    | cons a todo ih =>
        intro done b hb h
        rw [List.foldlM_cons] at h
        obtain ⟨c, hc, hrest⟩ := bind_eq_ok.mp h
        rw [List.append_cons]
        exact ih _ c (hf done a b c hb hc) hrest
  exact run as [] b hb h

/-- Steps that may fail and keep a property otherwise keep it one after the other. -/
theorem foldlM_keeps_each {α β : Type} {f : β → α → Attempt β} {P : β → Prop} {as : List α}
    (hf : ∀ a ∈ as, ∀ b b', P b → f b a = .ok b' → P b') {b b' : β} (hb : P b)
    (h : as.foldlM f b = .ok b') : P b' := by
  refine foldlM_history (P := fun done b => (∀ a ∈ done, a ∈ as) → P b) ?_ (fun _ => hb) h fun _ => id
  intro done a b b' ih hstep hdone
  obtain ⟨hdone, ha⟩ := List.forall_mem_append.mp hdone
  exact hf a (List.forall_mem_singleton.mp ha) b b' (ih hdone) hstep

theorem foldlM_keeps {α β : Type} {f : β → α → Attempt β} {P : β → Prop}
    (hf : ∀ b a b', P b → f b a = .ok b' → P b') {as : List α} {b b' : β} (hb : P b)
    (h : as.foldlM f b = .ok b') : P b' :=
  foldlM_keeps_each (fun a _ b b' => hf b a b') hb h

variable {s s' : State} {t term : Tree.Located} {rule : String} {b b' : Body}

/-! ## Reading trees -/

section

variable {s : Tree.Located}

theorem child_eq_ok (h : child t rule = .ok s) : t.first? rule = some s := by
  unfold child at h
  split at h
  · rename_i s' hs'
    rw [hs', Except.ok.inj h]
  · cases h

theorem onlyChild_eq_ok (h : onlyChild t = .ok (s, rule)) :
    t.onlyChild? = some s ∧ s.tree.rule? = some rule := by
  unfold onlyChild at h
  split at h
  · rename_i s' hs'
    split at h
    · rename_i rule' hrule
      obtain ⟨rfl, rfl⟩ := Prod.mk.inj (Except.ok.inj h)
      exact ⟨hs', hrule⟩
    · cases h
  · cases h

end

/-! ## Terms -/

theorem checkNew_eq_ok {n : String} {interval : Interval} (h : checkNew s n interval = .ok ()) :
    n ∉ s.declared ∧ s.grammar.hasRule n = false := by
  unfold checkNew at h
  split at h
  · cases h
  · rename_i hdeclared
    split at h
    · cases h
    · rename_i hnone
      exact ⟨hdeclared, by rw [hasRule, hnone, Option.isSome_none]⟩

/-- A term has been read: as it stands, or as a case, which is a rule of its own under a new name. -/
inductive TermRead (s : State) (rule : String) (b : Body) (term : Tree.Located) : Body → Prop
  | plain {inner : Tree.Located} {kind : String} {e : Expr} {apps : List Application}
      (honly : onlyChild term = .ok (inner, kind)) (hkind : kind ≠ "TopLevelTerm_inline")
      (hread : readExpr inner (!isSyntactic rule) = .ok (e, apps)) :
      TermRead s rule b term
        { b with terms := b.terms ++ [e], applications := b.applications ++ apps }
  | named {inner seq caseName name : Tree.Located} {e : Expr} {apps : List Application}
      (honly : onlyChild term = .ok (inner, "TopLevelTerm_inline"))
      (hseq : child inner "Seq" = .ok seq)
      (hread : readExpr seq (!isSyntactic rule) = .ok (e, apps))
      (hcaseName : child inner "caseName" = .ok caseName) (hname : child caseName "name" = .ok name)
      (hother : rule ++ "_" ++ name.text ∉ b.cases.map (·.name))
      (hfresh : rule ++ "_" ++ name.text ∉ s.declared ∧
        s.grammar.hasRule (rule ++ "_" ++ name.text) = false) :
      TermRead s rule b term
        { terms := b.terms ++ [.apply (rule ++ "_" ++ name.text)]
          cases := b.cases ++
            [⟨rule ++ "_" ++ name.text, e, none, some inner.interval, s.grammar.name⟩]
          applications := b.applications ++ apps }

theorem termRead_of_readTerm (h : readTerm s rule b term = .ok b') : TermRead s rule b term b' := by
  obtain ⟨⟨inner, kind⟩, honly, h⟩ := bind_eq_ok.mp h
  dsimp only at h
  split at h
  · rename_i hinline
    obtain rfl := beq_iff_eq.mp hinline
    obtain ⟨seq, hseq, h⟩ := bind_eq_ok.mp h
    obtain ⟨⟨e, apps⟩, hread, h⟩ := bind_eq_ok.mp h
    obtain ⟨caseName, hcaseName, h⟩ := bind_eq_ok.mp h
    obtain ⟨name, hname, h⟩ := bind_eq_ok.mp h
    dsimp only at h
    split at h
    · cases h
    rename_i hnew
    obtain ⟨⟨⟩, hcheck, h⟩ := bind_eq_ok.mp h
    obtain rfl := Except.ok.inj h
    have hother : rule ++ "_" ++ name.text ∉ b.cases.map (·.name) := by
      intro hmem
      obtain ⟨c, hc, hcname⟩ := List.mem_map.mp hmem
      exact hnew (List.any_eq_true.mpr ⟨c, hc, beq_iff_eq.mpr hcname⟩)
    exact .named honly hseq hread hcaseName hname hother (checkNew_eq_ok hcheck)
  · rename_i hinline
    obtain ⟨⟨e, apps⟩, hread, h⟩ := bind_eq_ok.mp h
    obtain rfl := Except.ok.inj h
    exact .plain honly (fun heq => hinline (beq_iff_eq.mpr heq)) hread

/-! ## Rules -/

theorem inherited_eq_ok {cause : BuildError.Cause} {ident : Tree.Located} {old : Rule}
    (h : inherited s rule cause ident = .ok old) :
    s.grammar.rule? rule = some old ∧ rule ∉ s.declared := by
  unfold inherited at h
  split at h
  · rename_i r hr
    split at h
    · cases h
    · rename_i hdeclared
      exact ⟨Except.ok.inj h ▸ hr, hdeclared⟩
  · cases h

/-- A rule has been read: it is a new one, or it changes one of the table that the source has not
declared by name in this grammar. Its cases are declared with it. The first rule that is new is the
start rule. -/
inductive RuleRead (s : State) (t : Tree.Located) : State → Prop
  | define {case ident body : Tree.Located} {b : Body} {start : Option String}
      (honly : onlyChild t = .ok (case, "Rule_define"))
      (hident : child case "ident" = .ok ident) (hbody : child case "RuleBody" = .ok body)
      (hfresh : ident.text ∉ s.declared ∧ s.grammar.hasRule ident.text = false)
      (hread : readBody s ident.text body = .ok b) {s' : State}
      (hs' : s' = s.declare
        ⟨ident.text, .choice b.terms, description? case, some case.interval, s.grammar.name⟩ b)
      (hstart : s.hasStart = true ∧ start = s'.grammar.start ∨
        s.hasStart = false ∧ start = some ident.text) :
      RuleRead s t { s' with grammar := { s'.grammar with start := start }, hasStart := true }
  | change {case ident body : Tree.Located} {kind : String} {old : Rule} {b : Body} {e : Expr}
      (honly : onlyChild t = .ok (case, kind))
      (hident : child case "ident" = .ok ident) (hbody : child case "RuleBody" = .ok body)
      (hold : s.grammar.rule? ident.text = some old) (hdeclared : ident.text ∉ s.declared)
      (hread : readBody s ident.text body = .ok b)
      (hchange : kind = "Rule_override" ∧ e = .choice b.terms ∨
        kind = "Rule_extend" ∧ e = .alt [.choice b.terms, old.body]) :
      RuleRead s t
        (s.declare ⟨ident.text, e, old.description, some case.interval, s.grammar.name⟩ b)

theorem changeRule_eq_ok {ident body : Tree.Located} {cause : BuildError.Cause}
    {combine : Expr → Expr → Expr} (h : changeRule s t rule ident body cause combine = .ok s') :
    ∃ old b, s.grammar.rule? rule = some old ∧ rule ∉ s.declared ∧ readBody s rule body = .ok b ∧
      s' = s.declare ⟨rule, combine (.choice b.terms) old.body, old.description, some t.interval,
        s.grammar.name⟩ b := by
  obtain ⟨old, hold, h⟩ := bind_eq_ok.mp h
  obtain ⟨b, hread, h⟩ := bind_eq_ok.mp h
  obtain ⟨hrule, hdeclared⟩ := inherited_eq_ok hold
  exact ⟨old, b, hrule, hdeclared, hread, (Except.ok.inj h).symm⟩

theorem ruleRead_of_readRule {super : String} (h : readRule super s t = .ok s') :
    RuleRead s t s' := by
  obtain ⟨⟨case, kind⟩, honly, h⟩ := bind_eq_ok.mp h
  obtain ⟨ident, hident, h⟩ := bind_eq_ok.mp h
  obtain ⟨body, hbody, h⟩ := bind_eq_ok.mp h
  split at h
  · obtain ⟨⟨⟩, hcheck, h⟩ := bind_eq_ok.mp h
    obtain ⟨b, hread, h⟩ := bind_eq_ok.mp h
    have hfresh := checkNew_eq_ok hcheck
    split at h
    · rename_i hhas
      obtain rfl := Except.ok.inj h
      have hkept (r : Rule) : s.declare r b = { s.declare r b with hasStart := true } := by
        rw [← hhas]
        rfl
      rw [hkept]
      exact .define honly hident hbody hfresh hread rfl (.inl ⟨hhas, rfl⟩)
    · rename_i hhas
      obtain rfl := Except.ok.inj h
      exact .define honly hident hbody hfresh hread rfl (.inr ⟨by simpa using hhas, rfl⟩)
  · obtain ⟨old, b, hold, hdeclared, hread, rfl⟩ := changeRule_eq_ok h
    exact .change honly hident hbody hold hdeclared hread (.inl ⟨rfl, rfl⟩)
  · obtain ⟨old, b, hold, hdeclared, hread, rfl⟩ := changeRule_eq_ok h
    exact .change honly hident hbody hold hdeclared hread (.inr ⟨rfl, rfl⟩)
  · cases h

/-! ## Grammars -/

variable {ns : Namespace} {g super : Grammar} {r : Match.Result}

/-- A grammar extends that of the built-in rules, if it says nothing else, or one before it. -/
theorem superGrammar_cases (h : superGrammar ns t = .ok super) :
    (t.first? "SuperGrammar" = none ∧ super = builtInRules) ∨ super ∈ ns := by
  unfold superGrammar at h
  split at h
  · rename_i hnone
    exact .inl ⟨hnone, (Except.ok.inj h).symm⟩
  · obtain ⟨ident, -, h⟩ := bind_eq_ok.mp h
    split at h
    · rename_i found hfound
      exact .inr (Except.ok.inj h ▸ List.mem_of_find?_eq_some hfound)
    · cases h

/-- A grammar has been read: it has a new name, and began with the rules of the one that it extends. -/
theorem readGrammar_eq_ok (h : readGrammar ns t = .ok g) : ∃ (ident : Tree.Located) (super : Grammar)
      (s : State), child t "ident" = .ok ident ∧ (grammar? ns ident.text).isSome ≠ true ∧
      superGrammar ns t = .ok super ∧ (t.named "Rule").foldlM (readRule super.name)
        ⟨.extending (some super) ident.text, [], [], false⟩ = .ok s ∧
      checkApplications s.grammar s.applications = .ok () ∧ g = s.grammar := by
  obtain ⟨ident, hident, h⟩ := bind_eq_ok.mp h
  split at h
  · cases h
  rename_i hnew
  obtain ⟨super, hsuper, h⟩ := bind_eq_ok.mp h
  obtain ⟨s, hrules, h⟩ := bind_eq_ok.mp h
  obtain ⟨⟨⟩, hcheck, h⟩ := bind_eq_ok.mp h
  exact ⟨ident, super, s, hident, hnew, hsuper, hrules, hcheck, (Except.ok.inj h).symm⟩

/-- What holds of the grammars read so far, and survives one more, holds of all of a source. -/
theorem ofResult_history {P : List Tree.Located → Namespace → Prop} (hnil : P [] [])
    (hstep : ∀ ts t ns g, P ts ns → readGrammar ns t = .ok g → P (ts ++ [t]) (ns ++ [g]))
    (h : ofResult r = .ok ns) : ∃ root, r.root? = some root ∧ P (root.named "Grammar") ns := by
  unfold ofResult at h
  split at h
  · cases h
  rename_i root hroot
  refine ⟨root, hroot, foldlM_history (fun ts t ns ns' hns h => ?_) hnil h⟩
  obtain ⟨g, hg, heq⟩ := bind_eq_ok.mp h
  exact Except.ok.inj heq ▸ hstep ts t ns g hns hg

/-- What is true of a grammar if it is true of those before it is true of all grammars of a source. -/
theorem ofResult_keeps {P : Grammar → Prop}
    (hP : ∀ ns t g, (∀ g ∈ ns, P g) → readGrammar ns t = .ok g → P g) (h : ofResult r = .ok ns) :
    ∀ g ∈ ns, P g := by
  obtain ⟨-, -, hns⟩ := ofResult_history (P := fun _ ns => ∀ g ∈ ns, P g) (List.forall_mem_nil _)
    (fun _ t ns g hns hg => List.forall_mem_append.mpr
      ⟨hns, List.forall_mem_singleton.mpr (hP ns t g hns hg)⟩) h
  exact hns

/-- Each grammar of a source is read from its tree, with those before it. -/
theorem ofResult_reads (h : ofResult r = .ok ns) :
    ∃ root, r.root? = some root ∧ (root.named "Grammar").length = ns.length ∧
      ∀ pre g post, ns = pre ++ g :: post →
        ∃ t, (root.named "Grammar")[pre.length]? = some t ∧ readGrammar pre t = .ok g := by
  refine ofResult_history (P := fun ts ns => ts.length = ns.length ∧
    ∀ pre g post, ns = pre ++ g :: post → ∃ t, ts[pre.length]? = some t ∧ readGrammar pre t = .ok g)
    ⟨rfl, fun pre _ _ h => by cases pre <;> cases h⟩ (fun ts t ns g ⟨hlength, hns⟩ hg => ?_) h
  refine ⟨by simp [hlength], fun pre g' post hsplit => ?_⟩
  rcases History.concat_eq_append_cons hsplit with ⟨rfl, rfl, rfl⟩ | ⟨post', rfl, hearlier⟩
  · exact ⟨t, by rw [← hlength, List.getElem?_concat_length], hg⟩
  · obtain ⟨t', ht', hread⟩ := hns pre g' post' hearlier
    have hlt : pre.length < ts.length := (List.getElem?_eq_some_iff.mp ht').1
    exact ⟨t', by rw [List.getElem?_append_left hlt, ht'], hread⟩

end Build

open Build

variable {source : String} {ns : Namespace} {r : Match.Result}

theorem compileResult_eq_ok (h : compileResult r = .ok ns) : ofResult r = .ok ns := by
  unfold compileResult at h
  split at h
  · cases hns : ofResult r with
    | error e =>
        rw [hns] at h
        cases h
    | ok ns' =>
        rw [hns] at h
        exact congrArg _ (Except.ok.inj h)
  · cases h

/-- A source that compiles matches, and its grammars are built from its tree. -/
theorem compile_eq_ok (h : compile source = .ok ns) :
    ∃ r, ofGrammars.matchText source none = .ok r ∧ ofResult r = .ok ns := by
  unfold compile at h
  split at h
  · cases h
  · rename_i r hr
    exact ⟨r, hr, compileResult_eq_ok h⟩

end Pegboard.Grammar
