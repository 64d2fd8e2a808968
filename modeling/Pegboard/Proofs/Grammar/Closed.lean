import Pegboard.Proofs.Grammar.Denoted
import Pegboard.Proofs.Grammar.Steps

/-!
# Built grammars are closed

Reading an expression lists the rules it applies, and a build ends with the check of all that were
listed. What was not listed in this build is there already: the bodies of inherited rules apply
rules of the grammar that is extended, and no rule is ever taken out of a grammar; a case of a rule
is declared together with the rule.

Main statement: `compile_closed`.
-/

namespace Pegboard.Grammar

/-- The grammar has the rule, and does not skip spaces in it where none may be skipped. An
application is given with whether it stands in a lexical context. -/
def CanApply (g : Grammar) (a : String × Bool) : Prop :=
  g.hasRule a.1 = true ∧ ¬ (a.2 = true ∧ isSyntactic a.1 = true)

/-- The grammar refers to nothing that it does not have. -/
structure Closed (g : Grammar) : Prop where
  applied : ∀ r ∈ g.rules, ∀ a ∈ r.body.applications (!isSyntactic r.name), g.CanApply a
  distinct : g.ruleNames.Nodup
  start : ∀ n, g.start = some n → g.hasRule n = true

theorem CanApply.mono {g g' : Grammar} {a : String × Bool} (h : g.CanApply a)
    (hnames : g.ruleNames ⊆ g'.ruleNames) : g'.CanApply a :=
  ⟨hasRule_iff.mpr (hnames (hasRule_iff.mp h.1)), h.2⟩

theorem closed_builtInRules : builtInRules.Closed where
  applied := by
    have hchecked : ∀ r ∈ builtInRules.rules, ∀ a ∈ r.body.applications (!isSyntactic r.name),
        builtInRules.hasRule a.1 = true ∧ (a.2 && isSyntactic a.1) = false := by
      decide +kernel
    intro r hr a ha
    obtain ⟨hrule, hlexical⟩ := hchecked r hr a ha
    exact ⟨hrule, by simpa using hlexical⟩
  distinct := by decide +kernel
  start := nofun

theorem Closed.resolveStart {g : Grammar} (hg : g.Closed) {selection : Option String}
    {start : String} (h : g.resolveStart selection = some start) : g.hasRule start = true := by
  unfold Grammar.resolveStart at h
  split at h
  · rename_i r hr
    obtain ⟨name, -, hfound⟩ := Option.bind_eq_some_iff.mp hr
    obtain rfl := Option.some.inj h
    exact hasRule_iff.mpr (List.mem_map_of_mem (List.mem_of_find?_eq_some hfound))
  · exact hg.start start h

/-! ## Rules defined one after the other -/

section

variable {g : Grammar} {r : Rule} {rs : List Rule}

theorem ruleNames_define_subset (g : Grammar) (r : Rule) :
    g.ruleNames ⊆ (g.define r).ruleNames := by
  rw [ruleNames, ruleNames, define, names_placeRule]
  split
  · exact List.Subset.refl _
  · exact List.subset_append_left _ _

theorem ruleNames_foldl_define_subset (g : Grammar) (rs : List Rule) :
    g.ruleNames ⊆ (rs.foldl define g).ruleNames := by
  induction rs generalizing g with
  | nil => exact List.Subset.refl _
  | cons r rs ih => exact List.Subset.trans (ruleNames_define_subset g r) (ih (g.define r))

theorem hasRule_foldl_define (h : r ∈ rs) : (rs.foldl define g).hasRule r.name = true := by
  induction rs generalizing g with
  | nil => cases h
  | cons s rs ih =>
      rcases List.mem_cons.mp h with rfl | h
      · have hhere : r ∈ (g.define r).rules := mem_placeRule r g.rules
        exact hasRule_iff.mpr (ruleNames_foldl_define_subset _ rs (List.mem_map_of_mem hhere))
      · exact ih h

theorem nodup_foldl_define (h : g.ruleNames.Nodup) (rs : List Rule) :
    (rs.foldl define g).ruleNames.Nodup := by
  induction rs generalizing g with
  | nil => exact h
  | cons r rs ih =>
      refine ih ?_
      rw [ruleNames, define, names_placeRule]
      split
      · exact h
      · rename_i hnew
        exact List.nodup_append.mpr ⟨h, List.nodup_singleton _, by
          rintro n hn _ hr rfl
          exact hnew (List.mem_singleton.mp hr ▸ hn)⟩

theorem mem_of_mem_foldl_define (h : r ∈ (rs.foldl define g).rules) : r ∈ rs ∨ r ∈ g.rules := by
  induction rs generalizing g with
  | nil => exact .inr h
  | cons s rs ih =>
      rcases ih h with h | h
      · exact .inl (List.mem_cons_of_mem s h)
      · rcases mem_of_mem_placeRule h with rfl | h
        · exact .inl List.mem_cons_self
        · exact .inr h

theorem start_foldl_define (g : Grammar) (rs : List Rule) :
    (rs.foldl define g).start = g.start := by
  induction rs generalizing g with
  | nil => rfl
  | cons r rs ih => exact ih (g.define r)

end

namespace Build

/-! ## Expressions -/

/-- What a reading builds, it lists the applications of. -/
def Reading.Lists (r : Reading) : Prop :=
  ∀ lexical e apps, r lexical = .ok (e, apps) →
    apps.map Application.listed = e.applications lexical

theorem lists_readAll {parts : List Part} (h : ∀ p ∈ parts, p.reading.Lists) {lexical : Bool}
    {es : List Expr} {apps : List Application} (heq : readAll lexical parts = .ok (es, apps)) :
    apps.map Application.listed = es.flatMap (Expr.applications lexical) := by
  induction parts generalizing es apps with
  | nil =>
      obtain ⟨rfl, rfl⟩ := Prod.mk.inj (Except.ok.inj heq)
      rfl
  | cons p ps ih =>
      obtain ⟨hp, hps⟩ := List.forall_mem_cons.mp h
      rw [readAll] at heq
      obtain ⟨⟨e, apps₁⟩, hread, heq⟩ := bind_eq_ok.mp heq
      obtain ⟨⟨es', apps₂⟩, hrest, heq⟩ := bind_eq_ok.mp heq
      obtain ⟨rfl, rfl⟩ := Prod.mk.inj (Except.ok.inj heq)
      rw [List.map_append, hp lexical e apps₁ hread, ih hps hrest, List.flatMap_cons]

namespace Reading.Lists

variable {t : Tree.Located} {parts : List Part} (h : ∀ p ∈ parts, p.reading.Lists)

include h

theorem readFirst (rule : String) : (readFirst t parts rule).Lists := by
  intro lexical e apps heq
  rw [Build.readFirst] at heq
  split at heq
  · rename_i p hp
    exact h p (List.mem_of_find?_eq_some hp) lexical e apps heq
  · cases heq

theorem readOnly : (readOnly t parts).Lists := by
  intro lexical e apps heq
  unfold Build.readOnly at heq
  split at heq
  · rename_i p
    exact h p (List.mem_singleton_self p) lexical e apps heq
  · cases heq

omit h in
/-- An operator lists what its operand lists. -/
theorem map {r : Reading} (hr : r.Lists) (f : Expr → Expr) {lexical lexical' : Bool}
    (hf : ∀ e, (f e).applications lexical = e.applications lexical') {e : Expr}
    {apps : List Application} (heq : (r.map f) lexical' = .ok (e, apps)) :
    apps.map Application.listed = e.applications lexical := by
  rw [Reading.map] at heq
  cases hread : r lexical' with
  | error err =>
      rw [hread] at heq
      cases heq
  | ok read =>
      rw [hread] at heq
      obtain ⟨rfl, rfl⟩ := Prod.mk.inj (Except.ok.inj heq)
      rw [hr lexical' read.1 read.2 hread, hf]

omit h in
theorem readApplication (t : Tree.Located) : (readApplication t).Lists := by
  intro lexical e apps heq
  obtain ⟨ident, -, heq⟩ := bind_eq_ok.mp heq
  split at heq
  all_goals
    obtain ⟨rfl, rfl⟩ := Prod.mk.inj (Except.ok.inj heq)
    rfl

omit h in
theorem readRange (t : Tree.Located) : (readRange t).Lists := by
  intro lexical e apps heq
  rw [Build.readRange] at heq
  split at heq
  · obtain ⟨rfl, rfl⟩ := Prod.mk.inj (Except.ok.inj heq)
    rfl
  · cases heq

omit h in
theorem readTerminal (t : Tree.Located) : (readTerminal t).Lists := by
  intro lexical e apps heq
  obtain ⟨literal, -, heq⟩ := bind_eq_ok.mp heq
  obtain ⟨rfl, rfl⟩ := Prod.mk.inj (Except.ok.inj heq)
  rfl

/-- The parts of one kind put together. -/
theorem all {kind : String} {combine : List Expr → Expr} {lexical : Bool}
    (hcombine : ∀ es, (combine es).applications lexical = es.flatMap (Expr.applications lexical))
    {e : Expr} {apps : List Application}
    (heq : (do
      let (es, apps) ← readAll lexical (parts.filter (·.isOf kind))
      return (combine es, apps)) = Except.ok (e, apps)) :
    apps.map Application.listed = e.applications lexical := by
  obtain ⟨⟨es, apps'⟩, hread, heq⟩ := bind_eq_ok.mp heq
  obtain ⟨rfl, rfl⟩ := Prod.mk.inj (Except.ok.inj heq)
  rw [lists_readAll (fun p hp => h p (List.mem_of_mem_filter hp)) hread, hcombine]

theorem readNode (level : Nat) (t : Tree.Located) : (readNode level t parts).Lists := by
  intro lexical e apps heq
  rw [Build.readNode] at heq
  split at heq
  · exact all h (Expr.applications_choice lexical) heq
  · exact all h (Expr.applications_sequence lexical) heq
  iterate 4 exact readOnly h lexical e apps heq
  · exact map (readFirst h "Pred") (.iter .star) (fun _ => rfl) heq
  · exact map (readFirst h "Pred") (.iter .plus) (fun _ => rfl) heq
  · exact map (readFirst h "Pred") (.iter .opt) (fun _ => rfl) heq
  · exact map (readFirst h "Lex") .not (fun _ => rfl) heq
  · exact map (readFirst h "Lex") .look (fun _ => rfl) heq
  · exact map (readFirst h "Base") .lex (fun _ => rfl) heq
  · exact readApplication t lexical e apps heq
  · exact readRange t lexical e apps heq
  · exact readTerminal t lexical e apps heq
  · rw [descend_eq] at heq
    exact readFirst h "Alt" lexical e apps heq
  · cases heq

end Reading.Lists

theorem lists_readExpr (t : Tree.Located) : (readExpr t).Lists := by
  refine Tree.Inherits.attributed (P := Reading.Lists) (fun level offset s parts hparts => ?_) _ _
  refine Reading.Lists.readNode (fun p hp => ?_) level _
  obtain ⟨q, hq, rfl⟩ := List.mem_map.mp hp
  exact hparts q hq

/-! ## Bodies -/

theorem isSyntactic_case (rule name : String) :
    isSyntactic (rule ++ "_" ++ name) = isSyntactic rule := by
  unfold isSyntactic
  rw [String.append_assoc, String.toList_append, String.toList_append]
  cases rule.toList with
  | nil => rfl
  | cons c cs => rfl

/-- What the terms of a body and its cases apply is listed, but for the cases. -/
structure Body.Lists (rule : String) (b : Body) : Prop where
  terms : ∀ e ∈ b.terms, ∀ a ∈ e.applications (!isSyntactic rule),
    a ∈ b.applications.map Application.listed ∨ ∃ c ∈ b.cases, a = (c.name, !isSyntactic rule)
  cases : ∀ c ∈ b.cases, isSyntactic c.name = isSyntactic rule ∧
    ∀ a ∈ c.body.applications (!isSyntactic rule), a ∈ b.applications.map Application.listed

namespace Body.Lists

variable {s : State} {rule : String} {b b' : Body} {term : Tree.Located}

/-- A term is added to a body, with the case that it names. -/
theorem add (h : b.Lists rule) {e : Expr} (cases' : List Rule) {apps : List Application}
    (hterm : ∀ a ∈ e.applications (!isSyntactic rule),
      a ∈ apps.map Application.listed ∨ ∃ c ∈ cases', a = (c.name, !isSyntactic rule))
    (hcases : ∀ c ∈ cases', isSyntactic c.name = isSyntactic rule ∧
      ∀ a ∈ c.body.applications (!isSyntactic rule), a ∈ apps.map Application.listed) :
    Body.Lists rule ⟨b.terms ++ [e], b.cases ++ cases', b.applications ++ apps⟩ where
  terms := by
    rw [List.map_append]
    refine List.forall_mem_append.mpr ⟨fun e he a ha => ?_, List.forall_mem_singleton.mpr ?_⟩
    · rcases h.terms e he a ha with hlisted | ⟨c, hc, rfl⟩
      · exact .inl (List.mem_append_left _ hlisted)
      · exact .inr ⟨c, List.mem_append_left _ hc, rfl⟩
    · intro a ha
      rcases hterm a ha with hlisted | ⟨c, hc, rfl⟩
      · exact .inl (List.mem_append_right _ hlisted)
      · exact .inr ⟨c, List.mem_append_right _ hc, rfl⟩
  cases := by
    rw [List.map_append]
    exact List.forall_mem_append.mpr
      ⟨fun c hc => ⟨(h.cases c hc).1, fun a ha => List.mem_append_left _ ((h.cases c hc).2 a ha)⟩,
        fun c hc => ⟨(hcases c hc).1, fun a ha => List.mem_append_right _ ((hcases c hc).2 a ha)⟩⟩

theorem read (h : b.Lists rule) (hread : TermRead s rule b term b') : b'.Lists rule := by
  cases hread with
  | @plain inner kind e apps _ _ hread =>
      have hlisted := lists_readExpr inner _ e apps hread
      have hadd := h.add (e := e) [] (fun a ha => .inl (by rwa [hlisted])) nofun
      rwa [List.append_nil] at hadd
  | @named inner seq _ name e apps _ _ hread =>
      have hlisted := lists_readExpr seq _ e apps hread
      refine h.add [_] (fun a ha => .inr ⟨_, List.mem_singleton_self _, List.mem_singleton.mp ha⟩) ?_
      refine List.forall_mem_singleton.mpr ⟨isSyntactic_case rule name.text, fun a ha => ?_⟩
      rwa [hlisted]

theorem readBody {body : Tree.Located} (heq : readBody s rule body = .ok b) : b.Lists rule :=
  foldlM_keeps (P := Body.Lists rule) (fun _ _ _ h heq => h.read (termRead_of_readTerm heq))
    ⟨by simp, by simp⟩ heq

end Body.Lists

/-! ## Rules -/

/-- The grammar as it is built is closed but for what is still to be checked. -/
structure State.Pending (s : State) : Prop where
  applied : ∀ r ∈ s.grammar.rules, ∀ a ∈ r.body.applications (!isSyntactic r.name),
    s.grammar.CanApply a ∨ a ∈ s.applications.map Application.listed
  distinct : s.grammar.ruleNames.Nodup
  start : ∀ n, s.grammar.start = some n → s.grammar.hasRule n = true

namespace State.Pending

variable {s s' : State} {r : Rule} {b : Body}

theorem initial {super : Grammar} (hsuper : super.Closed) (name : String) :
    State.Pending ⟨.extending (some super) name, [], [], false⟩ where
  applied r hr a ha := .inl ((hsuper.applied r hr a ha).mono (List.Subset.refl _))
  distinct := hsuper.distinct
  start := hsuper.start

/-- A rule is declared whose body applies what the body in the source does, and what could be
applied before. -/
theorem declare (h : s.Pending) (hb : b.Lists r.name)
    (hr : ∀ a ∈ r.body.applications (!isSyntactic r.name),
      a ∈ (Expr.choice b.terms).applications (!isSyntactic r.name) ∨
        s.grammar.CanApply a ∨ a ∈ s.applications.map Application.listed) :
    (s.declare r b).Pending := by
  have hmono {a : String × Bool} :
      s.grammar.CanApply a ∨ a ∈ s.applications.map Application.listed →
      (s.declare r b).grammar.CanApply a ∨
        a ∈ (s.declare r b).applications.map Application.listed := by
    rintro (happly | hlisted)
    · exact .inl (happly.mono (ruleNames_foldl_define_subset _ _))
    · exact .inr (by rw [State.declare, List.map_append]; exact List.mem_append_left _ hlisted)
  have hnew {a : String × Bool} (ha : a ∈ b.applications.map Application.listed) :
      a ∈ (s.declare r b).applications.map Application.listed := by
    rw [State.declare, List.map_append]
    exact List.mem_append_right _ ha
  refine ⟨fun r' hr' a ha => ?_, nodup_foldl_define h.distinct _, fun n hn => ?_⟩
  · rcases mem_of_mem_foldl_define hr' with hr' | hr'
    · rcases List.mem_cons.mp hr' with rfl | hcase
      · rcases hr a ha with ha | ha
        · rw [Expr.applications_choice] at ha
          obtain ⟨e, he, ha⟩ := List.mem_flatMap.mp ha
          rcases hb.terms e he a ha with hlisted | ⟨c, hc, rfl⟩
          · exact .inr (hnew hlisted)
          · -- a case skips spaces if and only if its rule does
            refine .inl ⟨hasRule_foldl_define (List.mem_cons_of_mem _ hc), ?_⟩
            rw [(hb.cases c hc).1]
            simp
        · exact hmono ha
      · obtain ⟨hsyntactic, hlisted⟩ := hb.cases r' hcase
        exact .inr (hnew (hlisted a (by rwa [hsyntactic] at ha)))
    · exact hmono (h.applied r' hr' a ha)
  · rw [State.declare, start_foldl_define] at hn
    have hold : s.grammar.hasRule n = true := h.start n hn
    exact hasRule_iff.mpr (ruleNames_foldl_define_subset _ _ (hasRule_iff.mp hold))

theorem read {t : Tree.Located} (h : s.Pending) (hread : RuleRead s t s') : s'.Pending := by
  cases hread with
  | @define case ident _ b start _ _ _ _ hread s' hs' hstart =>
      have hdeclare : s'.Pending :=
        hs' ▸ h.declare (Body.Lists.readBody hread) fun a ha => .inl ha
      refine ⟨hdeclare.applied, hdeclare.distinct, fun n hn => ?_⟩
      rcases hstart with ⟨-, rfl⟩ | ⟨-, rfl⟩
      · exact hdeclare.start n hn
      · obtain rfl := Option.some.inj hn
        subst hs'
        exact hasRule_foldl_define
          (r := ⟨ident.text, .choice b.terms, description? case, some case.interval, s.grammar.name⟩)
          List.mem_cons_self
  | @change _ ident _ _ old b e _ _ _ hold _ hread hchange =>
      refine h.declare (Body.Lists.readBody hread) fun a ha => ?_
      rcases hchange with ⟨-, rfl⟩ | ⟨-, rfl⟩
      · exact .inl ha
      · rw [Expr.applications, Expr.applicationsAll_eq] at ha
        have ha : a ∈ (Expr.choice b.terms).applications (!isSyntactic ident.text) ∨
            a ∈ old.body.applications (!isSyntactic ident.text) := by
          simpa using ha
        exact ha.imp_right fun ha => h.applied old (rule?_mem hold) a (by rwa [rule?_name hold])

end State.Pending

/-! ## Grammars -/

theorem canApply_of_checkApplications {g : Grammar} {apps : List Application}
    (h : checkApplications g apps = .ok ()) : ∀ a ∈ apps.map Application.listed, g.CanApply a := by
  induction apps with
  | nil => nofun
  | cons a apps ih =>
      rw [checkApplications] at h
      split at h
      · cases h
      split at h
      · cases h
      rename_i hrule hlexical
      have happly : g.CanApply a.listed :=
        ⟨by simpa [Application.listed] using hrule, by simpa [Application.listed] using hlexical⟩
      rw [List.map_cons]
      exact List.forall_mem_cons.mpr ⟨happly, ih h⟩

theorem State.Pending.closed {s : State} (h : s.Pending)
    (hcheck : checkApplications s.grammar s.applications = .ok ()) : s.grammar.Closed where
  applied r hr a ha := (h.applied r hr a ha).elim id (canApply_of_checkApplications hcheck a)
  distinct := h.distinct
  start := h.start

theorem closed_superGrammar {ns : Namespace} (hns : ∀ g ∈ ns, g.Closed) {t : Tree.Located}
    {g : Grammar} (h : superGrammar ns t = .ok g) : g.Closed := by
  rcases superGrammar_cases h with ⟨-, rfl⟩ | hg
  · exact closed_builtInRules
  · exact hns g hg

theorem closed_readGrammar {ns : Namespace} (hns : ∀ g ∈ ns, g.Closed) {t : Tree.Located}
    {g : Grammar} (h : readGrammar ns t = .ok g) : g.Closed := by
  obtain ⟨ident, super, s, -, -, hsuper, hrules, hcheck, rfl⟩ := readGrammar_eq_ok h
  have hpending : s.Pending := foldlM_keeps (P := State.Pending)
    (fun _ _ _ h heq => h.read (ruleRead_of_readRule heq))
    (.initial (closed_superGrammar hns hsuper) ident.text) hrules
  exact hpending.closed hcheck

theorem closed_ofResult {r : Match.Result} {ns : Namespace} (h : ofResult r = .ok ns) :
    ∀ g ∈ ns, g.Closed :=
  ofResult_keeps (fun _ _ _ hns hg => closed_readGrammar hns hg) h

end Build

open Build

/-- Every grammar of a source that compiles is closed: each rule in its table applies, in its own
body as in one that it inherited or extended, rules of the table only, and no rule that skips spaces
where none are skipped; no two rules have one name; and matches start with a rule of the table. -/
theorem compile_closed {source : String} {ns : Namespace} (h : compile source = .ok ns) :
    ∀ g ∈ ns, g.Closed ∧
      ∀ selection start, g.resolveStart selection = some start → g.hasRule start = true := by
  intro g hg
  obtain ⟨r, -, hbuilt⟩ := compile_eq_ok h
  have hclosed : g.Closed := closed_ofResult hbuilt g hg
  exact ⟨hclosed, fun _ _ => hclosed.resolveStart⟩

/-- A rule with a case is extended, and the rule that it applies is overridden. -/
def derived : String :=
  "A\x7bS=y--i\n|#y y=y\x7dB<:A\x7bS+=y y:=z z=y\x7d"

theorem compile_closed_derived : ∃ ns, compile derived = .ok ns ∧
    ns.map (fun g => (g.start, g.ownRules.map (·.name))) =
      [(some "S", ["S", "S_i", "y"]), (some "z", ["S", "y", "z"])] ∧
    ∀ g ∈ ns, g.Closed ∧
      ∀ selection start, g.resolveStart selection = some start → g.hasRule start = true := by
  have hnames : (compile derived).toOption.map
      (·.map fun g => (g.start, g.ownRules.map (·.name))) =
        some [(some "S", ["S", "S_i", "y"]), (some "z", ["S", "y", "z"])] := by
    decide +kernel
  obtain ⟨ns, hns, hnames⟩ := toOption_map_eq_some hnames
  exact ⟨ns, hns, hnames, compile_closed hns⟩

end Pegboard.Grammar
