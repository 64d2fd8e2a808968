import Pegboard.Proofs.Grammar.Followed

/-!
# Rules put together again from their steps

Where the steps of a rule lead through a text, and what stands behind them may follow the rule, the
rule is parsed there: the choices before the one at hand fail, and each iteration ends where it
should. Rule by rule this is shown for all that skip spaces, but the one for applications, which
looks for the head of a rule behind the name.

Main statement: `ParsedBy.assembled`.
-/

namespace Pegboard

open Text Reading Computability

namespace Grammar

/-- In the steps of the rule, what stands behind a rule among them may follow it, and where they lead
through a text, the body of the rule does. -/
def Assembled (p : Parser) (q : String) : Prop :=
  ∃ e, ofGrammars.HasBody q true e ∧ e.isStepwise = true ∧ ∀ w ∈ e.rows,
    Exchange.Fits p Follows stepRules q w ∧
      ∀ cs ds Ps, Course p w cs ds Ps → Follows q ds → Leads p true e cs ds Ps

end Grammar

namespace Course

variable {p : Parser} {q s : String} {w : List Step} {cs ds : List Char}
  {Ps : List Tree.Property}

theorem eq_of_nil (h : Course p [] cs ds Ps) : ds = cs := by
  cases h
  rfl

theorem of_mark (h : Course p (.mark s :: w) cs ds Ps) : ∃ rest, skip cs = s.toList ++ rest := by
  cases h with
  | mark hskip _ => exact ⟨_, hskip⟩

theorem of_rule (h : Course p (.rule q :: w) cs ds Ps) : ¬ p.Fails q (skip cs) := by
  cases h with
  | rule hyields _ => exact hyields.not_fails

theorem length_le (h : Course p w cs ds Ps) : ds.length ≤ cs.length := by
  induction h with
  | nil => exact Nat.le_refl _
  | @mark s w cs cs' ds Ps hskip _ ih =>
      have hle := length_skip_le cs
      have := congrArg List.length hskip
      rw [List.length_append] at this
      omega
  | @rule q w cs cs' ds P Ps hyields _ ih =>
      exact ih.trans (hyields.suffix.length_le.trans (length_skip_le cs))

/-- A course that begins with a mark goes on. -/
theorem ne_of_mark (hs : s.toList ≠ []) (h : Course p (.mark s :: w) cs ds Ps) : ds ≠ cs := by
  rintro rfl
  cases h with
  | mark hskip hrest =>
      have hle := length_skip_le ds
      have := hrest.length_le
      have := congrArg List.length hskip
      have := List.length_pos_iff.mpr hs
      rw [List.length_append] at *
      omega

/-- So does one that begins with a rule that never matches nothing. -/
theorem ne_of_rule (hp : Grammar.ofGrammars.ParsedBy p) (hq : q ∉ Grammar.Source.staying)
    (h : Course p (.rule q :: w) cs ds Ps) : ds ≠ cs := by
  rintro rfl
  cases h with
  | rule hyields hrest =>
      have hle := length_skip_le ds
      have hlt := hyields.suffix.length_le
      have hne := hp.yields_ne hq hyields
      have := hrest.length_le
      exact hne (hyields.suffix.eq_of_length (by omega))

end Course

namespace Grammar.ParsedBy

variable {p : Parser} {q r s : String} {e : Expr} {es : List Expr} {v w : List Step}
  {rs : List String} {cs ds : List Char} {P : Tree.Property} {Ps : List Tree.Property}
  (hp : ofGrammars.ParsedBy p)

/-! ## Rows of their own -/

theorem rows_steps (w : List Step) : (Expr.seq (w.map Step.expr)).rows = {w} := by
  rw [Expr.rows]
  induction w with
  | nil => rfl
  | cons x w ih =>
      have hx : x.expr.rows = {[x]} := by
        cases x <;> rfl
      rw [List.map_cons, Expr.rowsOfEach, hx, ih, Language.mul_def]
      exact Set.image2_singleton

theorem rows_rules (h : w ∈ (Expr.alt (rs.map .apply)).rows) : ∃ r ∈ rs, w = [.rule r] := by
  rw [Expr.rows] at h
  induction rs with
  | nil => cases h
  | cons r rs ih =>
      rcases h with h | h
      · exact ⟨r, List.mem_cons_self, h⟩
      · obtain ⟨r', hr', rfl⟩ := ih h
        exact ⟨r', List.mem_cons_of_mem r hr', rfl⟩

/-- What may follow a rule may follow its last step. -/
theorem fits_last (hr : r ∈ stepRules) (h : ∀ cs, Follows q cs → Follows r cs) :
    Exchange.Fits p Follows stepRules q [.rule r] := by
  refine ⟨⟨hr, fun cs ds Ps hcourse hds => ?_⟩, trivial⟩
  obtain rfl := hcourse.eq_of_nil
  exact h _ hds

theorem fits_other (hr : r ∈ ["Grammar", "SuperGrammar", "RuleDescr", "TopLevelTerm_inline",
    "caseName"] ++ texts) (h : Exchange.Fits p Follows stepRules q w) :
    Exchange.Fits p Follows stepRules q (.rule r :: w) := by
  refine ⟨⟨?_, fun cs _ _ _ _ => follows_other hr cs⟩, h⟩
  simp only [texts, List.cons_append, List.nil_append, List.mem_cons, List.not_mem_nil,
    or_false] at hr
  rcases hr with rfl | rfl | rfl | rfl | rfl | rfl | rfl | rfl | rfl <;> decide

include hp

/-- A rule that is a row of steps. -/
theorem assembled_steps (w : List Step) (hbody : ofGrammars.HasBody q true (.seq (w.map Step.expr)))
    (hstep : (Expr.seq (w.map Step.expr)).isStepwise = true)
    (hfits : Exchange.Fits p Follows stepRules q w) : Assembled p q := by
  refine ⟨_, hbody, hstep, fun v hv => ?_⟩
  rw [rows_steps] at hv
  obtain rfl : v = w := hv
  exact ⟨hfits, fun cs ds Ps hcourse _ => hp.leads_course hcourse⟩

/-- A choice between rules, each of which makes those before it fail. -/
theorem assembled_choice (rs : List String)
    (hbody : ofGrammars.HasBody q true (.alt (rs.map .apply)))
    (hstep : (Expr.alt (rs.map .apply)).isStepwise = true)
    (hfits : ∀ r ∈ rs, r ∈ stepRules ∧ ∀ cs, Follows q cs → Follows r cs)
    (hbefore : rs.Pairwise fun r r' => ∀ cs ds P, p.Yields r' (skip cs) ds P → Follows q ds →
      p.Fails r (skip cs)) : Assembled p q := by
  refine ⟨_, hbody, hstep, fun w hw => ?_⟩
  obtain ⟨r, hr, rfl⟩ := rows_rules hw
  obtain ⟨hmem, hfollows⟩ := hfits r hr
  refine ⟨fits_last hmem hfollows, fun cs ds Ps hcourse hds => ?_⟩
  obtain ⟨before, after, rfl⟩ := List.append_of_mem hr
  cases hcourse with
  | rule hyields hrest =>
      cases hrest
      rw [List.map_append, List.map_cons]
      refine .alt (fun e he => ?_) (hp.leads_rule hyields)
      obtain ⟨r', hr', rfl⟩ := List.mem_map.mp he
      exact hp.misses_rule ((List.pairwise_append.mp hbefore).2.2 r' hr' r List.mem_cons_self
        cs ds _ hyields hds)

/-! ## Heads of grammars and rules -/

theorem assembled_superGrammar : Assembled p "SuperGrammar" :=
  hp.assembled_steps [.mark "<:", .rule "ident"] superGrammar_body rfl
    ⟨by decide, fits_other (by decide) trivial⟩

theorem assembled_ruleDescr : Assembled p "RuleDescr" :=
  hp.assembled_steps [.mark "(", .rule "ruleDescrText", .mark ")"] ruleDescr_body rfl
    ⟨by decide, fits_other (by decide) ⟨by decide, trivial⟩⟩

omit hp in
theorem fits_body {q : String} (hq : q ∈ definitions) :
    Exchange.Fits p Follows stepRules q [.rule "RuleBody"] :=
  fits_last (by decide) fun cs hcs =>
    (follows_definition (by decide)).mpr ((follows_definition hq).mp hcs)

theorem assembled_rule_override : Assembled p "Rule_override" :=
  hp.assembled_steps [.rule "ident", .mark ":=", .rule "RuleBody"] rule_override_body rfl
    (fits_other (by decide) ⟨by decide, fits_body (by decide)⟩)

theorem assembled_rule_extend : Assembled p "Rule_extend" :=
  hp.assembled_steps [.rule "ident", .mark "+=", .rule "RuleBody"] rule_extend_body rfl
    (fits_other (by decide) ⟨by decide, fits_body (by decide)⟩)

/-! ## Operators -/

omit hp in
/-- Behind an operand there is a mark that is no dot. -/
theorem fits_operand (hr : r ∈ operands) {c : Char} {rest : List Char} (hs : s.toList = c :: rest)
    (hc : c ≠ '.') (h : Exchange.Fits p Follows stepRules q (.mark s :: w)) :
    Exchange.Fits p Follows stepRules q (.rule r :: .mark s :: w) := by
  refine ⟨⟨?_, fun cs ds Ps hcourse _ => (follows_operand hr).mpr ?_⟩, h⟩
  · simp only [operands, List.mem_cons, List.not_mem_nil, or_false] at hr
    rcases hr with rfl | rfl | rfl | rfl | rfl | rfl | rfl | rfl | rfl | rfl | rfl | rfl | rfl <;>
      decide
  · obtain ⟨back, hskip⟩ := hcourse.of_mark
    exact ⟨c, rest ++ back, by rw [hskip, hs, List.cons_append], hc⟩

theorem assembled_iterRule (op : Repeat) : Assembled p (iterRule op) := by
  obtain ⟨d, hd, hsymbol⟩ := symbol_eq op
  have hdot : d ≠ '.' := (show ∀ d ∈ ['*', '+', '?'], d ≠ '.' by simp) d hd
  refine hp.assembled_steps [.rule "Pred", .mark op.symbol] (iterRule_body op) ?_
    (fits_operand (by decide) hsymbol hdot ⟨by rw [hsymbol]; exact List.cons_ne_nil _ _, trivial⟩)
  cases op <;> rfl

omit hp in
theorem fits_operand_last (hq : q ∈ operands) (hr : r ∈ operands) (hstep : r ∈ stepRules) :
    Exchange.Fits p Follows stepRules q [.rule r] :=
  fits_last hstep fun _ hcs => (follows_operand hr).mpr ((follows_operand hq).mp hcs)

theorem assembled_pred_not : Assembled p "Pred_not" :=
  hp.assembled_steps [.mark "~", .rule "Lex"] pred_not_body rfl
    ⟨by decide, fits_operand_last (by decide) (by decide) (by decide)⟩

theorem assembled_pred_lookahead : Assembled p "Pred_lookahead" :=
  hp.assembled_steps [.mark "&", .rule "Lex"] pred_lookahead_body rfl
    ⟨by decide, fits_operand_last (by decide) (by decide) (by decide)⟩

theorem assembled_lex_lex : Assembled p "Lex_lex" :=
  hp.assembled_steps [.mark "#", .rule "Base"] lex_lex_body rfl
    ⟨by decide, fits_operand_last (by decide) (by decide) (by decide)⟩

theorem assembled_base_range : Assembled p "Base_range" :=
  hp.assembled_steps [.rule "oneCharTerminal", .mark "..", .rule "oneCharTerminal"] base_range_body
    rfl (fits_other (by decide) ⟨by decide, fits_other (by decide) trivial⟩)

theorem assembled_base_paren : Assembled p "Base_paren" := by
  refine hp.assembled_steps [.mark "(", .rule "Alt", .mark ")"] base_paren_body rfl
    ⟨by decide, ⟨by decide, fun cs ds Ps hcourse _ => follows_alt.mpr ?_⟩, by decide, trivial⟩
  obtain ⟨rest, hskip⟩ := hcourse.of_mark
  exact .inl ⟨')', rest, hskip, List.mem_singleton_self _⟩

theorem assembled_base_terminal : Assembled p "Base_terminal" := by
  refine ⟨_, base_terminal_body, rfl, fun w hw => ?_⟩
  obtain rfl : w = [.rule "terminal"] := hw
  refine ⟨fits_other (by decide) trivial, fun cs ds Ps hcourse _ => ?_⟩
  cases hcourse with
  | rule hyields hrest =>
      cases hrest
      exact hp.leads_rule hyields

theorem assembled_topLevelTerm_inline : Assembled p "TopLevelTerm_inline" := by
  refine hp.assembled_steps [.rule "Seq", .rule "caseName"] topLevelTerm_inline_body rfl
    ⟨⟨by decide, fun cs ds Ps hcourse _ => follows_seq.mpr ?_⟩, fits_other (by decide) trivial⟩
  obtain ⟨rest, hskip⟩ := List.head?_eq_some_iff.mp (hp.caseName_begins hcourse.of_rule)
  exact .inl ⟨'-', rest, hskip, by decide⟩

/-! ## Choices -/

/-- Where a rule matches that is another one with a mark behind it, the other one leads to the
mark. -/
theorem mark_of_not_fails (hbody : ofGrammars.HasBody q true (.seq (.apply r :: .terminal s :: es)))
    (hr : r ≠ "spaces") (h : ¬ p.Fails q cs) : ∃ c,
      p.Yields r (skip cs) c (fun t => t.tree.rule? = some r) ∧ s.toList <+: skip c := by
  obtain ⟨c, hyields⟩ | hfails := (hp.tidy acyclic_ofGrammars).yields_or_fails hr (skip cs)
  · refine ⟨c, hyields, ?_⟩
    by_contra hmark
    exact h (hp.fails hbody ((hp.leads_rule hyields).misses_tail (.head (hp.misses_mark hmark))))
  · exact absurd (hp.fails hbody (.head (hp.misses_rule hfails))) h

/-- No rule is defined with `=` where another mark stands behind its name. -/
theorem rule_define_fails {d : Char} {rest : List Char}
    (hbody : ofGrammars.HasBody q true (.seq (.apply "ident" :: .terminal s :: es)))
    (hs : s.toList = d :: rest) (hd : d ∉ ['(', '=']) (h : ¬ p.Fails q cs) :
    p.Fails "Rule_define" cs := by
  obtain ⟨c, hyields, back, hskip⟩ := hp.mark_of_not_fails hbody (by decide) h
  obtain ⟨hopen, hequals⟩ : d ≠ '(' ∧ d ≠ '=' := by simpa using hd
  have hhead : (skip c).head? = some d := by rw [← hskip, hs]; rfl
  have hdescr : p.Fails "RuleDescr" (skip c) :=
    hp.ruleDescr_fails (by rw [skip_skip, hhead]; simpa using hopen)
  refine hp.fails rule_define_body ((hp.leads_rule hyields).misses_tail
    ((Leads.opt_none (hp.misses_rule hdescr)).misses_tail
      (.head (hp.misses_mark_of_head (d := '=') rfl ?_))))
  rw [hhead]
  simpa using hequals

theorem assembled_rule : Assembled p "Rule" := by
  have hfollows {q r : String} (hq : q ∈ definitions) (hr : r ∈ definitions) (cs : List Char) :
      Follows q cs → Follows r cs := fun h =>
    (follows_definition hr).mpr ((follows_definition hq).mp h)
  refine hp.assembled_choice ["Rule_define", "Rule_override", "Rule_extend"] rule_body rfl ?_ ?_
  · simp only [List.forall_mem_cons]
    exact ⟨⟨by decide, hfollows (by decide) (by decide)⟩,
      ⟨by decide, hfollows (by decide) (by decide)⟩,
      ⟨by decide, hfollows (by decide) (by decide)⟩, nofun⟩
  · simp only [List.pairwise_cons, List.forall_mem_cons]
    refine ⟨⟨fun cs ds P h _ => ?_, fun cs ds P h _ => ?_, nofun⟩, ⟨fun cs ds P h _ => ?_, nofun⟩,
      nofun, .nil⟩
    · exact hp.rule_define_fails (d := ':') rule_override_body rfl (by decide) h.not_fails
    · exact hp.rule_define_fails (d := '+') rule_extend_body rfl (by decide) h.not_fails
    · obtain ⟨c, hyields, back, hskip⟩ :=
        hp.mark_of_not_fails rule_extend_body (by decide) h.not_fails
      refine hp.fails rule_override_body ((hp.leads_rule hyields).misses_tail
        (.head (hp.misses_mark_of_head (d := ':') rfl ?_)))
      rw [← hskip]
      simp

/-- A sequence behind which a term may end is none with a case name. -/
theorem assembled_topLevelTerm : Assembled p "TopLevelTerm" := by
  refine hp.assembled_choice ["TopLevelTerm_inline", "Seq"] topLevelTerm_body rfl ?_ ?_
  · simp only [List.forall_mem_cons]
    exact ⟨⟨by decide, fun cs _ => follows_other (by decide) cs⟩,
      ⟨by decide, fun cs hcs => follows_seq.mpr ((follows_term.mp hcs).mono (by simp))⟩, nofun⟩
  · simp only [List.pairwise_cons, List.forall_mem_cons]
    refine ⟨⟨fun cs ds P hyields hds => ?_, nofun⟩, nofun, .nil⟩
    have hname : p.Fails "caseName" (skip ds) := by
      by_contra hmatch
      exact (follows_term.mp hds).head_ne (d := '-') (by decide) rfl (hp.caseName_begins hmatch)
    rw [← skip_skip] at hyields
    exact hp.fails topLevelTerm_inline_body
      ((hp.leads_rule hyields).misses_tail (.head (hp.misses_rule hname)))

/-- An iteration fails where another mark stands behind its operand. -/
theorem iterRule_fails_of_other (op op' : Repeat) (hne : op' ≠ op)
    (h : ¬ p.Fails (iterRule op) cs) : p.Fails (iterRule op') cs := by
  obtain ⟨c, hyields, back, hskip⟩ := hp.mark_of_not_fails (iterRule_body op) (by decide) h
  obtain ⟨d, -, hsymbol⟩ := symbol_eq op'
  refine hp.fails (iterRule_body op') ((hp.leads_rule hyields).misses_tail
    (.head (hp.misses_mark_of_head (d := d) (by rw [hsymbol]; rfl) ?_)))
  rw [← hskip]
  exact head_symbol_ne hne hsymbol back

theorem assembled_iter : Assembled p "Iter" := by
  have hoperand {cs : List Char} (h : Follows "Iter" cs) : Next (· ≠ '.') cs :=
    (follows_iter.mp h).mono (by simp)
  have hpred (op : Repeat) {cs ds : List Char} {P : Tree.Property}
      (hyields : p.Yields "Pred" (skip cs) ds P) (hds : Follows "Iter" ds) :
      p.Fails (iterRule op) (skip cs) := by
    obtain ⟨d, hd, hsymbol⟩ := symbol_eq op
    obtain ⟨c, rest, hskip, hc⟩ := follows_iter.mp hds
    rw [← skip_skip] at hyields
    refine hp.fails (iterRule_body op) ((hp.leads_rule hyields).misses_tail
      (.head (hp.misses_mark_of_head (d := d) (by rw [hsymbol]; rfl) ?_)))
    rw [hskip]
    rintro ⟨⟩
    exact hc ((show ∀ d ∈ ['*', '+', '?'], d ∈ ['*', '+', '?', '.'] by simp) _ hd)
  refine hp.assembled_choice ["Iter_star", "Iter_plus", "Iter_opt", "Pred"] iter_body rfl ?_ ?_
  · simp only [List.forall_mem_cons]
    have hfollows {r : String} (hr : r ∈ operands) (cs : List Char) :
        Follows "Iter" cs → Follows r cs := fun h => (follows_operand hr).mpr (hoperand h)
    exact ⟨⟨by decide, hfollows (by decide)⟩, ⟨by decide, hfollows (by decide)⟩,
      ⟨by decide, hfollows (by decide)⟩, ⟨by decide, hfollows (by decide)⟩, nofun⟩
  · simp only [List.pairwise_cons, List.forall_mem_cons]
    exact ⟨⟨fun cs ds P h _ => hp.iterRule_fails_of_other .plus .star (by decide)
          h.not_fails,
        fun cs ds P h _ => hp.iterRule_fails_of_other .opt .star (by decide)
          h.not_fails, fun cs ds P => hpred .star, nofun⟩,
      ⟨fun cs ds P h _ => hp.iterRule_fails_of_other .opt .plus (by decide)
          h.not_fails, fun cs ds P => hpred .plus, nofun⟩,
      ⟨fun cs ds P => hpred .opt, nofun⟩, nofun, .nil⟩

omit hp in
/-- The choices of a rule for operands are such rules themselves. -/
theorem follows_choice {q : String} (hq : q ∈ operands)
    (hrs : ∀ r ∈ rs, r ∈ operands ∧ r ∈ stepRules) :
    ∀ r ∈ rs, r ∈ stepRules ∧ ∀ cs, Follows q cs → Follows r cs :=
  fun r hr => ⟨(hrs r hr).2, fun _ hcs =>
    (follows_operand (hrs r hr).1).mpr ((follows_operand hq).mp hcs)⟩

omit hp in
/-- What fails where the text begins with a mark does not match behind that mark. -/
theorem head_ne_of_foreign {marks : List Char} {d : Char}
    (hfails : Foreign marks (skip cs) → p.Fails q cs) (h : ¬ p.Fails q cs) (hd : d ∉ marks)
    (hfirst : isNameFirst d = false) : (skip cs).head? ≠ some d := by
  intro hhead
  refine h (hfails (.inl fun c hc => ?_))
  obtain rfl : d = c := Option.some.inj (hhead.symm.trans hc)
  exact ⟨hd, hfirst⟩

theorem assembled_pred : Assembled p "Pred" := by
  have hlex {cs ds : List Char} {P : Tree.Property} {d : Char} (h : p.Yields "Lex" (skip cs) ds P)
      (hd : d ∉ ['(', '"', '#']) (hfirst : isNameFirst d = false) :
      (skip (skip cs)).head? ≠ some d :=
    head_ne_of_foreign hp.lex_fails h.not_fails hd hfirst
  refine hp.assembled_choice ["Pred_not", "Pred_lookahead", "Lex"] pred_body rfl
    (follows_choice (by decide) (by decide)) ?_
  simp only [List.pairwise_cons, List.forall_mem_cons]
  refine ⟨⟨fun cs ds P h _ => hp.pred_not_fails fun hhead => ?_,
    fun cs ds P h _ => hp.pred_not_fails (hlex h (by decide) rfl), nofun⟩,
    ⟨fun cs ds P h _ => hp.pred_lookahead_fails (hlex h (by decide) rfl), nofun⟩, nofun, .nil⟩
  refine h.not_fails (hp.pred_lookahead_fails ?_)
  rw [hhead]
  simp

theorem assembled_lex : Assembled p "Lex" := by
  refine hp.assembled_choice ["Lex_lex", "Base"] lex_body rfl
    (follows_choice (by decide) (by decide)) ?_
  simp only [List.pairwise_cons, List.forall_mem_cons]
  exact ⟨⟨fun cs ds P h _ => hp.lex_lex_fails
    (head_ne_of_foreign hp.base_fails h.not_fails (by decide) rfl), nofun⟩, nofun, .nil⟩

/-- A literal is no end of a range where no dots follow it. -/
theorem base_range_fails_of_terminal (h : p.Yields "Base_terminal" cs ds P)
    (hds : Next (· ≠ '.') ds) : p.Fails "Base_range" cs := by
  have htidy := hp.tidy acyclic_ofGrammars
  obtain ⟨c, hone⟩ | hfails := htidy.yields_or_fails (q := "oneCharTerminal") (by decide) (skip cs)
  · obtain ⟨t, hspans, -⟩ := hone.spans
    obtain ⟨u, hu, hcs, -⟩ := hp.oneCharTerminal_spans htidy hspans
    have hterminal : p.Yields "terminal" (skip cs) c _ :=
      ⟨_, hcs, hp.terminal_parses_pieces (List.forall_mem_singleton.mpr hu) c⟩
    have hbase : p.Yields "Base_terminal" cs c fun _ => True :=
      hp.yields base_terminal_body (hp.leads_rule hterminal) fun _ _ _ => trivial
    obtain rfl := h.unique hbase
    obtain ⟨d, rest, hskip, hd⟩ := hds
    refine hp.fails base_range_body ((hp.leads_rule hone).misses_tail
      (.head (hp.misses_mark_of_head (d := '.') rfl ?_)))
    rw [hskip]
    simpa using hd
  · exact hp.fails base_range_body (.head (hp.misses_rule hfails))

theorem assembled_base : Assembled p "Base" := by
  have hnamed {cs : List Char} {d : Char} (h : (skip (skip cs)).head? = some d)
      (hfirst : isNameFirst d = false) : p.Fails "Base_application" (skip cs) := by
    have hforeign : Foreign [] (skip (skip cs)) := by
      refine .inl fun c hc => ⟨List.not_mem_nil, ?_⟩
      obtain rfl : d = c := Option.some.inj (h.symm.trans hc)
      exact hfirst
    exact hp.base_application_fails hforeign
  have hrange {cs : List Char} (h : ¬ p.Fails "Base_range" (skip cs)) :
      (skip (skip cs)).head? = some '"' := not_not.mp fun hhead => h (hp.base_range_fails hhead)
  have hterminal {cs : List Char} (h : ¬ p.Fails "Base_terminal" (skip cs)) :
      (skip (skip cs)).head? = some '"' := not_not.mp fun hhead => h (hp.base_terminal_fails hhead)
  have hparen {cs : List Char} (h : ¬ p.Fails "Base_paren" (skip cs)) :
      (skip (skip cs)).head? = some '(' := not_not.mp fun hhead => h (hp.base_paren_fails hhead)
  refine hp.assembled_choice ["Base_application", "Base_range", "Base_terminal", "Base_paren"]
    base_body rfl (follows_choice (by decide) (by decide)) ?_
  simp only [List.pairwise_cons, List.forall_mem_cons]
  refine ⟨⟨fun cs ds P h _ => hnamed (hrange h.not_fails) rfl,
      fun cs ds P h _ => hnamed (hterminal h.not_fails) rfl,
      fun cs ds P h _ => hnamed (hparen h.not_fails) rfl, nofun⟩,
    ⟨fun cs ds P h hds => hp.base_range_fails_of_terminal h ((follows_operand (by decide)).mp hds),
      fun cs ds P h _ => hp.base_range_fails ?_, nofun⟩,
    ⟨fun cs ds P h _ => hp.base_terminal_fails ?_, nofun⟩, nofun, .nil⟩
  all_goals
    rw [hparen h.not_fails]
    simp

/-! ## Iterations -/

omit hp in
/-- The rows of an iteration whose rounds are always the same. -/
theorem rows_rounds (hrows : e.rows = {v}) (h : w ∈ (Expr.iter .star e).rows) :
    ∃ n, w = (List.replicate n v).flatten := by
  rw [Expr.rows, hrows] at h
  obtain ⟨rounds, rfl, hrounds⟩ := Language.mem_kstar.mp h
  exact ⟨rounds.length, congrArg List.flatten (List.eq_replicate_of_mem hrounds)⟩

omit hp in
/-- Rounds lead as far as their iteration, which ends where none of them matches. -/
theorem leads_rounds
    (hround : ∀ cs ds Ps, Course p v cs ds Ps → Leads p true e cs ds Ps ∧ ds ≠ cs)
    (hend : Misses p.meaning true e ds) {n : Nat}
    (h : Course p (List.replicate n v).flatten cs ds Ps) :
    Leads p true (.iter .star e) cs ds Ps := by
  induction n generalizing cs Ps with
  | zero =>
      cases h
      exact .star_end hend
  | succ n ih =>
      rw [List.replicate_succ, List.flatten_cons] at h
      obtain ⟨c, Ps, Qs, hfirst, hrest, rfl⟩ := h.split
      obtain ⟨hleads, hne⟩ := hround _ _ _ hfirst
      exact hleads.star_more hne (ih hrest)

omit hp in
/-- Rounds fit a rule if each of them does, where `Ready` says what the text behind it begins
with. -/
theorem fits_rounds {Ready : List Char → Prop}
    (hfirst : ∀ cs ds Ps, Course p w cs ds Ps → Follows q ds → Ready cs)
    (hfits : Exchange.Fits p Follows stepRules q w)
    (hround : ∀ w', (∀ cs ds Ps, Course p w' cs ds Ps → Follows q ds → Ready cs) →
      Exchange.Fits p Follows stepRules q w' →
      (∀ cs ds Ps, Course p (v ++ w') cs ds Ps → Follows q ds → Ready cs) ∧
        Exchange.Fits p Follows stepRules q (v ++ w')) (n : Nat) :
    (∀ cs ds Ps, Course p ((List.replicate n v).flatten ++ w) cs ds Ps → Follows q ds →
      Ready cs) ∧ Exchange.Fits p Follows stepRules q ((List.replicate n v).flatten ++ w) := by
  induction n with
  | zero => exact ⟨hfirst, hfits⟩
  | succ n ih =>
      rw [List.replicate_succ, List.flatten_cons, List.append_assoc]
      exact hround _ ih.1 ih.2

theorem assembled_seq : Assembled p "Seq" := by
  refine ⟨_, seq_body, rfl, fun w hw => ?_⟩
  obtain ⟨_, rfl, b, hb, rfl⟩ := hw
  obtain ⟨n, rfl⟩ := rows_rounds (v := [.rule "Iter"]) rfl hb
  have hround (w : List Step) (hw : ∀ cs ds Ps, Course p w cs ds Ps → Follows "Seq" ds →
      Next (· ∉ ['*', '+', '?', '.']) cs) (hfits : Exchange.Fits p Follows stepRules "Seq" w) :
      (∀ cs ds Ps, Course p ([.rule "Iter"] ++ w) cs ds Ps → Follows "Seq" ds →
        Next (· ∉ ['*', '+', '?', '.']) cs) ∧
        Exchange.Fits p Follows stepRules "Seq" ([.rule "Iter"] ++ w) := by
    refine ⟨fun cs ds Ps hcourse _ => ?_, ⟨by decide, fun cs ds Ps hcourse hds =>
      follows_iter.mpr (hw cs ds Ps hcourse hds)⟩, hfits⟩
    obtain ⟨c, rest, hskip, hc⟩ := hp.iter_begins hcourse.of_rule
    refine ⟨c, rest, hskip, fun hmark => ?_⟩
    have hnot : ∀ d ∈ ['*', '+', '?', '.'], d ∉ ['(', '"', '~', '&', '#'] ∧
        isNameFirst d = false := by simp [isNameFirst]
    exact ne_of_first hc (hnot c hmark).1 (hnot c hmark).2 rfl
  have hend (cs ds : List Char) (Ps : List Tree.Property) (h : Course p [] cs ds Ps)
      (hds : Follows "Seq" ds) : Next (· ∉ ['*', '+', '?', '.']) cs := by
    obtain rfl := h.eq_of_nil
    refine (follows_seq.mp hds).next fun c hc hmark => ?_
    have hnot : ∀ d ∈ ['*', '+', '?', '.'], d ∉ ['|', ')', '}', '-'] ∧
        isNameFirst d = false := by simp [isNameFirst]
    exact ne_of_first hc (hnot c hmark).1 (hnot c hmark).2 rfl
  obtain ⟨hfirst, hfits⟩ := fits_rounds hend trivial hround n
  rw [List.append_nil] at hfirst hfits
  refine ⟨(hround _ hfirst hfits).2, fun cs ds Ps hcourse hds => ?_⟩
  obtain ⟨c, Ps, Qs, hone, hrest, rfl⟩ := hcourse.split
  have hlead {cs ds : List Char} {Ps : List Tree.Property}
      (h : Course p [.rule "Iter"] cs ds Ps) :
      Leads p true (.apply "Iter") cs ds Ps ∧ ds ≠ cs := by
    refine ⟨?_, h.ne_of_rule hp (by decide)⟩
    cases h with
    | rule hyields hrest =>
        cases hrest
        exact hp.leads_rule hyields
  have hmiss : Misses p.meaning true (.apply "Iter") ds := by
    have hforeign := (follows_seq.mp hds).foreign (by simp [isNameFirst])
    rw [← skip_skip] at hforeign
    exact hp.misses_rule (hp.iter_fails hforeign)
  obtain ⟨hleads, hne⟩ := hlead hone
  exact hleads.plus hne (leads_rounds (fun _ _ _ => hlead) hmiss hrest)

/-! ### Parts with bars between them -/

/-- Bars and the parts behind them. -/
abbrev bars (r : String) (n : Nat) : List Step :=
  (List.replicate n [.mark "|", .rule r]).flatten

omit hp in
theorem rows_bars (hw : w ∈ (Source.star (.seq [.terminal "|", .apply r])).rows) :
    ∃ n, w = bars r n :=
  rows_rounds (rows_steps [.mark "|", .rule r]) hw

omit hp in
theorem fits_bars {marks : List Char} (hq : ∀ ds, Follows q ds → Halts marks ds)
    (hr : r ∈ stepRules) (hfollows : ∀ cs, Halts ('|' :: marks) cs → Follows r cs) (n : Nat) :
    Exchange.Fits p Follows stepRules q (.rule r :: bars r n) := by
  have hround (w : List Step) (hw : ∀ cs ds Ps, Course p w cs ds Ps → Follows q ds →
      Halts ('|' :: marks) cs) (hfits : Exchange.Fits p Follows stepRules q w) :
      (∀ cs ds Ps, Course p ([.mark "|", .rule r] ++ w) cs ds Ps → Follows q ds →
        Halts ('|' :: marks) cs) ∧
        Exchange.Fits p Follows stepRules q ([.mark "|", .rule r] ++ w) := by
    refine ⟨fun cs ds Ps hcourse _ => ?_, by decide, ⟨hr, fun cs ds Ps hcourse hds =>
      hfollows cs (hw cs ds Ps hcourse hds)⟩, hfits⟩
    obtain ⟨rest, hskip⟩ := hcourse.of_mark
    exact .inl ⟨'|', rest, hskip, List.mem_cons_self⟩
  have hend (cs ds : List Char) (Ps : List Tree.Property) (h : Course p [] cs ds Ps)
      (hds : Follows q ds) : Halts ('|' :: marks) cs := by
    obtain rfl := h.eq_of_nil
    exact (hq _ hds).mono fun c hc => List.mem_cons_of_mem _ hc
  obtain ⟨hfirst, hfits⟩ := fits_rounds hend trivial hround n
  rw [List.append_nil] at hfirst hfits
  exact ⟨⟨hr, fun cs ds Ps hcourse hds => hfollows cs (hfirst cs ds Ps hcourse hds)⟩, hfits⟩

theorem leads_bars (hds : (skip ds).head? ≠ some '|') {n : Nat}
    (h : Course p (.rule r :: bars r n) cs ds Ps) :
    Leads p true (.seq [.apply r, Source.star (.seq [.terminal "|", .apply r])]) cs ds Ps := by
  cases h with
  | rule hyields hrest =>
      refine (hp.leads_rule hyields).cons (Leads.last (leads_rounds (fun cs ds Ps hround => ?_) ?_
        hrest))
      · have hleads : Leads p true (.seq [.terminal "|", .apply r]) cs ds Ps :=
          hp.leads_course hround
        exact ⟨hleads, hround.ne_of_mark (by decide)⟩
      · exact .head (hp.misses_mark_of_head rfl hds)

theorem assembled_alt : Assembled p "Alt" := by
  refine ⟨_, alt_body, rfl, fun w hw => ?_⟩
  obtain ⟨_, rfl, _, ⟨b, hb, _, rfl, rfl⟩, rfl⟩ := hw
  obtain ⟨n, rfl⟩ := rows_bars hb
  simp only [List.append_nil]
  refine ⟨fits_bars (fun ds => follows_alt.mp) (by decide)
    (fun cs hcs => follows_seq.mpr (hcs.mono (by simp))) n, fun cs ds Ps hcourse hds => ?_⟩
  exact hp.leads_bars ((follows_alt.mp hds).head_ne (by decide) rfl) hcourse

theorem assembled_ruleBody : Assembled p "RuleBody" := by
  refine ⟨_, ruleBody_body, rfl, fun w hw => ?_⟩
  obtain ⟨a, ha, _, ⟨_, rfl, _, ⟨b, hb, _, rfl, rfl⟩, rfl⟩, rfl⟩ := hw
  obtain ⟨n, rfl⟩ := rows_bars hb
  have hbody {ds : List Char} (hds : Follows "RuleBody" ds) : Halts ['}'] ds :=
    (follows_definition (by decide)).mp hds
  have hfits := fits_bars (p := p) (fun ds => hbody) (show "TopLevelTerm" ∈ stepRules by decide)
    (fun cs hcs => follows_term.mpr hcs) n
  have hbars {cs ds : List Char} {Ps : List Tree.Property} (hds : Follows "RuleBody" ds)
      (hcourse : Course p (.rule "TopLevelTerm" :: bars "TopLevelTerm" n) cs ds Ps) :=
    hp.leads_bars ((hbody hds).head_ne (by decide) rfl) hcourse
  simp only [List.append_nil]
  rcases ha with rfl | rfl
  · refine ⟨hfits, fun cs ds Ps hcourse hds => (Leads.opt_none ?_).cons (hbars hds hcourse)⟩
    refine hp.misses_mark_of_head (d := '|') rfl ?_
    simpa using (hp.topLevelTerm_begins hcourse.of_rule).head_ne (d := '|') (by decide) rfl []
  · refine ⟨⟨by decide, hfits⟩, fun cs ds Ps hcourse hds => ?_⟩
    cases hcourse with
    | mark hskip hrest => exact (Leads.opt (hp.leads_mark hskip)).cons (hbars hds hrest)

/-! ## Definitions and grammars -/

theorem assembled_rule_define : Assembled p "Rule_define" := by
  refine ⟨_, rule_define_body, rfl, fun w hw => ?_⟩
  obtain ⟨_, rfl, _, ⟨b, hb, _, ⟨_, rfl, _, ⟨_, rfl, _, rfl, rfl⟩, rfl⟩, rfl⟩, rfl⟩ := hw
  have hfits : Exchange.Fits p Follows stepRules "Rule_define" [.mark "=", .rule "RuleBody"] :=
    ⟨by decide, fits_body (by decide)⟩
  have hrest {cs ds : List Char} {Ps : List Tree.Property}
      (h : Course p [.mark "=", .rule "RuleBody"] cs ds Ps) :
      Leads p true (.seq [.terminal "=", .apply "RuleBody"]) cs ds Ps := hp.leads_course h
  rcases hb with rfl | rfl
  · refine ⟨fits_other (by decide) hfits, fun cs ds Ps hcourse _ => ?_⟩
    cases hcourse with
    | @rule _ _ _ c _ _ _ hyields hcourse =>
        obtain ⟨rest, hskip⟩ := hcourse.of_mark
        have hdescr : p.Fails "RuleDescr" (skip c) :=
          hp.ruleDescr_fails (by rw [skip_skip, hskip]; simp)
        exact (hp.leads_rule hyields).cons
          ((Leads.opt_none (hp.misses_rule hdescr)).cons (hrest hcourse))
  · refine ⟨fits_other (by decide) (fits_other (by decide) hfits), fun cs ds Ps hcourse _ => ?_⟩
    cases hcourse with
    | rule hyields hcourse =>
        cases hcourse with
        | rule hdescr hcourse =>
            exact (hp.leads_rule hyields).cons
              ((Leads.opt (hp.leads_rule hdescr)).cons (hrest hcourse))

/-- The rules of a grammar, up to the brace behind them. -/
abbrev ruleSteps (n : Nat) : List Step :=
  (List.replicate n [.rule "Rule"]).flatten ++ [.mark "\x7d"]

theorem fits_rules (n : Nat) : Exchange.Fits p Follows stepRules "Grammar" (ruleSteps n) := by
  have hclose (cs ds : List Char) (Ps : List Tree.Property)
      (h : Course p [.mark "\x7d"] cs ds Ps) (_ : Follows "Grammar" ds) : Halts ['\x7d'] cs := by
    obtain ⟨rest, hskip⟩ := h.of_mark
    exact .inl ⟨'\x7d', rest, hskip, List.mem_singleton_self _⟩
  have hround (w : List Step) (hw : ∀ cs ds Ps, Course p w cs ds Ps → Follows "Grammar" ds →
      Halts ['\x7d'] cs) (hfits : Exchange.Fits p Follows stepRules "Grammar" w) :
      (∀ cs ds Ps, Course p ([.rule "Rule"] ++ w) cs ds Ps → Follows "Grammar" ds →
        Halts ['\x7d'] cs) ∧
        Exchange.Fits p Follows stepRules "Grammar" ([.rule "Rule"] ++ w) :=
    ⟨fun cs ds Ps hcourse _ => .inr (hp.rule_begins hcourse.of_rule),
      ⟨by decide, fun cs ds Ps hcourse hds =>
        (follows_definition (by decide)).mpr (hw cs ds Ps hcourse hds)⟩, hfits⟩
  exact (fits_rounds hclose ⟨by decide, trivial⟩ hround n).2

theorem leads_rules {n : Nat} (h : Course p (ruleSteps n) cs ds Ps) :
    Leads p true (.seq [Source.star (.apply "Rule"), .terminal "\x7d"]) cs ds Ps := by
  obtain ⟨c, Ps, Qs, hrules, hclose, rfl⟩ := h.split
  obtain ⟨rest, hskip⟩ := hclose.of_mark
  refine (leads_rounds (fun cs ds Ps hround => ?_) ?_ hrules).cons (hp.leads_course hclose)
  · refine ⟨?_, hround.ne_of_rule hp (by decide)⟩
    cases hround with
    | rule hyields hrest =>
        cases hrest
        exact hp.leads_rule hyields
  · refine hp.misses_rule (not_not.mp fun hmatch => ?_)
    obtain ⟨name, rest', hname, -, -, hcs⟩ := hp.rule_begins hmatch
    have hhead := (Begins.of_isName hname : Begins [] name).head_ne (d := '\x7d')
      List.not_mem_nil rfl rest'
    rw [← hcs, hskip] at hhead
    exact hhead rfl

theorem assembled_grammar : Assembled p "Grammar" := by
  refine ⟨_, grammar_body, rfl, fun w hw => ?_⟩
  obtain ⟨_, rfl, _, ⟨a, ha, _, ⟨_, rfl, _, ⟨b, hb, _, ⟨_, rfl, _, rfl, rfl⟩, rfl⟩, rfl⟩, rfl⟩,
    rfl⟩ := hw
  obtain ⟨n, rfl⟩ := rows_rounds (v := [.rule "Rule"]) rfl hb
  have hrules : Exchange.Fits p Follows stepRules "Grammar" (.mark "\x7b" :: ruleSteps n) :=
    ⟨by decide, hp.fits_rules n⟩
  have hleads {cs ds : List Char} {Ps : List Tree.Property}
      (h : Course p (.mark "\x7b" :: ruleSteps n) cs ds Ps) :
      Leads p true (.seq [.terminal "\x7b", Source.star (.apply "Rule"), .terminal "\x7d"]) cs ds
        Ps := by
    cases h with
    | mark hskip hrest => exact (hp.leads_mark hskip).cons (hp.leads_rules hrest)
  rcases ha with rfl | rfl
  · refine ⟨fits_other (by decide) hrules, fun cs ds Ps hcourse _ => ?_⟩
    cases hcourse with
    | @rule _ _ _ c _ _ _ hyields hcourse =>
        obtain ⟨rest, hskip⟩ := hcourse.of_mark
        have hnone : p.Fails "SuperGrammar" (skip c) := by
          refine hp.fails superGrammar_body (.head (hp.misses_mark_of_head (d := '<') rfl ?_))
          rw [skip_skip, hskip]
          simp
        exact (hp.leads_rule hyields).cons
          ((Leads.opt_none (hp.misses_rule hnone)).cons (hleads hcourse))
  · refine ⟨fits_other (by decide) (fits_other (by decide) hrules), fun cs ds Ps hcourse _ => ?_⟩
    cases hcourse with
    | rule hyields hcourse =>
        cases hcourse with
        | rule hsuper hcourse =>
            exact (hp.leads_rule hyields).cons
              ((Leads.opt (hp.leads_rule hsuper)).cons (hleads hcourse))

theorem assembled_grammars : Assembled p "Grammars" := by
  refine ⟨_, grammars_body, rfl, fun w hw => ?_⟩
  obtain ⟨n, rfl⟩ := rows_rounds (v := [.rule "Grammar"]) rfl hw
  refine ⟨?_, fun cs ds Ps hcourse hds => leads_rounds (fun cs ds Ps hround => ?_) ?_ hcourse⟩
  · clear hw
    induction n with
    | zero => exact trivial
    | succ n ih =>
        rw [List.replicate_succ, List.flatten_cons]
        exact fits_other (by decide) ih
  · refine ⟨?_, hround.ne_of_rule hp (by decide)⟩
    cases hround with
    | rule hyields hrest =>
        cases hrest
        exact hp.leads_rule hyields
  · have hend : skip ds = [] := follows_grammars.mp hds
    refine hp.misses_rule (hp.fails grammar_body (.head (hp.misses_rule (hp.ident_fails ?_))))
    rw [skip_skip, hend]
    nofun

/-- The rules that are put together from their steps. -/
theorem assembled (hq : isSyntactic q = true) (hrule : q ∈ ofGrammars.ruleNames)
    (hne : q ≠ "Base_application") : Assembled p q := by
  have hnames : ∀ q ∈ ofGrammars.ruleNames, isSyntactic q = true → q ∈
      ["Grammars", "Grammar", "SuperGrammar", "Rule", "Rule_define", "Rule_override",
        "Rule_extend", "RuleDescr", "RuleBody", "TopLevelTerm", "TopLevelTerm_inline", "Alt", "Seq",
        "Iter", "Iter_star", "Iter_plus", "Iter_opt", "Pred", "Pred_not", "Pred_lookahead", "Lex",
        "Lex_lex", "Base", "Base_application", "Base_range", "Base_terminal", "Base_paren"] := by
    decide +kernel
  have hmem := hnames q hrule hq
  simp only [List.mem_cons, List.not_mem_nil, or_false] at hmem
  rcases hmem with rfl | rfl | rfl | rfl | rfl | rfl | rfl | rfl | rfl | rfl | rfl | rfl | rfl |
    rfl | rfl | rfl | rfl | rfl | rfl | rfl | rfl | rfl | rfl | rfl | rfl | rfl | rfl
  · exact hp.assembled_grammars
  · exact hp.assembled_grammar
  · exact hp.assembled_superGrammar
  · exact hp.assembled_rule
  · exact hp.assembled_rule_define
  · exact hp.assembled_rule_override
  · exact hp.assembled_rule_extend
  · exact hp.assembled_ruleDescr
  · exact hp.assembled_ruleBody
  · exact hp.assembled_topLevelTerm
  · exact hp.assembled_topLevelTerm_inline
  · exact hp.assembled_alt
  · exact hp.assembled_seq
  · exact hp.assembled_iter
  · exact hp.assembled_iterRule .star
  · exact hp.assembled_iterRule .plus
  · exact hp.assembled_iterRule .opt
  · exact hp.assembled_pred
  · exact hp.assembled_pred_not
  · exact hp.assembled_pred_lookahead
  · exact hp.assembled_lex
  · exact hp.assembled_lex_lex
  · exact hp.assembled_base
  · exact absurd rfl hne
  · exact hp.assembled_base_range
  · exact hp.assembled_base_terminal
  · exact hp.assembled_base_paren

end Grammar.ParsedBy

end Pegboard
