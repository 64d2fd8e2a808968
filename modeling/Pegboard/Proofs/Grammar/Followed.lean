import Pegboard.Proofs.Grammar.Carried
import Pegboard.Proofs.Grammar.Literals
import Pegboard.Proofs.Grammar.Recovered

/-!
# What stands behind the rules

How far a rule of the grammar of grammar sources goes is decided by what stands behind it. For each
rule that skips spaces, `Follows` says what may stand there. It is kept from the rules to those in
them, and makes up for the choices that are tried first: where `Follows` holds, the steps of a rule
are parsed as that rule.

Main statement: `ParsedBy.assembled`.
-/

namespace Pegboard.Grammar

open Text Reading

/-! ## Texts that may follow -/

/-- Behind spaces there is one of the marks, or a rule is defined. -/
def Halts (marks cs : List Char) : Prop :=
  (∃ c rest, skip cs = c :: rest ∧ c ∈ marks) ∨ Header (skip cs)

namespace Halts

variable {marks marks' cs : List Char} {P : Char → Prop} {d : Char}

theorem mono (h : Halts marks cs) (hsub : ∀ c ∈ marks, c ∈ marks') : Halts marks' cs :=
  h.imp_left fun ⟨c, rest, hcs, hc⟩ => ⟨c, rest, hcs, hsub c hc⟩

theorem begins (h : Halts marks cs) : Begins marks (skip cs) := by
  obtain ⟨c, rest, hcs, hc⟩ | ⟨name, rest, hname, -, -, hcs⟩ := h
  · exact ⟨c, rest, hcs, .inl hc⟩
  · rw [hcs]
    exact (Begins.of_isName hname).append rest

theorem next (h : Halts marks cs) (hP : ∀ c, c ∈ marks ∨ isNameFirst c = true → P c) : Next P cs :=
  let ⟨c, rest, hcs, hc⟩ := h.begins
  ⟨c, rest, hcs, hP c hc⟩

theorem head_ne (h : Halts marks cs) (hd : d ∉ marks) (hfirst : isNameFirst d = false) :
    (skip cs).head? ≠ some d := by
  simpa using h.begins.head_ne hd hfirst []

theorem foreign (h : Halts marks cs)
    (hmarks : ∀ c ∈ marks, c ∉ ['(', '"', '~', '&', '#'] ∧ isNameFirst c = false) :
    Foreign ['(', '"', '~', '&', '#'] (skip cs) := by
  obtain ⟨c, rest, hcs, hc⟩ | h := h
  · refine .inl fun d hd => ?_
    obtain rfl : c = d := by simpa [hcs] using hd
    exact hmarks c hc
  · exact .inr h

end Halts

/-- The rules for single operands and what binds them. -/
def operands : List String :=
  ["Iter_star", "Iter_plus", "Iter_opt", "Pred", "Pred_not", "Pred_lookahead", "Lex", "Lex_lex",
    "Base", "Base_application", "Base_range", "Base_terminal", "Base_paren"]

/-- The rules that end where a rule of a grammar does. -/
def definitions : List String :=
  ["Rule", "Rule_define", "Rule_override", "Rule_extend", "RuleBody"]

/-- The text may stand behind the rule. -/
def Follows (q : String) (cs : List Char) : Prop :=
  if q ∈ operands then Next (· ≠ '.') cs
  else if q = "Iter" then Next (· ∉ ['*', '+', '?', '.']) cs
  else if q = "Seq" then Halts ['|', ')', '}', '-'] cs
  else if q = "Alt" then Halts [')'] cs
  else if q = "TopLevelTerm" then Halts ['|', '}'] cs
  else if q ∈ definitions then Halts ['}'] cs
  else if q = "Grammars" then skip cs = []
  else True

/-- The rules that are steps of others. -/
def stepRules : List String :=
  ["Grammar", "SuperGrammar", "RuleDescr", "TopLevelTerm_inline", "caseName", "Iter", "Seq", "Alt",
    "TopLevelTerm"] ++ operands ++ definitions ++ texts

theorem follows_operand {q : String} {cs : List Char} (hq : q ∈ operands) :
    Follows q cs ↔ Next (· ≠ '.') cs := by
  rw [Follows, if_pos hq]

theorem follows_iter {cs : List Char} :
    Follows "Iter" cs ↔ Next (· ∉ ['*', '+', '?', '.']) cs := by
  simp [Follows, operands]

theorem follows_seq {cs : List Char} : Follows "Seq" cs ↔ Halts ['|', ')', '}', '-'] cs := by
  simp [Follows, operands]

theorem follows_alt {cs : List Char} : Follows "Alt" cs ↔ Halts [')'] cs := by
  simp [Follows, operands]

theorem follows_term {cs : List Char} : Follows "TopLevelTerm" cs ↔ Halts ['|', '}'] cs := by
  simp [Follows, operands]

theorem follows_definition {q : String} {cs : List Char} (hq : q ∈ definitions) :
    Follows q cs ↔ Halts ['}'] cs := by
  simp only [definitions, List.mem_cons, List.not_mem_nil, or_false] at hq
  rcases hq with rfl | rfl | rfl | rfl | rfl <;> simp [Follows, operands, definitions]

theorem follows_grammars {cs : List Char} : Follows "Grammars" cs ↔ skip cs = [] := by
  simp [Follows, operands, definitions]

/-- Behind most of the others anything may stand. -/
theorem follows_other {q : String} (hq : q ∈ ["Grammar", "SuperGrammar", "RuleDescr",
    "TopLevelTerm_inline", "caseName"] ++ texts) (cs : List Char) : Follows q cs := by
  simp only [texts, List.cons_append, List.nil_append, List.mem_cons, List.not_mem_nil,
    or_false] at hq
  rcases hq with rfl | rfl | rfl | rfl | rfl | rfl | rfl | rfl | rfl <;>
    simp [Follows, operands, definitions]

namespace ParsedBy

variable {p : Parser} {q r s : String} {e : Expr} {es : List Expr} {v w : List Step}
  {cs ds : List Char} {P : Tree.Property} (hp : ofGrammars.ParsedBy p)

/-! ## How the rules begin -/

theorem foreign_of_not_begins {marks : List Char} (h : ¬ Begins marks cs) : Foreign marks cs := by
  refine .inl fun c hc => ?_
  obtain ⟨rest, rfl⟩ := List.head?_eq_some_iff.mp hc
  constructor
  · exact fun hmark => h ⟨c, rest, rfl, .inl hmark⟩
  · exact Bool.eq_false_iff.mpr fun hfirst => h ⟨c, rest, rfl, .inr hfirst⟩

include hp

theorem iter_begins (h : ¬ p.Fails "Iter" (skip cs)) :
    Begins ['(', '"', '~', '&', '#'] (skip cs) := by
  by_contra hbegins
  refine h (hp.iter_fails ?_)
  rw [skip_skip]
  exact foreign_of_not_begins hbegins

theorem seq_fails (h : Foreign ['(', '"', '~', '&', '#'] (skip cs)) : p.Fails "Seq" cs := by
  rw [← skip_skip] at h
  exact hp.fails seq_body (Misses.plus (hp.misses_rule (hp.iter_fails h)))

theorem topLevelTerm_begins (h : ¬ p.Fails "TopLevelTerm" (skip cs)) :
    Begins ['(', '"', '~', '&', '#'] (skip cs) := by
  by_contra hbegins
  have hseq : p.Fails "Seq" (skip (skip cs)) := hp.seq_fails (by
    rw [skip_skip, skip_skip]
    exact foreign_of_not_begins hbegins)
  refine h (hp.fails_of_all ["TopLevelTerm_inline", "Seq"] topLevelTerm_body ?_)
  simp only [List.mem_cons, List.not_mem_nil, or_false]
  rintro r (rfl | rfl)
  · rw [← skip_skip] at hseq
    exact hp.fails topLevelTerm_inline_body (.head (hp.misses_rule hseq))
  · exact hseq

theorem caseName_begins (h : ¬ p.Fails "caseName" cs) : cs.head? = some '-' := by
  by_contra hhead
  exact h (hp.fails caseName_body (.head (.terminal_of_head rfl hhead)))

theorem fails_of_not_header
    (hbody : ofGrammars.HasBody q true (.seq (.apply "ident" :: es)))
    (hes : ∀ cs, headed cs = false → Misses p.meaning true (.seq es) cs)
    (h : ¬ Header (skip cs)) : p.Fails q cs := by
  rcases name_cases (skip cs) with hnone | ⟨name, rest, hname, hrest, hcs⟩
  · exact hp.fails hbody (.head (hp.misses_rule (hp.ident_fails hnone)))
  · have hyields : p.Yields "ident" (skip cs) rest (Tree.Spells "ident" name) :=
      ⟨name, hcs, hp.ident_parses hname hrest⟩
    refine hp.fails hbody ((hp.leads_rule hyields).misses_tail (hes rest ?_))
    exact Bool.eq_false_iff.mpr fun hheaded => h ⟨name, rest, hname, hrest, hheaded, hcs⟩

theorem rule_define_begins (h : ¬ p.Fails "Rule_define" cs) : Header (skip cs) := by
  by_contra hheader
  refine h (hp.fails_of_not_header rule_define_body (fun cs hcs => ?_) hheader)
  have hplain : Misses p.meaning true
      (.seq [Source.opt (.apply "RuleDescr"), .terminal "="]) cs :=
    Misses.of_alt (hp.misses_definition hcs) (by simp)
  exact hplain.append [.apply "RuleBody"]

/-- A rule begins with the head of a rule. -/
theorem rule_begins (h : ¬ p.Fails "Rule" (skip cs)) : Header (skip cs) := by
  by_contra hheader
  rw [← skip_skip, ← skip_skip (skip cs)] at hheader
  refine h (hp.fails_of_all ["Rule_define", "Rule_override", "Rule_extend"] rule_body ?_)
  simp only [List.mem_cons, List.not_mem_nil, or_false]
  rintro r (rfl | rfl | rfl)
  · exact not_not.mp (mt hp.rule_define_begins hheader)
  · exact hp.fails_of_not_header rule_override_body (fun cs hcs =>
      .head (Misses.of_alt (hp.misses_definition hcs) (by simp))) hheader
  · exact hp.fails_of_not_header rule_extend_body (fun cs hcs =>
      .head (Misses.of_alt (hp.misses_definition hcs) (by simp))) hheader

end ParsedBy

end Pegboard.Grammar
