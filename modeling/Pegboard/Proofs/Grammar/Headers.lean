import Pegboard.Proofs.Grammar.Courses

/-!
# Where a rule is defined

A name is the head of a rule, and no expression, if the rest of a head follows it: `=`, perhaps with
a description before it, `:=` or `+=`. A description goes up to the next closing parenthesis, over
whatever stands in between.

Main statements: `ParsedBy.leads_definition` and `ParsedBy.misses_definition`, which together say
that the grammar of grammar sources looks for exactly what `headed` finds.
-/

namespace Pegboard

open Text Reading

namespace Text

theorem skip_skip (cs : List Char) : skip (skip cs) = skip cs := by
  fun_induction skip cs with
  | case1 => exact skip_of_solid solid_nil
  | case2 cs ih => exact ih
  | case3 cs hnil => rw [skip, if_pos hnil]
  | case4 cs _ ih => exact ih
  | case5 c cs _ _ _ ih => exact ih
  | case6 c cs hline hblock hc =>
      rw [skip, if_neg hc]
      · exact hline
      · exact hblock

/-- The text goes on with the rest of the head of a rule. -/
def headed (cs : List Char) : Bool :=
  match skip cs with
  | '(' :: descr =>
    match seek [')'] (skip descr) with
    | [] => false
    | _ :: rest => (skip rest).head? == some '='
  | '=' :: _ | ':' :: '=' :: _ | '+' :: '=' :: _ => true
  | _ => false

theorem headed_skip (cs : List Char) : headed (skip cs) = headed cs := by
  rw [headed, headed, skip_skip]

theorem headed_of_equals {cs rest : List Char} (h : skip cs = '=' :: rest) : headed cs = true := by
  rw [headed, h]
  rfl

/-- No head of a rule goes on with another character. -/
theorem headed_of_head {cs : List Char} (h : ∀ c ∈ (skip cs).head?, c ∉ ['(', '=', ':', '+']) :
    headed cs = false := by
  rw [headed]
  split
  · rename_i hcs
    exact absurd (h '(' (by rw [hcs]; rfl)) (by decide)
  · rename_i hcs
    exact absurd (h '=' (by rw [hcs]; rfl)) (by decide)
  · rename_i hcs
    exact absurd (h ':' (by rw [hcs]; rfl)) (by decide)
  · rename_i hcs
    exact absurd (h '+' (by rw [hcs]; rfl)) (by decide)
  · rfl

example : headed " (a description) // and more\n = b".toList = true := by decide +kernel

end Text

namespace Grammar

theorem ruleDescr_body : ofGrammars.HasBody "RuleDescr" true
    (.seq [.terminal "(", .apply "ruleDescrText", .terminal ")"]) :=
  hasBody_ofGrammars (some "a rule description") (by simp [Source.rules, Source.declarations]) rfl

theorem ruleDescrText_body : ofGrammars.HasBody "ruleDescrText" false (Source.upTo ")") :=
  hasBody_ofGrammars none (by simp [Source.rules, Source.declarations]) rfl

/-- What an identifier that is an expression is not followed by. -/
def definition : Expr :=
  .alt [.seq [Source.opt (.apply "RuleDescr"), .terminal "="], .terminal ":=", .terminal "+="]

namespace ParsedBy

variable {p : Parser} {cs rest : List Char} (hp : ofGrammars.ParsedBy p)

include hp

theorem ruleDescrText_yields (cs : List Char) :
    p.Yields "ruleDescrText" cs (seek [')'] cs) fun s =>
      s.tree.rule? = some "ruleDescrText" ∧ ∀ front, cs = front ++ seek [')'] cs →
        s.text = .ofList front := by
  obtain ⟨front, hcs, hread⟩ := Reads.upTo p.meaning (s := ")") (by decide) cs
  refine ⟨front, hcs, hp.parses ruleDescrText_body hread fun s hrule htext _ => ⟨hrule, ?_⟩⟩
  intro front' hcs'
  rw [htext, List.append_cancel_right (hcs.symm.trans hcs')]

/-- A description goes up to the next closing parenthesis. -/
theorem ruleDescr_yields {descr : List Char} (hcs : skip cs = '(' :: descr)
    (h : seek [')'] (skip descr) = ')' :: rest) :
    p.Yields "RuleDescr" (skip cs) rest fun _ => True := by
  have hopen : skip (skip cs) = "(".toList ++ descr := by rw [skip_skip, hcs]; rfl
  have hclose : skip (')' :: rest) = ")".toList ++ rest := skip_of_solid (by simp [Solid])
  have hcourse : Course p [.mark "(", .rule "ruleDescrText", .mark ")"] (skip cs) rest _ :=
    .mark hopen (.rule (hp.ruleDescrText_yields (skip descr))
      (.mark (by rw [h, hclose]) (.nil rest)))
  exact hp.yields ruleDescr_body (hp.leads_course hcourse) fun _ _ _ => trivial

theorem ruleDescr_fails (h : (skip cs).head? ≠ some '(') : p.Fails "RuleDescr" cs :=
  hp.fails ruleDescr_body (.head (hp.misses_mark_of_head rfl h))

/-- A description has to be closed. -/
theorem ruleDescr_fails_unclosed {descr : List Char} (hcs : skip cs = '(' :: descr)
    (h : seek [')'] (skip descr) = []) : p.Fails "RuleDescr" cs := by
  have hopen : skip cs = "(".toList ++ descr := hcs
  have hclose : Misses p.meaning true (.seq [.terminal ")"]) (seek [')'] (skip descr)) := by
    refine .head (hp.misses_mark_of_head rfl ?_)
    rw [h, skip]
    simp
  have hmiss := (hp.leads_mark hopen).misses_tail
    ((hp.leads_rule (hp.ruleDescrText_yields (skip descr))).misses_tail hclose)
  exact hp.fails ruleDescr_body hmiss

/-! ## The lookahead behind an identifier -/

theorem leads_definition (h : headed cs = true) : ∃ ds Ps, Leads p true definition cs ds Ps := by
  have hequals {cs rest : List Char} (hcs : skip cs = '=' :: rest) :
      Leads p true (.terminal "=") cs rest [] := hp.leads_mark hcs
  have hplain {d : Char} {rest : List Char} (hcs : skip cs = d :: rest) (hd : d ∉ ['(', '=']) :
      Misses p.meaning true (.seq [Source.opt (.apply "RuleDescr"), .terminal "="]) cs := by
    obtain ⟨hopen, hequals⟩ : d ≠ '(' ∧ d ≠ '=' := by simpa using hd
    have hnone : p.Fails "RuleDescr" (skip cs) :=
      hp.ruleDescr_fails (by rw [skip_skip, hcs]; simpa using hopen)
    exact (Leads.opt_none (hp.misses_rule hnone)).misses_tail
      (.head (hp.misses_mark_of_head (d := '=') rfl (by rw [hcs]; simpa using hequals)))
  rw [headed] at h
  split at h
  · rename_i descr hcs
    split at h
    · cases h
    · rename_i c rest hseek
      obtain rfl : c = ')' := first_seek hseek
      obtain ⟨rest', hrest⟩ := List.head?_eq_some_iff.mp (beq_iff_eq.mp h)
      have hdescr := hp.leads_rule (hp.ruleDescr_yields hcs hseek)
      exact ⟨_, _, .first (hdescr.opt.cons (hequals hrest).last)⟩
  · rename_i rest hcs
    have hnone : p.Fails "RuleDescr" (skip cs) :=
      hp.ruleDescr_fails (by rw [skip_skip, hcs]; simp)
    exact ⟨_, _, .first ((Leads.opt_none (hp.misses_rule hnone)).cons (hequals hcs).last)⟩
  · rename_i rest hcs
    have hmark : Leads p true (.terminal ":=") cs rest [] := hp.leads_mark hcs
    exact ⟨_, _, .later (hplain hcs (by decide)) (.first hmark)⟩
  · rename_i rest hcs
    have hmark : Leads p true (.terminal "+=") cs rest [] := hp.leads_mark hcs
    exact ⟨_, _, .later (hplain hcs (by decide))
      (.later (hp.misses_mark_of_head (d := ':') rfl (by rw [hcs]; simp)) (.first hmark))⟩
  · cases h

theorem misses_definition (h : headed cs = false) : Misses p.meaning true definition cs := by
  have hmark {s : String} {d : Char} (hs : s.toList = [d, '=']) (hd : d ∈ [':', '+']) :
      Misses p.meaning true (.terminal s) cs := by
    refine hp.misses_mark ?_
    rintro ⟨rest, hcs⟩
    rw [hs] at hcs
    simp only [List.mem_cons, List.not_mem_nil, or_false] at hd
    rcases hd with rfl | rfl <;> simp [headed, ← hcs] at h
  refine .alt fun e he => ?_
  simp only [List.mem_cons, List.not_mem_nil, or_false] at he
  rcases he with rfl | rfl | rfl
  · by_cases hopen : (skip cs).head? = some '('
    · obtain ⟨descr, hcs⟩ := List.head?_eq_some_iff.mp hopen
      cases hseek : seek [')'] (skip descr) with
      | nil =>
          -- a parenthesis that is not closed is no description, nor an equals sign
          have hfails : p.Fails "RuleDescr" (skip cs) :=
            hp.ruleDescr_fails_unclosed (by rw [skip_skip, hcs]) hseek
          exact (Leads.opt_none (hp.misses_rule hfails)).misses_tail
            (.head (hp.misses_mark_of_head (d := '=') rfl (by rw [hcs]; simp)))
      | cons c rest =>
          obtain rfl : c = ')' := first_seek hseek
          rw [headed, hcs] at h
          simp only [hseek, beq_eq_false_iff_ne] at h
          exact (hp.leads_rule (hp.ruleDescr_yields hcs hseek)).opt.misses_tail
            (.head (hp.misses_mark_of_head rfl h))
    · have hfails : p.Fails "RuleDescr" (skip cs) :=
        hp.ruleDescr_fails (by rwa [skip_skip])
      refine (Leads.opt_none (hp.misses_rule hfails)).misses_tail
        (.head (hp.misses_mark_of_head (d := '=') rfl fun heq => ?_))
      obtain ⟨rest, hcs⟩ := List.head?_eq_some_iff.mp heq
      simp [headed, hcs] at h
  · exact hmark (d := ':') rfl (by decide)
  · exact hmark (d := '+') rfl (by decide)

end ParsedBy

end Grammar

end Pegboard
