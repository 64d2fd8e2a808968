import Pegboard.Proofs.Grammar.Bodies
import Pegboard.Proofs.Grammar.Source

/-!
# Grammars are recovered from their sources

The source that rules are written into is parsed rule by rule: what ends the body of a rule is the
name of the next one, which an equals sign follows, or the end of the grammar. So what the source is
built into is one grammar with exactly these rules.

Main statement: `compile_written`.
-/

namespace Pegboard.Grammar

open Text Reading Build

theorem rule_body : ofGrammars.HasBody "Rule" true
    (.alt [.apply "Rule_define", .apply "Rule_override", .apply "Rule_extend"]) :=
  hasBody_ofGrammars none (by simp [Source.rules, Source.declarations]) rfl

theorem rule_define_body : ofGrammars.HasBody "Rule_define" true
    (.seq [.apply "ident", Source.opt (.apply "RuleDescr"), .terminal "=", .apply "RuleBody"]) :=
  hasBody_ofGrammars none (by simp [Source.rules, Source.declarations]) rfl

theorem rule_override_body : ofGrammars.HasBody "Rule_override" true
    (.seq [.apply "ident", .terminal ":=", .apply "RuleBody"]) :=
  hasBody_ofGrammars none (by simp [Source.rules, Source.declarations]) rfl

theorem rule_extend_body : ofGrammars.HasBody "Rule_extend" true
    (.seq [.apply "ident", .terminal "+=", .apply "RuleBody"]) :=
  hasBody_ofGrammars none (by simp [Source.rules, Source.declarations]) rfl

theorem superGrammar_body : ofGrammars.HasBody "SuperGrammar" true
    (.seq [.terminal "<:", .apply "ident"]) :=
  hasBody_ofGrammars none (by simp [Source.rules, Source.declarations]) rfl

theorem grammar_body : ofGrammars.HasBody "Grammar" true
    (.seq [.apply "ident", Source.opt (.apply "SuperGrammar"), .terminal "\x7b",
      Source.star (.apply "Rule"), .terminal "\x7d"]) :=
  hasBody_ofGrammars none (by simp [Source.rules, Source.declarations]) rfl

theorem grammars_body : ofGrammars.HasBody "Grammars" true (Source.star (.apply "Grammar")) :=
  hasBody_ofGrammars none (by simp [Source.rules, Source.declarations]) rfl

variable {rules : List (String × Expr)}

/-- What a rule applies is named as rules are. -/
theorem Declarable.applicable (h : Declarable rules) {r : String × Expr} (hr : r ∈ rules) :
    ∀ a ∈ r.2.applications (!isSyntactic r.1), Applicable a.1 := by
  have hbuiltIn : ∀ n ∈ builtInRules.ruleNames, isName n.toList = true ∧ n ∉ ["any", "end"] := by
    decide +kernel
  intro a ha
  rcases List.mem_append.mp (h.applied r hr a ha).1 with hdeclared | hn
  · obtain ⟨r', hr', heq⟩ := List.mem_map.mp hdeclared
    rw [← heq]
    exact ⟨(h.names r' hr').1, (h.names r' hr').2.1⟩
  · exact hbuiltIn a.1 hn

namespace ParsedBy

variable {p : Parser} {front back cs : List Char} (hp : ofGrammars.ParsedBy p)

include hp

/-! ## Rules -/

theorem reads_header_name (hname : isName front = true) (rest : List Char) :
    Reads p.meaning true (.apply "ident") front (' ' :: '=' :: rest)
      [Tree.Spells "ident" front] := by
  have hopens : Opens front := .of_isName hname
  refine hp.reads_apply hopens.solid (hp.ident_parses hname ?_)
  rintro _ ⟨⟩
  decide

theorem reads_no_descr (rest : List Char) :
    Reads p.meaning true (Source.opt (.apply "RuleDescr")) [] (' ' :: '=' :: rest) [] := by
  have hsolid : Solid (['='] ++ rest) := by simp [Solid]
  have hskip : Skips p.meaning [' '] (['='] ++ rest) := hp.skips_blank (by simp [Blank]) hsolid
  have hfails := hp.fails_of_terminal (d := '(') ruleDescr_body rfl hsolid (by simp)
  exact .opt_none (hfails.misses_spaced hskip)

theorem reads_equals (rest : List Char) :
    Reads p.meaning true (.terminal "=") [' ', '='] rest [] :=
  hp.reads_terminal (show Blank [' '] by simp [Blank]) rfl (by simp [Solid])

theorem rule_parses (hrules : Declarable rules) {r : String × Expr} (hr : r ∈ rules)
    (hback : Closes back) :
    p.Parses "Rule" (r.1.toList ++ ' ' :: '=' :: ' ' :: r.2.written) back (IsRule r) := by
  have hname : isName r.1.toList = true := (hrules.names r hr).1
  obtain ⟨first, front, rest, hbarred⟩ :=
    hp.barred (!isSyntactic r.1) r.2 (hrules.full r hr) (hrules.applicable hr)
  have hopens : Opens r.2.written := hbarred.written_eq ▸ hbarred.opens.append _
  have hbody : Reads p.meaning true (.apply "RuleBody") ([' '] ++ r.2.written) back
      [IsBody (first :: rest)] :=
    (hp.ruleBody_parses hbarred hback).reads_spaced (hp.skips_blank (by simp [Blank]) hopens.solid)
  have hread := (hp.reads_header_name hname _).cons ((hp.reads_no_descr _).cons
    ((hp.reads_equals _).cons hbody.last))
  have hdefine : p.Parses "Rule_define" (r.1.toList ++ ' ' :: '=' :: ' ' :: r.2.written) back
      (IsDefinition r.1 (first :: rest)) :=
    hp.parses rule_define_body hread fun s hrule _ happs => ⟨hrule, happs⟩
  have hopens' : Opens (r.1.toList ++ ' ' :: '=' :: ' ' :: r.2.written) :=
    (Begins.of_isName hname).append _
  exact hp.parses rule_body
    (hp.reads_alt [] "Rule_define" ["Rule_override", "Rule_extend"] hopens'.solid nofun hdefine)
    fun s hrule _ happs => ⟨hrule, first :: rest, hbarred.expr_eq.symm, happs⟩

/-- No rule begins where no name does. -/
theorem rule_fails (hcs : Solid cs) (h : ∀ c ∈ cs.head?, isNameFirst c = false) :
    p.Fails "Rule" cs := by
  have hident := hp.ident_fails h
  refine hp.fails_of_alt ["Rule_define", "Rule_override", "Rule_extend"] rule_body hcs ?_
  simp only [List.mem_cons, List.not_mem_nil, or_false]
  rintro r (rfl | rfl | rfl)
  · exact hp.fails_of_apply rule_define_body hcs hident
  · exact hp.fails_of_apply rule_override_body hcs hident
  · exact hp.fails_of_apply rule_extend_body hcs hident

/-- The rules of a grammar are read up to its end. -/
theorem reads_rules (hrules : Declarable rules) (back : List Char) :
    Reads p.meaning true (Source.star (.apply "Rule")) (rules.flatMap writtenRule)
      ('\n' :: '\x7d' :: back) (rules.map IsRule) := by
  have hblank : Blank ['\n', ' ', ' '] := by simp [Blank]
  have hline : Blank ['\n'] := by simp [Blank]
  have hend : Misses p.meaning true (.apply "Rule") ('\n' :: '\x7d' :: back) := by
    have hsolid : Solid ('\x7d' :: back) := by simp [Solid]
    have hfails : p.Fails "Rule" ('\x7d' :: back) := hp.rule_fails hsolid (by simp; decide)
    exact hfails.misses_spaced (hp.skips_blank hline hsolid)
  refine .star_flatMap (T := Closes) (fun r _ => ?_) (fun r hr back hback => ?_)
    (fun r hr cs _ => ?_) (closes_of_mark hline (by decide) back) hend
  all_goals rw [writtenRule_eq]
  · exact List.cons_ne_nil _ _
  · have hopens : Opens (r.1.toList ++ ' ' :: '=' :: ' ' :: r.2.written) :=
      (Begins.of_isName (hrules.names r hr).1).append _
    exact (hp.rule_parses hrules hr hback).reads_spaced (hp.skips_blank hblank hopens.solid)
  · rw [List.append_assoc, List.append_assoc]
    exact closes_of_header hblank (List.cons_ne_nil _ _) (hrules.names r hr).1
      (' ' :: (r.2.written ++ cs))

/-! ## Grammars -/

theorem grammar_parses (hrules : Declarable rules) :
    p.Parses "Grammar" (Grammar.written rules).toList [] (IsGrammar "G" rules) := by
  let rest := rules.flatMap writtenRule ++ ['\n', '\x7d'] ++ []
  have hident : Reads p.meaning true (.apply "ident") ['G'] (' ' :: '\x7b' :: rest)
      [Tree.Spells "ident" "G".toList] :=
    hp.reads_apply (by simp [Solid]) (hp.ident_parses (by decide) (by simp; decide))
  have hbrace : Solid ('\x7b' :: rest) := by simp [Solid]
  have hskip : Skips p.meaning [' '] ('\x7b' :: rest) := hp.skips_blank (by simp [Blank]) hbrace
  have hsuper : Reads p.meaning true (Source.opt (.apply "SuperGrammar")) []
      (' ' :: '\x7b' :: rest) [] :=
    .opt_none ((hp.fails_of_terminal (d := '<') superGrammar_body rfl hbrace
      (by simp)).misses_spaced hskip)
  have hopen : Reads p.meaning true (.terminal "\x7b") [' ', '\x7b'] rest [] :=
    hp.reads_terminal (show Blank [' '] by simp [Blank]) rfl hbrace
  have hclose : Reads p.meaning true (.terminal "\x7d") ['\n', '\x7d'] [] [] :=
    hp.reads_terminal (show Blank ['\n'] by simp [Blank]) rfl (by simp [Solid])
  have hread := hident.cons (hsuper.cons (hopen.cons ((hp.reads_rules hrules []).cons hclose.last)))
  rw [toList_written]
  exact hp.parses grammar_body hread fun s hrule _ happs => ⟨hrule, by simpa using happs⟩

theorem grammars_parses (hrules : Declarable rules) :
    p.Parses "Grammars" (Grammar.written rules).toList [] fun s =>
      Tree.Each s.applications [IsGrammar "G" rules] := by
  have hsolid : Solid ((Grammar.written rules).toList ++ []) := by
    simp [Solid, toList_written]
  have hend : Misses p.meaning true (.apply "Grammar") [] :=
    hp.misses_apply solid_nil
      (hp.fails_of_apply grammar_body solid_nil (hp.ident_fails (by rintro _ ⟨⟩)))
  have hne : (Grammar.written rules).toList ≠ [] := by simp [toList_written]
  have hread := Reads.star_more hne (hp.reads_apply hsolid (hp.grammar_parses hrules))
    (.star_end hend)
  rw [List.append_nil] at hread
  exact hp.parses grammars_body hread fun s _ _ happs => happs

end ParsedBy

/-! ## Compiled grammars -/

/-- A match from a rule has a result, unless it nests too deep. -/
theorem matchText_cases {g : Grammar} {start? : Option String} {rule : Rule}
    (h : g.startRule start? = .ok rule) (text : String) :
    (∃ r, g.matchText text start? = .ok r) ∨
      g.matchText text start? = .error (.tooDeep g.name rule.name) := by
  simp only [matchText, answer, h, bind, Except.bind]
  split
  · exact .inr rfl
  · exact .inl ⟨_, rfl⟩

theorem compile_eq {source : String} {r : Match.Result}
    (h : ofGrammars.matchText source none = .ok r) : compile source = compileResult r := by
  delta compile
  rw [h]

theorem startRule_of_start {g : Grammar} {q : String} {rule : Rule} (hstart : g.start = some q)
    (hrule : g.rule? q = some rule) : g.startRule none = .ok rule := by
  simp only [startRule, hstart, Option.none_or, hrule]

theorem startRule_ofGrammars :
    ∃ rule, ofGrammars.startRule none = .ok rule ∧ rule.name = "Grammars" :=
  let ⟨_, rule, hrule, _⟩ := grammars_body
  ⟨rule, startRule_of_start rfl hrule, rule?_name hrule⟩

/-- A match of a source comes to what the parser makes of it. -/
theorem ParsedBy.eq_result {p : Parser} (hp : ofGrammars.ParsedBy p) {source : String}
    {r : Match.Result} (hr : ofGrammars.matchText source none = .ok r) :
    r = p.result "Grammars" source := by
  obtain ⟨rule, hrule, hname⟩ := startRule_ofGrammars
  obtain ⟨rule', hrule', heq⟩ := acyclic_ofGrammars.eq_result hp hr
  obtain rfl : rule = rule' := Except.ok.inj (hrule.symm.trans hrule')
  rwa [hname] at heq

theorem ofResult_eq {r : Match.Result} {root : Tree.Located} (hrules : Declarable rules)
    (hroot : r.root? = some root) (h : Tree.Each root.applications [IsGrammar "G" rules]) :
    ∃ s, ofResult r = .ok [s.grammar] ∧ Built "G" rules s := by
  obtain ⟨t, happs, hgrammar⟩ := Tree.each_singleton h
  obtain ⟨s, hread, hbuilt⟩ := readGrammar_eq hgrammar hrules
  refine ⟨s, ?_, hbuilt⟩
  have hnamed : root.named "Grammar" = [t] := by
    rw [Tree.Located.named, happs]
    simp [hgrammar.1]
  rw [ofResult, hroot]
  simp [hnamed, hread, bind, Except.bind, pure, Except.pure]

/-- What a parser makes of the source of a grammar is built into the grammar. -/
theorem compileResult_written {p : Parser} (hp : ofGrammars.ParsedBy p)
    (hrules : Declarable rules) :
    ∃ s, compileResult (p.result "Grammars" (Grammar.written rules)) = .ok [s.grammar] ∧
      Built "G" rules s := by
  have hsolid : Solid (Grammar.written rules).toList := by simp [Solid, toList_written]
  obtain ⟨root, hroot, happs⟩ := (hp.grammars_parses hrules).root (Grammar.written rules) rfl
    (hp.skips_blank blank_nil hsolid) (hp.skips_blank blank_nil solid_nil)
  have hsucceeded : (p.result "Grammars" (Grammar.written rules)).succeeded = true := by
    rw [Match.Result.root?, Option.map_eq_some_iff] at hroot
    obtain ⟨found, htree, -⟩ := hroot
    rw [Match.Result.succeeded, htree, Option.isSome_some]
  obtain ⟨s, hbuild, hbuilt⟩ := ofResult_eq hrules hroot happs
  refine ⟨s, ?_, hbuilt⟩
  rw [compileResult, if_pos hsucceeded, hbuild]
  rfl

/-- A list of rules that can be declared is written into a source that compiles to one grammar, whose
own rules are exactly these, in order, and which starts with the first one; unless the source nests
too deep to be matched. -/
theorem compile_written (hrules : Declarable rules)
    (hdeep : ofGrammars.matchText (Grammar.written rules) none ≠
      .error (.tooDeep "Ohm" "Grammars")) :
    ∃ g, compile (Grammar.written rules) = .ok [g] ∧ g.name = "G" ∧
      g.ownRules.map (fun r => (r.name, r.body)) = rules ∧
      g.start = rules.head?.map Prod.fst := by
  have hp := acyclic_ofGrammars.parsedBy
  obtain ⟨rule, hrule, hname⟩ := startRule_ofGrammars
  rw [← hname] at hdeep
  obtain ⟨r, hr⟩ := (matchText_cases hrule _).resolve_right hdeep
  obtain rfl := hp.eq_result hr
  obtain ⟨s, hcompile, hbuilt⟩ := compileResult_written hp hrules
  exact ⟨s.grammar, (compile_eq hr).trans hcompile, hbuilt.name_eq, hbuilt.ownRules_eq (by decide),
    hbuilt.start⟩

/-- A quote, and the character behind it. -/
def quotes : List (String × Expr) :=
  [("Q", .seq [.apply "q", .any]), ("q", .terminal "\"")]

theorem compile_written_quotes :
    ∃ g, compile "G \x7b\n  Q = (q) (any)\n  q = \"\\\"\"\n\x7d" = .ok [g] ∧ g.name = "G" ∧
      g.ownRules.map (fun r => (r.name, r.body)) = quotes ∧ g.start = some "Q" := by
  have hrules : Declarable quotes := by
    constructor <;> decide +kernel
  have hmatch : (ofGrammars.matchText (Grammar.written quotes) none).toOption.isSome = true := by
    decide +kernel
  have hwritten : Grammar.written quotes =
      "G \x7b\n  Q = (q) (any)\n  q = \"\\\"\"\n\x7d" := by
    decide +kernel
  rw [← hwritten]
  refine compile_written hrules fun hdeep => ?_
  rw [hdeep] at hmatch
  cases hmatch

end Pegboard.Grammar
