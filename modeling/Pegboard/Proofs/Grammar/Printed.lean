import Pegboard.Proofs.Grammar.Assembled
import Pegboard.Proofs.Grammar.Expressed
import Pegboard.Proofs.Grammar.Flattened
import Pegboard.Proofs.Grammar.Legible
import Pegboard.Proofs.Grammar.Quoting

/-!
# How printed expressions are parsed

A printed expression that is legible is parsed as the expression, with each choice in a choice and
each sequence in a sequence taken apart. An operand is parsed by the rule for operators that bind as
tightly as it does, and so by those for looser ones; elements of a sequence lead from one to the next,
and so do choices, which are terms in the body of a rule.

Main statement: `ParsedBy.ruleBody_yields`.
-/

namespace Pegboard

open Text Computability

theorem Course.append {p : Parser} {v w : List Step} {cs cs' ds : List Char}
    {Ps Qs : List Tree.Property} (h : Course p v cs cs' Ps) (hs : Course p w cs' ds Qs) :
    Course p (v ++ w) cs ds (Ps ++ Qs) := by
  induction h with
  | nil => exact hs
  | mark hskip _ ih => exact .mark hskip (ih hs)
  | rule hyields _ ih => exact .rule hyields (ih hs)

/-- Steps begin behind spaces. -/
theorem Course.skip {p : Parser} {w : List Step} {cs cs' ds : List Char} {Ps : List Tree.Property}
    (h : Course p w cs ds Ps) (hw : w ≠ []) (hskip : Text.skip cs' = Text.skip cs) :
    Course p w cs' ds Ps := by
  cases h with
  | nil => exact absurd rfl hw
  | mark hmark hs => exact .mark (hskip.trans hmark) hs
  | rule hyields hs => exact .rule (hskip ▸ hyields) hs

namespace Grammar

open Build Pegboard.Expr

theorem HasBody.unique {g : Grammar} {q : String} {syntactic : Bool} {e e' : Expr}
    (h : g.HasBody q syntactic e) (h' : g.HasBody q syntactic e') : e = e' := by
  obtain ⟨-, rule, hrule, rfl, -⟩ := h
  obtain ⟨-, rule', hrule', rfl, -⟩ := h'
  obtain rfl := Option.some.inj (hrule.symm.trans hrule')
  rfl

/-! ## Rows -/

theorem row_of_rule {r : String} {rs : List String} (hr : r ∈ rs) :
    [.rule r] ∈ (Expr.alt (rs.map .apply)).rows := by
  rw [Expr.rows]
  induction rs with
  | nil => cases hr
  | cons r' rs ih =>
      rcases List.mem_cons.mp hr with rfl | hr
      · exact .inl rfl
      · exact .inr (ih hr)

theorem row_of_rounds {e : Expr} {v : List Step} (hv : v ∈ e.rows) (n : Nat) :
    (List.replicate n v).flatten ∈ (Expr.iter .star e).rows :=
  Language.join_mem_kstar fun _ hw => List.eq_of_mem_replicate hw ▸ hv

/-- The steps of a sequence: an operand for each of its elements. -/
def elementSteps (es : List Expr) : List Step :=
  (List.replicate es.length [Step.rule "Iter"]).flatten

/-- The steps of a choice: the rule for each of its terms, with bars between them. -/
def termSteps (r : String) : List Expr → List Step
  | [] => []
  | _ :: es => .rule r :: ParsedBy.bars r es.length

theorem elementSteps_append (es fs : List Expr) :
    elementSteps (es ++ fs) = elementSteps es ++ elementSteps fs := by
  rw [elementSteps, List.length_append, List.replicate_add, List.flatten_append]
  rfl

theorem elementSteps_ne {es : List Expr} (h : es ≠ []) : elementSteps es ≠ [] := by
  cases es with
  | nil => exact absurd rfl h
  | cons e es => exact List.cons_ne_nil _ _

theorem termSteps_ne {r : String} {es : List Expr} (h : es ≠ []) : termSteps r es ≠ [] := by
  cases es with
  | nil => exact absurd rfl h
  | cons e es => exact List.cons_ne_nil _ _

theorem termSteps_append (r : String) {es fs : List Expr} (hes : es ≠ []) (hfs : fs ≠ []) :
    termSteps r (es ++ fs) = termSteps r es ++ .mark "|" :: termSteps r fs := by
  cases es with
  | nil => exact absurd rfl hes
  | cons e es =>
      cases fs with
      | nil => exact absurd rfl hfs
      | cons f fs =>
          simp only [List.cons_append, termSteps, List.length_append, List.length_cons,
            ParsedBy.bars]
          rw [List.replicate_add, List.flatten_append, List.replicate_succ, List.flatten_cons]
          rfl

/-- The rule for operands that bind so loosely. -/
def operandRule : Nat → String
  | 0 => "Base"
  | 1 => "Lex"
  | 2 => "Pred"
  | _ => "Iter"

/-- The rule `r` parses the terms of a choice behind which one of the marks stands. -/
structure Choosing (p : Parser) (r : String) (D : Expr → Tree.Property) (marks : List Char) :
    Prop where
  closing : ∀ c ∈ marks, c ∈ [')', '}']
  lift : ∀ {f : Expr} {cs ds : List Char}, p.Yields "Seq" (skip cs) ds (Denotes "Seq" f) →
    Halts ('|' :: marks) ds → p.Yields r (skip cs) ds (D f)

namespace Halts

variable {marks ds : List Char}

theorem follows_seq (h : Halts ('|' :: marks) ds) (hmarks : ∀ c ∈ marks, c ∈ [')', '}']) :
    Follows "Seq" ds := by
  refine Grammar.follows_seq.mpr (h.mono fun c hc => ?_)
  have := hmarks c
  simp only [List.mem_cons, List.not_mem_nil, or_false] at *
  tauto

theorem follows_iter (h : Halts ('|' :: marks) ds) (hmarks : ∀ c ∈ marks, c ∈ [')', '}']) :
    Follows "Iter" ds := by
  refine Grammar.follows_iter.mpr ((Grammar.follows_seq.mp (h.follows_seq hmarks)).next
    fun c hc hmark => ?_)
  have hnot : ∀ d ∈ ['*', '+', '?', '.'], d ∉ ['|', ')', '}', '-'] ∧ isNameFirst d = false := by
    simp [isNameFirst]
  exact ne_of_first hc (hnot c hmark).1 (hnot c hmark).2 rfl

end Halts

namespace ParsedBy

variable {p : Parser} {q r : String} {e f : Expr} {es : List Expr} {w : List Step}
  {cs ds : List Char} {P : Tree.Property} {Ps : List Tree.Property}

/-- Steps of a rule that lead through a text make the rule match it. -/
theorem yields_of_course (hp : ofGrammars.ParsedBy p) (h : Assembled p q)
    (hbody : ofGrammars.HasBody q true e) (hw : w ∈ e.rows) (hcourse : Course p w cs ds Ps)
    (hds : Follows q ds)
    (hP : ∀ s : Tree.Located, s.tree.rule? = some q → Tree.Each s.applications Ps → P s) :
    p.Yields q cs ds P := by
  obtain ⟨e', hbody', -, hrows⟩ := h
  obtain rfl := hbody.unique hbody'
  exact hp.yields hbody ((hrows w hw).2 cs ds Ps hcourse hds) hP

variable (hp : ofGrammars.ParsedBy p)

include hp

theorem yields_steps (w : List Step) (hbody : ofGrammars.HasBody q true (.seq (w.map Step.expr)))
    (hcourse : Course p w cs ds Ps)
    (hP : ∀ s : Tree.Located, s.tree.rule? = some q → Tree.Each s.applications Ps → P s) :
    p.Yields q cs ds P :=
  hp.yields hbody (hp.leads_course hcourse) hP

/-- A level of binding stands for what it applies. -/
theorem yields_level (h : Assembled p q) (hq : q ∈ levels) (rs : List String)
    (hbody : ofGrammars.HasBody q true (.alt (rs.map .apply))) (hr : r ∈ rs) (hds : Follows q ds)
    (hyields : p.Yields r (skip cs) ds (Denotes r f)) : p.Yields q cs ds (Denotes q f) :=
  hp.yields_of_course h hbody (row_of_rule hr) (.rule hyields (.nil ds)) hds
    fun _ hrule happs => .only hq hrule happs

/-! ## Operands -/

omit hp in
theorem follows_operandRule {n : Nat} (h : Follows (operandRule (n + 1)) ds) :
    Follows (operandRule n) ds := by
  match n with
  | 0 => exact (follows_operand (by decide)).mpr ((follows_operand (by decide)).mp h)
  | 1 => exact (follows_operand (by decide)).mpr ((follows_operand (by decide)).mp h)
  | 2 => exact (follows_operand (by decide)).mpr ((follows_iter.mp h).mono (by simp))
  | n + 3 => exact h

omit hp in
theorem follows_tighter {n m : Nat} (hle : n ≤ m) (h : Follows (operandRule m) ds) :
    Follows (operandRule n) ds := by
  induction m, hle using Nat.le_induction with
  | base => exact h
  | succ m _ ih => exact ih (follows_operandRule h)

/-- What is an operand of an operator is one of those that bind looser. -/
theorem yields_looser (hcs : Solid cs) {n m : Nat} (hle : n ≤ m) (hds : Follows (operandRule m) ds)
    (h : p.Yields (operandRule n) cs ds (Denotes (operandRule n) e)) :
    p.Yields (operandRule m) cs ds (Denotes (operandRule m) e) := by
  induction m, hle using Nat.le_induction with
  | base => exact h
  | succ m hle ih =>
      have hyields := ih (follows_operandRule hds)
      rw [← skip_of_solid hcs] at hyields
      match m with
      | 0 =>
          exact hp.yields_level hp.assembled_lex (by decide) ["Lex_lex", "Base"] lex_body
            (by decide) hds hyields
      | 1 =>
          exact hp.yields_level hp.assembled_pred (by decide)
            ["Pred_not", "Pred_lookahead", "Lex"] pred_body (by decide) hds hyields
      | 2 =>
          exact hp.yields_level hp.assembled_iter (by decide)
            ["Iter_star", "Iter_plus", "Iter_opt", "Pred"] iter_body (by decide) hds hyields
      | m + 3 => rwa [skip_of_solid hcs] at hyields

/-- A single expression of the rule for operands. -/
theorem base_yields (hr : r ∈ ["Base_application", "Base_range", "Base_terminal", "Base_paren"])
    (hds : Follows "Base" ds) (h : p.Yields r (skip cs) ds (Denotes r e)) :
    p.Yields "Base" cs ds (Denotes "Base" e) :=
  hp.yields_level hp.assembled_base (by decide)
    ["Base_application", "Base_range", "Base_terminal", "Base_paren"] base_body hr hds h

omit hp in
theorem toList_quote {s : String} : (quote s).toList = quoted (s.toList.map quoteChar) := by
  rw [quote, String.toList_ofList, quoteChars_eq_quoted]

omit hp in
theorem solid_quote (s : String) (ds : List Char) : Solid ((quote s).toList ++ ds) := by
  rw [toList_quote]
  rintro _ ⟨⟩
  decide

theorem base_yields_quote {s : String} (hs : '\x0c' ∉ s.toList) (hds : Follows "Base" ds) :
    p.Yields "Base" ((quote s).toList ++ ds) ds (Denotes "Base" (.terminal s)) := by
  have hpieces : ∀ u ∈ s.toList.map quoteChar, Piece u :=
    List.forall_mem_map.mpr fun c hc => piece_quoteChar (ne_of_mem_of_not_mem hc hs)
  have hterminal : p.Yields "terminal" (skip ((quote s).toList ++ ds)) ds
      (Tree.Spells "terminal" (quote s).toList) :=
    ⟨_, skip_of_solid (solid_quote s ds), toList_quote ▸ hp.terminal_parses_pieces hpieces ds⟩
  refine hp.base_yields (r := "Base_terminal") (by decide) hds ?_
  rw [← skip_skip] at hterminal
  refine hp.yields base_terminal_body (hp.leads_rule hterminal) fun t hrule happs => ?_
  have h := Denotes.terminal hrule happs
  rwa [String.ofList_toList, unquote_quote hs] at h

/-- A character that is quoted is the end of a range. -/
theorem oneCharTerminal_yields {c : Char} (hc : c ≠ '\x0c') :
    p.Yields "oneCharTerminal" (skip ((quote c.toString).toList ++ ds)) ds
      (Tree.Spells "oneCharTerminal" (quote c.toString).toList) := by
  have hquote : (quote c.toString).toList = quoted [quoteChar c] := by simp [toList_quote]
  rw [skip_of_solid (solid_quote _ ds), hquote]
  exact ⟨_, rfl, hp.oneCharTerminal_parses_piece (piece_quoteChar hc) ds⟩

theorem base_yields_range {lo hi : Char} (hlo : lo ≠ '\x0c') (hhi : hi ≠ '\x0c')
    (hds : Follows "Base" ds) :
    p.Yields "Base" ((Expr.range lo hi).text.toList ++ ds) ds (Denotes "Base" (.range lo hi)) := by
  have htext : (Expr.range lo hi).text.toList ++ ds =
      (quote lo.toString).toList ++ ("..".toList ++ ((quote hi.toString).toList ++ ds)) := by
    simp [Expr.text]
  have hdots : skip ("..".toList ++ ((quote hi.toString).toList ++ ds)) =
      "..".toList ++ ((quote hi.toString).toList ++ ds) := skip_of_solid (by simp [Solid])
  have hchar {c : Char} (hc : c ≠ '\x0c') :
      (unquote (.ofList (quote c.toString).toList)).toList.head? = some c := by
    rw [String.ofList_toList, unquote_quote (by simpa using hc.symm)]
    simp
  refine hp.base_yields (r := "Base_range") (by decide) hds ?_
  rw [htext]
  refine hp.yields_steps [.rule "oneCharTerminal", .mark "..", .rule "oneCharTerminal"]
    base_range_body (.rule ?_ (.mark hdots (.rule (hp.oneCharTerminal_yields hhi) (.nil ds))))
    fun s hrule happs => .range hrule (hchar hlo) (hchar hhi) happs
  rw [skip_skip]
  exact hp.oneCharTerminal_yields hlo

theorem base_yields_name {name : String} (hname : isName name.toList = true)
    (hds : endsName ds = true) :
    p.Yields "Base" (name.toList ++ ds) ds (Denotes "Base" (named name)) := by
  obtain ⟨hrest, hback⟩ := endsName_iff.mp hds
  have h := hp.base_parses_name hname hrest hback
  rw [String.ofList_toList] at h
  exact ⟨_, rfl, h⟩

/-- A choice in parentheses is an operand. -/
theorem base_yields_group (hcs : Opens cs)
    (h : p.Yields "Alt" (cs ++ ')' :: ds) (')' :: ds) (Denotes "Alt" e))
    (hds : Follows "Base" ds) :
    p.Yields "Base" (group cs ++ ds) ds (Denotes "Base" e) := by
  have hgroup : skip (group cs ++ ds) = "(".toList ++ (cs ++ ')' :: ds) := by
    rw [skip_of_solid (opens_group cs).solid]
    simp [group]
  have hclose : skip (')' :: ds) = ")".toList ++ ds := skip_of_solid (by simp [Solid])
  rw [← skip_of_solid hcs.solid] at h
  refine hp.base_yields (r := "Base_paren") (by decide) hds ?_
  refine hp.yields_steps [.mark "(", .rule "Alt", .mark ")"] base_paren_body
    (.mark ?_ (.rule h (.mark hclose (.nil ds)))) fun s hrule happs => .paren hrule happs
  rw [skip_skip, hgroup]

/-- An operator before an operand. -/
theorem yields_prefix {s : String} {d : Char} {u : Expr → Expr} (hs : s.toList = [d])
    (hd : ' ' < d ∧ d ≠ '/')
    (hbody : ofGrammars.HasBody r true (.seq [.terminal s, .apply q]))
    (hnode : ∀ t : Tree.Located, t.tree.rule? = some r →
      Tree.Each t.applications [Denotes q e] → Denotes r (u e) t)
    (hcs : Opens cs) (h : p.Yields q (cs ++ ds) ds (Denotes q e)) :
    p.Yields r (skip (d :: cs ++ ds)) ds (Denotes r (u e)) := by
  have hmark : skip (skip (d :: cs ++ ds)) = s.toList ++ (cs ++ ds) := by
    have hsolid : Solid (d :: cs ++ ds) := by simpa [Solid] using hd
    rw [skip_skip, skip_of_solid hsolid, hs]
    rfl
  rw [← skip_of_solid hcs.solid] at h
  exact hp.yields_steps [.mark s, .rule q] hbody
    (.mark hmark (.rule h (.nil ds))) fun t hrule happs => hnode t hrule happs

/-- An iteration, behind its operand. -/
theorem iter_yields (op : Repeat) (hcs : Opens cs)
    (h : p.Yields "Pred" (cs ++ (op.symbol.toList ++ ds)) (op.symbol.toList ++ ds)
      (Denotes "Pred" e)) (hds : Follows "Iter" ds) :
    p.Yields "Iter" (cs ++ (op.symbol.toList ++ ds)) ds (Denotes "Iter" (.iter op e)) := by
  have hmark : skip (op.symbol.toList ++ ds) = op.symbol.toList ++ ds :=
    skip_of_solid (solid_symbol op ds)
  have hrule : iterRule op ∈ ["Iter_star", "Iter_plus", "Iter_opt", "Pred"] := by
    cases op <;> decide
  rw [← skip_of_solid hcs.solid] at h
  refine hp.yields_level hp.assembled_iter (by decide)
    ["Iter_star", "Iter_plus", "Iter_opt", "Pred"] iter_body hrule hds ?_
  rw [← skip_skip] at h
  exact hp.yields_steps [.rule "Pred", .mark op.symbol] (iterRule_body op)
    (.rule h (.mark hmark (.nil ds))) fun s hrule happs => .iteration op hrule happs

end ParsedBy

/-! ## Printed expressions -/

/-- What is printed of the expression is parsed as the expression, as an operand, as elements of a
sequence and as terms of a choice. -/
structure Printed (p : Parser) (e : Expr) : Prop where
  full : e.full = true
  opens : Opens e.text.toList
  operand : ∀ ds, e.legible (closing e.isAltOrSeq ds) = true →
    Follows (operandRule e.looseness) ds →
      p.Yields (operandRule e.looseness) (e.operandText ++ ds) ds
        (Denotes (operandRule e.looseness) e.flat)
  elements : e.isAlt = false → ∀ ds, e.legible ds = true → Follows "Iter" ds →
    Course p (elementSteps e.flat.parts) (e.text.toList ++ ds) ds
      (e.flat.parts.map (Denotes "Iter"))
  terms : ∀ {r D marks}, Choosing p r D marks → ∀ ds, e.legible ds = true →
    Halts ('|' :: marks) ds →
      Course p (termSteps r e.flat.choices) (e.text.toList ++ ds) ds (e.flat.choices.map D)

namespace Printed

variable {p : Parser} {r : String} {D : Expr → Tree.Property} {marks : List Char} {e : Expr}
  {es : List Expr} {ds : List Char}

theorem opens_operandText (h : Printed p e) : Opens e.operandText := by
  unfold operandText
  split
  · exact opens_group _
  · exact h.opens

theorem opens_elementText (h : Printed p e) : Opens e.elementText := by
  unfold elementText
  split
  · exact opens_group _
  · exact h.opens

theorem isFlat (h : Printed p e) : e.flat.IsFlat :=
  isFlat_flat e h.full

variable (hp : ofGrammars.ParsedBy p)

include hp

/-- Elements of a sequence are the one term that it is. -/
theorem terms_of_elements (hfull : e.full = true) (halt : e.isAlt = false)
    (hopens : Opens e.text.toList)
    (h : Course p (elementSteps e.flat.parts) (e.text.toList ++ ds) ds
      (e.flat.parts.map (Denotes "Iter"))) (hchoosing : Choosing p r D marks)
    (hds : Halts ('|' :: marks) ds) :
    Course p (termSteps r e.flat.choices) (e.text.toList ++ ds) ds (e.flat.choices.map D) := by
  have hflat := isFlat_flat e hfull
  obtain ⟨f, fs, hparts⟩ := List.exists_cons_of_ne_nil hflat.parts_ne
  have hrow : elementSteps e.flat.parts ∈ (Source.plus (.apply "Iter")).rows := by
    rw [hparts]
    exact ⟨[.rule "Iter"], rfl, _, row_of_rounds rfl fs.length, rfl⟩
  have hseq : p.Yields "Seq" (e.text.toList ++ ds) ds (Denotes "Seq" e.flat) :=
    hp.yields_of_course hp.assembled_seq seq_body hrow h (hds.follows_seq hchoosing.closing)
      fun s hrule happs => hflat.sequence_eq ▸ Denotes.seq hrule happs
  rw [← skip_of_solid hopens.solid] at hseq
  rw [choices_flat hfull halt]
  exact .rule (hchoosing.lift hseq hds) (.nil ds)

omit hp in
theorem choosing_alt : Choosing p "Seq" (Denotes "Seq") [')'] where
  closing := by simp
  lift h _ := h

theorem choosing_body : Choosing p "TopLevelTerm" IsTerm ['}'] where
  closing := by simp
  lift h hds := by
    have hseq : "Seq" ∈ ["TopLevelTerm_inline", "Seq"] := by decide
    rw [← skip_skip] at h
    exact hp.yields_of_course hp.assembled_topLevelTerm topLevelTerm_body (row_of_rule hseq)
      (.rule h (.nil _)) (follows_term.mpr hds) fun s hrule happs => ⟨hrule, happs⟩

omit hp in
theorem row_of_terms (h : es ≠ []) : termSteps r es ∈
    (Expr.seq [.apply r, Source.star (.seq [.terminal "|", .apply r])]).rows := by
  obtain ⟨e, es, rfl⟩ := List.exists_cons_of_ne_nil h
  have hbar : [.mark "|", .rule r] ∈ (Expr.seq [.terminal "|", .apply r]).rows :=
    ⟨[.mark "|"], rfl, _, ⟨[.rule r], rfl, _, rfl, rfl⟩, rfl⟩
  exact ⟨[.rule r], rfl, _, ⟨_, row_of_rounds hbar es.length, _, rfl, List.append_nil _⟩, rfl⟩

/-- The terms of a choice, which stands in parentheses as an operand. -/
theorem operand_of_terms (hfull : e.full = true) (hopens : Opens e.text.toList)
    (h : Course p (termSteps "Seq" e.flat.choices) (e.text.toList ++ ')' :: ds) (')' :: ds)
      (e.flat.choices.map (Denotes "Seq"))) (hds : Follows "Base" ds) :
    p.Yields "Base" (group e.text.toList ++ ds) ds (Denotes "Base" e.flat) := by
  have hflat := isFlat_flat e hfull
  have hclose : Follows "Alt" (')' :: ds) :=
    follows_alt.mpr (.inl ⟨')', ds, skip_of_solid (by simp [Solid]), List.mem_singleton_self _⟩)
  refine hp.base_yields_group hopens ?_ hds
  exact hp.yields_of_course hp.assembled_alt alt_body (row_of_terms hflat.choices_ne) h hclose
    fun s hrule happs => hflat.choice_eq ▸ Denotes.alt hrule happs

/-- An operand, of an operator that binds as tightly or looser. -/
theorem operandOf (h : Printed p e) {n : Nat} (hle : e.looseness ≤ n)
    (hlegible : e.legible (closing e.isAltOrSeq ds) = true) (hds : Follows (operandRule n) ds) :
    p.Yields (operandRule n) (e.operandText ++ ds) ds (Denotes (operandRule n) e.flat) :=
  hp.yields_looser h.opens_operandText.solid hle hds
    (h.operand ds hlegible (ParsedBy.follows_tighter hle hds))

/-- An expression that is no choice and no sequence. -/
theorem single (hfull : e.full = true) (hnot : e.isAltOrSeq = false) (hopens : Opens e.text.toList)
    (hloose : e.looseness ≤ 3)
    (h : ∀ ds, e.legible ds = true → Follows (operandRule e.looseness) ds →
      p.Yields (operandRule e.looseness) (e.text.toList ++ ds) ds
        (Denotes (operandRule e.looseness) e.flat)) : Printed p e := by
  have halt : e.isAlt = false := by
    cases e <;> first | rfl | cases hnot
  have hseq : e.isSeq = false := by
    cases e <;> first | rfl | cases hnot
  have helements (ds : List Char) (hlegible : e.legible ds = true) (hds : Follows "Iter" ds) :
      Course p (elementSteps e.flat.parts) (e.text.toList ++ ds) ds
        (e.flat.parts.map (Denotes "Iter")) := by
    have hoperand := ParsedBy.follows_tighter (m := 3) hloose hds
    have hiter := hp.yields_looser hopens.solid hloose hds (h ds hlegible hoperand)
    rw [← skip_of_solid hopens.solid] at hiter
    rw [parts_flat hfull hseq]
    exact .rule hiter (.nil ds)
  refine ⟨hfull, hopens, fun ds hlegible hds => ?_, fun _ => helements, fun hchoosing ds hlegible hds =>
    terms_of_elements hp hfull halt hopens
      (helements ds hlegible (hds.follows_iter hchoosing.closing)) hchoosing hds⟩
  rw [hnot] at hlegible
  rw [operandText, hnot]
  exact h ds hlegible hds

/-- An element of a sequence. -/
theorem element (h : Printed p e) (hlegible : e.legible (closing e.isAlt ds) = true)
    (hds : Follows "Iter" ds) :
    Course p (elementSteps e.flat.parts) (e.elementText ++ ds) ds
      (e.flat.parts.map (Denotes "Iter")) := by
  cases halt : e.isAlt with
  | false =>
      rw [halt] at hlegible
      rw [elementText, halt]
      exact h.elements halt ds hlegible hds
  | true =>
      obtain ⟨es, rfl⟩ : ∃ es, e = .alt es := by
        cases e <;> first | exact ⟨_, rfl⟩ | cases halt
      have hiter := h.operandOf hp (n := 3) (Nat.zero_le 3) hlegible hds
      rw [← skip_of_solid h.opens_operandText.solid] at hiter
      rw [parts_flat h.full rfl]
      exact .rule hiter (.nil ds)

/-- The elements of a sequence behind the first one. -/
theorem elements_behind (h : ∀ e ∈ es, Printed p e) (hlegible : legibleElements es ds = true)
    (hds : Follows "Iter" ds) : Follows "Iter" (elementsText es ++ ds) ∧
      Course p (elementSteps (es.flatMap (·.flat.parts))) (elementsText es ++ ds) ds
        ((es.flatMap (·.flat.parts)).map (Denotes "Iter")) := by
  induction es with
  | nil => exact ⟨hds, .nil ds⟩
  | cons e es ih =>
      obtain ⟨he, hes⟩ := List.forall_mem_cons.mp h
      obtain ⟨hfirst, hlater⟩ := (Bool.and_eq_true _ _).mp hlegible
      obtain ⟨hfollows, hcourse⟩ := ih hes hlater
      have helement := element hp he hfirst hfollows
      have htext : elementsText (e :: es) ++ ds = ' ' :: (e.elementText ++ (elementsText es ++ ds)) := by
        simp [elementsText]
      have hskip := skip_cons_blank (c := ' ') (by decide) (e.elementText ++ (elementsText es ++ ds))
      rw [htext, List.flatMap_cons, elementSteps_append, List.map_append]
      refine ⟨follows_iter.mpr ?_, .append (helement.skip ?_ hskip) hcourse⟩
      · obtain ⟨c, rest, hcs, hc⟩ := he.opens_elementText.append (elementsText es ++ ds)
        refine ⟨c, rest, by rw [hskip, skip_of_solid he.opens_elementText.solid, hcs], fun hmark => ?_⟩
        have hnot : ∀ d ∈ ['*', '+', '?', '.'], d ∉ ['(', '"', '~', '&', '#'] ∧
            isNameFirst d = false := by simp [isNameFirst]
        exact ne_of_first hc (hnot c hmark).1 (hnot c hmark).2 rfl
      · exact elementSteps_ne he.isFlat.parts_ne

theorem seq (hfull : (Expr.seq es).full = true) (h : ∀ e ∈ es, Printed p e) :
    Printed p (.seq es) := by
  cases es with
  | nil => simp [Expr.full] at hfull
  | cons e es =>
      obtain ⟨he, hes⟩ := List.forall_mem_cons.mp h
      have hopens : Opens (Expr.seq (e :: es)).text.toList :=
        toList_text_seq e es ▸ he.opens_elementText.append _
      have helements (ds : List Char) (hlegible : (Expr.seq (e :: es)).legible ds = true)
          (hds : Follows "Iter" ds) : Course p (elementSteps (Expr.seq (e :: es)).flat.parts)
            ((Expr.seq (e :: es)).text.toList ++ ds) ds
            ((Expr.seq (e :: es)).flat.parts.map (Denotes "Iter")) := by
        obtain ⟨hfirst, hlater⟩ := (Bool.and_eq_true _ _).mp hlegible
        obtain ⟨hfollows, hcourse⟩ := elements_behind hp hes hlater hds
        rw [flat_seq_of_full hfull, toList_text_seq, List.append_assoc, parts, List.flatMap_cons,
          elementSteps_append, List.map_append]
        exact (element hp he hfirst hfollows).append hcourse
      have hterms {r : String} {D : Expr → Tree.Property} {marks : List Char}
          (hchoosing : Choosing p r D marks) (ds : List Char)
          (hlegible : (Expr.seq (e :: es)).legible ds = true) (hds : Halts ('|' :: marks) ds) :=
        terms_of_elements hp hfull rfl hopens
          (helements ds hlegible (hds.follows_iter hchoosing.closing)) hchoosing hds
      refine ⟨hfull, hopens, fun ds hlegible hds => ?_, fun _ => helements, hterms⟩
      refine operand_of_terms hp hfull hopens (hterms choosing_alt _ hlegible ?_) hds
      exact .inl ⟨')', ds, skip_of_solid (by simp [Solid]), by decide⟩

omit hp in
/-- The terms of a choice, the first one and those behind it. -/
theorem terms_behind (he : Printed p e) (h : ∀ e ∈ es, Printed p e)
    (hlegible : legibleChoices (e :: es) ds = true) (hchoosing : Choosing p r D marks)
    (hds : Halts ('|' :: marks) ds) :
    Course p (termSteps r ((e :: es).flatMap (·.flat.choices)))
      (e.text.toList ++ (choicesText es ++ ds)) ds (((e :: es).flatMap (·.flat.choices)).map D) := by
  induction es generalizing e with
  | nil =>
      obtain ⟨hfirst, -⟩ := (Bool.and_eq_true _ _).mp hlegible
      rw [List.flatMap_singleton]
      exact he.terms hchoosing ds hfirst hds
  | cons f fs ih =>
      obtain ⟨hf, hfs⟩ := List.forall_mem_cons.mp h
      obtain ⟨hfirst, hlater⟩ := (Bool.and_eq_true _ _).mp hlegible
      have htext : choicesText (f :: fs) ++ ds =
          ' ' :: '|' :: ' ' :: (f.text.toList ++ (choicesText fs ++ ds)) := by
        simp [choicesText]
      have hbar : skip (choicesText (f :: fs) ++ ds) =
          "|".toList ++ ' ' :: (f.text.toList ++ (choicesText fs ++ ds)) := by
        rw [htext, skip_cons_blank (by decide)]
        exact skip_of_solid (by simp [Solid])
      have hmore := ih hf hfs hlater
      have hne : (f :: fs).flatMap (·.flat.choices) ≠ [] := by
        rw [List.flatMap_cons]
        exact List.append_ne_nil_of_left_ne_nil hf.isFlat.choices_ne _
      rw [List.flatMap_cons, termSteps_append r he.isFlat.choices_ne hne, List.map_append]
      refine (he.terms hchoosing _ hfirst ?_).append (.mark hbar (hmore.skip (termSteps_ne hne) ?_))
      · exact .inl ⟨'|', _, hbar, List.mem_cons_self⟩
      · exact skip_cons_blank (by decide) _

theorem alt (hfull : (Expr.alt es).full = true) (h : ∀ e ∈ es, Printed p e) :
    Printed p (.alt es) := by
  cases es with
  | nil => simp [Expr.full] at hfull
  | cons e es =>
      obtain ⟨he, hes⟩ := List.forall_mem_cons.mp h
      have hopens : Opens (Expr.alt (e :: es)).text.toList :=
        toList_text_alt e es ▸ he.opens.append _
      have hterms {r : String} {D : Expr → Tree.Property} {marks : List Char}
          (hchoosing : Choosing p r D marks) (ds : List Char)
          (hlegible : (Expr.alt (e :: es)).legible ds = true) (hds : Halts ('|' :: marks) ds) :
          Course p (termSteps r (Expr.alt (e :: es)).flat.choices)
            ((Expr.alt (e :: es)).text.toList ++ ds) ds
            ((Expr.alt (e :: es)).flat.choices.map D) := by
        rw [flat_alt_of_full hfull, toList_text_alt, List.append_assoc, choices]
        exact terms_behind he hes hlegible hchoosing hds
      refine ⟨hfull, hopens, fun ds hlegible hds => ?_,
        fun halt => absurd halt.symm Bool.false_ne_true, hterms⟩
      refine operand_of_terms hp hfull hopens (hterms choosing_alt _ hlegible ?_) hds
      exact .inl ⟨')', ds, skip_of_solid (by simp [Solid]), by decide⟩

/-- A name that is an expression of its own. -/
theorem name {n : String} (hfull : e.full = true) (hnot : e.isAltOrSeq = false)
    (hloose : e.looseness = 0) (hn : isName n.toList = true) (htext : e.text = n)
    (hnamed : named n = e.flat)
    (hlegible : ∀ ds, e.legible ds = endsName ds) : Printed p e := by
  refine single hp hfull hnot (htext ▸ .of_isName hn) (hloose ▸ Nat.zero_le 3) fun ds h _ => ?_
  rw [hloose, htext, ← hnamed]
  exact hp.base_yields_name hn (hlegible ds ▸ h)

theorem terminal (s : String) : Printed p (.terminal s) := by
  have hopens : Opens (Expr.terminal s).text.toList := by
    rw [Expr.text, ParsedBy.toList_quote]
    exact ⟨'"', _, rfl, .inl (by decide)⟩
  refine single hp rfl rfl hopens (Nat.zero_le 3) fun ds hlegible hds => ?_
  rw [Expr.text, flat]
  exact hp.base_yields_quote (by simpa [legible] using hlegible) hds

theorem range (lo hi : Char) : Printed p (.range lo hi) := by
  have hopens : Opens (Expr.range lo hi).text.toList := by
    rw [Expr.text, String.toList_append, String.toList_append, ParsedBy.toList_quote]
    exact ⟨'"', _, rfl, .inl (by decide)⟩
  refine single hp rfl rfl hopens (Nat.zero_le 3) fun ds hlegible hds => ?_
  obtain ⟨hlo, hhi⟩ : lo ≠ '\x0c' ∧ hi ≠ '\x0c' := by simpa [legible] using hlegible
  rw [flat]
  exact hp.base_yields_range hlo hhi hds

theorem iter (op : Repeat) (h : Printed p e) : Printed p (.iter op e) := by
  refine single hp h.full rfl (toList_text_iter op e ▸ h.opens_operandText.append _) (Nat.le_refl 3)
    fun ds hlegible hds => ?_
  obtain ⟨hloose, hinner⟩ := (Bool.and_eq_true _ _).mp hlegible
  have hnext : Follows "Pred" (op.symbol.toList ++ ds) := by
    obtain ⟨d, hd, hsymbol⟩ := symbol_eq op
    refine (follows_operand (by decide)).mpr ⟨d, ds, ?_, ?_⟩
    · rw [skip_of_solid (solid_symbol op ds), hsymbol]
      rfl
    · exact (show ∀ d ∈ ['*', '+', '?'], d ≠ '.' by simp) d hd
  rw [toList_text_iter, List.append_assoc, flat]
  exact hp.iter_yields op h.opens_operandText
    (h.operandOf hp (n := 2) (of_decide_eq_true hloose) hinner hnext) hds

/-- An operator before an operand, which binds more tightly. -/
theorem prefixed {u : Expr → Expr} {n : Nat} {d : Char} (h : Printed p e)
    (hfull : (u e).full = true) (hnot : (u e).isAltOrSeq = false)
    (hloose : (u e).looseness = n + 1) (hn : n + 1 ≤ 3) (hd : d ∈ ['~', '&', '#'])
    (htext : (u e).text.toList = d :: e.operandText)
    (hlegible : ∀ ds, (u e).legible ds = true →
      e.looseness ≤ n ∧ e.legible (closing e.isAltOrSeq ds) = true)
    (hyields : ∀ ds, Follows (operandRule (n + 1)) ds →
      p.Yields (operandRule n) (e.operandText ++ ds) ds (Denotes (operandRule n) e.flat) →
      p.Yields (operandRule (n + 1)) (d :: e.operandText ++ ds) ds
        (Denotes (operandRule (n + 1)) (u e).flat)) : Printed p (u e) := by
  have hopens : Opens (u e).text.toList := by
    refine htext ▸ ⟨d, _, rfl, .inl ?_⟩
    simp only [List.mem_cons, List.not_mem_nil, or_false] at hd ⊢
    tauto
  refine single hp hfull hnot hopens (hloose ▸ hn) fun ds hread hds => ?_
  rw [hloose] at hds ⊢
  rw [htext]
  obtain ⟨hle, hinner⟩ := hlegible ds hread
  have hoperand := h.operandOf hp hle hinner (ParsedBy.follows_operandRule hds)
  exact hyields ds hds hoperand

theorem not (h : Printed p e) : Printed p (.not e) := by
  refine prefixed hp (n := 1) h h.full rfl rfl (by decide) (by decide) (toList_text_not e)
    (fun ds hread => ?_) fun ds hds hoperand => ?_
  · obtain ⟨hloose, hinner⟩ := (Bool.and_eq_true _ _).mp hread
    exact ⟨of_decide_eq_true hloose, hinner⟩
  · have hnot := hp.yields_prefix (s := "~") rfl (by decide) pred_not_body (fun _ => .not)
      h.opens_operandText hoperand
    rw [flat]
    exact hp.yields_level hp.assembled_pred (by decide) ["Pred_not", "Pred_lookahead", "Lex"]
      pred_body (by decide) hds hnot

theorem look (h : Printed p e) : Printed p (.look e) := by
  refine prefixed hp (n := 1) h h.full rfl rfl (by decide) (by decide) (toList_text_look e)
    (fun ds hread => ?_) fun ds hds hoperand => ?_
  · obtain ⟨hloose, hinner⟩ := (Bool.and_eq_true _ _).mp hread
    exact ⟨of_decide_eq_true hloose, hinner⟩
  · have hlook := hp.yields_prefix (s := "&") rfl (by decide) pred_lookahead_body (fun _ => .look)
      h.opens_operandText hoperand
    rw [flat]
    exact hp.yields_level hp.assembled_pred (by decide) ["Pred_not", "Pred_lookahead", "Lex"]
      pred_body (by decide) hds hlook

theorem lex (h : Printed p e) : Printed p (.lex e) := by
  refine prefixed hp (n := 0) h h.full rfl rfl (by decide) (by decide) (toList_text_lex e)
    (fun ds hread => ?_) fun ds hds hoperand => ?_
  · obtain ⟨hloose, hinner⟩ := (Bool.and_eq_true _ _).mp hread
    exact ⟨Nat.le_of_eq (beq_iff_eq.mp hloose), hinner⟩
  · have hlex := hp.yields_prefix (s := "#") rfl (by decide) lex_lex_body (fun _ => .lex)
      h.opens_operandText hoperand
    rw [flat]
    exact hp.yields_level hp.assembled_lex (by decide) ["Lex_lex", "Base"] lex_body (by decide)
      hds hlex

end Printed

namespace ParsedBy

variable {p : Parser} {e : Expr} {ds : List Char}

mutual

/-- Every expression of which a source can speak is parsed as what is printed of it. -/
theorem printed (hp : ofGrammars.ParsedBy p) (lexical : Bool) : ∀ e : Expr, e.full = true →
    (∀ a ∈ e.applications lexical, Applicable a.1) → Printed p e
  | .any, _, _ => .name hp rfl rfl rfl (n := "any") (by decide) rfl rfl fun _ => rfl
  | .endOfInput, _, _ => .name hp rfl rfl rfl (n := "end") (by decide) rfl rfl fun _ => rfl
  | .apply q, _, h => by
      obtain ⟨hname, hq⟩ := h (q, lexical) (List.mem_singleton_self _)
      obtain ⟨hany, hend⟩ : q ≠ "any" ∧ q ≠ "end" := by simpa using hq
      refine .name hp rfl rfl rfl hname rfl ?_ fun _ => rfl
      rw [named, if_neg hany, if_neg hend, flat]
  | .terminal s, _, _ => .terminal hp s
  | .range lo hi, _, _ => .range hp lo hi
  | .alt es, hfull, h => .alt hp hfull (printedAll hp lexical es ((Bool.and_eq_true _ _).mp hfull).2 h)
  | .seq es, hfull, h => .seq hp hfull (printedAll hp lexical es ((Bool.and_eq_true _ _).mp hfull).2 h)
  | .iter op e, hfull, h => .iter hp op (printed hp lexical e hfull h)
  | .not e, hfull, h => .not hp (printed hp lexical e hfull h)
  | .look e, hfull, h => .look hp (printed hp lexical e hfull h)
  | .lex e, hfull, h => .lex hp (printed hp true e hfull h)

theorem printedAll (hp : ofGrammars.ParsedBy p) (lexical : Bool) : ∀ es : List Expr,
    fullAll es = true → (∀ a ∈ applicationsAll lexical es, Applicable a.1) → ∀ e ∈ es, Printed p e
  | [], _, _ => nofun
  | e :: es, hfull, h => by
      obtain ⟨he, hes⟩ := (Bool.and_eq_true _ _).mp hfull
      obtain ⟨hfirst, hlater⟩ := List.forall_mem_append.mp h
      exact List.forall_mem_cons.mpr ⟨printed hp lexical e he hfirst, printedAll hp lexical es hes hlater⟩

end

/-- What is printed of an expression is parsed as a body of a rule with the choices that the
expression is between, as long as it is legible. -/
theorem ruleBody_yields (hp : ofGrammars.ParsedBy p) (he : Expressible e)
    (hlegible : e.legible ds = true) (hds : Follows "RuleBody" ds) :
    p.Yields "RuleBody" (e.text.toList ++ ds) ds (IsBody e.flat.choices) := by
  have h := hp.printed true e he.full (he.applicable true)
  have hhalts : Halts ['\x7d'] ds := (follows_definition (by decide)).mp hds
  have hcourse := h.terms (Printed.choosing_body hp) ds hlegible
    (hhalts.mono fun c hc => List.mem_cons_of_mem _ hc)
  refine hp.yields_of_course hp.assembled_ruleBody ruleBody_body ?_ hcourse hds
    fun s hrule happs => ⟨hrule, happs⟩
  exact ⟨[], .inl rfl, _, Printed.row_of_terms h.isFlat.choices_ne, rfl⟩

end ParsedBy

end Grammar

end Pegboard
