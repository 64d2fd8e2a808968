import Pegboard.Proofs.Grammar.Declared
import Pegboard.Proofs.Grammar.Levels

/-!
# How bodies of rules are parsed

An expression is written as sequences with bars between them, and a sequence as operands with spaces
between them; each operand that is no name or literal stands in parentheses of its own. From the
inside out, every expression in parentheses is parsed as one operand, and so as the expression that
was written.

Main statement: `ParsedBy.barred`, for every expression that can be written.
-/

namespace Pegboard

/-- Groups, each behind a separator. -/
def Expr.behind (sep : String) (es : List Expr) : List Char :=
  es.flatMap fun e => sep.toList ++ Text.group e.written

theorem Expr.written_alt (e : Expr) (es : List Expr) :
    (alt (e :: es)).written = Text.group e.written ++ behind " | " es := by
  rw [written, writtenGroups_eq, List.map_cons, intercalate_cons, List.flatMap_map, behind]

theorem Expr.written_seq (e : Expr) (es : List Expr) :
    (seq (e :: es)).written = Text.group e.written ++ behind " " es := by
  rw [written, writtenGroups_eq, List.map_cons, intercalate_cons, List.flatMap_map, behind]

namespace Grammar

open Text Reading Build Pegboard.Expr

/-! ## What stands behind an expression -/

/-- What stands behind a whole expression ends a sequence, and is no bar. -/
def Closes (cs : List Char) : Prop :=
  Ends cs ∧ Next (· ≠ '|') cs

/-- Blanks are no part of a name. -/
theorem not_nameRest_append {blank rest : List Char} (hblank : Blank blank)
    (h : blank = [] → ∀ c ∈ rest.head?, isNameRest c = false) :
    ∀ c ∈ (blank ++ rest).head?, isNameRest c = false := by
  cases blank with
  | nil => exact h rfl
  | cons b blank =>
      rintro _ ⟨⟩
      refine Bool.eq_false_iff.mpr fun hb => ?_
      exact absurd (hblank b List.mem_cons_self) (Char.not_le.mpr (lt_of_isNameRest hb))

theorem ends_of_mark {blank : List Char} {c : Char} (hblank : Blank blank)
    (hc : c ∈ ['|', ')', '}']) (rest : List Char) : Ends (blank ++ c :: rest) := by
  have hstops : Stops (c :: rest) := .inl ⟨c, rest, rfl, hc⟩
  refine ⟨?_, not_nameRest_append hblank fun _ => ?_⟩
  · rwa [skip_blank hblank, skip_of_solid hstops.solid]
  · rintro _ ⟨⟩
    exact (show ∀ c ∈ ['|', ')', '}'], isNameRest c = false by simp [isNameRest]) c hc

theorem next_of_mark {blank : List Char} {c : Char} {P : Char → Prop} (hblank : Blank blank)
    (hc : ' ' < c ∧ c ≠ '/') (hP : P c) (rest : List Char) : Next P (blank ++ c :: rest) := by
  have hsolid : Solid (c :: rest) := by
    rintro _ ⟨⟩
    exact hc
  exact ⟨c, rest, by rw [skip_blank hblank, skip_of_solid hsolid], hP⟩

theorem closes_of_mark {blank : List Char} {c : Char} (hblank : Blank blank)
    (hc : c ∈ [')', '}']) (rest : List Char) : Closes (blank ++ c :: rest) := by
  obtain ⟨hlt, hslash, hbar⟩ : ' ' < c ∧ c ≠ '/' ∧ c ≠ '|' :=
    (show ∀ c ∈ [')', '}'], ' ' < c ∧ c ≠ '/' ∧ c ≠ '|' by simp) c hc
  exact ⟨ends_of_mark hblank (List.mem_cons_of_mem _ hc) rest,
    next_of_mark hblank ⟨hlt, hslash⟩ hbar rest⟩

theorem closes_of_header {blank name : List Char} (hblank : Blank blank) (hne : blank ≠ [])
    (hname : isName name = true) (rest : List Char) :
    Closes (blank ++ (name ++ ' ' :: '=' :: rest)) := by
  have hbegins : Begins [] (name ++ ' ' :: '=' :: rest) := (Begins.of_isName hname).append _
  have hheader : Header (name ++ ' ' :: '=' :: rest) := by
    have hskip : skip (' ' :: '=' :: rest) = '=' :: rest := by
      rw [skip_cons_blank (by decide), skip_of_solid (by simp [Solid])]
    exact ⟨name, _, hname, by simp; decide, headed_of_equals hskip, rfl⟩
  have hskip : skip (blank ++ (name ++ ' ' :: '=' :: rest)) = name ++ ' ' :: '=' :: rest := by
    rw [skip_blank hblank, skip_of_solid (hbegins.solid (by simp))]
  refine ⟨⟨.inr (by rwa [hskip]), not_nameRest_append hblank fun h => absurd h hne⟩, ?_⟩
  obtain ⟨c, cs, heq, hc⟩ := hbegins
  exact ⟨c, cs, by rw [hskip, heq], ne_of_first hc List.not_mem_nil (by decide)⟩

theorem Ends.next_symbol {cs : List Char} (h : Ends cs) : Next (· ∉ ['*', '+', '?']) cs :=
  h.next.mono fun c hc hsymbol => by
    have hnot : ∀ d ∈ ['*', '+', '?'], d ∉ ['|', ')', '}'] ∧ isNameFirst d = false := by
      simp [isNameFirst]
    obtain ⟨hmark, hname⟩ := hnot c hsymbol
    exact ne_of_first hc hmark hname rfl

theorem seq_body : ofGrammars.HasBody "Seq" true (Source.plus (.apply "Iter")) :=
  hasBody_ofGrammars none (by simp [Source.rules, Source.bodies]) rfl

theorem alt_body : ofGrammars.HasBody "Alt" true
    (.seq [.apply "Seq", Source.star (.seq [.terminal "|", .apply "Seq"])]) :=
  hasBody_ofGrammars none (by simp [Source.rules, Source.bodies]) rfl

theorem topLevelTerm_inline_body : ofGrammars.HasBody "TopLevelTerm_inline" true
    (.seq [.apply "Seq", .apply "caseName"]) :=
  hasBody_ofGrammars none (by simp [Source.rules, Source.bodies]) rfl

theorem topLevelTerm_body : ofGrammars.HasBody "TopLevelTerm" true
    (.alt [.apply "TopLevelTerm_inline", .apply "Seq"]) :=
  hasBody_ofGrammars none (by simp [Source.rules, Source.bodies]) rfl

theorem ruleBody_body : ofGrammars.HasBody "RuleBody" true
    (.seq [Source.opt (.terminal "|"), .apply "TopLevelTerm",
      Source.star (.seq [.terminal "|", .apply "TopLevelTerm"])]) :=
  hasBody_ofGrammars none (by simp [Source.rules, Source.bodies]) rfl

theorem ends_bars {cs : List Char} (h : Closes cs) (es : List Expr) :
    Ends (behind " | " es ++ cs) := by
  cases es with
  | nil => exact h.1
  | cons e es => exact ends_of_mark (show Blank [' '] by simp [Blank]) (by decide) _

/-- The expression in parentheses is parsed as one operand, whatever stands behind it. -/
def Grouped (p : Parser) (e : Expr) : Prop :=
  ∀ back, p.Parses "Base" (group e.written) back (Denotes "Base" e)

/-- The expression is written as a sequence and groups with bars before them, and these are parsed
as its terms. -/
structure Barred (p : Parser) (e first : Expr) (front : List Char) (rest : List Expr) : Prop where
  expr_eq : e = .choice (first :: rest)
  written_eq : e.written = front ++ behind " | " rest
  opens : Opens front
  first_parses : ∀ back, Ends back → p.Parses "Seq" front back (Denotes "Seq" first)
  grouped : ∀ e ∈ rest, Grouped p e

/-- An expression can apply the rule by its name. -/
def Applicable (q : String) : Prop :=
  isName q.toList = true ∧ q ∉ ["any", "end"]

namespace ParsedBy

variable {p : Parser} {q : String} {front back cs : List Char} {P : Tree.Property}
  {e : Expr} {es : List Expr} (hp : ofGrammars.ParsedBy p)

include hp

/-! ## Sequences -/

theorem iter_parses_base (h : p.Parses "Base" front back (Denotes "Base" e))
    (hfront : Begins ['(', '"'] front) (hback : Next (· ∉ ['*', '+', '?']) back) :
    p.Parses "Iter" front back (Denotes "Iter" e) :=
  hp.iter_parses (hp.pred_parses (hp.lex_parses h hfront) (hfront.mono (by simp)))
    (hfront.mono (by simp)) hback

theorem misses_iter (hback : Ends back) : Misses p.meaning true (.apply "Iter") back := by
  refine hp.misses_rule (hp.iter_fails ?_)
  rw [skip_skip]
  exact hback.1.foreign

/-- An operand and groups behind it are a sequence. -/
theorem seq_parses (h : p.Parses "Iter" front (behind " " es ++ back) (Denotes "Iter" e))
    (hfront : Opens front) (hes : ∀ e ∈ es, Grouped p e) (hback : Ends back) :
    p.Parses "Seq" (front ++ behind " " es) back (Denotes "Seq" (.sequence (e :: es))) := by
  have hgroup (e : Expr) (cs : List Char) : Solid (group e.written ++ cs) :=
    (opens_group _).solid
  have hrest : Reads p.meaning true (Source.star (.apply "Iter")) (behind " " es) back
      (es.map (Denotes "Iter")) := by
    refine .star_flatMap (T := Next (· ∉ ['*', '+', '?'])) (fun _ _ => List.cons_ne_nil _ _)
      (fun e he back hback => ?_) (fun e _ cs _ => ?_) hback.next_symbol (hp.misses_iter hback)
    · exact (hp.iter_parses_base (hes e he back) (begins_group _) hback).reads_spaced
        (hp.skips_blank (by simp [Blank]) (hgroup e back))
    · exact next_of_mark (c := '(') (show Blank [' '] by simp [Blank]) (by decide) (by decide) _
  obtain ⟨c, cs, rfl, -⟩ := id hfront
  exact hp.parses seq_body (.plus (List.cons_ne_nil c cs) (hp.reads_apply hfront.solid h) hrest)
    fun s hrule _ happs => .seq hrule happs

/-- A single operand is a sequence of its own. -/
theorem seq_parses_single (h : p.Parses "Iter" front back (Denotes "Iter" e))
    (hfront : Opens front) (hback : Ends back) :
    p.Parses "Seq" front back (Denotes "Seq" e) := by
  have hseq : p.Parses "Seq" (front ++ behind " " []) back (Denotes "Seq" (.sequence [e])) :=
    hp.seq_parses h hfront nofun hback
  rwa [behind, List.flatMap_nil, List.append_nil] at hseq

theorem seq_parses_group (h : Grouped p e) (hback : Ends back) :
    p.Parses "Seq" (group e.written) back (Denotes "Seq" e) :=
  hp.seq_parses_single (hp.iter_parses_base (h back) (begins_group _) hback.next_symbol)
    (opens_group _) hback

/-! ## Choices -/

/-- Terms with bars before them, where `q` parses one. -/
theorem reads_bars {F : Expr → Tree.Property}
    (hes : ∀ e ∈ es, ∀ back, Ends back → p.Parses q (group e.written) back (F e))
    (hback : Closes back) :
    Reads p.meaning true (Source.star (.seq [.terminal "|", .apply q])) (behind " | " es) back
      (es.map F) := by
  have hgroup (e : Expr) (cs : List Char) : Solid (group e.written ++ cs) :=
    (opens_group _).solid
  refine .star_flatMap (T := Ends) (fun _ _ => List.cons_ne_nil _ _) (fun e he back hback => ?_)
    (fun e _ cs _ => ?_) hback.1 (.head (hp.misses_of_next hback.2 rfl fun c hc => hc))
  · have hbar : Reads p.meaning true (.terminal "|") ([' '] ++ ['|'])
        (' ' :: group e.written ++ back) [] :=
      hp.reads_terminal (by simp [Blank]) rfl (by simp [Solid])
    have hterm : Reads p.meaning true (.apply q) ([' '] ++ group e.written) back [F e] :=
      (hes e he back hback).reads_spaced (hp.skips_blank (by simp [Blank]) (hgroup e back))
    exact hbar.cons hterm.last
  · exact ends_of_mark (show Blank [' '] by simp [Blank]) (by decide) _

theorem alt_parses {first : Expr} (h : Barred p e first front es) (hback : Closes back) :
    p.Parses "Alt" e.written back (Denotes "Alt" e) := by
  have hfirst := h.first_parses _ (ends_bars hback es)
  have hrest := hp.reads_bars (fun e he back => hp.seq_parses_group (h.grouped e he)) hback
  rw [h.written_eq, h.expr_eq]
  exact hp.parses alt_body ((hp.reads_apply h.opens.solid hfirst).cons hrest.last)
    fun s hrule _ happs => .alt hrule happs

theorem grouped_of_barred {first : Expr} (h : Barred p e first front es) : Grouped p e := by
  intro back
  have hopens : Opens e.written := h.written_eq ▸ h.opens.append _
  exact hp.base_parses_group (hp.alt_parses h (closes_of_mark blank_nil (by decide) back)) hopens

/-! ## Bodies of rules -/

/-- A sequence is a term, unless a case name stands behind it. -/
theorem term_parses (h : p.Parses "Seq" front back (Denotes "Seq" e)) (hfront : Opens front)
    (hback : Ends back) : p.Parses "TopLevelTerm" front back (IsTerm e) := by
  have hseq := hp.reads_apply hfront.solid h
  have hname : Misses p.meaning true (.apply "caseName") back := by
    obtain ⟨c, rest, hcs, hc⟩ := hback.next
    have hdash : c ≠ '-' := ne_of_first hc (by decide) (by decide)
    exact hp.misses_rule (hp.fails caseName_body (.head
      (.terminal_of_head (d := '-') rfl (by simpa [hcs] using hdash))))
  have hinline : p.Fails "TopLevelTerm_inline" (front ++ back) :=
    hp.fails topLevelTerm_inline_body (hseq.tail hname.head)
  exact hp.parses topLevelTerm_body
    (hp.reads_alt ["TopLevelTerm_inline"] "Seq" [] hfront.solid
      (List.forall_mem_singleton.mpr hinline) h)
    fun s hrule _ happs => ⟨hrule, happs⟩

theorem ruleBody_parses {first : Expr} (h : Barred p e first front es) (hback : Closes back) :
    p.Parses "RuleBody" e.written back (IsBody (first :: es)) := by
  have hnobar : Reads p.meaning true (Source.opt (.terminal "|")) []
      (front ++ behind " | " es ++ back) [] := by
    rw [List.append_assoc]
    exact .opt_none (hp.misses_terminal rfl h.opens.solid
      (h.opens.head_ne (d := '|') (by decide) rfl _))
  have hends := ends_bars hback es
  have hfirst := hp.reads_apply h.opens.solid
    (hp.term_parses (h.first_parses _ hends) h.opens hends)
  have hrest := hp.reads_bars (q := "TopLevelTerm") (fun e he back hback =>
    hp.term_parses (hp.seq_parses_group (h.grouped e he) hback) (opens_group _) hback) hback
  rw [h.written_eq]
  exact hp.parses ruleBody_body (hnobar.cons (hfirst.cons hrest.last))
    fun s hrule _ happs => ⟨hrule, happs⟩

/-! ## All expressions -/

theorem barred_of_iter (h : ∀ back, Ends back → p.Parses "Iter" e.written back (Denotes "Iter" e))
    (hopens : Opens e.written) : Barred p e e e.written [] where
  expr_eq := rfl
  written_eq := (List.append_nil _).symm
  opens := hopens
  first_parses back hback := hp.seq_parses_single (h back hback) hopens hback
  grouped := nofun

theorem barred_of_pred (h : ∀ back, p.Parses "Pred" e.written back (Denotes "Pred" e))
    (hopens : Opens e.written) : Barred p e e e.written [] :=
  hp.barred_of_iter (fun back hback => hp.iter_parses (h back) hopens hback.next_symbol) hopens

theorem barred_of_base
    (h : ∀ back, Ends back → p.Parses "Base" e.written back (Denotes "Base" e))
    (hbegins : Begins ['(', '"'] e.written) : Barred p e e e.written [] :=
  hp.barred_of_iter
    (fun back hback => hp.iter_parses_base (h back hback) hbegins hback.next_symbol)
    (hbegins.mono (by simp))

theorem barred_of_name {name : String} (hname : isName name.toList = true)
    (hwritten : e.written = name.toList) (he : named name = e) : Barred p e e e.written [] := by
  refine hp.barred_of_base (fun back hback => ?_) (hwritten ▸ .of_isName hname)
  have h := hp.base_parses_name hname hback.2 hback.not_headed
  rwa [String.ofList_toList, he, ← hwritten] at h

omit hp

mutual

/-- Every expression that can be written is parsed as the terms that it was written in. -/
theorem barred (hp : ofGrammars.ParsedBy p) (lexical : Bool) : ∀ e : Expr, e.full = true →
    (∀ a ∈ e.applications lexical, Applicable a.1) →
    ∃ first front rest, Barred p e first front rest
  | .any, _, _ => ⟨_, _, _, hp.barred_of_name (by decide) rfl rfl⟩
  | .endOfInput, _, _ => ⟨_, _, _, hp.barred_of_name (by decide) rfl rfl⟩
  | .apply q, _, h => by
      obtain ⟨hname, hq⟩ := h (q, lexical) (List.mem_singleton_self _)
      obtain ⟨hany, hend⟩ : q ≠ "any" ∧ q ≠ "end" := by simpa using hq
      exact ⟨_, _, _, hp.barred_of_name hname rfl (by rw [named, if_neg hany, if_neg hend])⟩
  | .terminal s, _, _ => by
      refine ⟨_, _, _, hp.barred_of_base (fun back hback => ?_) (begins_literal s.toList)⟩
      simpa only [Expr.written, String.ofList_toList] using hp.base_parses_literal s.toList hback
  | .range lo hi, _, _ => by
      have hwritten : (Expr.range lo hi).written = literal [lo] ++ ("..".toList ++ literal [hi]) := by
        rw [Expr.written, List.append_assoc]
      refine ⟨_, _, _, hp.barred_of_base (fun back _ => ?_) ?_⟩
      · rw [hwritten]
        exact hp.base_parses_range lo hi back
      · rw [hwritten]
        exact (begins_literal [lo]).append _
  | .alt (e :: e' :: es), hfull, h => by
      rw [full, Bool.and_eq_true] at hfull
      rw [applications] at h
      obtain ⟨he, hes⟩ := List.forall_mem_cons.mp (hp.groupedAll lexical _ hfull.2 h)
      exact ⟨e, group e.written, e' :: es, rfl, written_alt e _, opens_group _,
        fun back hback => hp.seq_parses_group he hback, hes⟩
  | .seq (e :: e' :: es), hfull, h => by
      rw [full, Bool.and_eq_true] at hfull
      rw [applications] at h
      obtain ⟨he, hes⟩ := List.forall_mem_cons.mp (hp.groupedAll lexical _ hfull.2 h)
      have hopens := opens_group e.written
      have hnext (back : List Char) :
          Next (· ∉ ['*', '+', '?']) (behind " " (e' :: es) ++ back) :=
        next_of_mark (c := '(') (show Blank [' '] by simp [Blank]) (by decide) (by decide) _
      refine ⟨.seq (e :: e' :: es), group e.written ++ behind " " (e' :: es), [], rfl, ?_,
        hopens.append _, fun back hback => ?_, nofun⟩
      · rw [written_seq, behind, behind, List.flatMap_nil, List.append_nil]
      · exact hp.seq_parses (hp.iter_parses_base (he _) (begins_group _) (hnext back)) hopens hes
          hback
  | .iter op e, hfull, h => by
      have he : Grouped p e := hp.grouped lexical e hfull h
      have hopens := opens_group e.written
      refine ⟨_, _, _, hp.barred_of_iter (fun back _ => ?_) (hopens.append _)⟩
      exact hp.iter_parses_iter op (hp.pred_parses (hp.lex_parses (he _) (begins_group _))
        ((begins_group _).mono (by simp))) hopens
  | .not e, hfull, h => by
      have he : Grouped p e := hp.grouped lexical e hfull h
      refine ⟨_, _, _, hp.barred_of_pred (fun back => ?_) ⟨'~', _, rfl, .inl (by decide)⟩⟩
      exact hp.pred_parses_not (hp.lex_parses (he back) (begins_group _)) (opens_group _)
  | .look e, hfull, h => by
      have he : Grouped p e := hp.grouped lexical e hfull h
      refine ⟨_, _, _, hp.barred_of_pred (fun back => ?_) ⟨'&', _, rfl, .inl (by decide)⟩⟩
      exact hp.pred_parses_look (hp.lex_parses (he back) (begins_group _)) (opens_group _)
  | .lex e, hfull, h => by
      have he : Grouped p e := hp.grouped true e hfull h
      refine ⟨_, _, _, hp.barred_of_pred (fun back => ?_) ⟨'#', _, rfl, .inl (by decide)⟩⟩
      exact hp.pred_parses (hp.lex_parses_lex (he back) (opens_group _))
        ⟨'#', _, rfl, .inl (by decide)⟩

theorem grouped (hp : ofGrammars.ParsedBy p) (lexical : Bool) (e : Expr) (hfull : e.full = true)
    (h : ∀ a ∈ e.applications lexical, Applicable a.1) : Grouped p e :=
  let ⟨_, _, _, hbarred⟩ := hp.barred lexical e hfull h
  hp.grouped_of_barred hbarred

theorem groupedAll (hp : ofGrammars.ParsedBy p) (lexical : Bool) : ∀ es : List Expr, fullAll es = true →
    (∀ a ∈ applicationsAll lexical es, Applicable a.1) → ∀ e ∈ es, Grouped p e
  | [], _, _ => nofun
  | e :: es, hfull, h => by
      rw [fullAll, Bool.and_eq_true] at hfull
      rw [applicationsAll, List.forall_mem_append] at h
      exact List.forall_mem_cons.mpr
        ⟨hp.grouped lexical e hfull.1 h.1, hp.groupedAll lexical es hfull.2 h.2⟩

end

end ParsedBy

end Grammar

end Pegboard
