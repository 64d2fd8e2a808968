import Pegboard.Proofs.Grammar.Denoted
import Pegboard.Proofs.Grammar.Headers

/-!
# How the levels of an expression are parsed

An expression is parsed from the choices between sequences down to names, literals and expressions
in parentheses. On the way down each level first tries its own operators. What decides is the
character that an expression begins with, and the one that stands behind it: `Opens` and `Ends` say
which these can be.
-/

namespace Pegboard.Grammar

open Text Reading

/-! ## The characters around an expression -/

/-- The text begins with one of the marks or with a name. -/
def Begins (marks cs : List Char) : Prop :=
  ∃ c rest, cs = c :: rest ∧ (c ∈ marks ∨ isNameFirst c = true)

/-- The text begins as an expression does. -/
abbrev Opens : List Char → Prop :=
  Begins ['(', '"', '~', '&', '#']

/-- The text begins with the head of a rule that is defined there. -/
def Header (cs : List Char) : Prop :=
  ∃ name rest, isName name = true ∧ (∀ c ∈ rest.head?, isNameRest c = false) ∧
    headed rest = true ∧ cs = name ++ rest

/-- The text begins with something that ends a sequence. -/
def Stops (cs : List Char) : Prop :=
  (∃ c rest, cs = c :: rest ∧ c ∈ ['|', ')', '}']) ∨ Header cs

/-- Behind spaces, of which there are some before a name, there is something that ends a
sequence. -/
def Ends (cs : List Char) : Prop :=
  Stops (skip cs) ∧ ∀ c ∈ cs.head?, isNameRest c = false

/-- Behind spaces the text goes on with such a character. -/
def Next (P : Char → Prop) (cs : List Char) : Prop :=
  ∃ c rest, skip cs = c :: rest ∧ P c

/-- The text begins with none of the marks and with no name, or with a name where a rule is
defined. -/
def Foreign (marks cs : List Char) : Prop :=
  (∀ c ∈ cs.head?, c ∉ marks ∧ isNameFirst c = false) ∨ Header cs

theorem blank_nil : Blank [] :=
  nofun

theorem lt_of_isNameRest {c : Char} (hc : isNameRest c = true) : ' ' < c := by
  rw [← Char.not_le]
  intro hle
  delta isNameRest Char.isAlphanum Char.isAlpha Char.isUpper Char.isLower Char.isDigit at hc
  simp only [Bool.or_eq_true, Bool.and_eq_true, decide_eq_true_eq, beq_iff_eq, Char.le_def,
    ge_iff_le, UInt32.le_iff_toNat_le] at hc hle
  rcases hc with rfl | ((hc | hc) | hc)
  · revert hle; decide
  all_goals
    have h0 : (' ').val.toNat = 32 := rfl
    have h1 : ('A').val.toNat = 65 := rfl
    have h2 : ('a').val.toNat = 97 := rfl
    have h3 : ('0').val.toNat = 48 := rfl
    omega

theorem isNameRest_of_first {c : Char} (hc : isNameFirst c = true) : isNameRest c = true := by
  simp only [isNameFirst, isNameRest, Char.isAlphanum, Bool.or_eq_true] at hc ⊢
  tauto

theorem isNameRest_of_mem {name : List Char} {c : Char} (hname : isName name = true)
    (hc : c ∈ name) : isNameRest c = true := by
  cases name with
  | nil => cases hc
  | cons d name =>
      obtain ⟨hd, hrest⟩ := Bool.and_eq_true_iff.mp hname
      rcases List.mem_cons.mp hc with rfl | hc
      · exact isNameRest_of_first hd
      · exact List.all_eq_true.mp hrest c hc

theorem visible_of_first {c : Char} {marks : List Char}
    (hmarks : ∀ c ∈ marks, ' ' < c ∧ c ≠ '/') (hc : c ∈ marks ∨ isNameFirst c = true) :
    ' ' < c ∧ c ≠ '/' := by
  rcases hc with hc | hc
  · exact hmarks c hc
  · refine ⟨lt_of_isNameRest (isNameRest_of_first hc), ?_⟩
    rintro rfl
    cases hc

theorem ne_of_first {c d : Char} {marks : List Char} (hc : c ∈ marks ∨ isNameFirst c = true)
    (hd : d ∉ marks) (hfirst : isNameFirst d = false) : c ≠ d := by
  rintro rfl
  rcases hc with hc | hc
  · exact hd hc
  · rw [hc] at hfirst
    cases hfirst

namespace Begins

variable {marks marks' cs : List Char}

theorem of_isName (h : isName cs = true) : Begins marks cs := by
  cases cs with
  | nil => cases h
  | cons c cs => exact ⟨c, cs, rfl, .inr (Bool.and_eq_true_iff.mp h).1⟩

theorem mono (h : Begins marks cs) (hsub : ∀ c ∈ marks, c ∈ marks') : Begins marks' cs :=
  let ⟨c, rest, hcs, hc⟩ := h
  ⟨c, rest, hcs, hc.imp_left (hsub c)⟩

theorem append (h : Begins marks cs) (back : List Char) : Begins marks (cs ++ back) := by
  obtain ⟨c, cs, rfl, hc⟩ := h
  exact ⟨c, cs ++ back, rfl, hc⟩

theorem head_ne {d : Char} (h : Begins marks cs) (hd : d ∉ marks) (hfirst : isNameFirst d = false)
    (back : List Char) : (cs ++ back).head? ≠ some d := by
  obtain ⟨c, rest, rfl, hc⟩ := h
  simpa using ne_of_first hc hd hfirst

theorem solid (h : Begins marks cs) (hmarks : ∀ c ∈ marks, ' ' < c ∧ c ≠ '/') : Solid cs := by
  obtain ⟨c, rest, rfl, hc⟩ := h
  rintro _ ⟨⟩
  exact visible_of_first hmarks hc

end Begins

theorem Opens.solid {front back : List Char} (h : Opens front) : Solid (front ++ back) :=
  Begins.solid (h.append back) (by simp)

theorem begins_literal (cs : List Char) : Begins ['(', '"'] (literal cs) :=
  ⟨'"', _, rfl, .inl (by decide)⟩

theorem begins_group (cs : List Char) : Begins ['(', '"'] (group cs) :=
  ⟨'(', _, rfl, .inl (by decide)⟩

theorem opens_literal (cs : List Char) : Opens (literal cs) :=
  (begins_literal cs).mono (by simp)

theorem opens_group (cs : List Char) : Opens (group cs) :=
  (begins_group cs).mono (by simp)

theorem Stops.begins {cs : List Char} (h : Stops cs) : Begins ['|', ')', '}'] cs := by
  obtain ⟨c, rest, rfl, hc⟩ | ⟨name, rest, hname, -, -, rfl⟩ := h
  · exact ⟨c, rest, rfl, .inl hc⟩
  · exact (Begins.of_isName hname).append _

theorem Stops.foreign {cs : List Char} (h : Stops cs) : Foreign ['(', '"', '~', '&', '#'] cs := by
  obtain ⟨c, rest, rfl, hc⟩ | h := h
  · refine .inl ?_
    rintro _ ⟨⟩
    exact (show ∀ c ∈ ['|', ')', '}'], c ∉ ['(', '"', '~', '&', '#'] ∧ isNameFirst c = false by
      simp [isNameFirst]) c hc
  · exact .inr h

theorem Foreign.mono {marks marks' cs : List Char} (h : Foreign marks cs)
    (hsub : ∀ c ∈ marks', c ∈ marks) : Foreign marks' cs :=
  h.imp_left fun h c hc => ⟨fun hmark => (h c hc).1 (hsub c hmark), (h c hc).2⟩

theorem Foreign.head_ne {marks cs : List Char} {d : Char} (h : Foreign marks cs) (hd : d ∈ marks)
    (hfirst : isNameFirst d = false) : cs.head? ≠ some d := by
  obtain h | ⟨name, rest, hname, -, -, rfl⟩ := h
  · exact fun heq => (h d heq).1 hd
  · exact (Begins.of_isName hname : Begins [] name).head_ne List.not_mem_nil hfirst rest

theorem Stops.solid {cs : List Char} (h : Stops cs) : Solid cs :=
  h.begins.solid (by simp)

theorem Stops.head_ne {cs : List Char} {d : Char} (h : Stops cs) (hd : d ∉ ['|', ')', '}'])
    (hfirst : isNameFirst d = false) : cs.head? ≠ some d := by
  simpa using h.begins.head_ne hd hfirst []

theorem Next.mono {P Q : Char → Prop} {cs : List Char} (h : Next P cs) (hPQ : ∀ c, P c → Q c) :
    Next Q cs :=
  let ⟨c, rest, hcs, hP⟩ := h
  ⟨c, rest, hcs, hPQ c hP⟩

theorem Ends.next {cs : List Char} (h : Ends cs) :
    Next (fun c => c ∈ ['|', ')', '}'] ∨ isNameFirst c = true) cs :=
  let ⟨c, rest, hcs, hc⟩ := h.1.begins
  ⟨c, rest, hcs, hc⟩

/-- What ends a sequence does not make a head of a rule of what stands before it. -/
theorem Ends.not_headed {cs : List Char} (h : Ends cs) : headed cs = false := by
  obtain ⟨c, rest, hcs, hc⟩ := h.next
  refine headed_of_head fun d hd => ?_
  obtain rfl : c = d := by simpa [hcs] using hd
  intro hmark
  simp only [List.mem_cons, List.not_mem_nil, or_false] at hmark
  rcases hmark with rfl | rfl | rfl | rfl <;> exact absurd hc (by decide)

/-! ## The rules of the levels -/

theorem iter_body : ofGrammars.HasBody "Iter" true
    (.alt [.apply "Iter_star", .apply "Iter_plus", .apply "Iter_opt", .apply "Pred"]) :=
  hasBody_ofGrammars none (by simp [Source.rules, Source.bodies]) rfl

theorem symbol_eq (op : Repeat) : ∃ d ∈ ['*', '+', '?'], op.symbol.toList = [d] := by
  cases op
  case star => exact ⟨'*', by decide, rfl⟩
  case plus => exact ⟨'+', by decide, rfl⟩
  case opt => exact ⟨'?', by decide, rfl⟩

theorem solid_symbol (op : Repeat) (back : List Char) : Solid (op.symbol.toList ++ back) := by
  obtain ⟨d, hd, hsymbol⟩ := symbol_eq op
  rw [hsymbol]
  rintro _ ⟨⟩
  exact (show ∀ d ∈ ['*', '+', '?'], ' ' < d ∧ d ≠ '/' by simp) d hd

theorem head_symbol_ne {op op' : Repeat} {d : Char} (hne : op' ≠ op)
    (hd : op'.symbol.toList = [d]) (back : List Char) :
    (op.symbol.toList ++ back).head? ≠ some d := by
  obtain ⟨c, -, hsymbol⟩ := symbol_eq op
  rw [hsymbol]
  rintro ⟨⟩
  have heq : op'.symbol = op.symbol := String.toList_inj.mp (hd.trans hsymbol.symm)
  revert hne heq
  cases op <;> cases op' <;> simp [Repeat.symbol]

theorem iterRule_body (op : Repeat) : ofGrammars.HasBody (iterRule op) true
    (.seq [.apply "Pred", .terminal op.symbol]) := by
  refine hasBody_ofGrammars none ?_ (by cases op <;> rfl)
  cases op <;> simp [Source.rules, Source.bodies, iterRule, Repeat.symbol]

theorem pred_body : ofGrammars.HasBody "Pred" true
    (.alt [.apply "Pred_not", .apply "Pred_lookahead", .apply "Lex"]) :=
  hasBody_ofGrammars none (by simp [Source.rules, Source.bodies]) rfl

theorem pred_not_body : ofGrammars.HasBody "Pred_not" true (.seq [.terminal "~", .apply "Lex"]) :=
  hasBody_ofGrammars none (by simp [Source.rules, Source.bodies]) rfl

theorem pred_lookahead_body : ofGrammars.HasBody "Pred_lookahead" true
    (.seq [.terminal "&", .apply "Lex"]) :=
  hasBody_ofGrammars none (by simp [Source.rules, Source.bodies]) rfl

theorem lex_body : ofGrammars.HasBody "Lex" true (.alt [.apply "Lex_lex", .apply "Base"]) :=
  hasBody_ofGrammars none (by simp [Source.rules, Source.bodies]) rfl

theorem lex_lex_body : ofGrammars.HasBody "Lex_lex" true (.seq [.terminal "#", .apply "Base"]) :=
  hasBody_ofGrammars none (by simp [Source.rules, Source.bodies]) rfl

theorem base_body : ofGrammars.HasBody "Base" true
    (.alt [.apply "Base_application", .apply "Base_range", .apply "Base_terminal",
      .apply "Base_paren"]) :=
  hasBody_ofGrammars none (by simp [Source.rules, Source.bodies]) rfl

theorem base_application_body : ofGrammars.HasBody "Base_application" true
    (.seq [.apply "ident", .not definition]) :=
  hasBody_ofGrammars none (by simp [Source.rules, Source.bodies, definition]) rfl

theorem base_range_body : ofGrammars.HasBody "Base_range" true
    (.seq [.apply "oneCharTerminal", .terminal "..", .apply "oneCharTerminal"]) :=
  hasBody_ofGrammars none (by simp [Source.rules, Source.bodies]) rfl

theorem base_terminal_body : ofGrammars.HasBody "Base_terminal" true (.apply "terminal") :=
  hasBody_ofGrammars none (by simp [Source.rules, Source.bodies]) rfl

theorem base_paren_body : ofGrammars.HasBody "Base_paren" true
    (.seq [.terminal "(", .apply "Alt", .terminal ")"]) :=
  hasBody_ofGrammars none (by simp [Source.rules, Source.bodies]) rfl

namespace ParsedBy

variable {p : Parser} {q : String} {blank front back cs : List Char} {P : Tree.Property}
  {e : Expr} (hp : ofGrammars.ParsedBy p)

include hp

/-! ## Steps where spaces are skipped -/

theorem reads_apply (hfront : Solid (front ++ back)) (h : p.Parses q front back P) :
    Reads p.meaning true (.apply q) front back [P] :=
  h.reads_spaced (hp.skips_blank blank_nil hfront)

theorem misses_apply (hcs : Solid cs) (h : p.Fails q cs) : Misses p.meaning true (.apply q) cs :=
  h.misses_spaced (hp.skips_blank blank_nil hcs)

theorem reads_terminal {s : String} (hblank : Blank blank) (hs : s.toList = front)
    (hfront : Solid (front ++ back)) :
    Reads p.meaning true (.terminal s) (blank ++ front) back [] :=
  .spaced rfl (by simp) (hp.skips_blank hblank hfront) (.terminal hs back)

theorem misses_terminal {s : String} {d : Char} (hs : s.toList.head? = some d) (hcs : Solid cs)
    (hd : cs.head? ≠ some d) : Misses p.meaning true (.terminal s) cs :=
  .spaced rfl (by simp) (hp.skips_blank blank_nil hcs) (.terminal_of_head hs hd)

theorem misses_of_next {C : Char → Prop} {s : String} {d : Char} (h : Next C cs)
    (hs : s.toList.head? = some d) (hd : ∀ c, C c → c ≠ d) :
    Misses p.meaning true (.terminal s) cs := by
  obtain ⟨c, rest, hcs, hc⟩ := h
  exact hp.misses_mark_of_head hs (by simpa [hcs] using hd c hc)

/-- A rule that begins with a literal fails where the text begins with another character. -/
theorem fails_of_terminal {s : String} {d : Char} {es : List Expr}
    (hbody : ofGrammars.HasBody q true (.seq (.terminal s :: es))) (hs : s.toList.head? = some d)
    (hcs : Solid cs) (h : cs.head? ≠ some d) : p.Fails q cs :=
  hp.fails hbody (.head (hp.misses_terminal hs hcs h))

/-- A rule that begins with another one fails where that fails. -/
theorem fails_of_apply {r : String} {es : List Expr}
    (hbody : ofGrammars.HasBody q true (.seq (.apply r :: es))) (hcs : Solid cs)
    (h : p.Fails r cs) : p.Fails q cs :=
  hp.fails hbody (.head (hp.misses_apply hcs h))

/-- A choice between rules fails where all of them fail. -/
theorem fails_of_alt (rs : List String) (hbody : ofGrammars.HasBody q true (.alt (rs.map .apply)))
    (hcs : Solid cs) (h : ∀ r ∈ rs, p.Fails r cs) : p.Fails q cs := by
  refine hp.fails hbody (.alt fun e he => ?_)
  obtain ⟨r, hr, rfl⟩ := List.mem_map.mp he
  exact hp.misses_apply hcs (h r hr)

/-- A choice between rules reads what one of them parses where those before it fail. -/
theorem reads_alt (before : List String) (r : String) (after : List String)
    (hfront : Solid (front ++ back))
    (hbefore : ∀ r ∈ before, p.Fails r (front ++ back)) (h : p.Parses r front back P) :
    Reads p.meaning true (.alt ((before ++ r :: after).map .apply)) front back [P] := by
  induction before with
  | nil => exact .first (hp.reads_apply hfront h)
  | cons r' before ih =>
      obtain ⟨hr', hbefore⟩ := List.forall_mem_cons.mp hbefore
      exact .later (hp.misses_apply hfront hr') (ih hbefore)

/-- A level of binding parses what a rule further down does, where its own operators fail. -/
theorem level_parses (before : List String) (r : String) (after : List String)
    (hq : q ∈ Build.levels)
    (hbody : ofGrammars.HasBody q true (.alt ((before ++ r :: after).map .apply)))
    (hfront : Opens front) (hbefore : ∀ r ∈ before, p.Fails r (front ++ back))
    (h : p.Parses r front back (Build.Denotes r e)) :
    p.Parses q front back (Build.Denotes q e) :=
  hp.parses hbody (hp.reads_alt before r after hfront.solid hbefore h)
    fun _ hrule _ happs => .only hq hrule happs

/-! ## Names, literals and parentheses -/

/-- A name is an expression of its own, if no rule is defined there. -/
theorem base_parses_name (hname : isName front = true)
    (hrest : ∀ c ∈ back.head?, isNameRest c = false) (hback : headed back = false) :
    p.Parses "Base" front back (Build.Denotes "Base" (Build.named (.ofList front))) := by
  have hopens : Opens front := .of_isName hname
  have hident : Reads p.meaning true (.apply "ident") front back [Tree.Spells "ident" front] :=
    hp.reads_apply hopens.solid (hp.ident_parses hname hrest)
  have hread := hident.cons (Reads.last (.not (hp.misses_definition hback)))
  rw [List.append_nil] at hread
  exact hp.level_parses [] "Base_application" ["Base_range", "Base_terminal", "Base_paren"]
    (by decide) base_body hopens nofun
    (hp.parses base_application_body hread fun s hrule _ happs => .application hrule happs)

theorem base_parses_literal (cs : List Char) (hback : Ends back) :
    p.Parses "Base" (literal cs) back (Build.Denotes "Base" (.terminal (.ofList cs))) := by
  have hopens := opens_literal cs
  have happlication : p.Fails "Base_application" (literal cs ++ back) :=
    hp.fails_of_apply base_application_body hopens.solid
      (hp.ident_fails (by simp [literal]; decide))
  have hrange : p.Fails "Base_range" (literal cs ++ back) := by
    by_cases hcs : ∃ c, cs = [c]
    · -- one character alone could begin a range
      obtain ⟨c, rfl⟩ := hcs
      have hdots : Misses p.meaning true (.terminal "..") back :=
        hp.misses_of_next hback.next rfl fun c hc =>
          ne_of_first (d := '.') hc (by decide) (by decide)
      exact hp.fails base_range_body
        ((hp.reads_apply hopens.solid (hp.oneCharTerminal_parses c back)).tail hdots.head)
    · exact hp.fails_of_apply base_range_body hopens.solid
        (hp.oneCharTerminal_fails_literal (fun c hc => hcs ⟨c, hc⟩) back)
  have hread := hp.reads_apply hopens.solid (hp.terminal_parses cs back)
  refine hp.level_parses ["Base_application", "Base_range"] "Base_terminal" ["Base_paren"]
    (by decide) base_body hopens ?_
    (hp.parses base_terminal_body hread fun s hrule _ happs =>
      unquote_literal cs ▸ .terminal hrule happs)
  simpa using ⟨happlication, hrange⟩

theorem base_parses_range (lo hi : Char) (back : List Char) :
    p.Parses "Base" (literal [lo] ++ ("..".toList ++ literal [hi])) back
      (Build.Denotes "Base" (.range lo hi)) := by
  have hopens : Opens (literal [lo] ++ ("..".toList ++ literal [hi])) := (opens_literal [lo]).append _
  have happlication : p.Fails "Base_application"
      (literal [lo] ++ ("..".toList ++ literal [hi]) ++ back) :=
    hp.fails_of_apply base_application_body hopens.solid
      (hp.ident_fails (by simp [literal]; decide))
  have hlo := hp.reads_apply (opens_literal [lo]).solid
    (hp.oneCharTerminal_parses lo ("..".toList ++ literal [hi] ++ back))
  have hhi := hp.reads_apply (opens_literal [hi]).solid (hp.oneCharTerminal_parses hi back)
  have hdots : Reads p.meaning true (.terminal "..") ("..".toList) (literal [hi] ++ back) [] :=
    hp.reads_terminal blank_nil rfl (by simp [Solid]; decide)
  have hread := hlo.cons (hdots.cons hhi.last)
  exact hp.level_parses ["Base_application"] "Base_range" ["Base_terminal", "Base_paren"]
    (by decide) base_body hopens
    (by simpa using happlication)
    (hp.parses base_range_body hread fun s hrule _ happs => .range hrule (by simp [unquote_literal])
      (by simp [unquote_literal]) happs)

theorem base_parses_group (h : p.Parses "Alt" front (')' :: back) (Build.Denotes "Alt" e))
    (hfront : Opens front) :
    p.Parses "Base" (group front) back (Build.Denotes "Base" e) := by
  have hopens := opens_group front
  have hbefore : ∀ r ∈ ["Base_application", "Base_range", "Base_terminal"],
      p.Fails r (group front ++ back) := by
    simp only [List.mem_cons, List.not_mem_nil, or_false]
    rintro r (rfl | rfl | rfl)
    · exact hp.fails_of_apply base_application_body hopens.solid
        (hp.ident_fails (by simp [group]; decide))
    · exact hp.fails_of_apply base_range_body hopens.solid
        (hp.oneCharTerminal_fails (by simp [group]))
    · exact hp.fails base_terminal_body
        (hp.misses_apply hopens.solid (hp.terminal_fails (by simp [group])))
  have hleft : Reads p.meaning true (.terminal "(") ['('] (front ++ [')'] ++ back) [] :=
    hp.reads_terminal blank_nil rfl (by simp [Solid])
  have hright : Reads p.meaning true (.terminal ")") [')'] back [] :=
    hp.reads_terminal blank_nil rfl (by simp [Solid])
  have hread := hleft.cons ((hp.reads_apply hfront.solid h).cons hright.last)
  exact hp.level_parses ["Base_application", "Base_range", "Base_terminal"] "Base_paren" []
    (by decide) base_body hopens
    hbefore (hp.parses base_paren_body hread fun s hrule _ happs => .paren hrule happs)

/-! ## Operators -/

/-- An operator before its operand, at a level of binding that tries the operator first. -/
theorem prefix_parses {r s : String} {d : Char} {e' : Expr}
    (hbody : ofGrammars.HasBody q true (.seq [.terminal s, .apply r])) (hs : s.toList = [d])
    (hd : ' ' < d ∧ d ≠ '/') (h : p.Parses r front back (Build.Denotes r e)) (hfront : Opens front)
    (hnode : ∀ s : Tree.Located, s.tree.rule? = some q →
      Tree.Each s.applications [Build.Denotes r e] → Build.Denotes q e' s) :
    p.Parses q (d :: front) back (Build.Denotes q e') := by
  have hsymbol : Reads p.meaning true (.terminal s) [d] (front ++ back) [] :=
    hp.reads_terminal blank_nil hs (by simpa [Solid] using hd)
  have hread := hsymbol.cons (hp.reads_apply hfront.solid h).last
  exact hp.parses hbody hread fun s hrule _ happs => hnode s hrule happs

theorem lex_parses (h : p.Parses "Base" front back (Build.Denotes "Base" e))
    (hfront : Begins ['(', '"'] front) : p.Parses "Lex" front back (Build.Denotes "Lex" e) := by
  have hopens : Opens front := hfront.mono (by simp)
  have hlex : p.Fails "Lex_lex" (front ++ back) :=
    hp.fails_of_terminal lex_lex_body rfl hopens.solid
      (hfront.head_ne (d := '#') (by decide) rfl back)
  exact hp.level_parses ["Lex_lex"] "Base" [] (by decide) lex_body hopens
    (List.forall_mem_singleton.mpr hlex) h

theorem lex_parses_lex (h : p.Parses "Base" front back (Build.Denotes "Base" e))
    (hfront : Opens front) : p.Parses "Lex" ('#' :: front) back (Build.Denotes "Lex" (.lex e)) :=
  hp.level_parses [] "Lex_lex" ["Base"] (by decide) lex_body
    ⟨'#', front, rfl, .inl (by decide)⟩ nofun
    (hp.prefix_parses lex_lex_body rfl (by decide) h hfront fun _ => .lex)

theorem pred_parses (h : p.Parses "Lex" front back (Build.Denotes "Lex" e))
    (hfront : Begins ['(', '"', '#'] front) :
    p.Parses "Pred" front back (Build.Denotes "Pred" e) := by
  have hopens : Opens front := hfront.mono (by simp)
  refine hp.level_parses ["Pred_not", "Pred_lookahead"] "Lex" [] (by decide) pred_body hopens ?_ h
  simp only [List.mem_cons, List.not_mem_nil, or_false]
  rintro r (rfl | rfl)
  · exact hp.fails_of_terminal pred_not_body rfl hopens.solid
      (hfront.head_ne (d := '~') (by decide) rfl back)
  · exact hp.fails_of_terminal pred_lookahead_body rfl hopens.solid
      (hfront.head_ne (d := '&') (by decide) rfl back)

theorem pred_parses_not (h : p.Parses "Lex" front back (Build.Denotes "Lex" e))
    (hfront : Opens front) :
    p.Parses "Pred" ('~' :: front) back (Build.Denotes "Pred" (.not e)) :=
  hp.level_parses [] "Pred_not" ["Pred_lookahead", "Lex"] (by decide) pred_body
    ⟨'~', front, rfl, .inl (by decide)⟩ nofun
    (hp.prefix_parses pred_not_body rfl (by decide) h hfront fun _ => .not)

theorem pred_parses_look (h : p.Parses "Lex" front back (Build.Denotes "Lex" e))
    (hfront : Opens front) :
    p.Parses "Pred" ('&' :: front) back (Build.Denotes "Pred" (.look e)) := by
  have hopens : Opens ('&' :: front) := ⟨'&', front, rfl, .inl (by decide)⟩
  refine hp.level_parses ["Pred_not"] "Pred_lookahead" ["Lex"] (by decide) pred_body hopens ?_
    (hp.prefix_parses pred_lookahead_body rfl (by decide) h hfront fun _ => .look)
  simpa using hp.fails_of_terminal (d := '~') pred_not_body rfl hopens.solid (by simp)

/-- An iteration fails where its symbol does not stand behind the operand. -/
theorem iterRule_fails (op : Repeat) (h : p.Parses "Pred" front back P) (hfront : Opens front)
    (hback : Misses p.meaning true (.terminal op.symbol) back) :
    p.Fails (iterRule op) (front ++ back) :=
  hp.fails (iterRule_body op) ((hp.reads_apply hfront.solid h).tail hback.head)

theorem iter_parses (h : p.Parses "Pred" front back (Build.Denotes "Pred" e)) (hfront : Opens front)
    (hback : Next (· ∉ ['*', '+', '?']) back) :
    p.Parses "Iter" front back (Build.Denotes "Iter" e) := by
  have hfails (op : Repeat) : p.Fails (iterRule op) (front ++ back) := by
    obtain ⟨d, hd, hsymbol⟩ := symbol_eq op
    refine hp.iterRule_fails op h hfront (hp.misses_of_next hback (d := d) (by simp [hsymbol]) ?_)
    rintro c hc rfl
    exact hc hd
  refine hp.level_parses ["Iter_star", "Iter_plus", "Iter_opt"] "Pred" [] (by decide) iter_body
    hfront ?_ h
  simpa using ⟨hfails .star, hfails .plus, hfails .opt⟩

theorem iterRule_parses (op : Repeat)
    (h : p.Parses "Pred" front (op.symbol.toList ++ back) (Build.Denotes "Pred" e))
    (hfront : Opens front) :
    p.Parses (iterRule op) (front ++ op.symbol.toList) back
      (Build.Denotes (iterRule op) (.iter op e)) := by
  have hsymbol : Reads p.meaning true (.terminal op.symbol) op.symbol.toList back [] :=
    hp.reads_terminal blank_nil rfl (solid_symbol op back)
  exact hp.parses (iterRule_body op) ((hp.reads_apply hfront.solid h).cons hsymbol.last)
    fun s hrule _ happs => .iteration op hrule happs

/-- An operand with the symbol of an iteration behind it. -/
theorem iter_parses_iter (op : Repeat)
    (h : p.Parses "Pred" front (op.symbol.toList ++ back) (Build.Denotes "Pred" e))
    (hfront : Opens front) :
    p.Parses "Iter" (front ++ op.symbol.toList) back (Build.Denotes "Iter" (.iter op e)) := by
  have hfails (op' : Repeat) (hne : op' ≠ op) :
      p.Fails (iterRule op') (front ++ op.symbol.toList ++ back) := by
    obtain ⟨d, hd, hsymbol⟩ := symbol_eq op'
    rw [List.append_assoc]
    exact hp.iterRule_fails op' h hfront (hp.misses_terminal (by simp [hsymbol])
      (solid_symbol op back) (head_symbol_ne hne hsymbol back))
  have hopens := hfront.append op.symbol.toList
  have hiter := hp.iterRule_parses op h hfront
  cases op
  case star =>
    exact hp.level_parses [] "Iter_star" ["Iter_plus", "Iter_opt", "Pred"] (by decide) iter_body
      hopens nofun hiter
  case plus =>
    have hstar := hfails .star (by decide)
    exact hp.level_parses ["Iter_star"] "Iter_plus" ["Iter_opt", "Pred"] (by decide) iter_body
      hopens (List.forall_mem_singleton.mpr hstar) hiter
  case opt =>
    have hstar := hfails .star (by decide)
    have hplus := hfails .plus (by decide)
    exact hp.level_parses ["Iter_star", "Iter_plus"] "Iter_opt" ["Pred"] (by decide) iter_body
      hopens (List.forall_mem_cons.mpr ⟨hstar, List.forall_mem_singleton.mpr hplus⟩) hiter

/-! ## Where no expression begins -/

/-- A choice between rules fails behind spaces where all of them fail. -/
theorem fails_of_all (rs : List String) (hbody : ofGrammars.HasBody q true (.alt (rs.map .apply)))
    (h : ∀ r ∈ rs, p.Fails r (skip cs)) : p.Fails q cs := by
  refine hp.fails hbody (.alt fun e he => ?_)
  obtain ⟨r, hr, rfl⟩ := List.mem_map.mp he
  exact hp.misses_rule (h r hr)

/-- A name is none of an expression where a rule of that name is defined. -/
theorem base_application_fails {marks : List Char} (h : Foreign marks (skip cs)) :
    p.Fails "Base_application" cs := by
  obtain h | ⟨name, rest, hname, hrest, hheaded, hcs⟩ := h
  · exact hp.fails base_application_body
      (.head (hp.misses_rule (hp.ident_fails fun c hc => (h c hc).2)))
  · have hident : p.Yields "ident" (skip cs) rest (Tree.Spells "ident" name) :=
      ⟨name, hcs, hp.ident_parses hname hrest⟩
    obtain ⟨ds, Ps, hdefined⟩ := hp.leads_definition hheaded
    exact hp.fails base_application_body
      ((hp.leads_rule hident).misses_tail (.head hdefined.misses_not))

theorem base_range_fails (h : (skip cs).head? ≠ some '"') : p.Fails "Base_range" cs :=
  hp.fails base_range_body (.head (hp.misses_rule (hp.oneCharTerminal_fails h)))

theorem base_terminal_fails (h : (skip cs).head? ≠ some '"') : p.Fails "Base_terminal" cs :=
  hp.fails base_terminal_body (hp.misses_rule (hp.terminal_fails h))

theorem base_paren_fails (h : (skip cs).head? ≠ some '(') : p.Fails "Base_paren" cs :=
  hp.fails base_paren_body (.head (hp.misses_mark_of_head rfl h))

theorem base_fails (h : Foreign ['(', '"'] (skip cs)) : p.Fails "Base" cs := by
  refine hp.fails_of_all ["Base_application", "Base_range", "Base_terminal", "Base_paren"]
    base_body ?_
  rw [← skip_skip] at h
  simp only [List.mem_cons, List.not_mem_nil, or_false]
  rintro r (rfl | rfl | rfl | rfl)
  · exact hp.base_application_fails h
  · exact hp.base_range_fails (h.head_ne (by decide) rfl)
  · exact hp.base_terminal_fails (h.head_ne (by decide) rfl)
  · exact hp.base_paren_fails (h.head_ne (by decide) rfl)

theorem lex_lex_fails (h : (skip cs).head? ≠ some '#') : p.Fails "Lex_lex" cs :=
  hp.fails lex_lex_body (.head (hp.misses_mark_of_head rfl h))

theorem lex_fails (h : Foreign ['(', '"', '#'] (skip cs)) : p.Fails "Lex" cs := by
  refine hp.fails_of_all ["Lex_lex", "Base"] lex_body ?_
  rw [← skip_skip] at h
  simp only [List.mem_cons, List.not_mem_nil, or_false]
  rintro r (rfl | rfl)
  · exact hp.lex_lex_fails (h.head_ne (by decide) rfl)
  · exact hp.base_fails (h.mono (by simp))

theorem pred_not_fails (h : (skip cs).head? ≠ some '~') : p.Fails "Pred_not" cs :=
  hp.fails pred_not_body (.head (hp.misses_mark_of_head rfl h))

theorem pred_lookahead_fails (h : (skip cs).head? ≠ some '&') : p.Fails "Pred_lookahead" cs :=
  hp.fails pred_lookahead_body (.head (hp.misses_mark_of_head rfl h))

theorem pred_fails (h : Foreign ['(', '"', '~', '&', '#'] (skip cs)) : p.Fails "Pred" cs := by
  refine hp.fails_of_all ["Pred_not", "Pred_lookahead", "Lex"] pred_body ?_
  rw [← skip_skip] at h
  simp only [List.mem_cons, List.not_mem_nil, or_false]
  rintro r (rfl | rfl | rfl)
  · exact hp.pred_not_fails (h.head_ne (by decide) rfl)
  · exact hp.pred_lookahead_fails (h.head_ne (by decide) rfl)
  · exact hp.lex_fails (h.mono (by simp))

theorem iter_fails (h : Foreign ['(', '"', '~', '&', '#'] (skip cs)) : p.Fails "Iter" cs := by
  rw [← skip_skip] at h
  have hop (op : Repeat) : p.Fails (iterRule op) (skip cs) :=
    hp.fails (iterRule_body op) (.head (hp.misses_rule (hp.pred_fails (by rwa [← skip_skip] at h))))
  refine hp.fails_of_all ["Iter_star", "Iter_plus", "Iter_opt", "Pred"] iter_body ?_
  simp only [List.mem_cons, List.not_mem_nil, or_false]
  rintro r (rfl | rfl | rfl | rfl)
  · simpa only [iterRule] using hop .star
  · simpa only [iterRule] using hop .plus
  · simpa only [iterRule] using hop .opt
  · exact hp.pred_fails h

end ParsedBy

end Pegboard.Grammar
