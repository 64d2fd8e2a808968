import Pegboard.Proofs.Grammar.Written
import Pegboard.Proofs.Parsing

/-!
# The tokens of grammar sources

What a parser that obeys the grammar of grammar sources takes for a name, for a literal, and for the
space between them. A name is as long as it can be; a literal ends at the first quote that is not
escaped.
-/

namespace Pegboard

open Text Reading

/-- The tree of a rule that covers the characters. -/
def Tree.Spells (q : String) (cs : List Char) : Tree.Property :=
  fun s => s.tree.rule? = some q ∧ s.text = .ofList cs

/-- Characters that are skipped as spaces. -/
def Blank (cs : List Char) : Prop :=
  ∀ c ∈ cs, c ≤ ' '

/-- The text does not begin with anything that could be skipped, a comment included. -/
def Solid (cs : List Char) : Prop :=
  ∀ c ∈ cs.head?, ' ' < c ∧ c ≠ '/'

theorem solid_nil : Solid [] := by
  rintro _ ⟨⟩

/-! ## Classes of characters -/

/-- The expression matches the characters of a class, one at a time. -/
structure CharClass (m : Meaning) (e : Expr) (f : Char → Bool) : Prop where
  reads : ∀ c back, f c = true → ∃ Ps, Reads m false e [c] back Ps
  misses : ∀ cs, (∀ c ∈ cs.head?, f c = false) → Misses m false e cs

namespace CharClass

variable {m : Meaning} {e e' : Expr} {f f' : Char → Bool}

theorem range (m : Meaning) (lo hi : Char) :
    CharClass m (.range lo hi) fun c => decide (lo ≤ c ∧ c ≤ hi) where
  reads _ back hc := ⟨[], .range (of_decide_eq_true hc) back⟩
  misses _ hcs := .range fun c hc => of_decide_eq_false (hcs c hc)

theorem underscore (m : Meaning) : CharClass m (.terminal "_") (· == '_') where
  reads c back hc := by
    obtain rfl := beq_iff_eq.mp hc
    exact ⟨[], .terminal rfl back⟩
  misses cs hcs := by
    refine .terminal_of_head rfl fun h => ?_
    exact absurd (hcs '_' h) (by decide)

/-- One class or another. -/
theorem cons {es : List Expr} (h : CharClass m e f) (h' : CharClass m (.alt es) f') :
    CharClass m (.alt (e :: es)) fun c => f c || f' c where
  reads c back hc := by
    cases hf : f c with
    | true =>
        obtain ⟨Ps, hread⟩ := h.reads c back hf
        exact ⟨Ps, .first hread⟩
    | false =>
        obtain ⟨Ps, hread⟩ := h'.reads c back (by simpa [hf] using hc)
        refine ⟨Ps, .later (h.misses _ ?_) hread⟩
        simpa using hf
  misses cs hcs := by
    simp only [Bool.or_eq_false_iff] at hcs
    exact .later (h.misses cs fun c hc => (hcs c hc).1) (h'.misses cs fun c hc => (hcs c hc).2)

theorem only (h : CharClass m e f) : CharClass m (.alt [e]) f where
  reads c back hc :=
    let ⟨Ps, hread⟩ := h.reads c back hc
    ⟨Ps, .first hread⟩
  misses cs hcs := .alt (List.forall_mem_singleton.mpr (h.misses cs hcs))

theorem alt (h : CharClass m e f) (h' : CharClass m e' f') :
    CharClass m (.alt [e, e']) fun c => f c || f' c :=
  h.cons h'.only

theorem apply {g : Grammar} {p : Parser} {q : String} (hp : g.ParsedBy p)
    (hbody : g.HasBody q false e) (h : CharClass p.meaning e f) :
    CharClass p.meaning (.apply q) f where
  reads c back hc := by
    obtain ⟨Ps, hread⟩ := h.reads c back hc
    have hparses : p.Parses q [c] back fun _ => True :=
      hp.parses hbody hread fun _ _ _ _ => trivial
    exact ⟨_, hparses.reads⟩
  misses cs hcs := (hp.fails hbody (h.misses cs hcs)).misses

theorem congr (h : CharClass m e f) (hf : ∀ c, f c = f' c) : CharClass m e f' :=
  funext hf ▸ h

/-- An iteration reads characters of the class up to the first other one. -/
theorem star (h : CharClass m e f) {cs back : List Char} (hcs : ∀ c ∈ cs, f c = true)
    (hback : ∀ c ∈ back.head?, f c = false) : ∃ Ps, Reads m false (.iter .star e) cs back Ps := by
  induction cs with
  | nil => exact ⟨[], .star_end (h.misses back hback)⟩
  | cons c cs ih =>
      obtain ⟨hc, hcs⟩ := List.forall_mem_cons.mp hcs
      obtain ⟨Ps, hread⟩ := h.reads c (cs ++ back) hc
      obtain ⟨Qs, hmore⟩ := ih hcs
      exact ⟨Ps ++ Qs, .star_more (List.cons_ne_nil c []) hread hmore⟩

end CharClass

namespace Grammar

/-- A text begins with a name, or with no character of one. -/
theorem name_cases (cs : List Char) : (∀ c ∈ cs.head?, isNameFirst c = false) ∨
    ∃ name rest, isName name = true ∧ (∀ c ∈ rest.head?, isNameRest c = false) ∧
      cs = name ++ rest := by
  cases cs with
  | nil => exact .inl nofun
  | cons c cs =>
      cases hc : isNameFirst c with
      | false => exact .inl (by simpa using hc)
      | true =>
          refine .inr ⟨c :: cs.takeWhile isNameRest, cs.dropWhile isNameRest, ?_, fun d hd => ?_, ?_⟩
          · rw [isName, hc, Bool.true_and]
            exact List.all_takeWhile
          · have hnot := List.head?_dropWhile_not isNameRest cs
            rwa [Option.mem_def.mp hd] at hnot
          · rw [List.cons_append, List.takeWhile_append_dropWhile]

theorem name_body : ofGrammars.HasBody "name" false
    (.seq [.apply "nameFirst", Source.star (.apply "nameRest")]) :=
  hasBody_ofGrammars (some "a name") (by simp [Source.rules, Source.tokens]) rfl

theorem ident_body : ofGrammars.HasBody "ident" false (.apply "name") :=
  hasBody_ofGrammars (some "an identifier") (by simp [Source.rules, Source.tokens]) rfl

theorem caseName_body : ofGrammars.HasBody "caseName" false
    (.seq [.terminal "--", Source.lineSpaces, .apply "name", Source.lineSpaces,
      .alt [.terminal "\n", .look (.terminal "\x7d")]]) :=
  hasBody_ofGrammars none (by simp [Source.rules, Source.tokens]) rfl

theorem terminal_body : ofGrammars.HasBody "terminal" false
    (.seq [.terminal "\"", Source.star (.apply "terminalChar"), .terminal "\""]) :=
  hasBody_ofGrammars none (by simp [Source.rules, Source.tokens]) rfl

theorem oneCharTerminal_body : ofGrammars.HasBody "oneCharTerminal" false
    (.seq [.terminal "\"", .apply "terminalChar", .terminal "\""]) :=
  hasBody_ofGrammars none (by simp [Source.rules, Source.tokens]) rfl

theorem terminalChar_body : ofGrammars.HasBody "terminalChar" false
    (.alt [.apply "escapeChar",
      .seq [.not (.terminal "\\"), .not (.terminal "\""), .not (.terminal "\n"), .any]]) :=
  hasBody_ofGrammars none (by simp [Source.rules, Source.tokens]) rfl

/-- How the escape sequences are written. -/
def escapes : Expr :=
  .alt [.terminal "\\\\", .terminal "\\\"", .terminal "\\'", .terminal "\\b", .terminal "\\n",
    .terminal "\\r", .terminal "\\t",
    .seq [.terminal "\\u", .apply "hexDigit", .apply "hexDigit", .apply "hexDigit",
      .apply "hexDigit"],
    .seq [.terminal "\\x", .apply "hexDigit", .apply "hexDigit"]]

theorem escapeChar_body : ofGrammars.HasBody "escapeChar" false escapes :=
  hasBody_ofGrammars (some "an escape sequence")
    (by simp [Source.rules, Source.tokens, escapes]) rfl

theorem comment_body : ofGrammars.HasBody "comment" false
    (.alt [.apply "comment_singleLine", .apply "comment_multiLine"]) :=
  hasBody_ofGrammars none (by simp [Source.rules, Source.spacing]) rfl

theorem comment_singleLine_body : ofGrammars.HasBody "comment_singleLine" false
    (.seq [.terminal "//", Source.upTo "\n", .look (.alt [.terminal "\n", .endOfInput])]) :=
  hasBody_ofGrammars none (by simp [Source.rules, Source.spacing]) rfl

theorem comment_multiLine_body : ofGrammars.HasBody "comment_multiLine" false
    (.seq [.terminal "/*", Source.upTo "*/", .terminal "*/"]) :=
  hasBody_ofGrammars none (by simp [Source.rules, Source.spacing]) rfl

theorem space_body : ofGrammars.HasBody "space" false
    (.alt [.apply "comment", .range '\x00' ' ']) :=
  hasBody_ofGrammars none (by simp [Source.rules, Source.spacing]) rfl

end Grammar

namespace Grammar.ParsedBy

variable {p : Parser} {back cs : List Char} (hp : ofGrammars.ParsedBy p)

include hp

/-! ## Names -/

theorem letter_class : CharClass p.meaning (.apply "letter") Char.isAlpha := by
  have hlower : CharClass p.meaning (.apply "lower") fun c => decide ('a' ≤ c ∧ c ≤ 'z') :=
    .apply hp (hasBody_builtIn (some "a lowercase letter") (by simp [builtInRules]) (by decide) rfl)
      (.range _ 'a' 'z')
  have hupper : CharClass p.meaning (.apply "upper") fun c => decide ('A' ≤ c ∧ c ≤ 'Z') :=
    .apply hp
      (hasBody_builtIn (some "an uppercase letter") (by simp [builtInRules]) (by decide) rfl)
      (.range _ 'A' 'Z')
  refine .congr (.apply hp (hasBody_builtIn (some "a letter") (by simp [builtInRules])
    (by decide) rfl) (hlower.alt hupper)) fun c => ?_
  delta Char.isAlpha Char.isLower Char.isUpper
  simp [Char.le_def, Bool.or_comm]

theorem alnum_class : CharClass p.meaning (.apply "alnum") Char.isAlphanum := by
  have hdigit : CharClass p.meaning (.apply "digit") fun c => decide ('0' ≤ c ∧ c ≤ '9') :=
    .apply hp (hasBody_builtIn (some "a digit") (by simp [builtInRules]) (by decide) rfl)
      (.range _ '0' '9')
  refine .congr (.apply hp (hasBody_builtIn (some "an alpha-numeric character")
    (by simp [builtInRules]) (by decide) rfl) (hp.letter_class.alt hdigit)) fun c => ?_
  simp [Char.isAlphanum, Char.isDigit, Char.le_def]

theorem nameFirst_class : CharClass p.meaning (.apply "nameFirst") isNameFirst :=
  .apply hp (hasBody_ofGrammars none (by simp [Source.rules, Source.tokens]) rfl)
    ((CharClass.underscore _).alt hp.letter_class)

theorem nameRest_class : CharClass p.meaning (.apply "nameRest") isNameRest :=
  .apply hp (hasBody_ofGrammars none (by simp [Source.rules, Source.tokens]) rfl)
    ((CharClass.underscore _).alt hp.alnum_class)

/-- A name is read up to the first character that cannot belong to it. -/
theorem name_parses (hcs : isName cs = true) (hback : ∀ c ∈ back.head?, isNameRest c = false) :
    p.Parses "name" cs back (Tree.Spells "name" cs) := by
  cases cs with
  | nil => cases hcs
  | cons c cs =>
      obtain ⟨hc, hcs⟩ := Bool.and_eq_true_iff.mp hcs
      obtain ⟨Ps, hfirst⟩ := hp.nameFirst_class.reads c (cs ++ back) hc
      obtain ⟨Qs, hrest⟩ := hp.nameRest_class.star (List.all_eq_true.mp hcs) hback
      exact hp.parses name_body (hfirst.cons hrest.last) fun s hrule htext _ => ⟨hrule, htext⟩

theorem ident_parses (hcs : isName cs = true) (hback : ∀ c ∈ back.head?, isNameRest c = false) :
    p.Parses "ident" cs back (Tree.Spells "ident" cs) :=
  hp.parses ident_body (hp.name_parses hcs hback).reads fun _ hrule htext _ => ⟨hrule, htext⟩

theorem name_fails (h : ∀ c ∈ cs.head?, isNameFirst c = false) : p.Fails "name" cs :=
  hp.fails name_body (.head (hp.nameFirst_class.misses cs h))

theorem ident_fails (h : ∀ c ∈ cs.head?, isNameFirst c = false) : p.Fails "ident" cs :=
  hp.fails ident_body (hp.name_fails h).misses

/-! ## Literals -/

theorem escapeChar_fails (h : cs.head? ≠ some '\\') : p.Fails "escapeChar" cs := by
  refine hp.fails escapeChar_body (.alt fun e he => ?_)
  simp only [List.mem_cons, List.not_mem_nil, or_false] at he
  rcases he with rfl | rfl | rfl | rfl | rfl | rfl | rfl | rfl | rfl
  case inr.inr.inr.inr.inr.inr.inr.inl => exact .head (.terminal_of_head rfl h)
  case inr.inr.inr.inr.inr.inr.inr.inr => exact .head (.terminal_of_head rfl h)
  all_goals exact .terminal_of_head rfl h

theorem terminalChar_parses (c : Char) (back : List Char) :
    p.Parses "terminalChar" (literalChar c) back fun _ => True := by
  have hescaped (cs : List Char) (h : Reads p.meaning false escapes cs back []) :
      p.Parses "terminalChar" cs back fun _ => True := by
    have hescape : p.Parses "escapeChar" cs back fun _ => True :=
      hp.parses escapeChar_body h fun _ _ _ _ => trivial
    exact hp.parses terminalChar_body (.first hescape.reads) fun _ _ _ _ => trivial
  obtain ⟨-, hc⟩ | ⟨-, hc⟩ | ⟨-, hc⟩ | ⟨hquote, hslash, hline, hc⟩ := literalChar_cases c
  all_goals rw [hc]
  · exact hescaped _ (.later (.terminal rfl) (.first (.terminal rfl back)))
  · exact hescaped _ (.first (.terminal rfl back))
  · exact hescaped _ (.later (.terminal rfl) (.later (.terminal rfl) (.later (.terminal rfl)
      (.later (.terminal rfl) (.first (.terminal rfl back))))))
  · have hnot (s : String) (d : Char) (hs : s.toList.head? = some d) (hd : c ≠ d) :
        Reads p.meaning false (.not (.terminal s)) [] (c :: back) [] :=
      .not (.terminal_of_head hs (by simpa using hd))
    have hplain : Reads p.meaning false (.seq [.not (.terminal "\\"), .not (.terminal "\""),
        .not (.terminal "\n"), .any]) [c] back [] :=
      .cons (hnot "\\" '\\' rfl hslash) (.cons (hnot "\"" '"' rfl hquote)
        (.cons (hnot "\n" '\n' rfl hline) (.cons (.any c back) (.nil back))))
    refine hp.parses terminalChar_body (.later (hp.escapeChar_fails ?_).misses (.first hplain))
      fun _ _ _ _ => trivial
    simpa using hslash

theorem terminalChar_fails (back : List Char) : p.Fails "terminalChar" ('"' :: back) := by
  refine hp.fails terminalChar_body (.alt fun e he => ?_)
  rcases List.mem_pair.mp he with rfl | rfl
  · exact (hp.escapeChar_fails (by simp)).misses
  · have hslash : Reads p.meaning false (.not (.terminal "\\")) [] ('"' :: back) [] :=
      .not (.terminal_of_head (d := '\\') rfl (by simp))
    have hquote : Reads p.meaning false (.terminal "\"") ['"'] back [] := .terminal rfl back
    exact hslash.tail (.head (.not hquote))

theorem terminal_parses (cs back : List Char) :
    p.Parses "terminal" (literal cs) back (Tree.Spells "terminal" (literal cs)) := by
  have hquote (back : List Char) : Reads p.meaning false (.terminal "\"") ['"'] back [] :=
    .terminal rfl back
  have hchars : Reads p.meaning false (Source.star (.apply "terminalChar"))
      (cs.flatMap literalChar) ('"' :: back) (cs.map fun _ _ => True) :=
    .star_flatMap (T := fun _ => True) (fun c _ => literalChar_ne_nil c)
      (fun c _ back _ => (hp.terminalChar_parses c back).reads) (fun _ _ _ _ => trivial) trivial
      (hp.terminalChar_fails back).misses
  exact hp.parses terminal_body ((hquote _).cons (hchars.cons (hquote back).last))
    fun s hrule htext _ => ⟨hrule, htext⟩

theorem terminal_fails (h : cs.head? ≠ some '"') : p.Fails "terminal" cs :=
  hp.fails terminal_body (.head (.terminal_of_head rfl h))

theorem oneCharTerminal_parses (c : Char) (back : List Char) :
    p.Parses "oneCharTerminal" (literal [c]) back
      (Tree.Spells "oneCharTerminal" (literal [c])) := by
  have hquote (back : List Char) : Reads p.meaning false (.terminal "\"") ['"'] back [] :=
    .terminal rfl back
  have hread : Reads p.meaning false (.seq [.terminal "\"", .apply "terminalChar", .terminal "\""])
      (literal [c]) back ([] ++ ([fun _ => True] ++ [])) := by
    have hchar := (hp.terminalChar_parses c ('"' :: back)).reads
    simpa [literal] using (hquote _).cons (hchar.cons (hquote back).last)
  exact hp.parses oneCharTerminal_body hread fun s hrule htext _ => ⟨hrule, htext⟩

theorem oneCharTerminal_fails (h : cs.head? ≠ some '"') : p.Fails "oneCharTerminal" cs :=
  hp.fails oneCharTerminal_body (.head (.terminal_of_head rfl h))

theorem oneCharTerminal_fails_literal (h : ∀ c, cs ≠ [c]) (back : List Char) :
    p.Fails "oneCharTerminal" (literal cs ++ back) := by
  have hquote (rest : List Char) : Reads p.meaning false (.terminal "\"") ['"'] rest [] :=
    .terminal rfl rest
  refine hp.fails oneCharTerminal_body ?_
  match cs with
  | [] =>
      have hchar : Misses p.meaning false (.apply "terminalChar") ('"' :: back) :=
        (hp.terminalChar_fails back).misses
      exact (hquote _).tail hchar.head
  | [c] => exact absurd rfl (h c)
  | c :: d :: cs =>
      -- the first character is read, but no quote follows it
      let rest := literalChar d ++ (cs.flatMap literalChar ++ '"' :: back)
      have hchar := (hp.terminalChar_parses c rest).reads
      have hnext : Misses p.meaning false (.terminal "\"") rest :=
        .terminal_of_head rfl (literalChar_head d _)
      simpa [literal, rest] using (hquote _).tail (hchar.tail hnext.head)

/-! ## Space between tokens -/

theorem comment_fails (h : cs.head? ≠ some '/') : p.Fails "comment" cs := by
  have hsingle : p.Fails "comment_singleLine" cs :=
    hp.fails comment_singleLine_body (.head (.terminal_of_head rfl h))
  have hmulti : p.Fails "comment_multiLine" cs :=
    hp.fails comment_multiLine_body (.head (.terminal_of_head rfl h))
  refine hp.fails comment_body (.alt fun e he => ?_)
  rcases List.mem_pair.mp he with rfl | rfl
  · exact hsingle.misses
  · exact hmulti.misses

theorem space_parses {c : Char} (hc : c ≤ ' ') (back : List Char) :
    p.Parses "space" [c] back fun _ => True := by
  have hslash : ([c] ++ back).head? ≠ some '/' := by
    rintro ⟨⟩
    exact absurd hc (by decide)
  refine hp.parses space_body (.later (hp.comment_fails hslash).misses (.first (.range ?_ back)))
    fun _ _ _ _ => trivial
  exact ⟨Nat.zero_le _, hc⟩

theorem space_fails (h : Solid cs) : p.Fails "space" cs := by
  refine hp.fails space_body (.alt fun e he => ?_)
  rcases List.mem_pair.mp he with rfl | rfl
  · exact (hp.comment_fails fun hc => (h '/' hc).2 rfl).misses
  · exact .range fun c hc hle => absurd hle.2 (Char.not_le.mpr (h c hc).1)

/-- All that is blank is skipped, and nothing else. -/
theorem skips_blank {blank rest : List Char} (hblank : Blank blank) (hrest : Solid rest) :
    Skips p.meaning blank rest := by
  have hread : Reads p.meaning false (.iter .star (.apply "space")) (blank.flatMap ([·])) rest
      (blank.map fun _ _ => True) :=
    .star_flatMap (T := fun _ => True) (fun c _ => List.cons_ne_nil c [])
      (fun c hc back _ => (hp.space_parses (hblank c hc) back).reads) (fun _ _ _ _ => trivial)
      trivial (hp.space_fails hrest).misses
  rw [List.flatMap_singleton'] at hread
  let rule := builtInRules.rule "spaces" none (.iter .star (.apply "space"))
  exact hp.skips (rule?_builtIn (r := rule) (by simp [builtInRules, rule]) (by decide)) hread

end Grammar.ParsedBy

end Pegboard
