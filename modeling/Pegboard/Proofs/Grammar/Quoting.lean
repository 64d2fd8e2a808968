import Pegboard.Proofs.Grammar.RangeEnds
import Pegboard.Proofs.Grammar.Recovered
import Pegboard.Proofs.Match.Height

/-!
# Quoting and unquoting

What `quote` writes is a literal, piece by piece, with one exception: a form feed is written as an
escape sequence that literals do not have. What `unquote` reads of a literal that was matched is one
character for each of its pieces, with one exception as well: the escape sequence of a surrogate
denotes nothing.

Matches of literals come to something whatever the text is, as the rules below `terminal` are few.

Main statements: `matchText_quote`, `unquote_matched`.
-/

namespace Pegboard

namespace Text

theorem isHexDigit_hexDigit {n : Nat} (h : n < 16) : isHexDigit (hexDigit n) = true := by
  rw [isHexDigit, hexValue?_hexDigit n h, Option.isSome_some]

/-- A character is quoted as it is, behind a backslash, or by its digits. -/
theorem quoteChar_cases (c : Char) :
    (c ≠ '\\' ∧ c ≠ '"' ∧ c ≠ '\n' ∧ c ≠ '\x0c' ∧ quoteChar c = [c]) ∨
      (∃ d ∈ ['\\', '"', 'b', 't', 'n', 'r', 'f'], quoteChar c = ['\\', d] ∧
        escaped d = (if c = '\x0c' then 'f' else c) ∧ (d = 'f' ↔ c = '\x0c')) ∨
      c.toNat < 0x20 ∧ c ≠ '\x0c' ∧
        quoteChar c = ['\\', 'u', '0', '0', hexDigit (c.toNat / 16), hexDigit (c.toNat % 16)] := by
  unfold quoteChar
  split
  case h_8 hquote hslash hback htab hline hfeed hreturn =>
    split
    · rename_i hlt
      exact .inr (.inr ⟨hlt, hfeed, rfl⟩)
    · exact .inl ⟨hslash, hquote, hline, hfeed, rfl⟩
  all_goals
    exact .inr (.inl ⟨_, by decide, rfl, by decide, by decide⟩)

theorem piece_quoteChar {c : Char} (hc : c ≠ '\x0c') : Piece (quoteChar c) := by
  obtain ⟨hslash, hquote, hline, -, h⟩ | ⟨d, hd, h, -, hfeed⟩ | ⟨hlt, -, h⟩ := quoteChar_cases c
  · exact h ▸ .plain hslash hquote hline
  · have hne : d ≠ 'f' := mt hfeed.mp hc
    refine h ▸ .simple ?_
    simp only [List.mem_cons, List.not_mem_nil, or_false] at hd ⊢
    tauto
  · have hzero : isHexDigit '0' = true := by decide
    exact h ▸ .unicode hzero hzero (isHexDigit_hexDigit (by omega)) (isHexDigit_hexDigit (by omega))

/-- A quoted character stands for itself, a form feed for the letter that is written for it. -/
theorem unescape_quoteChar (c : Char) (rest : List Char) :
    unescape (quoteChar c ++ rest) = (if c = '\x0c' then 'f' else c) :: unescape rest := by
  obtain ⟨hslash, -, -, hfeed, h⟩ | ⟨d, hd, h, hescaped, -⟩ | ⟨hlt, hfeed, h⟩ := quoteChar_cases c
  · rw [h, if_neg hfeed]
    simp [unescape, hslash]
  · have hdigits : d ≠ 'u' ∧ d ≠ 'x' := by
      simp only [List.mem_cons, List.not_mem_nil, or_false] at hd
      rcases hd with rfl | rfl | rfl | rfl | rfl | rfl | rfl <;> decide
    rw [h, ← hescaped]
    simp [unescape, hdigits]
  · have hvalid : c.toNat.isValidChar := c.valid
    have hnumber := hexNumber?_hexDigit (show c.toNat < 0x100 by omega)
    rw [h, if_neg hfeed]
    simp [unescape, codePoint, hnumber, scalar?, hvalid]

theorem unescape_quoteChars (cs : List Char) :
    unescape (cs.flatMap quoteChar) = cs.map fun c => if c = '\x0c' then 'f' else c := by
  induction cs with
  | nil => simp [unescape]
  | cons c cs ih => rw [List.flatMap_cons, unescape_quoteChar, ih, List.map_cons]

theorem quoteChars_eq_quoted (cs : List Char) : quoteChars cs = quoted (cs.map quoteChar) := by
  rw [quoteChars, quoted, List.flatMap_def]

end Text

open Text Reading

namespace Grammar

theorem startRule_of_hasBody {g : Grammar} {q : String} {syntactic : Bool} {e : Expr}
    (h : g.HasBody q syntactic e) : ∃ rule, g.startRule (some q) = .ok rule ∧ rule.name = q := by
  obtain ⟨-, rule, hrule, -, -⟩ := h
  refine ⟨rule, ?_, rule?_name hrule⟩
  simp only [startRule, Option.some_or, hrule]

/-- The rules for literals. -/
def literalRules : List String :=
  ["terminal", "oneCharTerminal"]

/-- A text can be matched against a literal, however long it is. -/
theorem matchText_literal {p : Parser} (hp : ofGrammars.ParsedBy p) {q : String}
    (hq : q ∈ literalRules) (text : String) :
    ofGrammars.matchText text (some q) = .ok (p.result q text) := by
  obtain ⟨rule, hstart, hname⟩ : ∃ rule, ofGrammars.startRule (some q) = .ok rule ∧
      rule.name = q := by
    rcases List.mem_pair.mp hq with rfl | rfl
    · exact startRule_of_hasBody terminal_body
    · exact startRule_of_hasBody oneCharTerminal_body
  subst hname
  have hlow : ∀ q ∈ literalRules, isSyntactic q = false ∧ ofGrammars.heightAtMost 5 q = true := by
    decide +kernel
  obtain ⟨hlexical, hheight⟩ := hlow _ hq
  obtain ⟨r, hr⟩ := matchText_of_height hstart hlexical hheight (by decide) text
  obtain ⟨rule', hstart', rfl⟩ := acyclic_ofGrammars.eq_result hp hr
  obtain rfl := Except.ok.inj (hstart.symm.trans hstart')
  exact hr

namespace ParsedBy

variable {p : Parser} {cs rest : List Char} {s : Tree.Located} (hp : ofGrammars.ParsedBy p)

include hp

/-- There is no escape sequence for a form feed. -/
theorem terminalChar_fails_feed (rest : List Char) :
    p.Fails "terminalChar" ('\\' :: 'f' :: rest) := by
  have hmiss (s : String) (d : Char) (hs : s.toList = ['\\', d]) (hne : d ≠ 'f') :
      Misses p.meaning false (.terminal s) ('\\' :: 'f' :: rest) := misses_escape hs hne rest
  have hescape : p.Fails "escapeChar" ('\\' :: 'f' :: rest) := by
    refine hp.fails escapeChar_body (.alt fun e he => ?_)
    simp only [List.mem_cons, List.not_mem_nil, or_false] at he
    rcases he with rfl | rfl | rfl | rfl | rfl | rfl | rfl | rfl | rfl
    iterate 7 exact hmiss _ _ rfl (by decide)
    · exact .head (hmiss _ _ rfl (by decide))
    · exact .head (hmiss _ _ rfl (by decide))
  refine hp.fails terminalChar_body (.alt fun e he => ?_)
  rcases List.mem_pair.mp he with rfl | rfl
  · exact hescape.misses
  · have hslash : Reads p.meaning false (.terminal "\\") ['\\'] ('f' :: rest) [] := .terminal rfl _
    exact .head (.not hslash)

/-- A text is no literal if it was quoted with a form feed in it. -/
theorem terminal_fails_quote (h : '\x0c' ∈ cs) : p.Fails "terminal" (quoteChars cs) := by
  obtain ⟨front, back, rfl, hfront⟩ := List.eq_append_cons_of_mem h
  let rest := '\\' :: 'f' :: (back.flatMap quoteChar ++ ['"'])
  have hpiece (c : Char) (hc : c ∈ front) : Piece (quoteChar c) :=
    piece_quoteChar (ne_of_mem_of_not_mem hc hfront)
  have hchars : Reads p.meaning false (Source.star (.apply "terminalChar"))
      (front.flatMap quoteChar) rest
      (front.map fun c => Tree.Spells "terminalChar" (quoteChar c)) :=
    .star_flatMap (T := fun _ => True) (fun c hc => (hpiece c hc).ne_nil)
      (fun c hc back _ => (hp.terminalChar_parses_piece (hpiece c hc) back).reads)
      (fun _ _ _ _ => trivial) trivial (hp.terminalChar_fails_feed _).misses
  -- the row of pieces ends before the form feed, where no quote stands
  have hclose : Misses p.meaning false (.terminal "\"") rest :=
    .terminal_of_head (d := '"') rfl (by simp [rest])
  have hrow : Misses p.meaning false (.seq [Source.star (.apply "terminalChar"), .terminal "\""])
      (front.flatMap quoteChar ++ rest) := hchars.tail hclose.head
  have hmiss := (reads_quote _).tail hrow
  have hquote : quoteChars (front ++ '\x0c' :: back) =
      ['"'] ++ (front.flatMap quoteChar ++ rest) := by
    simp [quoteChars, quoteChar, rest]
  exact hquote ▸ hp.fails terminal_body hmiss

/-- What a match of a literal comes to, and its pieces. -/
theorem literal_spans (htidy : p.Tidy) {q : String} (hq : q ∈ literalRules)
    (h : p.Spans q cs rest s) :
    ∃ us, (∀ u ∈ us, Piece u) ∧ cs = quoted us ++ rest ∧
      Tree.Each s.applications (us.map (Tree.Spells "terminalChar")) ∧
      (q = "oneCharTerminal" → us.length = 1) := by
  rcases List.mem_pair.mp hq with rfl | rfl
  · obtain ⟨us, hus, hcs, heach⟩ := hp.terminal_spans htidy h
    exact ⟨us, hus, hcs, heach, nofun⟩
  · obtain ⟨u, hu, hcs, heach⟩ := hp.oneCharTerminal_spans htidy h
    exact ⟨[u], List.forall_mem_singleton.mpr hu, hcs, heach, fun _ => rfl⟩

end ParsedBy

/-- The texts of trees, where each covers the characters given for it. -/
theorem texts_of_each {q : String} {us : List (List Char)} {ss : List Tree.Located}
    (h : Tree.Each ss (us.map (Tree.Spells q))) : ss.map (·.text.toList) = us := by
  induction us generalizing ss with
  | nil =>
      obtain rfl := List.forall₂_nil_right_iff.mp h
      rfl
  | cons u us ih =>
      obtain ⟨s, rest, ⟨-, htext⟩, hrest, rfl⟩ := List.forall₂_cons_right_iff.mp h
      rw [List.map_cons, ih hrest, htext, String.toList_ofList]

/-! ## Quoted texts -/

theorem unquote_quote_eq (s : String) :
    unquote (quote s) = .ofList (s.toList.map fun c => if c = '\x0c' then 'f' else c) := by
  rw [unquote, quote, String.toList_ofList, quoteChars, inside_quoted, unescape_quoteChars]

/-- Whatever is quoted is matched as a literal from its first character to its last one, and gives
back what was quoted, unless it has a form feed in it. With a form feed it is no literal, and what
is read instead of it is the letter `f`. -/
theorem matchText_quote (s : String) :
    (∃ r, ofGrammars.matchText (quote s) (some "terminal") = .ok r ∧
      r.root?.map (·.text) = if '\x0c' ∈ s.toList then none else some (quote s)) ∧
    unquote (quote s) = .ofList (s.toList.map fun c => if c = '\x0c' then 'f' else c) := by
  have hp := acyclic_ofGrammars.parsedBy
  have htidy := hp.tidy acyclic_ofGrammars
  have hlist : (quote s).toList = quoteChars s.toList := String.toList_ofList
  constructor
  · refine ⟨_, matchText_literal hp (by decide) _, ?_⟩
    split
    · rename_i hfeed
      rw [Option.map_eq_none_iff]
      refine Option.eq_none_iff_forall_not_mem.mpr fun root hroot => ?_
      obtain ⟨-, hspans⟩ := htidy.spans_root (by decide) hroot
      exact hspans.not_fails (hlist ▸ hp.terminal_fails_quote hfeed)
    · rename_i hfeed
      have hpieces : ∀ u ∈ s.toList.map quoteChar, Piece u :=
        List.forall_mem_map.mpr fun c hc => piece_quoteChar (ne_of_mem_of_not_mem hc hfeed)
      have hparses := hp.terminal_parses_pieces hpieces []
      rw [← quoteChars_eq_quoted, ← hlist] at hparses
      obtain ⟨root, hroot, -, htext⟩ := hparses.root_of_lexical (by decide)
      rw [hroot, Option.map_some, htext, String.ofList_toList]
  · exact unquote_quote_eq s

/-- A text without a form feed is quoted and unquoted without loss. -/
theorem unquote_quote {s : String} (h : '\x0c' ∉ s.toList) : unquote (quote s) = s := by
  have hsame : ∀ c ∈ s.toList, (if c = '\x0c' then 'f' else c) = c := fun c hc =>
    if_neg (ne_of_mem_of_not_mem hc h)
  rw [unquote_quote_eq, List.map_congr_left hsame, List.map_id', String.ofList_toList]

/-! ## Matched literals -/

/-- Every text can be matched as a literal, or as one of a single character. If it is one, each
piece of it gives one character when it is unquoted, the one that it denotes. The only pieces that
are lost are escape sequences of surrogates, which denote none. -/
theorem unquote_matched {q : String} (hq : q ∈ literalRules) (text : String) :
    ∃ r, ofGrammars.matchText text (some q) = .ok r ∧ ∀ root ∈ r.root?,
      let pieces := (root.named "terminalChar").map (·.text.toList)
      root.text = text ∧ (q = "oneCharTerminal" → pieces.length = 1) ∧
        (unquote text).toList = pieces.filterMap denoted? ∧
        ∀ u ∈ pieces, denoted? u = none ↔ NoScalar u := by
  have hp := acyclic_ofGrammars.parsedBy
  have htidy := hp.tidy acyclic_ofGrammars
  refine ⟨_, matchText_literal hp hq text, fun root hroot => ?_⟩
  have hlexical : ∀ q ∈ literalRules, isSyntactic q = false := by decide
  obtain ⟨-, hspans⟩ := htidy.spans_root (hlexical q hq) hroot
  obtain ⟨us, hus, htext, heach, hone⟩ := hp.literal_spans htidy hq hspans
  have hnamed : root.named "terminalChar" = root.applications :=
    List.filter_eq_self.mpr fun t ht =>
      decide_eq_true (Tree.rule?_of_each (fun u t h => h.1) heach t ht)
  have hpieces := texts_of_each heach
  have hlist : text = .ofList (quoted us) := by
    rw [← String.toList_inj, String.toList_ofList, htext, List.append_nil]
  rw [htext] at hspans
  dsimp only
  rw [hnamed, hpieces]
  refine ⟨hspans.text.trans hlist.symm, hone, ?_, fun u hu => (hus u hu).denoted?_eq_none⟩
  rw [hlist, unquote_quoted hus, String.toList_ofList]

/-- Of four pieces one is the escape sequence of a surrogate, and three characters are left. -/
theorem unquote_matched_escapes :
    "terminal" ∈ literalRules ∧
      ∃ r, ofGrammars.matchText "\"a\\xe9\\ud800\\t\"" (some "terminal") = .ok r ∧
        ∃ root ∈ r.root?,
          (root.named "terminalChar").map (·.text) = ["a", "\\xe9", "\\ud800", "\\t"] ∧
          unquote "\"a\\xe9\\ud800\\t\"" = "aé\t" := by
  obtain ⟨r, hr, hmatched⟩ := unquote_matched (q := "terminal") (by decide) "\"a\\xe9\\ud800\\t\""
  have hpieces : ((ofGrammars.matchText "\"a\\xe9\\ud800\\t\"" (some "terminal")).toOption.bind
      (·.root?)).map (fun root => (root.named "terminalChar").map (·.text)) =
        some ["a", "\\xe9", "\\ud800", "\\t"] := by
    decide +kernel
  rw [hr] at hpieces
  obtain ⟨root, hroot, hpieces⟩ := Option.map_eq_some_iff.mp hpieces
  have hroot : r.root? = some root := hroot
  obtain ⟨-, -, hunquote, -⟩ := hmatched root hroot
  refine ⟨by decide, r, hr, root, hroot, hpieces, String.toList_inj.mp (hunquote.trans ?_)⟩
  have hlists : (root.named "terminalChar").map (·.text.toList) =
      ["a", "\\xe9", "\\ud800", "\\t"].map String.toList := by
    rw [← hpieces, List.map_map]
    rfl
  rw [hlists]
  decide +kernel

end Grammar

end Pegboard
