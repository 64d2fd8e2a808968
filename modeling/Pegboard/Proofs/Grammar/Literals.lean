import Pegboard.Proofs.Grammar.Tokens
import Pegboard.Proofs.Taken

/-!
# Literals in grammar sources

Between its quotes a literal is a row of pieces, each of which writes one character: the character
itself, or an escape sequence. The grammar of grammar sources takes a literal apart into exactly
these pieces, and to unquote it is to read them one after the other.

Main statements: `ParsedBy.terminal_parses_pieces`, `ParsedBy.terminal_spans`,
`unescape_flatten`.
-/

namespace Pegboard

namespace Text

def isHexDigit (c : Char) : Bool :=
  (hexValue? c).isSome

/-- What writes one character in a literal. -/
inductive Piece : List Char → Prop
  | plain {c : Char} (hslash : c ≠ '\\') (hquote : c ≠ '"') (hline : c ≠ '\n') : Piece [c]
  | simple {c : Char} (hc : c ∈ ['\\', '"', '\'', 'b', 'n', 'r', 't']) : Piece ['\\', c]
  | unicode {a b c d : Char} (ha : isHexDigit a = true) (hb : isHexDigit b = true)
      (hc : isHexDigit c = true) (hd : isHexDigit d = true) : Piece ['\\', 'u', a, b, c, d]
  | hex {a b : Char} (ha : isHexDigit a = true) (hb : isHexDigit b = true) :
      Piece ['\\', 'x', a, b]

/-- The character that a piece of a literal denotes. There is none if its digits give the number of
no character. -/
def denoted? : List Char → Option Char
  | [c] => some c
  | ['\\', c] => some (escaped c)
  | ['\\', 'x', a, b] => (hexNumber? [a, b]).bind scalar?
  | ['\\', 'u', a, b, c, d] => (hexNumber? [a, b, c, d]).bind scalar?
  | _ => none

/-- The pieces between quotes. -/
def quoted (pieces : List (List Char)) : List Char :=
  '"' :: (pieces.flatten ++ ['"'])

namespace Piece

variable {u : List Char}

theorem ne_nil (h : Piece u) : u ≠ [] := by
  cases h <;> exact List.cons_ne_nil _ _

theorem head_ne (h : Piece u) (rest : List Char) : (u ++ rest).head? ≠ some '"' := by
  cases h with
  | plain _ hquote _ => simpa using hquote
  | simple | unicode | hex => simp

theorem unescape_append (h : Piece u) (rest : List Char) :
    unescape (u ++ rest) = (denoted? u).toList ++ unescape rest := by
  cases h with
  | plain hslash hquote hline => simp [unescape, denoted?, hslash]
  | @simple c hc =>
      simp only [List.mem_cons, List.not_mem_nil, or_false] at hc
      rcases hc with rfl | rfl | rfl | rfl | rfl | rfl | rfl <;> simp [unescape, denoted?]
  | unicode => simp [unescape, denoted?, codePoint]
  | hex => simp [unescape, denoted?, codePoint]

end Piece

/-- To unescape a row of pieces is to read each of them. -/
theorem unescape_flatten {us : List (List Char)} (h : ∀ u ∈ us, Piece u) :
    unescape us.flatten = us.filterMap denoted? := by
  induction us with
  | nil => simp [unescape]
  | cons u us ih =>
      obtain ⟨hu, hus⟩ := List.forall_mem_cons.mp h
      rw [List.flatten_cons, hu.unescape_append, ih hus, List.filterMap_cons]
      cases denoted? u <;> rfl

theorem inside_quoted (cs : List Char) : inside ('"' :: (cs ++ ['"'])) = cs := by
  simp [inside]

theorem unquote_quoted {us : List (List Char)} (h : ∀ u ∈ us, Piece u) :
    unquote (.ofList (quoted us)) = .ofList (us.filterMap denoted?) := by
  rw [unquote, String.toList_ofList, quoted, inside_quoted, unescape_flatten h]

/-! ## Hexadecimal digits -/

theorem isHexDigit_eq (c : Char) : isHexDigit c =
    (decide ('0' ≤ c ∧ c ≤ '9') || (decide ('a' ≤ c ∧ c ≤ 'f') ||
      decide ('A' ≤ c ∧ c ≤ 'F'))) := by
  rw [isHexDigit, hexValue?]
  split
  · simp_all
  · split
    · simp_all
    · split <;> simp_all

theorem hexValue_lt {c : Char} {n : Nat} (h : hexValue? c = some n) : n < 16 := by
  have hbounds : '0'.toNat = 48 ∧ '9'.toNat = 57 ∧ 'a'.toNat = 97 ∧ 'f'.toNat = 102 ∧
      'A'.toNat = 65 ∧ 'F'.toNat = 70 := by decide
  have hle : ∀ {a b : Char}, a ≤ b → a.toNat ≤ b.toNat := fun h => h
  rw [hexValue?] at h
  split at h
  · rename_i hc
    have := hle hc.2
    cases h
    omega
  · split at h
    · rename_i hc
      have := hle hc.2
      cases h
      omega
    · split at h
      · rename_i hc
        have := hle hc.2
        cases h
        omega
      · cases h

end Text

open Text Reading

namespace Grammar

theorem digit_body : ofGrammars.HasBody "digit" false (.range '0' '9') :=
  hasBody_builtIn (some "a digit") (by simp [builtInRules]) (by decide) rfl

theorem hexDigit_body : ofGrammars.HasBody "hexDigit" false
    (.alt [.apply "digit", .range 'a' 'f', .range 'A' 'F']) :=
  hasBody_builtIn (some "a hexadecimal digit") (by simp [builtInRules]) (by decide) rfl

end Grammar

namespace Grammar.ParsedBy

variable {p : Parser} {i : Input} {s : Tree.Located} {u cs ds back : List Char}
  {us : List (List Char)} (hp : ofGrammars.ParsedBy p)

include hp

/-! ## Pieces -/

theorem hexDigit_class : CharClass p.meaning (.apply "hexDigit") isHexDigit := by
  have hdigit : CharClass p.meaning (.apply "digit") fun c => decide ('0' ≤ c ∧ c ≤ '9') :=
    .apply hp digit_body (.range _ '0' '9')
  have hletters := (CharClass.range p.meaning 'a' 'f').cons (CharClass.range _ 'A' 'F').only
  exact .congr (.apply hp hexDigit_body (hdigit.cons hletters)) fun c => (isHexDigit_eq c).symm

theorem reads_digits {ds : List Char} (hds : ∀ d ∈ ds, isHexDigit d = true) (back : List Char) :
    ∃ Ps, Reads p.meaning false (.seq (ds.map fun _ => .apply "hexDigit")) ds back Ps := by
  induction ds with
  | nil => exact ⟨[], .nil back⟩
  | cons d ds ih =>
      obtain ⟨hd, hds⟩ := List.forall_mem_cons.mp hds
      obtain ⟨Ps, hread⟩ := hp.hexDigit_class.reads d (ds ++ back) hd
      obtain ⟨Qs, hmore⟩ := ih hds
      exact ⟨Ps ++ Qs, hread.cons hmore⟩

omit hp in
/-- A mark of an escape sequence is not there where another one is. -/
theorem misses_escape {m : Meaning} {s : String} {c d : Char} (hs : s.toList = ['\\', d])
    (hne : d ≠ c) (rest : List Char) : Misses m false (.terminal s) ('\\' :: c :: rest) := by
  refine .terminal ?_
  simp [hs, List.isPrefixOf_cons_cons, hne]

theorem escapeChar_parses (hu : Piece u) (hslash : u.head? = some '\\') (back : List Char) :
    p.Parses "escapeChar" u back fun _ => True := by
  suffices h : ∃ Ps, Reads p.meaning false escapes u back Ps from
    hp.parses escapeChar_body h.choose_spec fun _ _ _ _ => trivial
  have hmiss {s : String} {c d : Char} (hs : s.toList = ['\\', d]) (hne : d ≠ c)
      (rest : List Char) : Misses p.meaning false (.terminal s) ('\\' :: c :: rest) :=
    misses_escape hs hne rest
  cases hu with
  | plain hplain => exact absurd (by simpa using hslash) hplain
  | @simple c hc =>
      refine ⟨[], ?_⟩
      simp only [List.mem_cons, List.not_mem_nil, or_false] at hc
      rcases hc with rfl | rfl | rfl | rfl | rfl | rfl | rfl
      all_goals repeat first
        | exact .first (.terminal rfl back)
        | refine .later (hmiss rfl (by decide) _) ?_
  | @unicode a b c d ha hb hc hd =>
      have hall : ∀ c' ∈ [a, b, c, d], isHexDigit c' = true := by simp [ha, hb, hc, hd]
      obtain ⟨Ps, hdigits⟩ := hp.reads_digits hall back
      refine ⟨[] ++ Ps, ?_⟩
      iterate 7 refine .later (hmiss rfl (by decide) _) ?_
      have hmark : Reads p.meaning false (.terminal "\\u") ['\\', 'u'] ([a, b, c, d] ++ back) [] :=
        .terminal rfl _
      exact .first (hmark.cons hdigits)
  | @hex a b ha hb =>
      have hall : ∀ c' ∈ [a, b], isHexDigit c' = true := by simp [ha, hb]
      obtain ⟨Ps, hdigits⟩ := hp.reads_digits hall back
      refine ⟨[] ++ Ps, ?_⟩
      iterate 7 refine .later (hmiss rfl (by decide) _) ?_
      refine .later (.head (hmiss rfl (by decide) _)) ?_
      have hmark : Reads p.meaning false (.terminal "\\x") ['\\', 'x'] ([a, b] ++ back) [] :=
        .terminal rfl _
      exact .first (hmark.cons hdigits)

theorem terminalChar_parses_piece (hu : Piece u) (back : List Char) :
    p.Parses "terminalChar" u back (Tree.Spells "terminalChar" u) := by
  have hspells (s : Tree.Located) (hrule : s.tree.rule? = some "terminalChar")
      (htext : s.text = .ofList u) : Tree.Spells "terminalChar" u s := ⟨hrule, htext⟩
  by_cases hslash : u.head? = some '\\'
  · exact hp.parses terminalChar_body (.first (hp.escapeChar_parses hu hslash back).reads)
      fun s hrule htext _ => hspells s hrule htext
  · cases hu with
    | simple | unicode | hex => exact absurd rfl hslash
    | @plain c hplain hquote hline =>
        have hnot (s : String) (d : Char) (hs : s.toList.head? = some d) (hd : c ≠ d) :
            Reads p.meaning false (.not (.terminal s)) [] (c :: back) [] :=
          .not (.terminal_of_head hs (by simpa using hd))
        have hread : Reads p.meaning false (.seq [.not (.terminal "\\"), .not (.terminal "\""),
            .not (.terminal "\n"), .any]) [c] back [] :=
          .cons (hnot "\\" '\\' rfl hplain) (.cons (hnot "\"" '"' rfl hquote)
            (.cons (hnot "\n" '\n' rfl hline) (.cons (.any c back) (.nil back))))
        exact hp.parses terminalChar_body
          (.later (hp.escapeChar_fails (by simpa using hplain)).misses (.first hread))
          fun s hrule htext _ => hspells s hrule htext

omit hp in
theorem reads_quote (back : List Char) : Reads p.meaning false (.terminal "\"") ['"'] back [] :=
  .terminal rfl back

/-- A literal of any pieces is taken up to its closing quote. -/
theorem terminal_parses_pieces (hus : ∀ u ∈ us, Piece u) (back : List Char) :
    p.Parses "terminal" (quoted us) back (Tree.Spells "terminal" (quoted us)) := by
  have hchars : Reads p.meaning false (Source.star (.apply "terminalChar"))
      (us.flatMap id) ('"' :: back) (us.map (Tree.Spells "terminalChar")) :=
    .star_flatMap (T := fun _ => True) (fun u hu => (hus u hu).ne_nil)
      (fun u hu back _ => (hp.terminalChar_parses_piece (hus u hu) back).reads)
      (fun _ _ _ _ => trivial) trivial (hp.terminalChar_fails back).misses
  rw [List.flatMap_id] at hchars
  exact hp.parses terminal_body ((reads_quote _).cons (hchars.cons (reads_quote back).last))
    fun s hrule htext _ => ⟨hrule, htext⟩

theorem oneCharTerminal_parses_piece (hu : Piece u) (back : List Char) :
    p.Parses "oneCharTerminal" (quoted [u]) back (Tree.Spells "oneCharTerminal" (quoted [u])) := by
  have hchar := (hp.terminalChar_parses_piece hu ('"' :: back)).reads
  have hread := (reads_quote _).cons (hchar.cons (reads_quote back).last)
  rw [show ['"'] ++ (u ++ ['"']) = quoted [u] by simp [quoted]] at hread
  exact hp.parses oneCharTerminal_body hread fun s hrule htext _ => ⟨hrule, htext⟩

/-! ## Taking literals apart -/

theorem hexDigit_covers :
    Covers p.meaning (.apply "hexDigit") {[c] | (c : Char) (_ : isHexDigit c = true)} := by
  have hrange {lo hi : Char} (h : ∀ c, lo ≤ c ∧ c ≤ hi → isHexDigit c = true) :
      Covers p.meaning (.range lo hi) {[c] | (c : Char) (_ : isHexDigit c = true)} :=
    (Covers.range lo hi).mono fun cs ⟨c, hc, heq⟩ => ⟨c, h c hc, heq⟩
  refine hp.covers hexDigit_body (.alt fun e he => ?_)
  simp only [List.mem_cons, List.not_mem_nil, or_false] at he
  rcases he with rfl | rfl | rfl
  · exact hp.covers digit_body (hrange fun c hc => by simp [isHexDigit_eq, hc])
  · exact hrange fun c hc => by simp [isHexDigit_eq, hc]
  · exact hrange fun c hc => by simp [isHexDigit_eq, hc]

theorem terminalChar_covers : Covers p.meaning (.apply "terminalChar") {u | Piece u} := by
  have hsimple (s : String) (c : Char) (hs : s.toList = ['\\', c])
      (hc : c ∈ ['\\', '"', '\'', 'b', 'n', 'r', 't']) :
      Covers p.meaning (.terminal s) {u | Piece u} := by
    refine (Covers.terminal s).mono ?_
    rintro _ rfl
    rw [hs]
    exact Piece.simple hc
  have hdigit := hp.hexDigit_covers
  have hescape : Covers p.meaning (.apply "escapeChar") {u | Piece u} := by
    refine hp.covers escapeChar_body (.alt fun e he => ?_)
    simp only [List.mem_cons, List.not_mem_nil, or_false] at he
    rcases he with rfl | rfl | rfl | rfl | rfl | rfl | rfl | rfl | rfl
    iterate 7 exact hsimple _ _ rfl (by decide)
    · refine ((Covers.terminal "\\u").cons
        (hdigit.cons (hdigit.cons (hdigit.cons hdigit.last)))).mono ?_
      rintro _ ⟨_, rfl, _, ⟨_, ⟨a, ha, rfl⟩, _, ⟨_, ⟨b, hb, rfl⟩, _, ⟨_, ⟨c, hc, rfl⟩, _,
        ⟨d, hd, rfl⟩, rfl⟩, rfl⟩, rfl⟩, rfl⟩
      exact Piece.unicode ha hb hc hd
    · refine ((Covers.terminal "\\x").cons (hdigit.cons hdigit.last)).mono ?_
      rintro _ ⟨_, rfl, _, ⟨_, ⟨a, ha, rfl⟩, _, ⟨b, hb, rfl⟩, rfl⟩, rfl⟩
      exact Piece.hex ha hb
  refine hp.covers terminalChar_body (.alt fun e he => ?_)
  rcases List.mem_pair.mp he with rfl | rfl
  · exact hescape
  · refine (Covers.guarded (.guarded (.guarded (.last .any)))).mono ?_
    rintro _ ⟨⟨⟨⟨c, rfl⟩, hline⟩, hquote⟩, hslash⟩
    exact Piece.plain (fun heq => hslash (by simp [heq])) (fun heq => hquote (by simp [heq]))
      fun heq => hline (by simp [heq])

/-- A piece of a literal, and its tree. -/
theorem terminalChar_took (htidy : p.Tidy) {ss : List Tree.Located}
    (h : Took p i false (.apply "terminalChar") cs ds ss) :
    ∃ u s, Piece u ∧ cs = u ++ ds ∧ ss = [s] ∧ Tree.Spells "terminalChar" u s := by
  obtain ⟨s, rfl, rfl, hspans⟩ := h.apply htidy
  obtain ⟨u, hu, rfl, htext⟩ := hp.terminalChar_covers.text_spans hspans
  exact ⟨u, s, hu, rfl, rfl, hspans.rule? htidy, htext⟩

/-- A literal that was taken is a row of pieces, with a tree for each of them. -/
theorem terminal_spans (htidy : p.Tidy) (h : p.Spans "terminal" cs ds s) :
    ∃ us, (∀ u ∈ us, Piece u) ∧ cs = quoted us ++ ds ∧
      Tree.Each s.applications (us.map (Tree.Spells "terminalChar")) := by
  obtain ⟨cs₁, ss₁, ss₂, hopen, hrest, hss⟩ := (hp.took terminal_body h).cons htidy
  obtain ⟨cs₂, ss₃, ss₄, hchars, hclose, rfl⟩ := hrest.cons htidy
  obtain ⟨rfl, rfl⟩ := hopen.terminal
  obtain ⟨rfl, rfl⟩ := (hclose.last htidy).terminal
  obtain rfl : ss₃ = s.applications := by simpa using hss.symm
  have hrow : ∃ us : List (List Char), (∀ u ∈ us, Piece u) ∧ cs₁ = us.flatten ++ '"' :: ds ∧
      Tree.Each s.applications (us.map (Tree.Spells "terminalChar")) := by
    refine Took.star_induction (P := fun cs ss => ∃ us : List (List Char), (∀ u ∈ us, Piece u) ∧
      cs = us.flatten ++ '"' :: ds ∧ Tree.Each ss (us.map (Tree.Spells "terminalChar"))) htidy
      (fun cs ss hstay => ?_) (fun _ => ⟨[], nofun, rfl, .nil⟩)
      (fun cs cs' ss₁ ss₂ hchar => ?_) hchars
    · obtain ⟨u, t, hu, hcs, -⟩ := hp.terminalChar_took htidy hstay
      exact hu.ne_nil (List.self_eq_append_left.mp hcs)
    · rintro ⟨us, hus, rfl, heach⟩
      obtain ⟨u, t, hu, rfl, rfl, ht⟩ := hp.terminalChar_took htidy hchar
      exact ⟨u :: us, List.forall_mem_cons.mpr ⟨hu, hus⟩, by simp, .cons ht heach⟩
  obtain ⟨us, hus, rfl, heach⟩ := hrow
  exact ⟨us, hus, by simp [quoted], heach⟩

theorem oneCharTerminal_spans (htidy : p.Tidy) (h : p.Spans "oneCharTerminal" cs ds s) :
    ∃ u, Piece u ∧ cs = quoted [u] ++ ds ∧
      Tree.Each s.applications [Tree.Spells "terminalChar" u] := by
  obtain ⟨cs₁, ss₁, ss₂, hopen, hrest, hss⟩ := (hp.took oneCharTerminal_body h).cons htidy
  obtain ⟨cs₂, ss₃, ss₄, hchar, hclose, rfl⟩ := hrest.cons htidy
  obtain ⟨rfl, rfl⟩ := hopen.terminal
  obtain ⟨rfl, rfl⟩ := (hclose.last htidy).terminal
  obtain ⟨u, t, hu, rfl, rfl, ht⟩ := hp.terminalChar_took htidy hchar
  refine ⟨u, hu, by simp [quoted], ?_⟩
  rw [hss]
  exact .cons ht .nil

end Grammar.ParsedBy

end Pegboard
