import Pegboard.Proofs.Grammar.Literals

/-!
# The ends of ranges

An end of a range is written as a literal of one character. It denotes this character, unless it is
an escape sequence whose four digits give the number of no character, which is that of a surrogate.

Main statement: `ParsedBy.firstChar?_found`.
-/

namespace Pegboard

namespace Text

/-- The characters are an escape sequence by four digits that give no scalar value. -/
def NoScalar (cs : List Char) : Prop :=
  ∃ a b c d n, cs = ['\\', 'u', a, b, c, d] ∧ hexNumber? [a, b, c, d] = some n ∧ ¬ n.isValidChar

/-- What may stand inside of a literal of one character. -/
def single : Language Char :=
  {cs | (unescape cs).head?.isSome = true ∨ NoScalar cs}

/-- Two digits give a scalar value. -/
theorem hexNumber?_two {a b : Char} (ha : isHexDigit a = true) (hb : isHexDigit b = true) :
    ∃ n, hexNumber? [a, b] = some n ∧ n.isValidChar := by
  obtain ⟨n, ha⟩ := Option.isSome_iff_exists.mp ha
  obtain ⟨k, hb⟩ := Option.isSome_iff_exists.mp hb
  have := hexValue_lt ha
  have := hexValue_lt hb
  exact ⟨16 * n + k, by simp [hexNumber?, ha, hb], .inl (by omega)⟩

/-- Four digits give a number. -/
theorem hexNumber?_four {a b c d : Char} (ha : isHexDigit a = true) (hb : isHexDigit b = true)
    (hc : isHexDigit c = true) (hd : isHexDigit d = true) :
    ∃ n, hexNumber? [a, b, c, d] = some n := by
  obtain ⟨n₁, ha⟩ := Option.isSome_iff_exists.mp ha
  obtain ⟨n₂, hb⟩ := Option.isSome_iff_exists.mp hb
  obtain ⟨n₃, hc⟩ := Option.isSome_iff_exists.mp hc
  obtain ⟨n₄, hd⟩ := Option.isSome_iff_exists.mp hd
  exact ⟨16 * (16 * (16 * n₁ + n₂) + n₃) + n₄, by simp [hexNumber?, ha, hb, hc, hd]⟩

/-- A piece of a literal denotes no character exactly if its digits give no scalar value. -/
theorem Piece.denoted?_eq_none {u : List Char} (h : Piece u) : denoted? u = none ↔ NoScalar u := by
  cases h with
  | plain => simp [denoted?, NoScalar]
  | simple => simp [denoted?, NoScalar]
  | hex ha hb =>
      obtain ⟨n, hn, hvalid⟩ := hexNumber?_two ha hb
      simp [denoted?, NoScalar, hn, scalar?, hvalid]
  | @unicode a b c d ha hb hc hd =>
      obtain ⟨n, hn⟩ := hexNumber?_four ha hb hc hd
      constructor
      · intro hnone
        refine ⟨a, b, c, d, n, rfl, hn, fun hvalid => ?_⟩
        simp [denoted?, hn, scalar?, hvalid] at hnone
      · rintro ⟨a', b', c', d', n', heq, hn', hvalid⟩
        cases heq
        simp [denoted?, hn', scalar?, hvalid]

theorem Piece.mem_single {u : List Char} (h : Piece u) : u ∈ single := by
  cases hdenoted : denoted? u with
  | none => exact .inr (h.denoted?_eq_none.mp hdenoted)
  | some c =>
      have hunescape := h.unescape_append []
      rw [List.append_nil, hdenoted] at hunescape
      exact .inl (by rw [hunescape]; rfl)

end Text

open Text Grammar.Build

namespace Grammar.ParsedBy

variable {p : Parser} (hp : ofGrammars.ParsedBy p)

include hp

/-- An end of a range denotes a character, or is an escape sequence that denotes none. -/
theorem firstChar?_found {s : Tree.Located} (hs : p.Found "oneCharTerminal" s) :
    (firstChar? s).isSome = true ∨
      ∃ cs, NoScalar cs ∧ s.text = .ofList ('"' :: (cs ++ ['"'])) := by
  have hchar := hp.terminalChar_covers.mono fun u hu => Piece.mem_single hu
  have hcovers := hp.covers oneCharTerminal_body
    ((Covers.terminal "\"").cons (hchar.cons (Covers.terminal "\"").last))
  obtain ⟨_, ⟨_, rfl, _, ⟨cs, hcs, _, rfl, rfl⟩, rfl⟩, htext⟩ := hcovers.text_found hs
  rcases hcs with hchar | hnone
  · refine .inl ?_
    have hliteral : s.text.toList = '"' :: (cs ++ ['"']) := by
      rw [htext, String.toList_ofList]
      rfl
    rwa [firstChar?, unquote, hliteral, inside_quoted, String.toList_ofList]
  · exact .inr ⟨cs, hnone, htext⟩

end Grammar.ParsedBy

end Pegboard
