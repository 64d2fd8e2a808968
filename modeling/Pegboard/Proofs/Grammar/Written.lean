import Mathlib.Data.List.Basic
import Pegboard.Grammar.BuiltIn

/-!
# Grammars written down

A list of rules is written as the source of a grammar `G`, one rule on a line. Every part of an
expression stands in its own parentheses, and a literal escapes nothing but what would end it or
break the line.

`Declarable` says which rules can be written so and read again: those of which the source of a
grammar can speak at all.
-/

namespace Pegboard

namespace Text

/-- A character as it stands in a literal. -/
def literalChar (c : Char) : List Char :=
  match c with
  | '"' => ['\\', '"']
  | '\\' => ['\\', '\\']
  | '\n' => ['\\', 'n']
  | c => [c]

/-- A literal that denotes the characters. -/
def literal (cs : List Char) : List Char :=
  '"' :: (cs.flatMap literalChar ++ ['"'])

theorem literalChar_cases (c : Char) :
    (c = '"' ∧ literalChar c = ['\\', '"']) ∨ (c = '\\' ∧ literalChar c = ['\\', '\\']) ∨
      (c = '\n' ∧ literalChar c = ['\\', 'n']) ∨
      (c ≠ '"' ∧ c ≠ '\\' ∧ c ≠ '\n' ∧ literalChar c = [c]) := by
  unfold literalChar
  split <;> simp_all

theorem literalChar_ne_nil (c : Char) : literalChar c ≠ [] := by
  rcases literalChar_cases c with ⟨-, h⟩ | ⟨-, h⟩ | ⟨-, h⟩ | ⟨-, -, -, h⟩ <;> simp [h]

theorem literalChar_head (c : Char) (rest : List Char) :
    (literalChar c ++ rest).head? ≠ some '"' := by
  rcases literalChar_cases c with ⟨-, h⟩ | ⟨-, h⟩ | ⟨-, h⟩ | ⟨hquote, -, -, h⟩ <;> simp [h]
  exact hquote

theorem unescape_literalChar (c : Char) (rest : List Char) :
    unescape (literalChar c ++ rest) = c :: unescape rest := by
  rcases literalChar_cases c with ⟨rfl, h⟩ | ⟨rfl, h⟩ | ⟨rfl, h⟩ | ⟨-, hslash, -, h⟩ <;> rw [h]
  case inr.inr.inr => simp [unescape, hslash]
  all_goals simp [unescape, escaped]

theorem unescape_flatMap (cs : List Char) : unescape (cs.flatMap literalChar) = cs := by
  induction cs with
  | nil => simp [unescape]
  | cons c cs ih => rw [List.flatMap_cons, unescape_literalChar, ih]

theorem inside_literal (cs : List Char) : inside (literal cs) = cs.flatMap literalChar := by
  simp [inside, literal]

theorem unquote_literal (cs : List Char) : unquote (.ofList (literal cs)) = .ofList cs := by
  rw [unquote, String.toList_ofList, inside_literal, unescape_flatMap]

/-- The text in parentheses. -/
def group (cs : List Char) : List Char :=
  '(' :: (cs ++ [')'])

end Text

open Text

/-! ## Expressions -/

namespace Expr

mutual

/-- The expression as it is written. -/
def written : Expr → List Char
  | any => "any".toList
  | endOfInput => "end".toList
  | terminal s => literal s.toList
  | range lo hi => literal [lo] ++ "..".toList ++ literal [hi]
  | apply rule => rule.toList
  | alt es => " | ".toList.intercalate (writtenGroups es)
  | seq es => " ".toList.intercalate (writtenGroups es)
  | iter op e => group e.written ++ op.symbol.toList
  | not e => '~' :: group e.written
  | look e => '&' :: group e.written
  | lex e => '#' :: group e.written

def writtenGroups : List Expr → List (List Char)
  | [] => []
  | e :: es => group e.written :: writtenGroups es

end

mutual

/-- Every choice and every sequence in the expression has at least two elements. -/
def full : Expr → Bool
  | any | endOfInput | terminal _ | range _ _ | apply _ => true
  | alt es => 2 ≤ es.length && fullAll es
  | seq es => 2 ≤ es.length && fullAll es
  | iter _ e => e.full
  | not e => e.full
  | look e => e.full
  | lex e => e.full

def fullAll : List Expr → Bool
  | [] => true
  | e :: es => e.full && fullAll es

end

theorem writtenGroups_eq (es : List Expr) :
    writtenGroups es = es.map fun e => group e.written := by
  induction es with
  | nil => rfl
  | cons e es ih => rw [writtenGroups, ih, List.map_cons]

theorem applicationsAll_eq (lexical : Bool) (es : List Expr) :
    applicationsAll lexical es = es.flatMap (applications lexical) := by
  induction es with
  | nil => rfl
  | cons e es ih => rw [applicationsAll, ih, List.flatMap_cons]

theorem applications_choice (lexical : Bool) (es : List Expr) :
    (choice es).applications lexical = es.flatMap (applications lexical) := by
  unfold choice
  split
  · simp
  · rw [applications, applicationsAll_eq]

theorem applications_sequence (lexical : Bool) (es : List Expr) :
    (sequence es).applications lexical = es.flatMap (applications lexical) := by
  unfold sequence
  split
  · simp
  · rw [applications, applicationsAll_eq]

/-- A text with a separator, after its first piece. -/
theorem intercalate_cons (sep x : List Char) (xs : List (List Char)) :
    sep.intercalate (x :: xs) = x ++ xs.flatMap (sep ++ ·) := by
  induction xs generalizing x with
  | nil => simp [List.intercalate]
  | cons y ys ih =>
      rw [List.intercalate_cons_cons, ih, List.flatMap_cons, List.append_assoc, List.append_assoc]

end Expr

/-! ## Grammars -/

namespace Grammar

def isNameFirst (c : Char) : Bool :=
  c == '_' || c.isAlpha

def isNameRest (c : Char) : Bool :=
  c == '_' || c.isAlphanum

/-- The characters of an identifier. -/
def isName : List Char → Bool
  | [] => false
  | c :: cs => isNameFirst c && cs.all isNameRest

/-- A rule on a line of its own. -/
def writtenRule (r : String × Expr) : List Char :=
  "\n  ".toList ++ r.1.toList ++ " = ".toList ++ r.2.written

/-- The source of the grammar `G` with these rules. -/
def written (rules : List (String × Expr)) : String :=
  .ofList ("G \x7b".toList ++ rules.flatMap writtenRule ++ "\n\x7d".toList)

theorem writtenRule_eq (r : String × Expr) : writtenRule r =
    ['\n', ' ', ' '] ++ (r.1.toList ++ ' ' :: '=' :: ' ' :: r.2.written) := by
  simp [writtenRule]

theorem toList_written (rules : List (String × Expr)) : (written rules).toList =
    'G' :: ' ' :: '\x7b' :: (rules.flatMap writtenRule ++ ['\n', '\x7d']) := by
  refine String.toList_ofList.trans ?_
  simp

/-- The rules can be declared in a grammar of their own: their names are new, and they apply what
there is, no rule that skips spaces where none are skipped. -/
structure Declarable (rules : List (String × Expr)) : Prop where
  full : ∀ r ∈ rules, r.2.full = true
  names : ∀ r ∈ rules, isName r.1.toList = true ∧ r.1 ∉ ["any", "end"] ∧
    r.1 ∉ builtInRules.ruleNames
  distinct : (rules.map Prod.fst).Nodup
  applied : ∀ r ∈ rules, ∀ a ∈ r.2.applications (!isSyntactic r.1),
    a.1 ∈ rules.map Prod.fst ++ builtInRules.ruleNames ∧ ¬ (a.2 = true ∧ isSyntactic a.1 = true)

theorem Declarable.nodup {rules : List (String × Expr)} (h : Declarable rules) :
    (builtInRules.ruleNames ++ rules.map Prod.fst).Nodup := by
  refine List.nodup_append.mpr ⟨by decide +kernel, h.distinct, ?_⟩
  rintro n hn _ hdeclared rfl
  obtain ⟨r, hr, rfl⟩ := List.mem_map.mp hdeclared
  exact (h.names r hr).2.2 hn

end Grammar

end Pegboard
