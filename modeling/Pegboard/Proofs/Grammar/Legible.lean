import Pegboard.Proofs.Grammar.Headers
import Pegboard.Proofs.Grammar.Written

/-!
# Where a printed expression can be read

What is printed of an expression has parentheses around choices and sequences that are operands, and
around choices in sequences, but around no operator that is an operand. So an operator whose operand
binds weaker than it is read as another one, or not at all; neither is there an escape sequence for a
form feed. And where parentheses around a name are left out, what follows can make it a longer name,
or the head of a rule.

`Expr.legible` says that nothing of this is the case.
-/

namespace Pegboard

namespace Text

/-- A name in front of the text ends there, and no rule of this name is defined. -/
def endsName (rest : List Char) : Bool :=
  (rest.head?.all fun c => !Grammar.isNameRest c) && !headed rest

/-- What stands behind a text that is written in parentheses, if they are needed. -/
def closing (needed : Bool) (rest : List Char) : List Char :=
  if needed then ')' :: rest else rest

theorem endsName_iff {rest : List Char} : endsName rest = true ↔
    (∀ c ∈ rest.head?, Grammar.isNameRest c = false) ∧ headed rest = false := by
  rw [endsName, Bool.and_eq_true, Bool.not_eq_true']
  refine and_congr_left fun _ => ?_
  cases rest.head? <;> simp

end Text

namespace Expr

open Text

/-! ## Printed texts -/

theorem toList_parenthesizedIf (needed : Bool) (s : String) :
    (parenthesizedIf needed s).toList = if needed then group s.toList else s.toList := by
  cases needed <;> simp [parenthesizedIf, group]

/-- The expression as an operand. -/
def operandText (e : Expr) : List Char :=
  if e.isAltOrSeq then group e.text.toList else e.text.toList

/-- The expression as an element of a sequence. -/
def elementText (e : Expr) : List Char :=
  if e.isAlt then group e.text.toList else e.text.toList

/-- The choices behind the first one. -/
def choicesText (es : List Expr) : List Char :=
  es.flatMap fun e => " | ".toList ++ e.text.toList

/-- The elements of a sequence behind the first one. -/
def elementsText (es : List Expr) : List Char :=
  es.flatMap fun e => " ".toList ++ e.elementText

theorem altTexts_eq (es : List Expr) : altTexts es = es.map text := by
  induction es with
  | nil => rfl
  | cons e es ih => rw [altTexts, ih, List.map_cons]

theorem seqTexts_eq (es : List Expr) :
    seqTexts es = es.map fun e => parenthesizedIf e.isAlt e.text := by
  induction es with
  | nil => rfl
  | cons e es ih => rw [seqTexts, ih, List.map_cons]

theorem toList_text_alt (e : Expr) (es : List Expr) :
    (alt (e :: es)).text.toList = e.text.toList ++ choicesText es := by
  rw [text, altTexts_eq, String.toList_intercalate, List.map_cons, List.map_cons, intercalate_cons,
    List.flatMap_map, List.flatMap_map, choicesText]

theorem toList_text_seq (e : Expr) (es : List Expr) :
    (seq (e :: es)).text.toList = e.elementText ++ elementsText es := by
  rw [text, seqTexts_eq, String.toList_intercalate, List.map_cons, List.map_cons, intercalate_cons,
    List.flatMap_map, List.flatMap_map, elementsText]
  simp only [toList_parenthesizedIf, elementText]

theorem toList_text_iter (op : Repeat) (e : Expr) :
    (iter op e).text.toList = e.operandText ++ op.symbol.toList := by
  rw [text, String.toList_append, toList_parenthesizedIf, operandText]

theorem toList_text_not (e : Expr) : (not e).text.toList = '~' :: e.operandText := by
  rw [text, String.toList_append, toList_parenthesizedIf]
  rfl

theorem toList_text_look (e : Expr) : (look e).text.toList = '&' :: e.operandText := by
  rw [text, String.toList_append, toList_parenthesizedIf]
  rfl

theorem toList_text_lex (e : Expr) : (lex e).text.toList = '#' :: e.operandText := by
  rw [text, String.toList_append, toList_parenthesizedIf]
  rfl

/-- It cannot be told from the text which of two operators, in front of an expression and behind it,
is applied first. -/
theorem text_iter_of_prefix (op : Repeat) (e : Expr) :
    (iter op (not e)).text = (not (iter op e)).text ∧
      (iter op (look e)).text = (look (iter op e)).text ∧
      (iter op (lex e)).text = (lex (iter op e)).text := by
  simp only [text, isAltOrSeq, parenthesizedIf, Bool.false_eq_true, if_false, String.append_assoc,
    and_self]

/-! ## Legible texts -/

/-- How loosely the expression binds as an operand: choices and sequences are in parentheses then,
and bind as names and literals do. -/
def looseness : Expr → Nat
  | any | endOfInput | terminal _ | range _ _ | apply _ | alt _ | seq _ => 0
  | lex _ => 1
  | not _ | look _ => 2
  | iter _ _ => 3

mutual

/-- What is printed of the expression is read as the expression again, where the text goes on with
`rest`. -/
def legible : Expr → List Char → Bool
  | any, rest | endOfInput, rest | apply _, rest => endsName rest
  | terminal s, _ => !s.toList.contains '\x0c'
  | range lo hi, _ => lo != '\x0c' && hi != '\x0c'
  | alt es, rest => legibleChoices es rest
  | seq es, rest => legibleElements es rest
  | iter op e, rest =>
      e.looseness ≤ 2 && e.legible (closing e.isAltOrSeq (op.symbol.toList ++ rest))
  | not e, rest => e.looseness ≤ 1 && e.legible (closing e.isAltOrSeq rest)
  | look e, rest => e.looseness ≤ 1 && e.legible (closing e.isAltOrSeq rest)
  | lex e, rest => e.looseness == 0 && e.legible (closing e.isAltOrSeq rest)

def legibleChoices : List Expr → List Char → Bool
  | [], _ => true
  | e :: es, rest => e.legible (choicesText es ++ rest) && legibleChoices es rest

def legibleElements : List Expr → List Char → Bool
  | [], _ => true
  | e :: es, rest =>
      e.legible (closing e.isAlt (elementsText es ++ rest)) && legibleElements es rest

end

/-- No iteration can be the operand of another operator. -/
example : (not (iter .star (terminal "a"))).legible "\x7d".toList = false ∧
    (iter .star (not (terminal "a"))).legible "\x7d".toList = true := by decide +kernel

end Expr

end Pegboard
