import Pegboard.Document
import Pegboard.Grammar.Match

/-!
# Matching sessions

A session matches a text that is edited between the matches. Its memo table outlives an edit: what
the edit cannot have changed is not worked out again.
-/

namespace Pegboard.Match

structure Session where
  grammar : Grammar
  input : Text.Input
  memo : Memo

namespace Session

/-- A session on the empty text. -/
def new (g : Grammar) : Session :=
  ⟨g, .ofString "", .blank 0⟩

def text (s : Session) : String :=
  s.input.text

/-- The number of entries in the memo table. -/
def memoSize (s : Session) : Nat :=
  s.memo.size

/-- Takes another text and forgets all entries. -/
def setText (s : Session) (text : String) : Session :=
  let input := Text.Input.ofString text
  { s with input := input, memo := .blank input.size }

/-- Replaces the bytes from `start` to `stop` and keeps the entries that the edit cannot affect. -/
def replaceRange (s : Session) (start stop : Nat) (new : String) :
    Except Text.EditError Session := do
  let text ← Text.replaceRange s.text start stop new
  return { s with
    input := .ofString text
    memo := s.memo.splice start stop new.utf8ByteSize }

/-- Makes the change that a document with the same text is about to undergo. A change of the whole text
keeps no entries. -/
def follow (s : Session) (d : Document) (c : Change) :
    Except Text.EditError (Text.Edit × Session) := do
  let e ← d.resolve c
  if e.start = 0 ∧ e.stop = d.size then return (e, s.setText e.text)
  else return (e, ← s.replaceRange e.start e.stop e.text)

/-- Matches the text, and keeps what was found for the next match. A match that nested too deep
leaves no entries. -/
def matchRule (s : Session) (start? : Option String) : Except MatchError Result × Session :=
  match s.grammar.startRule start? with
  | .error e => (.error e, s)
  | .ok rule =>
    match run ⟨s.grammar, s.input, false⟩ nestingLimit rule.name s.memo with
    | none =>
      (.error (.tooDeep s.grammar.name rule.name), { s with memo := .blank s.input.size })
    | some (a, memo) =>
      (.ok ⟨s.input, rule.name, a.tree?, a.failures⟩, { s with memo := memo })

end Session

end Pegboard.Match
