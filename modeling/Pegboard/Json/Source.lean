import Pegboard.Json.Fault

/-!
# Texts to read

A source is what is left of a text to read, and the place where it begins. A reader takes something
off a source or fails. It fails either where it is, once it has seen a whole value that does not fit,
or at the next character; that place is one byte further on.
-/

namespace Pegboard.Json

/-- The place behind a character. -/
def At.next (a : At) (c : Char) : At :=
  if c = '\n' then ⟨a.line + 1, 0⟩ else ⟨a.line, a.column + c.utf8Size⟩

/-- The place behind the first byte of a character. -/
def At.into (a : At) (c : Char) : At :=
  if c = '\n' then ⟨a.line + 1, 0⟩ else ⟨a.line, a.column + 1⟩

/-- The place some bytes on, unless the characters end before. -/
def At.onBy? (a : At) : Nat → List Char → Option At
  | 0, _ => some a
  | _ + 1, [] => none
  | n + 1, c :: cs =>
    if n + 1 < c.utf8Size then some ⟨a.line, a.column + (n + 1)⟩
    else (a.next c).onBy? (n + 1 - c.utf8Size) cs

structure Source where
  rest : List Char
  place : At
  deriving DecidableEq, Repr

namespace Source

def ofText (text : String) : Source := ⟨text.toList, ⟨1, 0⟩⟩

/-- The place of a fault at the next character, or at the end. -/
def ahead (s : Source) : At :=
  match s.rest with
  | [] => s.place
  | c :: _ => s.place.into c

end Source

abbrev Reader := StateT Source (Except ReadError)

namespace Reader

/-- The next character, which is left where it is. -/
def peek? : Reader (Option Char) :=
  return (← get).rest.head?

/-- Takes the next character. -/
def skip : Reader Unit :=
  modify fun s =>
    match s.rest with
    | [] => s
    | c :: rest => ⟨rest, s.place.next c⟩

/-- Takes characters as long as they pass a test. -/
def takeWhile (p : Char → Bool) : Reader (List Char) := do
  let s ← get
  let cs := s.rest.takeWhile p
  set (⟨s.rest.dropWhile p, cs.foldl At.next s.place⟩ : Source)
  return cs

def failHere {α : Type} (fault : Fault) : Reader α := do
  throw ⟨fault, (← get).place⟩

def failAhead {α : Type} (fault : Fault) : Reader α := do
  throw ⟨fault, (← get).ahead⟩

/-- Fails at the next character, with another fault if there is none. -/
def failAt {α : Type} (atEnd otherwise : Fault) : Reader α := do
  match ← peek? with
  | none => failAhead atEnd
  | some _ => failAhead otherwise

def isBlank (c : Char) : Bool :=
  c == ' ' || c == '\n' || c == '\t' || c == '\r'

/-- The next character that is no blank, which is left where it is. -/
def peekPastBlanks? : Reader (Option Char) := do
  let _ ← takeWhile isBlank
  peek?

/-- Takes the letters of a word. -/
def word : List Char → Reader Unit
  | [] => return ()
  | c :: cs => do
    if (← peek?) = some c then skip else failAt .endInValue .expectedWord
    word cs

/-- Reads a whole text. -/
def run {α : Type} (r : Reader α) (text : String) : Except ReadError α :=
  let whole : Reader α := do
    let a ← r
    match ← peekPastBlanks? with
    | none => return a
    | some _ => failAhead .trailingCharacters
  (StateT.run whole (.ofText text)).map Prod.fst

end Reader

end Pegboard.Json
