import Pegboard.Text.Bytes

/-!
# Edits of a text

An edit replaces the bytes from one offset to another. It is refused, with the reason, unless both
are boundaries of the text and in order. `minimalEdit` finds the smallest edit between two texts.
-/

namespace Pegboard.Text

/-- Why a range does not fit a text. -/
inductive EditError
  | invertedRange (start stop : Nat)
  | outOfBounds (stop size : Nat)
  | notCharBoundary (offset : Nat)
  deriving DecidableEq, Repr

def EditError.message : EditError → String
  | invertedRange start stop =>
    "Invalid edit range: start " ++ toString start ++ " is after end " ++ toString stop
  | outOfBounds stop size =>
    "Edit range end " ++ toString stop ++ " is past the end of the text (length " ++ toString size
      ++ ")"
  | notCharBoundary offset => "Offset " ++ toString offset ++ " is not on a character boundary"

/-- Refuses what is no range of the text: first a range the wrong way round, then one past the end,
then an offset inside a character. -/
def checkRange (s : String) (start stop : Nat) : Except EditError Unit :=
  if stop < start then .error (.invertedRange start stop)
  else if s.utf8ByteSize < stop then .error (.outOfBounds stop s.utf8ByteSize)
  else if !isBoundary s start then .error (.notCharBoundary start)
  else if !isBoundary s stop then .error (.notCharBoundary stop)
  else .ok ()

/-- The text with `new` in place of the bytes from `start` to `stop`. -/
def replaceChars (cs : List Char) (start stop : Nat) (new : List Char) : Option (List Char) := do
  let (front, _) ← splitAt? cs start
  let (_, back) ← splitAt? cs stop
  return front ++ new ++ back

/-- Replaces the bytes from `start` to `stop`, if they are a range of the text. -/
def replaceRange (s : String) (start stop : Nat) (new : String) : Except EditError String := do
  checkRange s start stop
  return String.ofList ((replaceChars s.toList start stop new.toList).getD s.toList)

/-- A replacement of the bytes from `start` to `stop`. -/
structure Edit where
  start : Nat
  stop : Nat
  text : String
  deriving DecidableEq, Repr

/-- The text after the edit, if the edit fits it. -/
def Edit.apply (e : Edit) (s : String) : Except EditError String :=
  replaceRange s e.start e.stop e.text

/-! ### The smallest edit -/

/-- Takes from two texts what they begin with in common, and puts it, the last character first, in
front of `front`. What follows in each comes with it. -/
def commonFront (front : List Char) : List Char → List Char → List Char × List Char × List Char
  | a :: as, b :: bs =>
    if a = b then commonFront (a :: front) as bs else (front, a :: as, b :: bs)
  | as, bs => (front, as, bs)

/-- The edit that turns one text into the other and spares what both begin with, and of the rest
what both end with. Equal texts need none. -/
def minimalEdit (old new : String) : Option Edit :=
  if old = new then none
  else
    let (front, oldRest, newRest) := commonFront [] old.toList new.toList
    let (back, _, newBack) := commonFront [] oldRest.reverse newRest.reverse
    some
      { start := byteSize front
        stop := old.utf8ByteSize - byteSize back
        text := String.ofList newBack.reverse }

end Pegboard.Text
