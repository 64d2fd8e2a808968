import Pegboard.Text.Quoted
import Pegboard.Text.Uppercase

/-!
# Parsing expressions

The bodies of rules, how they are written, and which rules they apply.
-/

namespace Pegboard

/-- How often the body of an iteration is matched: any number of times, at least once, at most
once. -/
inductive Repeat
  | star
  | plus
  | opt
  deriving DecidableEq, Repr

def Repeat.symbol : Repeat → String
  | star => "*"
  | plus => "+"
  | opt => "?"

inductive Expr
  /-- One character. -/
  | any
  | endOfInput
  | terminal (text : String)
  /-- One character between the two, both included. -/
  | range (lo hi : Char)
  | apply (rule : String)
  /-- The first choice that matches. -/
  | alt (choices : List Expr)
  | seq (parts : List Expr)
  | iter (op : Repeat) (body : Expr)
  /-- Matches nothing where the body does not match. -/
  | not (body : Expr)
  /-- Matches nothing where the body matches. -/
  | look (body : Expr)
  /-- The body without space skipping. -/
  | lex (body : Expr)
  deriving Repr, Inhabited

/-- Rules whose names begin with a capital skip spaces. -/
def isSyntactic (rule : String) : Bool :=
  match rule.toList with
  | c :: _ => Text.isUppercase c
  | [] => false

namespace Expr

/-- A choice; one alternative alone stands for itself. -/
def choice : List Expr → Expr
  | [e] => e
  | es => alt es

/-- A sequence; one part alone stands for itself. -/
def sequence : List Expr → Expr
  | [e] => e
  | es => seq es

/-- Whether the expression reads the text itself, as opposed to combining others. Where spaces are
skipped, they are skipped before these expressions. -/
def consumesInput : Expr → Bool
  | any | endOfInput | terminal _ | range _ _ | apply _ => true
  | _ => false

mutual

/-- The rules applied in the expression, in the order written, each with whether it is applied
inside a lexical context. -/
def applications (lexical : Bool) : Expr → List (String × Bool)
  | apply rule => [(rule, lexical)]
  | alt es => applicationsAll lexical es
  | seq es => applicationsAll lexical es
  | iter _ e => e.applications lexical
  | not e => e.applications lexical
  | look e => e.applications lexical
  | lex e => e.applications true
  | any | endOfInput | terminal _ | range _ _ => []

def applicationsAll (lexical : Bool) : List Expr → List (String × Bool)
  | [] => []
  | e :: es => e.applications lexical ++ applicationsAll lexical es

end

/-! ### Written form -/

def isAlt : Expr → Bool
  | alt _ => true
  | _ => false

def isAltOrSeq : Expr → Bool
  | alt _ | seq _ => true
  | _ => false

def parenthesizedIf (needed : Bool) (text : String) : String :=
  if needed then "(" ++ text ++ ")" else text

mutual

/-- The expression as it is written in a grammar. -/
def text : Expr → String
  | any => "any"
  | endOfInput => "end"
  | terminal s => Text.quote s
  | range lo hi => Text.quote lo.toString ++ ".." ++ Text.quote hi.toString
  | apply rule => rule
  | alt es => " | ".intercalate (altTexts es)
  | seq es => " ".intercalate (seqTexts es)
  | iter op e => parenthesizedIf e.isAltOrSeq e.text ++ op.symbol
  | not e => "~" ++ parenthesizedIf e.isAltOrSeq e.text
  | look e => "&" ++ parenthesizedIf e.isAltOrSeq e.text
  | lex e => "#" ++ parenthesizedIf e.isAltOrSeq e.text

def altTexts : List Expr → List String
  | [] => []
  | e :: es => e.text :: altTexts es

def seqTexts : List Expr → List String
  | [] => []
  | e :: es => parenthesizedIf e.isAlt e.text :: seqTexts es

end

end Expr

end Pegboard
