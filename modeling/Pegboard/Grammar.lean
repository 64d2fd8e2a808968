import Pegboard.Expr
import Pegboard.Tree

/-!
# Grammars

A grammar is a table of rules in the order in which they were first declared. A grammar that
extends another begins with that grammar's rules and default start rule, so that a rule is always
looked up in one table.
-/

namespace Pegboard

structure Rule where
  name : String
  body : Expr
  /-- What the rule matches, for messages. -/
  description : Option String
  /-- Where the rule was declared in the source of its grammar. -/
  source : Option Interval
  /-- The grammar that declared the rule, or last overrode or extended it. -/
  declaredIn : String
  deriving Repr, Inhabited

structure Grammar where
  name : String
  /-- The name of the extended grammar. -/
  super : Option String
  rules : List Rule
  /-- The rule that matches begin with unless another one is asked for. -/
  start : Option String
  deriving Repr, Inhabited

namespace Grammar

/-- A grammar with the rules of the one it extends. -/
def extending (super : Option Grammar) (name : String) : Grammar where
  name := name
  super := super.map (·.name)
  rules := (super.map (·.rules)).getD []
  start := super.bind (·.start)

def rule? (g : Grammar) (name : String) : Option Rule :=
  g.rules.find? (·.name == name)

def hasRule (g : Grammar) (name : String) : Bool :=
  (g.rule? name).isSome

def ruleNames (g : Grammar) : List String :=
  g.rules.map (·.name)

/-- The rules that the grammar itself declares, overrides or extends. -/
def ownRules (g : Grammar) : List Rule :=
  g.rules.filter (·.declaredIn == g.name)

/-- Puts a rule in the place of the one with its name, or after all others. -/
def placeRule (r : Rule) : List Rule → List Rule
  | [] => [r]
  | s :: rest => if s.name == r.name then r :: rest else s :: placeRule r rest

def define (g : Grammar) (r : Rule) : Grammar :=
  { g with rules := placeRule r g.rules }

/-- The start rule that a selection resolves to: the selected rule if the grammar has it, else the
default one. -/
def resolveStart (g : Grammar) (selection : Option String) : Option String :=
  match selection.bind g.rule? with
  | some r => some r.name
  | none => g.start

end Grammar

end Pegboard
