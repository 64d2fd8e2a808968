import Pegboard.Grammar.BuiltIn
import Pegboard.Match.Result
import Pegboard.Text.Blank

/-!
# Building grammars

The tree of a grammar source is built into the grammars it declares. A build stops at its first
error, which says what is wrong and where: grammars are built in order, in a grammar rule by rule,
and whether the rules applied exist is checked when all rules of a grammar are known.
-/

namespace Pegboard

/-- What is wrong with a source that is well-formed. -/
inductive BuildError.Cause
  /-- The source did not match. -/
  | unmatched
  /-- The tree is none of a grammar source. -/
  | malformedTree (detail : String)
  /-- An end of a range denotes no character. -/
  | malformedRange
  | grammarDeclared (grammar : String)
  | grammarUnknown (grammar : String)
  /-- The rule was declared before, perhaps in a grammar further up. -/
  | duplicateRule (rule grammar : String) (declaredIn : Option String)
  | cannotOverride (rule super : String)
  | cannotExtend (rule super : String)
  | ruleUnknown (rule grammar : String)
  /-- A rule that skips spaces is applied where none are skipped. -/
  | syntacticInLexical (rule : String)
  deriving DecidableEq, Repr

structure BuildError where
  cause : BuildError.Cause
  interval : Interval
  deriving DecidableEq, Repr

def BuildError.message (e : BuildError) : String :=
  match e.cause with
  | .unmatched => "Cannot build grammars from a failed match"
  | .malformedTree detail => "Malformed grammar syntax tree" ++ detail
  | .malformedRange => "Malformed range"
  | .grammarDeclared g => "Grammar " ++ g ++ " is already declared in this namespace"
  | .grammarUnknown g => "Grammar " ++ g ++ " is not declared"
  | .duplicateRule rule g declaredIn =>
    "Duplicate declaration for rule '" ++ rule ++ "' in grammar '" ++ g ++ "'"
      ++ match declaredIn with
        | some super => " (originally declared in '" ++ super ++ "')"
        | none => ""
  | .cannotOverride rule super =>
    "Cannot override rule " ++ rule ++ " because it is not declared in " ++ super
  | .cannotExtend rule super =>
    "Cannot extend rule " ++ rule ++ " because it is not declared in " ++ super
  | .ruleUnknown rule g => "Rule " ++ rule ++ " is not declared in grammar " ++ g
  | .syntacticInLexical rule =>
    "Cannot apply syntactic rule " ++ rule ++ " from here (inside a lexical context)"

namespace Grammar.Build

/-- What the build works out, unless it meets an error. -/
abbrev Attempt := Except BuildError

def malformed {α : Type} (t : Tree.Located) (detail : String) : Attempt α :=
  .error ⟨.malformedTree detail, t.interval⟩

/-- The application of a rule below a tree, which has to be there. -/
def child (t : Tree.Located) (rule : String) : Attempt Tree.Located :=
  match t.first? rule with
  | some s => .ok s
  | none => malformed t (": missing " ++ rule)

/-- The one application below a tree, and its rule. -/
def onlyChild (t : Tree.Located) : Attempt (Tree.Located × String) :=
  match t.onlyChild? with
  | some s =>
    match s.tree.rule? with
    | some rule => .ok (s, rule)
    | none => malformed t ""
  | none => malformed t ""

/-! ### Expressions -/

/-- A rule applied in the source. -/
structure Application where
  rule : String
  interval : Interval
  lexical : Bool

/-- What an expression in the source is built into, in a lexical context or not: the expression, and
the rules it applies, in order. -/
abbrev Reading := Bool → Attempt (Expr × List Application)

/-- An application below an expression, and what it is built into. -/
structure Part where
  tree : Tree.Located
  reading : Reading

def Part.isOf (rule : String) (p : Part) : Bool :=
  p.tree.tree.rule? = some rule

/-- The readings of parts, in order. -/
def readAll (lexical : Bool) : List Part → Attempt (List Expr × List Application)
  | [] => .ok ([], [])
  | p :: ps => do
    let (e, apps) ← p.reading lexical
    let (es, apps') ← readAll lexical ps
    return (e :: es, apps ++ apps')

/-- The reading of the first part that applies a rule. -/
def readFirst (t : Tree.Located) (parts : List Part) (rule : String) : Reading := fun lexical =>
  match parts.find? (·.isOf rule) with
  | some p => p.reading lexical
  | none => malformed t (": missing " ++ rule)

/-- The reading of the only part. -/
def readOnly (t : Tree.Located) (parts : List Part) : Reading := fun lexical =>
  match parts with
  | [p] => p.reading lexical
  | _ => malformed t ""

def Reading.map (f : Expr → Expr) (r : Reading) : Reading := fun lexical =>
  (r lexical).map fun (e, apps) => (f e, apps)

def readApplication (t : Tree.Located) : Reading := fun lexical => do
  let ident ← child t "ident"
  match ident.text with
  | "any" => return (.any, [])
  | "end" => return (.endOfInput, [])
  | rule => return (.apply rule, [⟨rule, ident.interval, lexical⟩])

/-- The first character that a literal denotes. -/
def firstChar? (literal : Tree.Located) : Option Char :=
  (Text.unquote literal.text).toList.head?

def readRange (t : Tree.Located) : Reading := fun _ =>
  match (t.named "oneCharTerminal").map firstChar? with
  | [some lo, some hi] => .ok (.range lo hi, [])
  | _ => .error ⟨.malformedRange, t.interval⟩

def readTerminal (t : Tree.Located) : Reading := fun _ => do
  let literal ← child t "terminal"
  return (.terminal (Text.unquote literal.text), [])

/-- The reading of an expression, by the rule that it is an application of. -/
def readNode (level : Nat) (t : Tree.Located) (parts : List Part) : Reading := fun lexical =>
  match t.tree.rule?.getD "" with
  | "Alt" => do
    let (es, apps) ← readAll lexical (parts.filter (·.isOf "Seq"))
    return (.choice es, apps)
  | "Seq" => do
    let (es, apps) ← readAll lexical (parts.filter (·.isOf "Iter"))
    return (.sequence es, apps)
  | "Iter" | "Pred" | "Lex" | "Base" => readOnly t parts lexical
  | "Iter_star" => ((readFirst t parts "Pred").map (.iter .star)) lexical
  | "Iter_plus" => ((readFirst t parts "Pred").map (.iter .plus)) lexical
  | "Iter_opt" => ((readFirst t parts "Pred").map (.iter .opt)) lexical
  | "Pred_not" => ((readFirst t parts "Lex").map .not) lexical
  | "Pred_lookahead" => ((readFirst t parts "Lex").map .look) lexical
  | "Lex_lex" => ((readFirst t parts "Base").map .lex) true
  | "Base_application" => readApplication t lexical
  | "Base_range" => readRange t lexical
  | "Base_terminal" => readTerminal t lexical
  | "Base_paren" => descend level fun _ => readFirst t parts "Alt" lexical
  | other => malformed t (": unexpected " ++ other)

/-- The reading of the tree of an expression. -/
def readExpr (t : Tree.Located) : Reading :=
  t.tree.attributed (fun level offset s parts =>
    readNode level ⟨s, offset, t.input⟩ (parts.map fun (o, s, r) => ⟨⟨s, o, t.input⟩, r⟩)) t.offset

/-! ### Rules -/

/-- A grammar being built. -/
structure State where
  grammar : Grammar
  /-- The rules that the source has declared, overridden or extended in this grammar by name. -/
  declared : List String
  applications : List Application
  /-- Whether a rule declared here is the start rule. -/
  hasStart : Bool

/-- Refuses a rule that the grammar has. -/
def checkNew (s : State) (rule : String) (interval : Interval) : Attempt Unit :=
  if rule ∈ s.declared then .error ⟨.duplicateRule rule s.grammar.name none, interval⟩
  else
    match s.grammar.rule? rule with
    | some old => .error ⟨.duplicateRule rule s.grammar.name (some old.declaredIn), interval⟩
    | none => .ok ()

/-- The body of a rule: the choice between its terms, and the rules of its named cases. -/
structure Body where
  terms : List Expr
  cases : List Rule
  applications : List Application

/-- Reads a term with a case name, which becomes a rule of its own. -/
def readCase (s : State) (rule : String) (term : Tree.Located) (b : Body) : Attempt Body := do
  let seq ← child term "Seq"
  let (e, apps) ← readExpr seq (!isSyntactic rule)
  let name ← child (← child term "caseName") "name"
  let case := rule ++ "_" ++ name.text
  if b.cases.any (·.name == case) then
    throw ⟨.duplicateRule case s.grammar.name none, name.interval⟩
  checkNew s case name.interval
  return {
    terms := b.terms ++ [.apply case]
    cases := b.cases ++ [⟨case, e, none, some term.interval, s.grammar.name⟩]
    applications := b.applications ++ apps }

def readTerm (s : State) (rule : String) (b : Body) (term : Tree.Located) : Attempt Body := do
  let (inner, kind) ← onlyChild term
  if kind == "TopLevelTerm_inline" then readCase s rule inner b
  else do
    let (e, apps) ← readExpr inner (!isSyntactic rule)
    return { b with terms := b.terms ++ [e], applications := b.applications ++ apps }

def readBody (s : State) (rule : String) (body : Tree.Located) : Attempt Body :=
  (body.named "TopLevelTerm").foldlM (readTerm s rule) ⟨[], [], []⟩

/-- Puts a rule and the rules of its cases into the grammar. -/
def State.declare (s : State) (r : Rule) (b : Body) : State :=
  { s with
    grammar := (r :: b.cases).foldl define s.grammar
    declared := r.name :: s.declared
    applications := s.applications ++ b.applications }

def description? (t : Tree.Located) : Option String := do
  let descr ← t.first? "RuleDescr"
  let text ← descr.first? "ruleDescrText"
  return Text.trim text.text

/-- Declares a rule. The first rule declared here is the grammar's start rule. -/
def defineRule (s : State) (t : Tree.Located) (rule : String) (ident body : Tree.Located) :
    Attempt State := do
  checkNew s rule ident.interval
  let b ← readBody s rule body
  let s' := s.declare
    ⟨rule, .choice b.terms, description? t, some t.interval, s.grammar.name⟩ b
  if s.hasStart then return s'
  else return { s' with grammar := { s'.grammar with start := some rule }, hasStart := true }

/-- The rule that an override or an extension changes: one that was there before this grammar. -/
def inherited (s : State) (rule : String) (cause : BuildError.Cause) (ident : Tree.Located) :
    Attempt Rule :=
  match s.grammar.rule? rule with
  | some r => if rule ∈ s.declared then .error ⟨cause, ident.interval⟩ else .ok r
  | none => .error ⟨cause, ident.interval⟩

/-- Gives an inherited rule another body, made from the one in the source and the old one. -/
def changeRule (s : State) (t : Tree.Located) (rule : String) (ident body : Tree.Located)
    (cause : BuildError.Cause) (combine : Expr → Expr → Expr) : Attempt State := do
  let old ← inherited s rule cause ident
  let b ← readBody s rule body
  return s.declare
    ⟨rule, combine (.choice b.terms) old.body, old.description, some t.interval, s.grammar.name⟩ b

def readRule (super : String) (s : State) (t : Tree.Located) : Attempt State := do
  let (case, kind) ← onlyChild t
  let ident ← child case "ident"
  let rule := ident.text
  let body ← child case "RuleBody"
  match kind with
  | "Rule_define" => defineRule s case rule ident body
  | "Rule_override" =>
    changeRule s case rule ident body (.cannotOverride rule super) fun new _ => new
  | "Rule_extend" =>
    changeRule s case rule ident body (.cannotExtend rule super) fun new old => .alt [new, old]
  | other => malformed case (": unexpected " ++ other)

/-- Refuses applications of unknown rules, and of syntactic rules in a lexical context. -/
def checkApplications (g : Grammar) : List Application → Attempt Unit
  | [] => .ok ()
  | a :: rest =>
    if !g.hasRule a.rule then .error ⟨.ruleUnknown a.rule g.name, a.interval⟩
    else if a.lexical && isSyntactic a.rule then .error ⟨.syntacticInLexical a.rule, a.interval⟩
    else checkApplications g rest

/-! ### Grammars -/

/-- The grammars of a source, in order. -/
abbrev Namespace := List Grammar

def grammar? (ns : Namespace) (name : String) : Option Grammar :=
  ns.find? (·.name == name)

/-- The grammar that a declaration extends, which is that of the built-in rules if it names none. -/
def superGrammar (ns : Namespace) (t : Tree.Located) : Attempt Grammar :=
  match t.first? "SuperGrammar" with
  | none => .ok builtInRules
  | some decl => do
    let ident ← child decl "ident"
    match grammar? ns ident.text with
    | some g => return g
    | none => throw ⟨.grammarUnknown ident.text, ident.interval⟩

def readGrammar (ns : Namespace) (t : Tree.Located) : Attempt Grammar := do
  let ident ← child t "ident"
  if (grammar? ns ident.text).isSome then
    throw ⟨.grammarDeclared ident.text, ident.interval⟩
  let super ← superGrammar ns t
  let s ← (t.named "Rule").foldlM (readRule super.name)
    ⟨.extending (some super) ident.text, [], [], false⟩
  checkApplications s.grammar s.applications
  return s.grammar

end Grammar.Build

open Grammar.Build in
/-- The grammars that a matched source declares. -/
def Grammar.ofResult (r : Match.Result) : Except BuildError Grammar.Build.Namespace :=
  match r.root? with
  | none => .error ⟨.unmatched, r.interval⟩
  | some root =>
    (root.named "Grammar").foldlM (fun ns t => do return ns ++ [← readGrammar ns t]) []

end Pegboard
