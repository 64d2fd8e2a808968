import Pegboard.Grammar
import Pegboard.Match.Memo

/-!
# Evaluation of parsing expressions

An evaluation begins at a cursor and either fails or moves the cursor on. Beside that it keeps a
log, of the failures met and of how far it looked, and the memo table, in which every rule
application at a place is worked out once.

A rule that applies itself at the place where it is applied reads the seed in its own entry. If it
did so and matched, it is evaluated again with the match as the seed for as long as that covers
more of the text. What an application found while it read the seed of a rule further out holds only
as long as that seed does, and is not kept in the table.

Rule applications nest no deeper than a given limit. An evaluation that would go beyond it comes to
nothing at all, which is neither a match nor a failure.
-/

namespace Pegboard.Match

/-- What stays the same during a match. -/
structure Setting where
  grammar : Grammar
  input : Text.Input
  /-- Whether a trace is kept. -/
  tracing : Bool

structure Cursor where
  pos : Nat
  /-- The trees found since the innermost rule or iteration began, the last one first, each with its
  offset. -/
  found : List (Nat × Tree)

/-- Reads a tree that begins at the cursor. -/
def Cursor.push (c : Cursor) (t : Tree) : Cursor where
  pos := c.pos + t.length
  found := (c.pos, t) :: c.found

/-- The trees found, in order, each with its offset from `start`. -/
def Cursor.children (c : Cursor) (start : Nat) : List (Nat × Tree) :=
  c.found.reverse.map fun (offset, t) => (offset - start, t)

structure Log where
  failures : Failures
  /-- The end of the text looked at, which is one past the end if the end itself was. -/
  reach : Nat
  /-- How many of the rules being evaluated, counted from the innermost one, there are up to the
  outermost one whose seed was read; zero if none was. -/
  heads : Nat
  /-- The nodes recorded since the innermost node began, the last one first. -/
  trace : List Trace.Node

namespace Log

/-- The log of an evaluation that begins at an offset. -/
def start (pos : Nat) : Log := ⟨∅, pos, 0, []⟩

def examine (log : Log) (stop : Nat) : Log :=
  { log with reach := max log.reach stop }

def fail (log : Log) (pos : Nat) (e : Expectation) : Log :=
  { log with failures := log.failures.record pos e }

/-- Marks the last node as one that skips spaces unasked. -/
def markSpaces (log : Log) : Log :=
  match log.trace with
  | [] => log
  | n :: rest => { log with trace := { n with implicitSpaces := true } :: rest }

def note (log : Log) (tracing : Bool) (n : Trace.Node) : Log :=
  if tracing then { log with trace := n :: log.trace } else log

end Log

/-- What an evaluation came to: a cursor moved on, unless it failed. -/
structure Outcome where
  cursor? : Option Cursor
  log : Log
  memo : Memo

/-- An evaluation at a cursor. It has no outcome if rule applications nested too deep. -/
abbrev Evaluation := Cursor → Log → Memo → Option Outcome

namespace Evaluation

/-! ### Reading the text -/

def any (set : Setting) : Evaluation := fun c log memo =>
  match set.input.rest c.pos with
  | [] => some ⟨none, (log.examine (set.input.size + 1)).fail c.pos .any, memo⟩
  | ch :: _ => some ⟨some (c.push (.terminal ch.utf8Size)), log.examine (c.pos + ch.utf8Size), memo⟩

def range (set : Setting) (lo hi : Char) : Evaluation := fun c log memo =>
  match set.input.rest c.pos with
  | [] => some ⟨none, (log.examine (set.input.size + 1)).fail c.pos (.range lo hi), memo⟩
  | ch :: _ =>
    let log := log.examine (c.pos + ch.utf8Size)
    if lo ≤ ch ∧ ch ≤ hi then some ⟨some (c.push (.terminal ch.utf8Size)), log, memo⟩
    else some ⟨none, log.fail c.pos (.range lo hi), memo⟩

def terminal (set : Setting) (s : String) : Evaluation := fun c log memo =>
  let stop := c.pos + s.utf8ByteSize
  let log := log.examine (if set.input.size < stop then set.input.size + 1 else stop)
  if s.toList.isPrefixOf (set.input.rest c.pos) then
    some ⟨some (c.push (.terminal s.utf8ByteSize)), log, memo⟩
  else some ⟨none, log.fail c.pos (.terminal s), memo⟩

def endOfInput (set : Setting) : Evaluation := fun c log memo =>
  let log := log.examine (c.pos + 1)
  if set.input.size ≤ c.pos then some ⟨some c, log, memo⟩
  else some ⟨none, log.fail c.pos .endOfInput, memo⟩

/-! ### Combining evaluations -/

/-- Skips spaces: moves the cursor over a match of `spaces` and forgets its tree and its failures. -/
def skipSpaces (apply : String → Evaluation) : Evaluation := fun c log memo =>
  match apply "spaces" c { log with failures := ∅ } memo with
  | none => none
  | some ⟨c?, inner, memo⟩ =>
    let pos := match c? with
      | some c' => c'.pos
      | none => c.pos
    some ⟨some { c with pos := pos }, { inner with failures := log.failures }.markSpaces, memo⟩

/-- The second evaluation where the first one ended. -/
def andThen (first second : Evaluation) : Evaluation := fun c log memo =>
  match first c log memo with
  | none => none
  | some ⟨none, log, memo⟩ => some ⟨none, log, memo⟩
  | some ⟨some c, log, memo⟩ => second c log memo

/-- The second evaluation from the same place if the first one failed. -/
def orElse (first second : Evaluation) : Evaluation := fun c log memo =>
  match first c log memo with
  | none => none
  | some ⟨none, log, memo⟩ => second c log memo
  | some ⟨some c, log, memo⟩ => some ⟨some c, log, memo⟩

/-- The evaluation, after spaces where they are to be skipped. -/
def spaced (apply : String → Evaluation) (skip : Bool) (e : Evaluation) : Evaluation :=
  if skip then (skipSpaces apply).andThen e else e

/-- The evaluation as one node of the trace. -/
def traced (set : Setting) (expr : Expr) (e : Evaluation) : Evaluation := fun c log memo =>
  if set.tracing then
    match e c { log with trace := [] } memo with
    | none => none
    | some ⟨c?, inner, memo⟩ =>
      let node : Trace.Node :=
        { step := .eval expr
          start := c.pos
          stop := match c? with
            | some c' => c'.pos
            | none => c.pos
          succeeded := c?.isSome
          memoized := false
          implicitSpaces := false
          children := inner.trace.reverse }
      some ⟨c?, { inner with trace := node :: log.trace }, memo⟩
  else e c log memo

/-- Matches nothing where `e` fails. The failures of `e` do not count. -/
def not (expr : Expr) (e : Evaluation) : Evaluation := fun c log memo =>
  match e c { log with failures := ∅ } memo with
  | none => none
  | some ⟨none, inner, memo⟩ => some ⟨some c, { inner with failures := log.failures }, memo⟩
  | some ⟨some _, inner, memo⟩ =>
    some ⟨none, { inner with failures := log.failures }.fail c.pos (.not expr.text), memo⟩

/-- Matches nothing where `e` matches. -/
def look (e : Evaluation) : Evaluation := fun c log memo =>
  match e c log memo with
  | none => none
  | some ⟨c?, log, memo⟩ => some ⟨c?.map fun _ => c, log, memo⟩

/-- Repeats `e` while it matches, for a number of rounds at most, and ends with a round that does not
move the cursor. Fails if no round matched. -/
def rounds (e : Evaluation) : Nat → (matched : Bool) → Evaluation
  | 0, matched => fun c log memo => some ⟨if matched then some c else none, log, memo⟩
  | n + 1, matched => fun c log memo =>
    match e c log memo with
    | none => none
    | some ⟨none, log, memo⟩ => some ⟨if matched then some c else none, log, memo⟩
    | some ⟨some c', log, memo⟩ =>
      if c'.pos = c.pos then some ⟨some c', log, memo⟩ else rounds e n true c' log memo

/-- The rounds that an iteration can take. Every round but the last one moves the cursor, which
stays in the text. -/
def roundLimit (set : Setting) (op : Repeat) (pos : Nat) : Nat :=
  match op with
  | .opt => 1
  | .star | .plus => set.input.size - pos + 1

/-- An iteration of `e` as one tree. -/
def iter (set : Setting) (op : Repeat) (e : Evaluation) : Evaluation := fun c log memo =>
  match rounds e (roundLimit set op c.pos) (op != .plus) ⟨c.pos, []⟩ log memo with
  | none => none
  | some ⟨none, log, memo⟩ => some ⟨none, log, memo⟩
  | some ⟨some c', log, memo⟩ =>
    let tree := Tree.iter (op == .opt) (c'.pos - c.pos) (c'.children c.pos)
    some ⟨some (c.push tree), log, memo⟩

/-! ### Expressions -/

section

variable (set : Setting) (apply : String → Evaluation)

mutual

/-- The evaluation of an expression, in a syntactic context with spaces skipped before whatever
reads the text. The spaces themselves are read as they are. -/
def ofExpr (syntactic : Bool) : Expr → Evaluation
  | .any => spaced apply syntactic (traced set .any (any set))
  | .endOfInput => spaced apply syntactic (traced set .endOfInput (endOfInput set))
  | .terminal s => spaced apply syntactic (traced set (.terminal s) (terminal set s))
  | .range lo hi => spaced apply syntactic (traced set (.range lo hi) (range set lo hi))
  | .apply rule => spaced apply (syntactic && rule != "spaces") (apply rule)
  | .alt es => traced set (.alt es) (ofChoices syntactic es)
  | .seq es => traced set (.seq es) (ofParts syntactic es)
  | .iter op e => traced set (.iter op e) (iter set op (ofExpr syntactic e))
  | .not e => traced set (.not e) (not e (ofExpr syntactic e))
  | .look e => traced set (.look e) (look (ofExpr syntactic e))
  | .lex e => traced set (.lex e) (ofExpr false e)

def ofChoices (syntactic : Bool) : List Expr → Evaluation
  | [] => fun _ log memo => some ⟨none, log, memo⟩
  | e :: es => (ofExpr syntactic e).orElse (ofChoices syntactic es)

def ofParts (syntactic : Bool) : List Expr → Evaluation
  | [] => fun c log memo => some ⟨some c, log, memo⟩
  | e :: es => (ofExpr syntactic e).andThen (ofParts syntactic es)

end

end

/-! ### Rule applications -/

/-- A rule being evaluated at an offset. -/
abbrev Frame := Nat × String

/-- The part of an entry's outcome that does not depend on who reads it, as a trace node. -/
def reused (rule : String) (pos : Nat) (tree? : Option Tree) (trace? : Option Trace.Node) :
    Trace.Node :=
  let node := trace?.getD
    (.application rule pos (pos + (tree?.map (·.length)).getD 0) tree?.isSome [])
  { node with memoized := true }

/-- The outcome of an application that has an entry. Reading a seed is noted in the entry and makes
the outcome depend on the frame that is growing it. -/
def reuse (set : Setting) (frames : List Frame) (rule : String) (entry : Entry) (c : Cursor)
    (log : Log) (memo : Memo) : Outcome :=
  match entry with
  | .growing seed? trace? _ =>
    let heads := match frames.findIdx? (· == (c.pos, rule)) with
      | some i => i + 1
      | none => 0
    { cursor? := seed?.map c.push
      log := { log.examine c.pos with heads := max log.heads heads }.note set.tracing
        (reused rule c.pos seed? trace?)
      memo := memo.put c.pos rule (.growing seed? trace? true) }
  | .settled s =>
    { cursor? := s.tree?.map c.push
      log := { log.examine (c.pos + s.examined) with
          failures := log.failures.merge (s.failures.absoluteFrom c.pos) }.note set.tracing
        (reused rule c.pos s.tree? s.trace?)
      memo := memo }

/-- One evaluation of the body of a rule: the tree, if the body matched, and the nodes recorded. -/
structure Round where
  tree? : Option Tree
  trace : List Trace.Node

def round (rule : String) (pos : Nat) (body : Evaluation) (log : Log) (memo : Memo) :
    Option (Round × Log × Memo) :=
  match body ⟨pos, []⟩ { log with trace := [] } memo with
  | none => none
  | some ⟨c?, log, memo⟩ =>
    let tree? := c?.map fun c => .rule rule (c.pos - pos) (c.children pos)
    some (⟨tree?, log.trace.reverse⟩, log, memo)

/-- Evaluates the body of a rule with the last match as the seed while it covers more of the text,
for a number of rounds at most. -/
def grow (set : Setting) (rule : String) (pos : Nat) (body : Evaluation) :
    Nat → Tree → List Trace.Node → Log → Memo → Option (Round × Log × Memo)
  | 0, best, trace, log, memo => some (⟨some best, trace⟩, log, memo)
  | n + 1, best, trace, log, memo =>
    let seedTrace? :=
      if set.tracing then some (.application rule pos (pos + best.length) true trace) else none
    match round rule pos body log (memo.put pos rule (.growing (some best) seedTrace? true)) with
    | none => none
    | some (⟨none, _⟩, log, memo) => some (⟨some best, trace⟩, log, memo)
    | some (⟨some t, trace'⟩, log, memo) =>
      if t.length ≤ best.length then some (⟨some best, trace⟩, log, memo)
      else grow set rule pos body n t trace' log memo

/-- Whether the seed of a rule being evaluated was read. -/
def seedRead (memo : Memo) (pos : Nat) (rule : String) : Bool :=
  match memo.find? pos rule with
  | some (.growing _ _ read) => read
  | _ => false

/-- The body of a rule evaluated once, or, if the rule read its own seed, until it stops growing.
Every round but the last one covers more of the text. -/
def settle (set : Setting) (rule : String) (pos : Nat) (body : Evaluation) (memo : Memo) :
    Option (Round × Log × Memo) :=
  match round rule pos body (.start pos) (memo.put pos rule (.growing none none false)) with
  | none => none
  | some (⟨none, trace⟩, log, memo) => some (⟨none, trace⟩, log, memo)
  | some (⟨some t, trace⟩, log, memo) =>
    if seedRead memo pos rule then grow set rule pos body (set.input.size + 1) t trace log memo
    else some (⟨some t, trace⟩, log, memo)

/-- The failures that an application reports: a described rule reports its description in place of
all others, and nothing if it matched. -/
def reported (rule : Rule) (pos : Nat) (matched : Bool) (failures : Failures) : Failures :=
  match rule.description with
  | none => failures
  | some d => if matched then ∅ else .single pos (.description d)

/-- Works out the application of a rule. The result is kept unless it depends on the seed of a rule
further out. -/
def work (set : Setting) (rule : Rule) (body : Evaluation) : Evaluation := fun c log memo =>
  match settle set rule.name c.pos body memo with
  | none => none
  | some (⟨tree?, trace⟩, inner, memo) =>
    let failures := reported rule c.pos tree?.isSome inner.failures
    let stop := c.pos + (tree?.map (·.length)).getD 0
    let node := Trace.Node.application rule.name c.pos stop tree?.isSome trace
    let memo :=
      if 2 ≤ inner.heads then memo.drop c.pos rule.name
      else memo.put c.pos rule.name (.settled
        { tree? := tree?
          examined := inner.reach - c.pos
          failures := failures.relativeTo c.pos
          trace? := if set.tracing then some node else none })
    let outer : Log :=
      { failures := log.failures.merge failures
        reach := max log.reach inner.reach
        heads := max log.heads (inner.heads - 1)
        trace := log.trace }
    some ⟨tree?.map c.push, outer.note set.tracing node, memo⟩

/-- The application of a rule by its name, below the frames, with `depth` more applications to nest.
Nothing matches a name without a rule. -/
def ofRule (set : Setting) (depth : Nat) (frames : List Frame) (name : String) : Evaluation :=
  fun c log memo =>
    match set.grammar.rule? name with
    | none => some ⟨none, log, memo⟩
    | some rule =>
      match memo.find? c.pos rule.name with
      | some entry => some (reuse set frames rule.name entry c log memo)
      | none =>
        match depth with
        | 0 => none
        | depth + 1 =>
          descend depth fun _ =>
            work set rule
              (ofExpr set (ofRule set depth ((c.pos, rule.name) :: frames))
                (isSyntactic rule.name) rule.body)
              c log memo

end Evaluation

/-- How deep rule applications may nest. -/
def nestingLimit : Nat := 20000

/-- What matching a whole text came to. -/
structure Answer where
  /-- The tree and its offset, if the text matched. -/
  tree? : Option (Nat × Tree)
  failures : Failures
  trace : Trace.Node

open Evaluation in
/-- Matches the whole text from a rule, which has to be in the grammar. A syntactic start rule lets
spaces stand before and after its match. -/
def run (set : Setting) (limit : Nat) (start : String) (memo : Memo) : Option (Answer × Memo) :=
  let apply := ofRule set limit []
  let syntactic := isSyntactic start
  match spaced apply syntactic (fun c log memo => some ⟨some c, log, memo⟩) ⟨0, []⟩ (.start 0) memo with
  | none => none
  | some ⟨c?, log, memo⟩ =>
    let c := c?.getD ⟨0, []⟩
    match (apply start).andThen (ofExpr set apply syntactic .endOfInput) c log memo with
    | none => none
    | some ⟨c?, log, memo⟩ =>
      let root : Trace.Node :=
        { step := .root start
          start := 0
          stop := (c?.map (·.pos)).getD 0
          succeeded := c?.isSome
          memoized := false
          implicitSpaces := false
          children := log.trace.reverse }
      some (⟨c?.bind fun c => c.found.head?, log.failures, root⟩, memo)

end Pegboard.Match
