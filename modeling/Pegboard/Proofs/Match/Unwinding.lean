import Pegboard.Match.Session
import Pegboard.Proofs.Match.Outcomes

/-!
# The nesting limit

An evaluation need not come to nothing at once where rule applications nest too deep. It can set a
flag instead and go on, with the application failed that would have gone beyond the limit, and with
every later one failed as well. A negative lookahead, a choice or an option turns such a failure
into a match, and the memo table fills with entries that are not true. None of that matters, as the
flag is never taken back: whatever was found under it is thrown away in the end.

The evaluations below go on in this way. Each is compared with the one that breaks off, under a
limit that is the same or a larger one (`Accords`): without the flag both come to the same, and with
it the other one breaks off, if it has no larger limit.

Main statements: `run_eq_unwind`, `Grammar.nesting_limit`.
-/

namespace Pegboard.Match

/-- Where a computation has come that goes on when it has nested too deep. -/
structure Progress (α : Type) where
  value : α
  log : Log
  memo : Memo
  tooDeep : Bool

/-- A computation that begins with the flag set or not. -/
abbrev Flagged (α : Type) := Bool → Progress α

namespace Flagged

variable {α β : Type}

def pure (value : α) (log : Log) (memo : Memo) : Flagged α := fun tooDeep =>
  ⟨value, log, memo, tooDeep⟩

/-- The outcome, with the flag as it is. -/
def outcome (out : Outcome) : Flagged (Option Cursor) :=
  pure out.cursor? out.log out.memo

/-- Goes on from where the first computation came to, whether or not it set the flag. -/
def bind (first : Flagged α) (next : α → Log → Memo → Flagged β) : Flagged β := fun tooDeep =>
  let p := first tooDeep
  next p.value p.log p.memo p.tooDeep

end Flagged

/-- An evaluation that goes on when it has nested too deep. -/
abbrev Unwinding := Cursor → Log → Memo → Flagged (Option Cursor)

namespace Unwinding

/-- What only reads the text reads it with the flag set as without. -/
def reading (e : Evaluation) : Unwinding := fun c log memo =>
  .outcome ((e c log memo).getD ⟨none, log, memo⟩)

/-! ### Combining evaluations -/

def skipSpaces (apply : String → Unwinding) : Unwinding := fun c log memo =>
  (apply "spaces" c { log with failures := ∅ } memo).bind fun c? inner memo =>
    .pure (some { c with pos := (c?.map (·.pos)).getD c.pos })
      { inner with failures := log.failures }.markSpaces memo

def andThen (first second : Unwinding) : Unwinding := fun c log memo =>
  (first c log memo).bind fun c? log memo =>
    match c? with
    | none => .pure none log memo
    | some c => second c log memo

def orElse (first second : Unwinding) : Unwinding := fun c log memo =>
  (first c log memo).bind fun c? log memo =>
    match c? with
    | none => second c log memo
    | some c => .pure (some c) log memo

def spaced (apply : String → Unwinding) (skip : Bool) (u : Unwinding) : Unwinding :=
  if skip then (skipSpaces apply).andThen u else u

def traced (set : Setting) (expr : Expr) (u : Unwinding) : Unwinding := fun c log memo =>
  if set.tracing then
    (u c { log with trace := [] } memo).bind fun c? inner memo =>
      .pure c? { inner with
        trace := Evaluation.evalNode expr c ⟨c?, inner, memo⟩ :: log.trace } memo
  else u c log memo

def not (expr : Expr) (u : Unwinding) : Unwinding := fun c log memo =>
  (u c { log with failures := ∅ } memo).bind fun c? inner memo =>
    let log := { inner with failures := log.failures }
    match c? with
    | none => .pure (some c) log memo
    | some _ => .pure none (log.fail c.pos (.not expr.text)) memo

def look (u : Unwinding) : Unwinding := fun c log memo =>
  (u c log memo).bind fun c? log memo => .pure (c?.map fun _ => c) log memo

def rounds (u : Unwinding) : Nat → (matched : Bool) → Unwinding
  | 0, matched => fun c log memo => .pure (if matched then some c else none) log memo
  | n + 1, matched => fun c log memo =>
    (u c log memo).bind fun c? log memo =>
      match c? with
      | none => .pure (if matched then some c else none) log memo
      | some c' =>
        if c'.pos = c.pos then .pure (some c') log memo else rounds u n true c' log memo

def iter (set : Setting) (op : Repeat) (u : Unwinding) : Unwinding := fun c log memo =>
  (rounds u (Evaluation.roundLimit set op c.pos) (op != .plus) ⟨c.pos, []⟩ log memo).bind
    fun c? log memo =>
      .pure (c?.map fun c' =>
        c.push (.iter (op == .opt) (c'.pos - c.pos) (c'.children c.pos))) log memo

/-! ### Expressions -/

section

variable (set : Setting) (apply : String → Unwinding)

mutual

def ofExpr (syntactic : Bool) : Expr → Unwinding
  | .any => spaced apply syntactic (traced set .any (reading (Evaluation.any set)))
  | .endOfInput =>
    spaced apply syntactic (traced set .endOfInput (reading (Evaluation.endOfInput set)))
  | .terminal s =>
    spaced apply syntactic (traced set (.terminal s) (reading (Evaluation.terminal set s)))
  | .range lo hi =>
    spaced apply syntactic (traced set (.range lo hi) (reading (Evaluation.range set lo hi)))
  | .apply rule => spaced apply (syntactic && rule != "spaces") (apply rule)
  | .alt es => traced set (.alt es) (ofChoices syntactic es)
  | .seq es => traced set (.seq es) (ofParts syntactic es)
  | .iter op e => traced set (.iter op e) (iter set op (ofExpr syntactic e))
  | .not e => traced set (.not e) (not e (ofExpr syntactic e))
  | .look e => traced set (.look e) (look (ofExpr syntactic e))
  | .lex e => traced set (.lex e) (ofExpr false e)

def ofChoices (syntactic : Bool) : List Expr → Unwinding
  | [] => fun _ log memo => .pure none log memo
  | e :: es => (ofExpr syntactic e).orElse (ofChoices syntactic es)

def ofParts (syntactic : Bool) : List Expr → Unwinding
  | [] => fun c log memo => .pure (some c) log memo
  | e :: es => (ofExpr syntactic e).andThen (ofParts syntactic es)

end

end

/-! ### Rule applications -/

def round (rule : String) (pos : Nat) (body : Unwinding) (log : Log) (memo : Memo) :
    Flagged Evaluation.Round :=
  (body ⟨pos, []⟩ { log with trace := [] } memo).bind fun c? log memo =>
    .pure ⟨c?.map fun c => .rule rule (c.pos - pos) (c.children pos), log.trace.reverse⟩ log memo

def grow (set : Setting) (rule : String) (pos : Nat) (body : Unwinding) :
    Nat → Tree → List Trace.Node → Log → Memo → Flagged Evaluation.Round
  | 0, best, trace, log, memo => .pure ⟨some best, trace⟩ log memo
  | n + 1, best, trace, log, memo =>
    (round rule pos body log (memo.put pos rule (Evaluation.reseeded set rule pos best trace))).bind
      fun r log memo =>
        match r.tree? with
        | none => .pure ⟨some best, trace⟩ log memo
        | some t =>
          if t.length ≤ best.length then .pure ⟨some best, trace⟩ log memo
          else grow set rule pos body n t r.trace log memo

def settle (set : Setting) (rule : String) (pos : Nat) (body : Unwinding) (memo : Memo) :
    Flagged Evaluation.Round :=
  (round rule pos body (.start pos) (memo.put pos rule (.growing none none false))).bind
    fun r log memo =>
      match r.tree? with
      | none => .pure r log memo
      | some t =>
        if Evaluation.seedRead memo pos rule then
          grow set rule pos body (set.input.size + 1) t r.trace log memo
        else .pure r log memo

def work (set : Setting) (rule : Rule) (body : Unwinding) : Unwinding := fun c log memo =>
  (settle set rule.name c.pos body memo).bind fun r inner memo =>
    .outcome (Evaluation.concluded set rule c log r inner memo)

/-- With the flag set every application fails. An application that would nest too deep sets it. -/
def ofRule (set : Setting) (depth : Nat) (frames : List Evaluation.Frame) (name : String) :
    Unwinding := fun c log memo tooDeep =>
  if tooDeep then ⟨none, log, memo, true⟩
  else
    match set.grammar.rule? name with
    | none => ⟨none, log, memo, false⟩
    | some rule =>
      match memo.find? c.pos rule.name with
      | some entry =>
        Flagged.outcome (Evaluation.reuse set frames rule.name entry c log memo) false
      | none =>
        match depth with
        | 0 => ⟨none, log, memo, true⟩
        | depth + 1 =>
          work set rule
            (ofExpr set (ofRule set depth ((c.pos, rule.name) :: frames))
              (isSyntactic rule.name) rule.body)
            c log memo false

end Unwinding

/-- The start rule and the end of the text, behind the spaces that may stand before them. -/
def Unwinding.whole (set : Setting) (limit : Nat) (start : String) (memo : Memo) :
    Flagged (Option Cursor) :=
  let apply := ofRule set limit []
  (spaced apply (isSyntactic start) (fun c => .pure (some c)) ⟨0, []⟩ (.start 0) memo).bind
    fun c? =>
      (apply start).andThen (ofExpr set apply (isSyntactic start) .endOfInput) (c?.getD ⟨0, []⟩)

/-- Matches the whole text and goes on to the end in any case. A match found with the flag set is
none. -/
def unwind (set : Setting) (limit : Nat) (start : String) (memo : Memo) : Progress Answer :=
  let p := Unwinding.whole set limit start memo false
  let out : Outcome := ⟨if p.tooDeep then none else p.value, p.log, p.memo⟩
  ⟨⟨out.cursor?.bind (·.found.head?), out.log.failures, rootNode start out⟩, p.log, p.memo,
    p.tooDeep⟩

/-! ## Going on and breaking off -/

section

variable {α β γ δ : Type} {mk : α → Log → Memo → β} {mk' : γ → Log → Memo → δ} {same : Prop}

/-- What a computation that goes on has come to, beside one that breaks off, whose result `mk` puts
together: without the flag it is the same. With the flag the other one broke off, at least if both
have the `same` limit. -/
inductive Tallies (mk : α → Log → Memo → β) (same : Prop) : Progress α → Option β → Prop
  | done (value : α) (log : Log) (memo : Memo) :
      Tallies mk same ⟨value, log, memo, false⟩ (some (mk value log memo))
  | deep {value : α} {log : Log} {memo : Memo} {result : Option β} (h : same → result = none) :
      Tallies mk same ⟨value, log, memo, true⟩ result

theorem Tallies.of_tooDeep {p : Progress α} {result : Option β} (hdeep : p.tooDeep = true)
    (h : same → result = none) : Tallies mk same p result := by
  obtain ⟨value, log, memo, tooDeep⟩ := p
  obtain rfl : tooDeep = true := hdeep
  exact .deep h

/-- A computation that goes on keeps a flag that is set, and otherwise comes to what the one comes
to that breaks off. -/
structure Accords (mk : α → Log → Memo → β) (same : Prop) (going : Flagged α)
    (result : Option β) : Prop where
  sticks : (going true).tooDeep = true
  tallies : Tallies mk same (going false) result

theorem Accords.pure (value : α) (log : Log) (memo : Memo) :
    Accords mk same (.pure value log memo) (some (mk value log memo)) :=
  ⟨rfl, .done value log memo⟩

/-- A flag set by the first computation stays set, whatever the second one makes of its value. -/
theorem Accords.bind {first : Flagged α} {result : Option β} {next : α → Log → Memo → Flagged γ}
    {next' : β → Option δ} (h : Accords mk same first result)
    (hnext : ∀ value log memo, Accords mk' same (next value log memo) (next' (mk value log memo))) :
    Accords mk' same (first.bind next) (result.bind next') where
  sticks := by
    rw [Flagged.bind, h.sticks]
    exact (hnext _ _ _).sticks
  tallies := by
    rw [Flagged.bind]
    generalize first false = p, h.tallies = htallies
    cases htallies with
    | done value log memo => exact (hnext value log memo).tallies
    | deep hresult =>
        refine .of_tooDeep (hnext _ _ _).sticks fun hsame => ?_
        rw [hresult hsame, Option.bind_none]

end

/-- The two evaluations accord wherever they begin. -/
def Unwinds (same : Prop) (u : Unwinding) (e : Evaluation) : Prop :=
  ∀ c log memo, Accords Outcome.mk same (u c log memo) (e c log memo)

namespace Unwinds

variable {same : Prop} {set : Setting} {u first second : Unwinding} {e first' second' : Evaluation}
  {apply : String → Unwinding} {eval : String → Evaluation}

theorem reading (h : ∀ c log memo, (e c log memo).isSome = true) :
    Unwinds same (Unwinding.reading e) e := by
  intro c log memo
  obtain ⟨out, hout⟩ := Option.isSome_iff_exists.mp (h c log memo)
  rw [Unwinding.reading, hout]
  exact .pure _ _ _

theorem any : Unwinds same (.reading (.any set)) (.any set) :=
  reading fun c log memo => by
    rw [Evaluation.any]
    split <;> rfl

theorem endOfInput : Unwinds same (.reading (.endOfInput set)) (.endOfInput set) :=
  reading fun c log memo => by
    rw [Evaluation.endOfInput]
    split <;> rfl

theorem terminal (s : String) :
    Unwinds same (.reading (.terminal set s)) (.terminal set s) :=
  reading fun c log memo => by
    rw [Evaluation.terminal]
    split <;> rfl

theorem range (lo hi : Char) :
    Unwinds same (.reading (.range set lo hi)) (.range set lo hi) :=
  reading fun c log memo => by
    rw [Evaluation.range]
    split
    · rfl
    · dsimp only
      split <;> rfl

theorem skipSpaces (h : Unwinds same (apply "spaces") (eval "spaces")) :
    Unwinds same (.skipSpaces apply) (.skipSpaces eval) := by
  intro c log memo
  have hbind : Evaluation.skipSpaces eval c log memo =
      (eval "spaces" c { log with failures := ∅ } memo).bind fun out =>
        some ⟨some { c with pos := (out.cursor?.map (·.pos)).getD c.pos },
          Log.markSpaces { out.log with failures := log.failures }, out.memo⟩ := by
    rw [Evaluation.skipSpaces]
    rcases eval "spaces" c { log with failures := ∅ } memo with _ | ⟨_ | c', inner, memo⟩ <;> rfl
  rw [hbind]
  exact (h c _ memo).bind fun c? inner memo => .pure _ _ _

theorem andThen (h₁ : Unwinds same first first') (h₂ : Unwinds same second second') :
    Unwinds same (first.andThen second) (first'.andThen second') := by
  intro c log memo
  have hbind : first'.andThen second' c log memo = (first' c log memo).bind fun out =>
      match out.cursor? with
      | none => some ⟨none, out.log, out.memo⟩
      | some c => second' c out.log out.memo := by
    rw [Evaluation.andThen]
    rcases first' c log memo with _ | ⟨_ | c', log, memo⟩ <;> rfl
  rw [hbind]
  refine (h₁ c log memo).bind fun c? log memo => ?_
  cases c? with
  | none => exact .pure none log memo
  | some c => exact h₂ c log memo

theorem orElse (h₁ : Unwinds same first first') (h₂ : Unwinds same second second') :
    Unwinds same (first.orElse second) (first'.orElse second') := by
  intro c log memo
  have hbind : first'.orElse second' c log memo = (first' c log memo).bind fun out =>
      match out.cursor? with
      | none => second' c out.log out.memo
      | some c => some ⟨some c, out.log, out.memo⟩ := by
    rw [Evaluation.orElse]
    rcases first' c log memo with _ | ⟨_ | c', log, memo⟩ <;> rfl
  rw [hbind]
  refine (h₁ c log memo).bind fun c? log memo => ?_
  cases c? with
  | none => exact h₂ c log memo
  | some c => exact .pure (some c) log memo

theorem spaced (skip : Bool) (h : Unwinds same (apply "spaces") (eval "spaces"))
    (hu : Unwinds same u e) : Unwinds same (.spaced apply skip u) (.spaced eval skip e) := by
  cases skip with
  | false => exact hu
  | true => exact (skipSpaces h).andThen hu

theorem traced (expr : Expr) (h : Unwinds same u e) :
    Unwinds same (.traced set expr u) (.traced set expr e) := by
  intro c log memo
  by_cases htracing : set.tracing = true
  · have hbind : Evaluation.traced set expr e c log memo =
        (e c { log with trace := [] } memo).bind fun out =>
          some ⟨out.cursor?,
            { out.log with trace := Evaluation.evalNode expr c out :: log.trace }, out.memo⟩ := by
      rw [Evaluation.traced, if_pos htracing]
      rcases e c { log with trace := [] } memo with _ | ⟨_ | c', inner, memo⟩ <;> rfl
    rw [hbind, Unwinding.traced, if_pos htracing]
    exact (h c _ memo).bind fun c? inner memo => .pure _ _ _
  · rw [Unwinding.traced, Evaluation.traced, if_neg htracing, if_neg htracing]
    exact h c log memo

theorem not (expr : Expr) (h : Unwinds same u e) :
    Unwinds same (.not expr u) (.not expr e) := by
  intro c log memo
  have hbind : Evaluation.not expr e c log memo =
      (e c { log with failures := ∅ } memo).bind fun out =>
        match out.cursor? with
        | none => some ⟨some c, { out.log with failures := log.failures }, out.memo⟩
        | some _ =>
          let log := { out.log with failures := log.failures }
          some ⟨none, log.fail c.pos (.not expr.text), out.memo⟩ := by
    rw [Evaluation.not]
    rcases e c { log with failures := ∅ } memo with _ | ⟨_ | c', inner, memo⟩ <;> rfl
  rw [hbind]
  refine (h c _ memo).bind fun c? inner memo => ?_
  cases c? <;> exact .pure _ _ _

theorem look (h : Unwinds same u e) : Unwinds same (.look u) (.look e) := by
  intro c log memo
  have hbind : Evaluation.look e c log memo = (e c log memo).bind fun out =>
      some ⟨out.cursor?.map fun _ => c, out.log, out.memo⟩ := by
    rw [Evaluation.look]
    rcases e c log memo with _ | out <;> rfl
  rw [hbind]
  exact (h c log memo).bind fun c? log memo => .pure _ _ _

theorem rounds (h : Unwinds same u e) (n : Nat) (matched : Bool) :
    Unwinds same (.rounds u n matched) (.rounds e n matched) := by
  induction n generalizing matched with
  | zero => exact fun c log memo => .pure _ _ _
  | succ n ih =>
      intro c log memo
      have hbind : Evaluation.rounds e (n + 1) matched c log memo = (e c log memo).bind fun out =>
          match out.cursor? with
          | none => some ⟨if matched then some c else none, out.log, out.memo⟩
          | some c' =>
            if c'.pos = c.pos then some ⟨some c', out.log, out.memo⟩
            else Evaluation.rounds e n true c' out.log out.memo := by
        simp only [Evaluation.rounds]
        rcases e c log memo with _ | ⟨_ | c', log, memo⟩ <;> rfl
      rw [hbind, Unwinding.rounds]
      refine (h c log memo).bind fun c? log memo => ?_
      cases c? with
      | none => exact .pure _ _ _
      | some c' =>
          dsimp only
          split
          · exact .pure _ _ _
          · exact ih true c' log memo

theorem iter (op : Repeat) (h : Unwinds same u e) :
    Unwinds same (.iter set op u) (.iter set op e) := by
  intro c log memo
  have hbind : Evaluation.iter set op e c log memo =
      (Evaluation.rounds e (Evaluation.roundLimit set op c.pos) (op != .plus) ⟨c.pos, []⟩
        log memo).bind fun out =>
          let read := fun c' : Cursor =>
            c.push (.iter (op == .opt) (c'.pos - c.pos) (c'.children c.pos))
          some ⟨out.cursor?.map read, out.log, out.memo⟩ := by
    rw [Evaluation.iter]
    rcases Evaluation.rounds e (Evaluation.roundLimit set op c.pos) (op != .plus) ⟨c.pos, []⟩
      log memo with _ | ⟨_ | c', log, memo⟩ <;> rfl
  rw [hbind]
  exact (h.rounds _ _ _ log memo).bind fun c? log memo => .pure _ _ _

mutual

theorem ofExpr (set : Setting) (h : ∀ q, Unwinds same (apply q) (eval q))
    (syntactic : Bool) : (expr : Expr) →
    Unwinds same (.ofExpr set apply syntactic expr) (.ofExpr set eval syntactic expr)
  | .any => by
      rw [Unwinding.ofExpr, Evaluation.ofExpr]
      exact spaced syntactic (h _) (traced _ any)
  | .endOfInput => by
      rw [Unwinding.ofExpr, Evaluation.ofExpr]
      exact spaced syntactic (h _) (traced _ endOfInput)
  | .terminal s => by
      rw [Unwinding.ofExpr, Evaluation.ofExpr]
      exact spaced syntactic (h _) (traced _ (terminal s))
  | .range lo hi => by
      rw [Unwinding.ofExpr, Evaluation.ofExpr]
      exact spaced syntactic (h _) (traced _ (range lo hi))
  | .apply rule => by
      rw [Unwinding.ofExpr, Evaluation.ofExpr]
      exact spaced _ (h _) (h rule)
  | .alt es => by
      rw [Unwinding.ofExpr, Evaluation.ofExpr]
      exact traced _ (ofChoices set h syntactic es)
  | .seq es => by
      rw [Unwinding.ofExpr, Evaluation.ofExpr]
      exact traced _ (ofParts set h syntactic es)
  | .iter op expr => by
      rw [Unwinding.ofExpr, Evaluation.ofExpr]
      exact traced _ (iter op (ofExpr set h syntactic expr))
  | .not expr => by
      rw [Unwinding.ofExpr, Evaluation.ofExpr]
      exact traced _ (not expr (ofExpr set h syntactic expr))
  | .look expr => by
      rw [Unwinding.ofExpr, Evaluation.ofExpr]
      exact traced _ (look (ofExpr set h syntactic expr))
  | .lex expr => by
      rw [Unwinding.ofExpr, Evaluation.ofExpr]
      exact traced _ (ofExpr set h false expr)

theorem ofChoices (set : Setting) (h : ∀ q, Unwinds same (apply q) (eval q))
    (syntactic : Bool) : (es : List Expr) →
    Unwinds same (.ofChoices set apply syntactic es) (.ofChoices set eval syntactic es)
  | [] => by
      rw [Unwinding.ofChoices, Evaluation.ofChoices]
      exact fun c log memo => .pure _ _ _
  | expr :: es => by
      rw [Unwinding.ofChoices, Evaluation.ofChoices]
      exact (ofExpr set h syntactic expr).orElse (ofChoices set h syntactic es)

theorem ofParts (set : Setting) (h : ∀ q, Unwinds same (apply q) (eval q))
    (syntactic : Bool) : (es : List Expr) →
    Unwinds same (.ofParts set apply syntactic es) (.ofParts set eval syntactic es)
  | [] => by
      rw [Unwinding.ofParts, Evaluation.ofParts]
      exact fun c log memo => .pure _ _ _
  | expr :: es => by
      rw [Unwinding.ofParts, Evaluation.ofParts]
      exact (ofExpr set h syntactic expr).andThen (ofParts set h syntactic es)

end

/-- The result of rounds, put together. -/
abbrev settled (r : Evaluation.Round) (log : Log) (memo : Memo) : Evaluation.Round × Log × Memo :=
  (r, log, memo)

theorem round (h : Unwinds same u e) (rule : String) (pos : Nat) (log : Log) (memo : Memo) :
    Accords settled same (Unwinding.round rule pos u log memo)
      (Evaluation.round rule pos e log memo) := by
  have hbind : Evaluation.round rule pos e log memo =
      (e ⟨pos, []⟩ { log with trace := [] } memo).bind fun out =>
        some (settled ⟨out.cursor?.map fun c => .rule rule (c.pos - pos) (c.children pos),
          out.log.trace.reverse⟩ out.log out.memo) := by
    rw [Evaluation.round]
    rcases e ⟨pos, []⟩ { log with trace := [] } memo with _ | out <;> rfl
  rw [hbind]
  exact (h _ _ memo).bind fun c? log memo => .pure _ _ _

theorem grow (h : Unwinds same u e) (rule : String) (pos n : Nat) (best : Tree)
    (trace : List Trace.Node) (log : Log) (memo : Memo) :
    Accords settled same (Unwinding.grow set rule pos u n best trace log memo)
      (Evaluation.grow set rule pos e n best trace log memo) := by
  induction n generalizing best trace log memo with
  | zero => exact .pure _ _ _
  | succ n ih =>
      rw [Evaluation.grow_succ_eq, Unwinding.grow]
      refine (h.round rule pos log _).bind fun r log memo => ?_
      rcases r with ⟨_ | t, trace'⟩
      · exact .pure _ _ _
      · dsimp only [settled]
        split
        · exact .pure _ _ _
        · exact ih t trace' log memo

theorem settle (h : Unwinds same u e) (rule : String) (pos : Nat) (memo : Memo) :
    Accords settled same (Unwinding.settle set rule pos u memo)
      (Evaluation.settle set rule pos e memo) := by
  rw [Evaluation.settle_eq, Unwinding.settle]
  refine (h.round rule pos _ _).bind fun r log memo => ?_
  rcases r with ⟨_ | t, trace⟩
  · exact .pure _ _ _
  · dsimp only [settled]
    split
    · exact h.grow rule pos _ t trace log memo
    · exact .pure _ _ _

theorem work (h : Unwinds same u e) (rule : Rule) :
    Unwinds same (.work set rule u) (.work set rule e) := by
  intro c log memo
  rw [Evaluation.work_eq, Option.map_eq_bind]
  exact (h.settle rule.name c.pos memo).bind fun r inner memo => .pure _ _ _

/-- The induction is on the smaller limit. If that is used up, so is the other one if it is the
same; if not, nothing is said of how the other evaluation goes on. -/
theorem ofRule (set : Setting) {depth depth' : Nat} (hle : depth ≤ depth')
    (frames : List Evaluation.Frame) (name : String) :
    Unwinds (depth = depth') (.ofRule set depth frames name) (.ofRule set depth' frames name) := by
  induction depth generalizing depth' frames name with
  | zero =>
      intro c log memo
      refine ⟨by rw [Unwinding.ofRule]; rfl, ?_⟩
      rw [Unwinding.ofRule, Evaluation.ofRule.eq_def, if_neg Bool.false_ne_true]
      cases set.grammar.rule? name with
      | none => exact .done _ _ _
      | some rule =>
          dsimp only
          cases memo.find? c.pos rule.name with
          | some entry => exact .done _ _ _
          | none => exact .deep fun h => by rw [← h]
  | succ depth ih =>
      obtain ⟨depth', rfl⟩ : ∃ n, depth' = n + 1 := ⟨depth' - 1, by omega⟩
      intro c log memo
      refine ⟨by rw [Unwinding.ofRule]; rfl, ?_⟩
      rw [Unwinding.ofRule, Evaluation.ofRule, if_neg Bool.false_ne_true]
      cases set.grammar.rule? name with
      | none => exact .done _ _ _
      | some rule =>
          dsimp only
          cases memo.find? c.pos rule.name with
          | some entry => exact .done _ _ _
          | none =>
              rw [descend_eq, Nat.add_right_cancel_iff]
              have hbody := Unwinds.ofExpr set
                (ih (Nat.le_of_succ_le_succ hle) ((c.pos, rule.name) :: frames))
                (isSyntactic rule.name) rule.body
              exact (hbody.work rule c log memo).tallies

end Unwinds

/-! ## Matches -/

/-- The start rule and the end of the text, behind the spaces that may stand before them. -/
def Evaluation.whole (set : Setting) (limit : Nat) (start : String) (memo : Memo) :
    Option Outcome :=
  let apply := ofRule set limit []
  (spaced apply (isSyntactic start) (fun c log memo => some ⟨some c, log, memo⟩) ⟨0, []⟩ (.start 0)
    memo).bind fun out =>
      (apply start).andThen (ofExpr set apply (isSyntactic start) .endOfInput)
        (out.cursor?.getD ⟨0, []⟩) out.log out.memo

section

variable {limit limit' : Nat} (set : Setting) (start : String) (memo : Memo)

theorem run_eq_whole (limit : Nat) :
    run set limit start memo = (Evaluation.whole set limit start memo).map fun out =>
      (⟨out.cursor?.bind (·.found.head?), out.log.failures, rootNode start out⟩, out.memo) := by
  rw [run, Evaluation.whole]
  rcases Evaluation.spaced (Evaluation.ofRule set limit []) (isSyntactic start)
    (fun c log memo => some ⟨some c, log, memo⟩) ⟨0, []⟩ (.start 0) memo with _ | ⟨c?, log, memo⟩
  · rfl
  · dsimp only [Option.bind_some]
    rcases (Evaluation.ofRule set limit [] start).andThen
      (Evaluation.ofExpr set (Evaluation.ofRule set limit []) (isSyntactic start) .endOfInput)
      (c?.getD ⟨0, []⟩) log memo with _ | out <;> rfl

theorem whole_accords (hle : limit ≤ limit') :
    Accords Outcome.mk (limit = limit') (Unwinding.whole set limit start memo)
      (Evaluation.whole set limit' start memo) := by
  have happly := Unwinds.ofRule set hle []
  have hhere : Unwinds (limit = limit') (fun c => .pure (some c))
      (fun c log memo => some ⟨some c, log, memo⟩) := fun c log memo => .pure _ _ _
  have hrest := (happly start).andThen (.ofExpr set happly (isSyntactic start) .endOfInput)
  rw [Unwinding.whole, Evaluation.whole]
  exact (Unwinds.spaced _ (happly "spaces") hhere ⟨0, []⟩ (.start 0) memo).bind
    fun c? log memo => hrest (c?.getD ⟨0, []⟩) log memo

theorem unwind_tallies (hle : limit ≤ limit') :
    Tallies (fun a _ memo => (a, memo)) (limit = limit') (unwind set limit start memo)
      (run set limit' start memo) := by
  have hwhole := (whole_accords set start memo hle).tallies
  rw [run_eq_whole, unwind]
  generalize Unwinding.whole set limit start memo false = p,
    Evaluation.whole set limit' start memo = result at hwhole ⊢
  cases hwhole with
  | done c? log memo => exact .done _ _ _
  | deep hresult => exact .deep fun hsame => by rw [hresult hsame, Option.map_none]

/-- What the match that breaks off comes to is what the one that goes on has come to, if that has
not nested too deep. -/
theorem run_eq_unwind (limit : Nat) :
    run set limit start memo =
      let p := unwind set limit start memo
      if p.tooDeep then none else some (p.value, p.memo) := by
  have htallies := unwind_tallies set start memo (Nat.le_refl limit)
  generalize unwind set limit start memo = p, run set limit start memo = result at htallies ⊢
  cases htallies with
  | done value log memo => rfl
  | deep hresult => exact hresult rfl

/-- A match that has not nested too deep is the same under a larger limit. -/
theorem unwind_eq_of_le (hle : limit ≤ limit')
    (hdeep : (unwind set limit start memo).tooDeep = false) :
    (unwind set limit' start memo).tooDeep = false ∧
      (unwind set limit' start memo).value = (unwind set limit start memo).value ∧
      (unwind set limit' start memo).memo = (unwind set limit start memo).memo := by
  have htallies := unwind_tallies set start memo hle
  rw [run_eq_unwind] at htallies
  generalize unwind set limit start memo = p, unwind set limit' start memo = p' at htallies hdeep ⊢
  obtain ⟨value', log', memo', _ | _⟩ := p'
  · cases htallies with
    | done value log memo => exact ⟨rfl, rfl, rfl⟩
    | deep _ => cases hdeep
  · cases htallies with
    | deep _ => cases hdeep

end

/-- What is reported of a match that went on to the end. -/
def Progress.report (g : Grammar) (rule : Rule) (input : Text.Input) (p : Progress Answer) :
    Except MatchError Result :=
  if p.tooDeep then .error (.tooDeep g.name rule.name)
  else .ok ⟨input, rule.name, p.value.tree?, p.value.failures⟩

end Pegboard.Match

namespace Pegboard

open Match

variable {g : Grammar} {start? : Option String} {rule : Rule}

theorem Grammar.answer_eq_unwind (hstart : g.startRule start? = .ok rule) (tracing : Bool)
    (text : String) :
    let input := Text.Input.ofString text
    let p := unwind ⟨g, input, tracing⟩ nestingLimit rule.name (.blank input.size)
    g.answer tracing text start? = (p.report g rule input).map fun r => (r, p.value.trace) := by
  simp only [answer, hstart, bind, Except.bind, run_eq_unwind, Progress.report]
  cases (unwind ⟨g, .ofString text, tracing⟩ nestingLimit rule.name
    (.blank (Text.Input.ofString text).size)).tooDeep <;> rfl

theorem Match.Session.matchRule_eq_unwind {s : Session}
    (hstart : s.grammar.startRule start? = .ok rule) :
    let p := unwind ⟨s.grammar, s.input, false⟩ nestingLimit rule.name s.memo
    s.matchRule start? = (p.report s.grammar rule s.input,
      { s with memo := if p.tooDeep then .blank s.input.size else p.memo }) := by
  simp only [matchRule, hstart, run_eq_unwind, Progress.report]
  cases (unwind ⟨s.grammar, s.input, false⟩ nestingLimit rule.name s.memo).tooDeep <;> rfl

/-- The limit on nesting abandons matches and changes none. Whatever is matched, from whatever
table, a match that stays within one limit is the same under a larger one: it breaks off under
neither, and its tree, its failures, its trace and its table are those of the match that goes on to
the end. A match that exceeds the limit comes to nothing, although on the way to the end it may have
found a tree: it is reported as too deep, neither as a success nor as a failure, and a session
forgets all entries and keeps its text. -/
theorem Grammar.nesting_limit (g : Grammar) {limit limit' : Nat} (hle : limit ≤ limit') :
    (∀ input tracing start memo,
      let p := unwind ⟨g, input, tracing⟩ limit start memo
      let p' := unwind ⟨g, input, tracing⟩ limit' start memo
      run ⟨g, input, tracing⟩ limit start memo =
          (if p.tooDeep then none else some (p.value, p.memo)) ∧
        (p.tooDeep = false →
          p'.tooDeep = false ∧ p'.value = p.value ∧ p'.memo = p.memo)) ∧
      ∀ start? rule, g.startRule start? = .ok rule →
        (∀ text,
          let input := Text.Input.ofString text
          let p := fun tracing =>
            unwind ⟨g, input, tracing⟩ nestingLimit rule.name (.blank input.size)
          g.matchText text start? = (p false).report g rule input ∧
            g.trace text start? =
              ((p true).report g rule input).map fun r => ⟨r, (p true).value.trace⟩) ∧
        ∀ input memo,
          let p := unwind ⟨g, input, false⟩ nestingLimit rule.name memo
          Session.matchRule ⟨g, input, memo⟩ start? = (p.report g rule input,
            ⟨g, input, if p.tooDeep then .blank input.size else p.memo⟩) := by
  refine ⟨fun input tracing start memo => ⟨run_eq_unwind _ _ _ _, unwind_eq_of_le _ _ _ hle⟩,
    fun start? rule hstart => ⟨fun text => ⟨?_, ?_⟩, fun input memo =>
      Session.matchRule_eq_unwind (s := ⟨g, input, memo⟩) hstart⟩⟩
  · rw [matchText, answer_eq_unwind hstart]
    generalize Progress.report _ _ _ _ = reported
    cases reported <;> rfl
  · rw [trace, answer_eq_unwind hstart]
    generalize Progress.report _ _ _ _ = reported
    cases reported <;> rfl

/-- Characters that no `chain` begins with. -/
def Grammar.shielded : Grammar where
  name := "Shielded"
  super := none
  rules := [
    ⟨"start", .seq [.not (.apply "chain"), .iter .star .any], none, none, "Shielded"⟩,
    ⟨"chain", .alt [.seq [.terminal "a", .apply "chain"], .terminal "b"], none, none, "Shielded"⟩]
  start := some "start"

/-- The chain `aab` nests four deep. With a limit of three the lookahead at it succeeds, so that the
whole text is matched on the way, but only with the flag set. Four is enough to find that the text
does not match, ten changes nothing, and that the text does not match is what is reported. -/
theorem Grammar.nesting_limit_shielded :
    let set : Setting := ⟨shielded, .ofString "aab", false⟩
    let p := unwind set 4 "start" (.blank 3)
    ((Unwinding.whole set 3 "start" (.blank 3) false).value.isSome = true ∧
      run set 3 "start" (.blank 3) = none) ∧
    (p.tooDeep = false ∧ p.value.tree? = none ∧
      (unwind set 10 "start" (.blank 3)).value = p.value) ∧
    ∃ r, shielded.matchText "aab" none = .ok r ∧ r.succeeded = false := by
  let set : Setting := ⟨shielded, .ofString "aab", false⟩
  have hthree := ((nesting_limit shielded (Nat.le_refl 3)).1 set.input false "start" (.blank 3)).1
  obtain ⟨hlimits, hreports⟩ := nesting_limit shielded (by decide : 4 ≤ 10)
  have hfour : (unwind set 4 "start" (.blank 3)).tooDeep = false := by decide +kernel
  refine ⟨⟨by decide +kernel, hthree.trans (if_pos (by decide +kernel))⟩, ⟨hfour,
    Option.isNone_iff_eq_none.mp (by decide +kernel),
    ((hlimits set.input false "start" (.blank 3)).2 hfour).2.1⟩, ?_⟩
  rw [((hreports none _ rfl).1 "aab").1]
  refine ⟨_, if_neg (by decide +kernel), ?_⟩
  decide +kernel

end Pegboard
