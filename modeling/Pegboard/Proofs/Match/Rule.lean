import Pegboard.Proofs.Match.Expr
import Pegboard.Proofs.Match.Table

/-!
# Rule applications come to what the grammar means

The application of a rule finds its entry in the table or works it out and leaves it there. What it
does to the table can be told from the meaning of the grammar alone: it goes through the moves of
the application, and then settles it (`touch_work`). Whether it comes to nothing, because rule
applications nest too deep, depends on these moves only.

Main statement: `truthful`, by induction on the depth that is left. It rests on left calls having
no cycles but loops; otherwise an outcome may depend on the seed of a rule further out.
-/

namespace Pegboard.Match

open Text Evaluation

/-- What the application of a rule by its name does to the table. -/
def touch (set : Setting) (depth : Nat) (frames : List Frame) (pos : Nat) (q : String)
    (memo : Memo) : Option Memo :=
  (ofRule set depth frames q ⟨pos, []⟩ (.start pos) memo).map (·.memo)

/-- What the moves of an application do to the table, if each call does what `touch` says. -/
def runMoves (touch : Nat → String → Memo → Option Memo) (pos : Nat) (rule : String) :
    List Move → Memo → Option Memo
  | [], memo => some memo
  | .seed t? :: moves, memo =>
    runMoves touch pos rule moves (memo.put pos rule (.growing t? none t?.isSome))
  | .call c :: moves, memo =>
    (touch (pos + c.offset) c.rule memo).bind (runMoves touch pos rule moves)

theorem runMoves_append (touch : Nat → String → Memo → Option Memo) (pos : Nat) (rule : String)
    (as bs : List Move) (memo : Memo) :
    runMoves touch pos rule (as ++ bs) memo =
      (runMoves touch pos rule as memo).bind (runMoves touch pos rule bs) := by
  induction as generalizing memo with
  | nil => rfl
  | cons a as ih =>
      cases a with
      | seed t? => exact ih _
      | call c =>
          simp only [List.cons_append, runMoves]
          cases touch (pos + c.offset) c.rule memo with
          | none => rfl
          | some memo' => exact ih memo'

theorem runMoves_calls (touch : Nat → String → Memo → Option Memo) (pos : Nat) (rule : String)
    (calls : List Call) (memo : Memo) :
    runMoves touch pos rule (calls.map .call) memo = runCalls touch pos calls memo := by
  induction calls generalizing memo with
  | nil => rfl
  | cons c calls ih =>
      simp only [List.map_cons, runMoves, runCalls]
      congr 1
      funext memo'
      exact ih memo'

/-- The log behind an application at a place. -/
def Log.tell (log : Log) (pos : Nat) (a : Application) : Log :=
  { log.examine (pos + a.examined) with
    failures := log.failures.recordAll (a.missed.map (Failure.shift pos)) }

theorem agrees_tell (c : Cursor) (log : Log) (a : Application) (q : String) :
    Agrees c log (a.reading q) (a.tree?.map c.push) (log.tell c.pos a) where
  cursor := by
    rw [Application.reading, Option.map_map]
    rfl
  failures := rfl
  reach := rfl
  heads := Nat.le_max_left _ _

/-- The log of the rounds of an application that began at a place. -/
structure Told (pos : Nat) (a : Application) (log : Log) : Prop where
  failures : log.failures = .ofList (a.missed.map (Failure.shift pos))
  reach : log.reach = pos + a.examined
  heads : log.heads ≤ 1

/-- The applications under the frames. -/
def outerScope (set : Setting) (depth : Nat) (frames : List Frame) : Scope where
  set := set
  touch := touch set depth frames
  Inv := Table set.grammar set.input frames
  Allowed p q := set.grammar.Under frames (p, q)
  floor := 0

/-- Applications nested so deep come to what the grammar means and leave all entries in place. -/
structure Truthful (set : Setting) (depth : Nat) : Prop where
  performs : ∀ frames q, (outerScope set depth frames).Performs (ofRule set depth frames q)
    fun cs => (set.grammar.meaning q cs).reading q
  keeps : ∀ frames pos q cs memo memo', set.input.LeftAt pos cs →
    Table set.grammar set.input frames memo → set.grammar.Under frames (pos, q) →
      touch set depth frames pos q memo = some memo' → memo.Extends memo'

variable {set : Setting} {depth : Nat} {frames : List Frame} {pos : Nat} {rule : Rule}
variable {cs : List Char} {memo memo' memo₀ : Memo} {log : Log} {seed? : Option Tree} {q : String}

theorem runCalls_reading (touch : Nat → String → Memo → Option Memo) (pos : Nat)
    (a : Application) (q : String) (memo : Memo) :
    runCalls touch pos (a.reading q).calls memo = touch pos q memo := by
  simp [Application.reading, runCalls]

theorem Truthful.table (ih : Truthful set depth) (hleft : set.input.LeftAt pos cs)
    (htable : Table set.grammar set.input frames memo) (hunder : set.grammar.Under frames (pos, q))
    (h : touch set depth frames pos q memo = some memo') :
    Table set.grammar set.input frames memo' := by
  have hdelivers := ih.performs frames q ⟨pos, []⟩ (.start pos) memo cs
    ⟨hleft, Nat.le_refl _, Nat.zero_le _⟩ htable
    (by simpa [Application.reading, outerScope] using hunder)
  have hrun : runCalls (touch set depth frames) pos
      ((set.grammar.meaning q cs).reading q).calls memo = some memo' := by
    rw [runCalls_reading, h]
  rw [Scope.Delivers] at hdelivers
  simp only [outerScope] at hdelivers
  rw [hrun] at hdelivers
  exact hdelivers.1

/-! ## The rule that is being evaluated -/

section

variable (hset : set.tracing = false) (hrule : set.grammar.rule? rule.name = some rule)

include hset hrule

/-- An application of a rule to itself at its own place reads the seed. -/
theorem ofRule_own {c : Cursor} {read : Bool}
    (h : memo.find? c.pos rule.name = some (.growing seed? none read)) :
    ofRule set depth ((c.pos, rule.name) :: frames) rule.name c log memo =
      some ⟨seed?.map c.push, { log.examine c.pos with heads := max log.heads 1 },
        memo.put c.pos rule.name (.growing seed? none true)⟩ := by
  have hindex : ((c.pos, rule.name) :: frames).findIdx? (· == (c.pos, rule.name)) = some 0 := by
    simp [List.findIdx?_cons]
  rw [ofRule, hrule]
  simp only [h, reuse, hindex, Log.note, hset, Bool.false_eq_true, if_false]

theorem touch_own (depth : Nat) (frames : List Frame) {read : Bool}
    (h : memo.find? pos rule.name = some (.growing seed? none read)) :
    touch set depth ((pos, rule.name) :: frames) pos rule.name memo =
      some (memo.put pos rule.name (.growing seed? none true)) := by
  rw [touch, ofRule_own hset hrule (c := ⟨pos, []⟩) h]
  rfl

end

/-- The applications in the body of a rule that is evaluated with a seed. -/
def innerScope (set : Setting) (depth : Nat) (frames : List Frame) (pos : Nat) (rule : String)
    (seed? : Option Tree) : Scope where
  set := set
  touch := touch set depth ((pos, rule) :: frames)
  Inv memo := Table set.grammar set.input ((pos, rule) :: frames) memo ∧
    ∃ read, memo.find? pos rule = some (.growing seed? none read)
  Allowed p q := set.grammar.Inner frames (pos, rule) (p, q)
  floor := pos + (seed?.map (·.length)).getD 0

/-- What is known of a rule while it is evaluated at a place. -/
structure Evaluating (set : Setting) (depth : Nat) (frames : List Frame) (pos : Nat) (rule : Rule)
    (cs : List Char) : Prop where
  loopsOnly : set.grammar.LoopsOnly
  untraced : set.tracing = false
  below : Truthful set depth
  found : set.grammar.rule? rule.name = some rule
  left : set.input.LeftAt pos cs
  under : set.grammar.Under frames (pos, rule.name)

/-- A call from the body of a rule reads the seed of the rule, or leaves all entries in place. -/
theorem Evaluating.touch_cases (h : Evaluating set depth frames pos rule cs) {c : Call}
    {read : Bool} (hcut : Cuts cs c.offset)
    (hinner : set.grammar.Inner frames (pos, rule.name) (pos + c.offset, c.rule))
    (htable : Table set.grammar set.input ((pos, rule.name) :: frames) memo)
    (hown : memo.find? pos rule.name = some (.growing seed? none read))
    (htouch : touch set depth ((pos, rule.name) :: frames) (pos + c.offset) c.rule memo =
      some memo') :
    c = ⟨0, rule.name⟩ ∧ memo' = memo.put pos rule.name (.growing seed? none true) ∨
      c ≠ ⟨0, rule.name⟩ ∧
        set.grammar.Under ((pos, rule.name) :: frames) (pos + c.offset, c.rule) ∧
        Table set.grammar set.input ((pos, rule.name) :: frames) memo' ∧ memo.Extends memo' := by
  rcases hinner with heq | hunder
  · -- the rule itself, at its own place
    rw [Prod.mk.injEq] at heq
    obtain ⟨offset, q⟩ := c
    obtain rfl : offset = 0 := Nat.add_eq_left.mp heq.1
    obtain rfl : q = rule.name := heq.2
    have htouch : touch set depth ((pos, rule.name) :: frames) pos rule.name memo = some memo' :=
      htouch
    rw [touch_own h.untraced h.found depth frames hown] at htouch
    exact .inl ⟨rfl, (Option.some.inj htouch).symm⟩
  · refine .inr ⟨?_, hunder, h.below.table (h.left.drop hcut) htable hunder htouch,
      h.below.keeps _ _ _ _ _ _ (h.left.drop hcut) htable hunder htouch⟩
    rintro rfl
    exact hunder.not_mem (Grammar.hasRule_of_rule? h.found) (by simp)

/-- Calls from the body of a rule leave its seed in place, and note whether it was read. -/
theorem Evaluating.seed_kept (h : Evaluating set depth frames pos rule cs) {calls : List Call}
    {read : Bool}
    (hcalls : ∀ c ∈ calls, Cuts cs c.offset ∧
      set.grammar.Inner frames (pos, rule.name) (pos + c.offset, c.rule))
    (htable : Table set.grammar set.input ((pos, rule.name) :: frames) memo)
    (hown : memo.find? pos rule.name = some (.growing seed? none read))
    (hrun : runCalls (touch set depth ((pos, rule.name) :: frames)) pos calls memo = some memo') :
    Table set.grammar set.input ((pos, rule.name) :: frames) memo' ∧
      memo'.find? pos rule.name =
        some (.growing seed? none (read || decide (⟨0, rule.name⟩ ∈ calls))) := by
  induction calls generalizing memo read with
  | nil =>
      obtain rfl : memo = memo' := Option.some.inj hrun
      exact ⟨htable, by simpa using hown⟩
  | cons c calls ih =>
      obtain ⟨⟨hcut, hinner⟩, hrest⟩ := List.forall_mem_cons.mp hcalls
      obtain ⟨memo₁, htouch, hrun⟩ := Option.bind_eq_some_iff.mp hrun
      have hpos := htable.lt_size h.left
      rcases h.touch_cases hcut hinner htable hown htouch with
        ⟨rfl, rfl⟩ | ⟨hne, -, htable₁, hextends⟩
      · obtain ⟨htable', hown'⟩ := ih hrest
          (htable.plant hpos List.mem_cons_self seed? none true) (Memo.find?_put_self hpos) hrun
        exact ⟨htable', by simpa using hown'⟩
      · obtain ⟨htable', hown'⟩ := ih hrest htable₁ (hextends _ _ _ hown) hrun
        exact ⟨htable', by simpa [Ne.symm hne] using hown'⟩

/-- What the moves of an application preserve: it has to survive planting a seed for the rule
itself, and every other call. Each of these calls was made, and what it settled stays so. -/
theorem Evaluating.moves_induction (h : Evaluating set depth frames pos rule cs)
    {moves : List Move} {J : Memo → Prop}
    (hmoves : ∀ c, .call c ∈ moves → Cuts cs c.offset ∧
      set.grammar.Inner frames (pos, rule.name) (pos + c.offset, c.rule))
    (plant : ∀ m seed? read, Open set.grammar set.input frames (pos, rule.name) m → J m →
      J (m.put pos rule.name (.growing seed? none read)))
    (call : ∀ c m m', .call c ∈ moves → c ≠ ⟨0, rule.name⟩ →
      set.grammar.Under ((pos, rule.name) :: frames) (pos + c.offset, c.rule) →
      Open set.grammar set.input frames (pos, rule.name) m → m.Extends m' → J m →
      touch set depth ((pos, rule.name) :: frames) (pos + c.offset) c.rule m = some m' → J m')
    (hopen : Open set.grammar set.input frames (pos, rule.name) memo) (hJ : J memo)
    (hrun : runMoves (touch set depth ((pos, rule.name) :: frames)) pos rule.name moves memo =
      some memo') :
    Open set.grammar set.input frames (pos, rule.name) memo' ∧ J memo' ∧ memo.Retains memo' ∧
      ∀ c, .call c ∈ moves → c ≠ ⟨0, rule.name⟩ →
        set.grammar.Under ((pos, rule.name) :: frames) (pos + c.offset, c.rule) ∧
        ∃ m m', Open set.grammar set.input frames (pos, rule.name) m ∧ J m ∧
          touch set depth ((pos, rule.name) :: frames) (pos + c.offset) c.rule m = some m' ∧
          m'.Retains memo' := by
  induction moves generalizing memo with
  | nil =>
      obtain rfl : memo = memo' := Option.some.inj hrun
      exact ⟨hopen, hJ, .refl _, by simp⟩
  | cons move moves ih =>
      have hpos := hopen.table.lt_size h.left
      -- to plant a seed loses none of the entries that are settled
      have planted : ∀ seed? read, memo.Retains (memo.put pos rule.name (.growing seed? none read)) :=
        fun seed? read => Memo.retains_put hpos hopen.not_settled
      have ih := fun {memo : Memo} => @ih memo
        (fun c hc => hmoves c (List.mem_cons_of_mem _ hc))
        (fun c m m' hc => call c m m' (List.mem_cons_of_mem _ hc))
      cases move with
      | seed t? =>
          obtain ⟨hopen', hJ', hretains, hcalls⟩ := ih (Open.plant hopen.table hpos t? t?.isSome)
            (plant memo t? t?.isSome hopen hJ) hrun
          exact ⟨hopen', hJ', (planted _ _).trans hretains,
            fun c hc => hcalls c (by simpa using hc)⟩
      | call d =>
          obtain ⟨hcut, hinner⟩ := hmoves d List.mem_cons_self
          obtain ⟨memo₁, htouch, hrun⟩ := Option.bind_eq_some_iff.mp hrun
          obtain ⟨seed?, read, hown⟩ := hopen.growing
          rcases h.touch_cases hcut hinner hopen.table hown htouch with
            ⟨rfl, rfl⟩ | ⟨hne, hunder, htable₁, hextends⟩
          · obtain ⟨hopen', hJ', hretains, hcalls⟩ := ih (Open.plant hopen.table hpos seed? true)
              (plant memo seed? true hopen hJ) hrun
            exact ⟨hopen', hJ', (planted _ _).trans hretains,
              fun c hc hne => hcalls c (by simpa [hne] using hc) hne⟩
          · have hopen₁ : Open set.grammar set.input frames (pos, rule.name) memo₁ :=
              ⟨htable₁, seed?, read, hextends _ _ _ hown⟩
            obtain ⟨hopen', hJ', hretains, hcalls⟩ := ih hopen₁
              (call d memo memo₁ List.mem_cons_self hne hunder hopen hextends hJ htouch) hrun
            refine ⟨hopen', hJ', hextends.retains.trans hretains, fun c hc hne => ?_⟩
            rcases List.mem_cons.mp hc with heq | hc
            · obtain rfl := Move.call.inj heq
              exact ⟨hunder, memo, memo₁, hopen, hJ, htouch, hretains⟩
            · exact hcalls c hc hne

/-- Within the body of a rule, applications come to what the seeded meaning says. -/
theorem ofRule_inner (hset : set.tracing = false) (ih : Truthful set depth)
    (hrule : set.grammar.rule? rule.name = some rule) (hleft : set.input.LeftAt pos cs) (q : String) :
    (innerScope set depth frames pos rule.name seed?).Performs
      (ofRule set depth ((pos, rule.name) :: frames) q)
      fun cs' => (Meaning.seeded set.grammar.meaning rule.name cs seed? q cs').reading q := by
  rintro c log memo cs' hr ⟨htable, read, hown⟩ hallowed
  have hallowed : set.grammar.Inner frames (pos, rule.name) (c.pos, q) :=
    hallowed ⟨0, q⟩ (by simp [Application.reading])
  rcases hallowed with heq | hunder
  · -- the rule itself at its own place reads the seed
    rw [Prod.mk.injEq] at heq
    obtain ⟨rfl, rfl⟩ := heq
    obtain rfl := hleft.unique hr.left
    dsimp only
    rw [Meaning.seeded_own]
    have hcall : runCalls (innerScope set depth frames c.pos rule.name seed?).touch c.pos
        ((Application.seed seed?).reading rule.name).calls memo =
          some (memo.put c.pos rule.name (.growing seed? none true)) := by
      rw [runCalls_reading]
      exact touch_own hset hrule depth frames hown
    have hpos := htable.lt_size hleft
    refine Scope.delivers_some hcall
      ⟨htable.plant hpos List.mem_cons_self _ _ _, true, Memo.find?_put_self hpos⟩
      (ofRule_own hset hrule hown) ⟨?_, rfl, ?_, Nat.le_refl _⟩
    · simp only [Application.reading, Application.seed, Option.map_map]
      congr 1
    · -- the round before looked at the seed already
      have hnear := hr.near
      have hfloor := hr.floor
      simp only [innerScope] at hfloor
      simp only [Log.examine, Application.reading, Application.seed]
      omega
  · -- all else is applied under the frames, that of the rule included
    have hne : ¬ (q = rule.name ∧ cs' = cs) := by
      rintro ⟨rfl, rfl⟩
      have h₁ := hr.left.size_eq
      have h₂ := hleft.size_eq
      have hpos : c.pos = pos := by
        simp only [innerScope] at h₁
        omega
      exact hunder.not_mem (Grammar.hasRule_of_rule? hrule) (by simp [hpos])
    have hseeded : Meaning.seeded set.grammar.meaning rule.name cs seed? q cs' =
        set.grammar.meaning q cs' := if_neg hne
    dsimp only
    rw [hseeded]
    have h := ih.performs ((pos, rule.name) :: frames) q c log memo cs'
      ⟨hr.left, hr.near, Nat.zero_le _⟩ htable
      (by simpa [Application.reading, outerScope] using hunder)
    rcases h.cases with ⟨hrun, hnone⟩ | ⟨memo', c?, log', hrun, htable', hsome, hagrees⟩
    · exact Scope.delivers_none hrun hnone
    · have htouch : touch set depth ((pos, rule.name) :: frames) c.pos q memo = some memo' := by
        rwa [runCalls_reading] at hrun
      have hextends := ih.keeps _ _ _ _ _ _ hr.left htable hunder htouch
      exact Scope.delivers_some hrun ⟨htable', read, hextends _ _ _ hown⟩ hsome hagrees

/-! ## Rounds -/

/-- The rounds of an application, made in the table in which the rule is being evaluated, came to
nothing if their moves do, and to the application else. -/
def Comes (set : Setting) (depth : Nat) (frames : List Frame) (pos : Nat) (rule : String)
    (memo : Memo) (a : Application) (result : Option (Round × Log × Memo)) : Prop :=
  match runMoves (touch set depth ((pos, rule) :: frames)) pos rule a.moves memo with
  | none => result = none
  | some memo' =>
    Table set.grammar set.input ((pos, rule) :: frames) memo' ∧
      ∃ trace log', result = some (⟨a.tree?, trace⟩, log', memo') ∧ Told pos a log'

/-- The body of a rule, evaluated at a place. -/
def bodyAt (set : Setting) (depth : Nat) (frames : List Frame) (pos : Nat) (rule : Rule) :
    Evaluation :=
  ofExpr set (ofRule set depth ((pos, rule.name) :: frames)) (isSyntactic rule.name) rule.body

theorem comes_none {a : Application} {result : Option (Round × Log × Memo)}
    (hrun : runMoves (touch set depth ((pos, rule.name) :: frames)) pos rule.name a.moves memo = none)
    (hresult : result = none) : Comes set depth frames pos rule.name memo a result := by
  rw [Comes, hrun]
  exact hresult

theorem comes_some {a : Application} {result : Option (Round × Log × Memo)}
    (trace : List Trace.Node)
    (hrun : runMoves (touch set depth ((pos, rule.name) :: frames)) pos rule.name a.moves memo =
      some memo')
    (htable : Table set.grammar set.input ((pos, rule.name) :: frames) memo')
    (hresult : result = some (⟨a.tree?, trace⟩, log, memo')) (htold : Told pos a log) :
    Comes set depth frames pos rule.name memo a result := by
  rw [Comes, hrun]
  exact ⟨htable, trace, log, hresult, htold⟩

/-- What the application reports is what it missed. -/
theorem reported_eq (pos : Nat) (rule : Rule) (a : Application) :
    reported rule pos a.tree?.isSome (.ofList (a.missed.map (Failure.shift pos))) =
      .ofList ((rule.described a).missed.map (Failure.shift pos)) := by
  rw [reported, Rule.described]
  cases rule.description with
  | none => rfl
  | some d => cases a.tree?.isSome <;> rfl

theorem grow_succ (hset : set.tracing = false) (rule : String) (pos : Nat) (body : Evaluation)
    (n : Nat) (best : Tree) (trace : List Trace.Node) (log : Log) (memo : Memo) :
    Evaluation.grow set rule pos body (n + 1) best trace log memo =
      match Evaluation.round rule pos body log
        (memo.put pos rule (.growing (some best) none (some best).isSome)) with
      | none => none
      | some (⟨none, _⟩, log, memo) => some (⟨some best, trace⟩, log, memo)
      | some (⟨some t, trace'⟩, log, memo) =>
        if t.length ≤ best.length then some (⟨some best, trace⟩, log, memo)
        else Evaluation.grow set rule pos body n t trace' log memo := by
  rw [Evaluation.grow, hset]
  rfl

theorem grow_none {name : String} {body : Evaluation} {n : Nat} {best : Tree}
    {trace : List Trace.Node} (hset : set.tracing = false)
    (hround : Evaluation.round name pos body log
      (memo.put pos name (.growing (some best) none (some best).isSome)) = none) :
    Evaluation.grow set name pos body (n + 1) best trace log memo = none := by
  rw [grow_succ hset, hround]

/-- Growing ends with a round that came to nothing longer. -/
theorem grow_last {name : String} {body : Evaluation} {n : Nat} {best : Tree} {tree? : Option Tree}
    {trace trace' : List Trace.Node} {log' : Log} (hset : set.tracing = false)
    (hround : Evaluation.round name pos body log
      (memo.put pos name (.growing (some best) none (some best).isSome)) =
        some (⟨tree?, trace'⟩, log', memo'))
    (hlast : ∀ t, tree? = some t → t.length ≤ best.length) :
    Evaluation.grow set name pos body (n + 1) best trace log memo =
      some (⟨some best, trace⟩, log', memo') := by
  rw [grow_succ hset, hround]
  cases tree? with
  | none => rfl
  | some t => exact if_pos (hlast t rfl)

theorem grow_more {name : String} {body : Evaluation} {n : Nat} {best t : Tree}
    {trace trace' : List Trace.Node} {log' : Log} (hset : set.tracing = false)
    (hround : Evaluation.round name pos body log
      (memo.put pos name (.growing (some best) none (some best).isSome)) =
        some (⟨some t, trace'⟩, log', memo'))
    (hmore : best.length < t.length) :
    Evaluation.grow set name pos body (n + 1) best trace log memo =
      Evaluation.grow set name pos body n t trace' log' memo' := by
  rw [grow_succ hset, hround]
  exact if_neg hmore.not_ge

namespace Evaluating

variable (h : Evaluating set depth frames pos rule cs)

include h

/-- The body of the rule, evaluated with a seed. -/
theorem body (seed? : Option Tree) (log : Log) (hseed : ∀ t, seed? = some t →
      rule.Seeds set.grammar cs t ∧ pos + t.length ≤ log.reach)
    (hnear : pos ≤ log.reach)
    (htable : Table set.grammar set.input ((pos, rule.name) :: frames) memo) :
    let planted := memo.put pos rule.name (.growing seed? none seed?.isSome)
    (innerScope set depth frames pos rule.name seed?).Delivers ⟨pos, []⟩ log planted
      (rule.body.read (Meaning.seeded set.grammar.meaning rule.name cs seed?)
        (isSyntactic rule.name) cs)
      (bodyAt set depth frames pos rule ⟨pos, []⟩ log planted) := by
  have hsound := Rule.round_sound set.grammar.meaning_fits set.grammar.meaning_stays h.found cs
    seed? fun t ht => (hseed t ht).1
  have hfits := set.grammar.meaning_fits.seeded rule.name cs
    fun t ht => (hseed t ht).1.1
  have hpos := htable.lt_size h.left
  refine Scope.ofExpr_performs (s := innerScope set depth frames pos rule.name seed?)
    h.untraced hfits (ofRule_inner h.untraced h.below h.found h.left) (isSyntactic rule.name)
    rule.body _ _ _ cs ⟨h.left, hnear, ?_⟩
    ⟨htable.plant hpos List.mem_cons_self _ _ _, _, Memo.find?_put_self hpos⟩ ?_
  · cases seed? with
    | none => exact hnear
    | some t => exact (hseed t rfl).2
  · intro c hc
    rw [← Rule.round_calls] at hc
    exact Grammar.inner_of_call h.loopsOnly h.found h.under hsound hc

/-- Another round, behind those so far. -/
theorem round (seed? : Option Tree) {sofar : Application}
    (hseed : ∀ t, seed? = some t → rule.Seeds set.grammar cs t ∧ t.length ≤ sofar.examined)
    (htold : Told pos sofar log)
    (hmoves : runMoves (touch set depth ((pos, rule.name) :: frames)) pos rule.name sofar.moves
      memo₀ = some memo)
    (htable : Table set.grammar set.input ((pos, rule.name) :: frames) memo) (tree? : Option Tree) :
    let next := rule.round set.grammar.meaning cs seed?
    let moves := (sofar.followed next tree?).moves
    let result := Evaluation.round rule.name pos (bodyAt set depth frames pos rule) log
      (memo.put pos rule.name (.growing seed? none seed?.isSome))
    runMoves (touch set depth ((pos, rule.name) :: frames)) pos rule.name moves memo₀ = none ∧
        result = none ∨
      ∃ memo' trace log',
        runMoves (touch set depth ((pos, rule.name) :: frames)) pos rule.name moves memo₀ =
          some memo' ∧
        Table set.grammar set.input ((pos, rule.name) :: frames) memo' ∧
        result = some (⟨next.tree?, trace⟩, log', memo') ∧
        Told pos (sofar.followed next tree?) log' ∧
        memo'.find? pos rule.name =
          some (.growing seed? none (seed?.isSome || decide (⟨0, rule.name⟩ ∈ next.calls))) := by
  intro next moves result
  have hsound := Rule.round_sound set.grammar.meaning_fits set.grammar.meaning_stays h.found cs
    seed? fun t ht => (hseed t ht).1
  have hbody := h.body seed? { log with trace := [] }
    (fun t ht => ⟨(hseed t ht).1, by simpa [htold.reach] using (hseed t ht).2⟩)
    (by simp [htold.reach]) htable
  have hmoves' : runMoves (touch set depth ((pos, rule.name) :: frames)) pos rule.name moves memo₀ =
      runCalls (touch set depth ((pos, rule.name) :: frames)) pos next.calls
        (memo.put pos rule.name (.growing seed? none seed?.isSome)) := by
    rw [Rule.round_calls, ← runMoves_calls]
    simp only [moves, Application.followed, runMoves_append, hmoves, Option.bind_some]
    rfl
  rw [Rule.round_calls] at hmoves'
  rcases hbody.cases with ⟨hrun, hnone⟩ | ⟨memo', c?, log', hrun, -, hsome, hagrees⟩
  · refine .inl ⟨hmoves'.trans hrun, ?_⟩
    simp only [result, Evaluation.round, hnone]
  · have hpos := htable.lt_size h.left
    obtain ⟨htable', hown'⟩ := h.seed_kept
      (fun c hc => ⟨(hsound.calls c hc).1,
        Grammar.inner_of_call h.loopsOnly h.found h.under hsound hc⟩)
      (htable.plant hpos List.mem_cons_self seed? none seed?.isSome) (Memo.find?_put_self hpos)
      (by rwa [Rule.round_calls])
    have htree : (c?.map fun c => Tree.rule rule.name (c.pos - pos) (c.children pos)) =
        next.tree? := by
      rw [hagrees.cursor, Option.map_map]
      simp only [next, Rule.round]
      congr 1
      funext t
      simp only [Function.comp_apply, Cursor.children_take]
      simp [Cursor.take]
    refine .inr ⟨memo', log'.trace.reverse, log', hmoves'.trans hrun, htable', ?_, ?_, hown'⟩
    · simp only [result, Evaluation.round, hsome, htree]
    · refine ⟨?_, ?_, ?_⟩
      · rw [hagrees.failures, htold.failures, Failures.ofList, ← Failures.recordAll_append,
          ← List.map_append]
        rfl
      · rw [hagrees.reach, htold.reach]
        simp only [Application.followed, next, Rule.round]
        omega
      · exact hagrees.heads.trans (Nat.max_le.mpr ⟨htold.heads, Nat.le_refl _⟩)

/-- The rounds from a match on. -/
theorem grow (n : Nat) {sofar : Application} {best : Tree} (trace : List Trace.Node)
    (hseeds : rule.Seeds set.grammar cs best) (hle : best.length ≤ sofar.examined)
    (hn : byteSize cs - best.length < n) (htold : Told pos sofar log)
    (hmoves : runMoves (touch set depth ((pos, rule.name) :: frames)) pos rule.name sofar.moves
      memo₀ = some memo)
    (htable : Table set.grammar set.input ((pos, rule.name) :: frames) memo) :
    Comes set depth frames pos rule.name memo₀ (rule.grown set.grammar.meaning cs sofar best)
      (Evaluation.grow set rule.name pos (bodyAt set depth frames pos rule) n best trace log
        memo) := by
  induction n generalizing sofar best trace log memo with
  | zero => omega
  | succ n ih =>
      have hseed : ∀ t, some best = some t →
          rule.Seeds set.grammar cs t ∧ t.length ≤ sofar.examined := by
        intro t ht
        cases ht
        exact ⟨hseeds, hle⟩
      have hround := h.round (some best) hseed htold hmoves htable
      have hsound := Rule.round_sound set.grammar.meaning_fits set.grammar.meaning_stays h.found cs
        (some best) fun t ht => (hseed t ht).1
      by_cases hmore : ∃ t, (rule.round set.grammar.meaning cs (some best)).tree? = some t ∧
          best.length < t.length ∧ t.length ≤ byteSize cs
      · -- the induction goes on from the longer match
        obtain ⟨t, ht, hmore⟩ := hmore
        rw [Rule.grown_more ht hmore]
        rcases hround (some t) with
          ⟨hrun, hnone⟩ | ⟨memo', trace', log', hrun, htable', hsome, htold', -⟩
        · obtain ⟨more, hbegin⟩ := rule.grown_moves set.grammar.meaning cs
            (sofar.followed (rule.round set.grammar.meaning cs (some best)) (some t)) t
          refine comes_none ?_ (grow_none h.untraced hnone)
          rw [hbegin, runMoves_append, hrun, Option.bind_none]
        · rw [ht] at hsome
          rw [grow_more h.untraced hsome hmore.1]
          exact ih trace' (hsound.seeds ht)
            ((hsound.fits t ht).2.trans (Nat.le_max_right sofar.examined _)) (by omega) htold' hrun
            htable'
      · rw [Rule.grown_last hmore]
        rcases hround (some best) with
          ⟨hrun, hnone⟩ | ⟨memo', trace', log', hrun, htable', hsome, htold', -⟩
        · exact comes_none hrun (grow_none h.untraced hnone)
        · refine comes_some trace hrun htable' (grow_last h.untraced hsome ?_) htold'
          intro t ht
          have hle := (hsound.fits t ht).1.le
          by_contra hlt
          exact hmore ⟨t, ht, by omega, hle⟩

/-- All rounds of the rule. -/
theorem settle (htable : Table set.grammar set.input frames memo) :
    Comes set depth frames pos rule.name memo (rule.settled set.grammar.meaning cs)
      (Evaluation.settle set rule.name pos (bodyAt set depth frames pos rule) memo) := by
  have htold : Told pos .nothing (.start pos) := ⟨rfl, rfl, Nat.zero_le _⟩
  have hmoves : runMoves (touch set depth ((pos, rule.name) :: frames)) pos rule.name
      Application.nothing.moves memo = some memo := rfl
  have hfirst := h.round none (by simp) htold hmoves (htable.cons (pos, rule.name))
    (rule.round set.grammar.meaning cs none).tree?
  simp only [Application.nothing_followed, Option.isSome_none] at hfirst
  have hsound := Rule.round_sound set.grammar.meaning_fits set.grammar.meaning_stays h.found cs
    none (by simp)
  rw [Rule.settled, Evaluation.settle]
  rcases hfirst with ⟨hrun, hnone⟩ | ⟨memo', trace, log', hrun, htable', hsome, htold, hown⟩
  · rw [show Evaluation.round _ _ _ _ _ = none from hnone]
    split
    · exact comes_none hrun rfl
    · split
      · obtain ⟨more, hbegin⟩ := rule.grown_moves set.grammar.meaning cs
          (rule.round set.grammar.meaning cs none) _
        exact comes_none (by rw [hbegin, runMoves_append, hrun, Option.bind_none]) rfl
      · exact comes_none hrun rfl
  · rw [show Evaluation.round _ _ _ _ _ = some (_, log', memo') from hsome]
    -- the seed was read exactly if the rule called itself
    have hread : seedRead memo' pos rule.name =
        decide (⟨0, rule.name⟩ ∈ (rule.round set.grammar.meaning cs none).calls) := by
      rw [seedRead, hown]
      rfl
    cases ht : (rule.round set.grammar.meaning cs none).tree? with
    | none => exact comes_some trace hrun htable' (by rw [ht]) htold
    | some t =>
        by_cases hcall : ⟨0, rule.name⟩ ∈ (rule.round set.grammar.meaning cs none).calls
        · simp only [hread, hcall, decide_true, if_true]
          have hsize := h.left.size_eq
          exact h.grow _ trace (hsound.seeds ht) (hsound.fits t ht).2 (by omega) htold hrun htable'
        · simp only [hread, hcall, decide_false, Bool.false_eq_true, if_false]
          exact comes_some trace hrun htable' (by rw [ht]) htold

/-- Working out an application goes through its moves, and settles it. -/
theorem work (c : Cursor) (log : Log) (hpos : c.pos = pos)
    (htable : Table set.grammar set.input frames memo) :
    let a := set.grammar.meaning rule.name cs
    let moved := runMoves (touch set depth ((pos, rule.name) :: frames)) pos rule.name a.moves memo
    let result := Evaluation.work set rule (bodyAt set depth frames pos rule) c log memo
    moved = none ∧ result = none ∨
      ∃ memo', moved = some memo' ∧
        Table set.grammar set.input ((pos, rule.name) :: frames) memo' ∧
        result = some ⟨a.tree?.map c.push, log.tell pos a, memo'.put pos rule.name a.entry⟩ := by
  intro a moved result
  have ha : a = rule.described (rule.settled set.grammar.meaning cs) :=
    h.loopsOnly.meaning_eq h.found
  have hsettle := h.settle htable
  have hmoves : a.moves = (rule.settled set.grammar.meaning cs).moves := by
    rw [ha, Rule.described_moves]
  simp only [moved, result, hmoves]
  rw [Comes] at hsettle
  rw [Evaluation.work, hpos]
  split at hsettle
  · exact .inl ⟨‹_›, by rw [hsettle]⟩
  · rename_i memo' hrun
    obtain ⟨htable', trace, log', hsome, htold⟩ := hsettle
    have hreported := reported_eq pos rule (rule.settled set.grammar.meaning cs)
    rw [← htold.failures, ← ha] at hreported
    -- no head is left open but that of the rule itself
    have hheads : ¬ 2 ≤ log'.heads := by
      have := htold.heads
      omega
    have houter : max log.heads (log'.heads - 1) = log.heads := by
      have := htold.heads
      omega
    have htree : (rule.settled set.grammar.meaning cs).tree? = a.tree? := by
      rw [ha, Rule.described_tree?]
    have hreach : log'.reach = pos + a.examined := by
      rw [htold.reach, ha, Rule.described_examined]
    rw [htree] at hreported hsome
    refine .inr ⟨memo', hrun, htable', ?_⟩
    rw [hsome]
    simp only [hreported, hheads, houter, if_false, h.untraced, Bool.false_eq_true, Log.note, hreach,
      Nat.add_sub_cancel_left, Failures.relativeTo_ofList, Failures.merge_ofList]
    rfl

/-- What working out does to the table does not depend on who asked for it. -/
theorem work_memo (c : Cursor) (log : Log) (hpos : c.pos = pos)
    (htable : Table set.grammar set.input frames memo) :
    (Evaluation.work set rule (bodyAt set depth frames pos rule) c log memo).map (·.memo) =
      (runMoves (touch set depth ((pos, rule.name) :: frames)) pos rule.name
        (set.grammar.meaning rule.name cs).moves memo).map
          fun memo' => memo'.put pos rule.name (set.grammar.meaning rule.name cs).entry := by
  rcases h.work c log hpos htable with ⟨hrun, hnone⟩ | ⟨memo', hrun, -, hsome⟩
  · rw [hrun, hnone]
    rfl
  · rw [hrun, hsome]
    rfl

end Evaluating

/-! ## All depths -/

theorem ofRule_of_none (h : set.grammar.rule? q = none) (c : Cursor) :
    ofRule set depth frames q c log memo = some ⟨none, log, memo⟩ := by
  rw [ofRule, h]

/-- An application with a settled entry reads it. -/
theorem ofRule_settled (hset : set.tracing = false) (hrule : set.grammar.rule? q = some rule)
    (c : Cursor) {a : Application} (h : memo.find? c.pos q = some a.entry) :
    ofRule set depth frames q c log memo =
      some ⟨a.tree?.map c.push, log.tell c.pos a, memo⟩ := by
  rw [ofRule, hrule]
  simp only [Grammar.rule?_name hrule, h, Application.entry, reuse, Log.note, hset,
    Bool.false_eq_true, if_false, Failures.absoluteFrom_ofList, Failures.merge_ofList]
  rfl

/-- An application without an entry is worked out, if the depth allows it. -/
theorem ofRule_work (hrule : set.grammar.rule? rule.name = some rule) (c : Cursor)
    (h : memo.find? c.pos rule.name = none) :
    ofRule set (depth + 1) frames rule.name c log memo =
      Evaluation.work set rule (bodyAt set depth frames c.pos rule) c log memo := by
  rw [ofRule, hrule]
  simp only [h, descend_eq, bodyAt]

theorem ofRule_zero (hrule : set.grammar.rule? rule.name = some rule) (c : Cursor)
    (h : memo.find? c.pos rule.name = none) :
    ofRule set 0 frames rule.name c log memo = none := by
  rw [ofRule, hrule]
  simp only [h]

theorem Evaluating.moves_eq (h : Evaluating set depth frames pos rule cs) :
    (set.grammar.meaning rule.name cs).moves =
      .seed none :: (set.grammar.meaning rule.name cs).moves.tail := by
  rw [h.loopsOnly.meaning_eq h.found]
  obtain ⟨more, hmoves⟩ := rule.applied_moves set.grammar.meaning cs
  rw [hmoves]
  rfl

/-- The calls behind the first seed are all, and may occur in the body of the rule. -/
theorem Evaluating.call_of_tail (h : Evaluating set depth frames pos rule cs) {c : Call}
    (hc : .call c ∈ (set.grammar.meaning rule.name cs).moves.tail) :
    c ∈ (set.grammar.meaning rule.name cs).calls ∧ Cuts cs c.offset ∧
      set.grammar.Inner frames (pos, rule.name) (pos + c.offset, c.rule) := by
  have hsound := h.loopsOnly.meaning_sound h.found cs
  have hc := Application.mem_calls.mpr (List.mem_of_mem_tail hc)
  exact ⟨hc, (hsound.calls c hc).1, Grammar.inner_of_call h.loopsOnly h.found h.under hsound hc⟩

/-- What working out an application does to the table. -/
theorem touch_work (h : Evaluating set depth frames pos rule cs)
    (htable : Table set.grammar set.input frames memo) (hnew : memo.find? pos rule.name = none) :
    touch set (depth + 1) frames pos rule.name memo =
      (runMoves (touch set depth ((pos, rule.name) :: frames)) pos rule.name
        (set.grammar.meaning rule.name cs).moves.tail
        (memo.put pos rule.name (.growing none none false))).map
          fun memo' => memo'.put pos rule.name (set.grammar.meaning rule.name cs).entry := by
  have hmoves : runMoves (touch set depth ((pos, rule.name) :: frames)) pos rule.name
      (set.grammar.meaning rule.name cs).moves memo =
      runMoves (touch set depth ((pos, rule.name) :: frames)) pos rule.name
        (set.grammar.meaning rule.name cs).moves.tail
        (memo.put pos rule.name (.growing none none false)) := by
    conv_lhs => rw [h.moves_eq]
    rfl
  rw [touch, ofRule_work h.found ⟨pos, []⟩ hnew, ← hmoves]
  exact h.work_memo ⟨pos, []⟩ _ rfl htable

/-- What working out an application preserves, up to its being settled. -/
theorem Evaluating.work_induction (h : Evaluating set depth frames pos rule cs) {J : Memo → Prop}
    (htable : Table set.grammar set.input frames memo) (hnew : memo.find? pos rule.name = none)
    (plant : ∀ m seed? read, pos < m.slots.size →
      (∀ s, m.find? pos rule.name ≠ some (.settled s)) → J m →
        J (m.put pos rule.name (.growing seed? none read)))
    (call : ∀ c m m', c ∈ (set.grammar.meaning rule.name cs).calls → c ≠ ⟨0, rule.name⟩ →
      set.grammar.Under ((pos, rule.name) :: frames) (pos + c.offset, c.rule) →
      Open set.grammar set.input frames (pos, rule.name) m → m.Extends m' → J m →
      touch set depth ((pos, rule.name) :: frames) (pos + c.offset) c.rule m = some m' → J m')
    (hJ : J memo) (htouch : touch set (depth + 1) frames pos rule.name memo = some memo') :
    ∃ memo₁, memo' = memo₁.put pos rule.name (set.grammar.meaning rule.name cs).entry ∧
      Open set.grammar set.input frames (pos, rule.name) memo₁ ∧ J memo₁ ∧ memo.Retains memo₁ ∧
      ∀ c ∈ (set.grammar.meaning rule.name cs).calls, c ≠ ⟨0, rule.name⟩ →
        set.grammar.Under ((pos, rule.name) :: frames) (pos + c.offset, c.rule) ∧
        ∃ m m', Open set.grammar set.input frames (pos, rule.name) m ∧ J m ∧
          touch set depth ((pos, rule.name) :: frames) (pos + c.offset) c.rule m = some m' ∧
          m'.Retains memo₁ := by
  have hpos := htable.lt_size h.left
  have hopen : ∀ s, memo.find? pos rule.name ≠ some (.settled s) := by simp [hnew]
  rw [touch_work h htable hnew] at htouch
  obtain ⟨memo₁, hrun, rfl⟩ := Option.map_eq_some_iff.mp htouch
  obtain ⟨hopen', hJ', hretains, hmade⟩ := h.moves_induction (J := J)
    (fun c hc => (h.call_of_tail hc).2)
    (fun m seed? read hm => plant m seed? read (hm.table.lt_size h.left) hm.not_settled)
    (fun c m m' hc => call c m m' (h.call_of_tail hc).1)
    (Open.plant (htable.cons _) hpos none false) (plant memo none false hpos hopen hJ) hrun
  refine ⟨memo₁, rfl, hopen', hJ', (Memo.retains_put hpos hopen).trans hretains,
    fun c hc => hmade c ?_⟩
  rw [Application.mem_calls, h.moves_eq] at hc
  simpa using hc

/-- Applications that find an entry, or have no rule, leave the table as it is. -/
theorem touch_of_entry (depth : Nat) (frames : List Frame) (hset : set.tracing = false) {a : Application}
    (h : set.grammar.rule? q = none ∨ memo.find? pos q = some a.entry) :
    touch set depth frames pos q memo = some memo := by
  rw [touch]
  cases hrule : set.grammar.rule? q with
  | none =>
      rw [ofRule_of_none hrule]
      rfl
  | some rule =>
      rw [hrule] at h
      rw [ofRule_settled hset hrule ⟨pos, []⟩ (h.resolve_left (by simp))]
      rfl

/-- It suffices to look at applications that have no entry yet. -/
theorem truthful_of_missing (hset : set.tracing = false)
    (hmissing : ∀ frames rule c log memo cs, set.grammar.rule? rule.name = some rule →
      (outerScope set depth frames).Ready c log cs → Table set.grammar set.input frames memo →
        set.grammar.Under frames (c.pos, rule.name) → memo.find? c.pos rule.name = none →
          (outerScope set depth frames).Delivers c log memo
            ((set.grammar.meaning rule.name cs).reading rule.name)
            (ofRule set depth frames rule.name c log memo))
    (hkeeps : ∀ frames rule pos memo memo' cs, set.grammar.rule? rule.name = some rule →
      set.input.LeftAt pos cs → Table set.grammar set.input frames memo →
        set.grammar.Under frames (pos, rule.name) → memo.find? pos rule.name = none →
          touch set depth frames pos rule.name memo = some memo' → memo.Extends memo') :
    Truthful set depth where
  performs := by
    intro frames q c log memo cs hr htable hallowed
    have hunder : set.grammar.Under frames (c.pos, q) :=
      hallowed ⟨0, q⟩ (by simp [Application.reading])
    dsimp only
    cases hrule : set.grammar.rule? q with
    | none =>
        have htouch : touch set depth frames c.pos q memo = some memo :=
          touch_of_entry (a := .nothing) depth frames hset (.inl hrule)
        refine Scope.delivers_some ((runCalls_reading _ _ _ _ _).trans htouch) htable
          (ofRule_of_none hrule c) ?_
        rw [Grammar.meaning_of_none hrule]
        exact ⟨rfl, rfl, (Nat.max_eq_left hr.near).symm, Nat.le_max_left _ _⟩
    | some rule =>
        have hname := Grammar.rule?_name hrule
        subst hname
        rcases htable.find?_of_under hunder (Grammar.hasRule_of_rule? hrule) with hnew | ⟨cs', hleft, he⟩
        · exact hmissing frames rule c log memo cs hrule hr htable hunder hnew
        · obtain rfl := hr.left.unique hleft
          have htouch := touch_of_entry depth frames hset (.inr he)
          exact Scope.delivers_some ((runCalls_reading _ _ _ _ _).trans htouch) htable
            (ofRule_settled hset hrule c he) (agrees_tell c log _ rule.name)
  keeps := by
    intro frames pos q cs memo memo' hleft htable hunder h
    cases hrule : set.grammar.rule? q with
    | none =>
        rw [touch_of_entry (a := .nothing) depth frames hset (.inl hrule)] at h
        exact Option.some.inj h ▸ .refl memo
    | some rule =>
        have hname := Grammar.rule?_name hrule
        subst hname
        rcases htable.find?_of_under hunder (Grammar.hasRule_of_rule? hrule) with hnew | ⟨cs', -, he⟩
        · exact hkeeps frames rule pos memo memo' cs hrule hleft htable hunder hnew h
        · rw [touch_of_entry depth frames hset (.inr he)] at h
          exact Option.some.inj h ▸ .refl memo

/-- Rule applications come to what the grammar means, however deep they may nest. -/
theorem truthful (hg : set.grammar.LoopsOnly) (hset : set.tracing = false) (depth : Nat) :
    Truthful set depth := by
  induction depth with
  | zero =>
      refine truthful_of_missing hset ?_ ?_
      · intro frames rule c log memo cs hrule _ _ _ hnew
        refine Scope.delivers_none ((runCalls_reading _ _ _ _ _).trans ?_)
          (ofRule_zero hrule c hnew)
        simp only [outerScope, touch, ofRule_zero hrule ⟨c.pos, []⟩ hnew, Option.map_none]
      · intro frames rule pos memo memo' cs hrule _ _ _ hnew h
        rw [touch, ofRule_zero hrule ⟨pos, []⟩ hnew] at h
        cases h
  | succ depth ih =>
      refine truthful_of_missing hset ?_ ?_
      · intro frames rule c log memo cs hrule hr htable hunder hnew
        have h : Evaluating set depth frames c.pos rule cs :=
          ⟨hg, hset, ih, hrule, hr.left, hunder⟩
        -- from any cursor the same happens to the table
        have htouch : touch set (depth + 1) frames c.pos rule.name memo =
            (ofRule set (depth + 1) frames rule.name c log memo).map (·.memo) := by
          rw [touch, ofRule_work hrule ⟨c.pos, []⟩ hnew, ofRule_work hrule c hnew]
          exact (h.work_memo ⟨c.pos, []⟩ _ rfl htable).trans (h.work_memo c log rfl htable).symm
        rw [ofRule_work hrule c hnew] at htouch ⊢
        rcases h.work c log rfl htable with ⟨hrun, hnone⟩ | ⟨memo', hrun, htable', hsome⟩
        · rw [hnone] at htouch
          exact Scope.delivers_none ((runCalls_reading _ _ _ _ _).trans htouch) hnone
        · rw [hsome] at htouch
          exact Scope.delivers_some ((runCalls_reading _ _ _ _ _).trans htouch)
            (htable'.settle hr.left) hsome (agrees_tell c log _ rule.name)
      · intro frames rule pos memo memo' cs hrule hleft htable hunder hnew htouch
        have h : Evaluating set depth frames pos rule cs := ⟨hg, hset, ih, hrule, hleft, hunder⟩
        have hpos := htable.lt_size hleft
        obtain ⟨memo₁, rfl, hopen, hextends, -⟩ := h.work_induction
          (J := memo.ExtendsBut (pos, rule.name)) htable hnew
          (fun m _ _ hpos _ hm => hm.trans (Memo.extendsBut_put hpos))
          (fun c m m' _ _ _ _ hextends hm _ => hm.trans hextends.but) (.refl _ _) htouch
        exact hextends.put hnew (hopen.table.lt_size hleft)

/-- What an application under the frames comes to, if it comes to anything. -/
theorem ofRule_applied (hg : set.grammar.LoopsOnly) (hset : set.tracing = false)
    (hrule : set.grammar.rule? rule.name = some rule) {c : Cursor} {out : Outcome}
    (hleft : set.input.LeftAt c.pos cs) (htable : Table set.grammar set.input frames memo)
    (hunder : set.grammar.Under frames (c.pos, rule.name))
    (h : ofRule set depth frames rule.name c log memo = some out) :
    let a := set.grammar.meaning rule.name cs
    out.cursor? = a.tree?.map c.push ∧ out.log = log.tell c.pos a ∧
      Table set.grammar set.input frames out.memo := by
  rcases htable.find?_of_under hunder (Grammar.hasRule_of_rule? hrule) with hnew | ⟨cs', hleft', he⟩
  · cases depth with
    | zero => cases (ofRule_zero hrule c hnew).symm.trans h
    | succ depth =>
        rw [ofRule_work hrule c hnew] at h
        have heval : Evaluating set depth frames c.pos rule cs :=
          ⟨hg, hset, truthful hg hset depth, hrule, hleft, hunder⟩
        rcases heval.work c log rfl htable with ⟨-, hnone⟩ | ⟨memo', -, htable', hsome⟩
        · cases hnone.symm.trans h
        · cases hsome.symm.trans h
          exact ⟨rfl, rfl, htable'.settle hleft⟩
  · obtain rfl := hleft.unique hleft'
    cases (ofRule_settled hset hrule c he).symm.trans h
    exact ⟨rfl, rfl, htable⟩

end Pegboard.Match
