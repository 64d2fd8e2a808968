import Pegboard.Match.Eval
import Pegboard.Proofs.Reading

/-!
# Evaluations perform readings

An evaluation reads and changes the memo table only where it applies a rule. So, as long as rule
applications come to what a meaning says, it comes to what the reading of its expression under that
meaning comes to, and does to the table what the calls of that reading do, one after the other.

`Scope` gathers what is known of the rule applications, and `Scope.Performs` says that an evaluation
comes to a reading; each way of combining evaluations has its lemma, and the main statement is
`Scope.ofExpr_performs`. Nothing is said of traces, which are not kept here.
-/

namespace Pegboard.Match

open Text Evaluation

/-- The cursor behind what a reading took. -/
def Cursor.take (c : Cursor) (t : Taken) : Cursor where
  pos := c.pos + t.size
  found := (t.trees.map fun (o, tree) => (c.pos + o, tree)).reverse ++ c.found

namespace Cursor

theorem push_eq_take (c : Cursor) (t : Tree) : c.push t = c.take (.ofTree t) := by
  simp [push, take, Taken.ofTree]

@[simp] theorem take_nothing (c : Cursor) : c.take .nothing = c := by
  simp [take, Taken.nothing]

theorem take_append (c : Cursor) (t u : Taken) : c.take (t.append u) = (c.take t).take u := by
  simp [take, Taken.append, Nat.add_assoc, Function.comp_def]

theorem children_take (pos : Nat) (t : Taken) :
    Cursor.children (Cursor.take ⟨pos, []⟩ t) pos = t.trees := by
  simp [children, take, Function.comp_def]

end Cursor

/-- What an evaluation from the cursor came to is what the reading came to. -/
structure Agrees (c : Cursor) (log : Log) (r : Reading) (c? : Option Cursor) (log' : Log) :
    Prop where
  cursor : c? = r.taken?.map c.take
  failures : log'.failures = log.failures.recordAll (r.missed.map (Failure.shift c.pos))
  reach : log'.reach = max log.reach (c.pos + r.examined)
  heads : log'.heads ≤ max log.heads 1

namespace Agrees

variable {c : Cursor} {log log' : Log} {r : Reading} {c? : Option Cursor}

theorem eq_none (h : Agrees c log r c? log') (ht : r.taken? = none) : c? = none := by
  rw [h.cursor, ht]
  rfl

theorem eq_take {t : Taken} (h : Agrees c log r c? log') (ht : r.taken? = some t) :
    c? = some (c.take t) := by
  rw [h.cursor, ht]
  rfl

end Agrees

/-- Two evaluations, the second one behind what the first one took. -/
theorem Agrees.followed {c : Cursor} {log log₁ log₂ : Log} {a b : Reading} {t : Taken}
    {c₁? c₂? : Option Cursor} (ha : Agrees c log a c₁? log₁)
    (hb : Agrees (c.take t) log₁ b c₂? log₂) : Agrees c log (a.followed t b) c₂? log₂ where
  cursor := by
    rw [hb.cursor, Reading.followed, Option.map_map]
    congr 1
    funext u
    exact (c.take_append t u).symm
  failures := by
    rw [hb.failures, ha.failures, ← Failures.recordAll_append, Reading.followed, List.map_append,
      List.map_map]
    congr 3
    funext f
    exact (f.shift_shift c.pos t.size).symm
  reach := by
    rw [hb.reach, ha.reach]
    simp only [Cursor.take, Reading.followed]
    omega
  heads := by
    have := ha.heads
    have := hb.heads
    omega

/-- What calls from a place do to the table, if each of them does what `touch` says. -/
def runCalls (touch : Nat → String → Memo → Option Memo) (pos : Nat) :
    List Call → Memo → Option Memo
  | [], memo => some memo
  | c :: cs, memo => (touch (pos + c.offset) c.rule memo).bind (runCalls touch pos cs)

theorem runCalls_append (touch : Nat → String → Memo → Option Memo) (pos : Nat)
    (as bs : List Call) (memo : Memo) :
    runCalls touch pos (as ++ bs) memo =
      (runCalls touch pos as memo).bind (runCalls touch pos bs) := by
  induction as generalizing memo with
  | nil => rfl
  | cons a as ih =>
      simp only [List.cons_append, runCalls]
      cases touch (pos + a.offset) a.rule memo with
      | none => rfl
      | some memo' => exact ih memo'

theorem runCalls_shift (touch : Nat → String → Memo → Option Memo) (pos base : Nat)
    (cs : List Call) (memo : Memo) :
    runCalls touch pos (cs.map (Call.shift base)) memo =
      runCalls touch (pos + base) cs memo := by
  induction cs generalizing memo with
  | nil => rfl
  | cons c cs ih =>
      simp only [List.map_cons, runCalls, Call.shift, Nat.add_assoc]
      congr 1
      funext memo'
      exact ih memo'

/-- What is known of the rule applications below some place. -/
structure Scope where
  set : Setting
  /-- What the application of a rule at a place does to the table. -/
  touch : Nat → String → Memo → Option Memo
  /-- What is true of the table before and after each application. -/
  Inv : Memo → Prop
  /-- The applications that may occur. -/
  Allowed : Nat → String → Prop
  /-- How far was looked before. -/
  floor : Nat

namespace Scope

variable (s : Scope)

/-- The text `cs` is left at the cursor, and was looked at as far as the cursor went. -/
structure Ready (c : Cursor) (log : Log) (cs : List Char) : Prop where
  left : s.set.input.LeftAt c.pos cs
  near : c.pos ≤ log.reach
  floor : s.floor ≤ log.reach

/-- An evaluation came to nothing if the calls of the reading do, and to the reading else. -/
def Delivers (c : Cursor) (log : Log) (memo : Memo) (r : Reading) (result : Option Outcome) :
    Prop :=
  match runCalls s.touch c.pos r.calls memo with
  | none => result = none
  | some memo' =>
    s.Inv memo' ∧ ∃ c? log', result = some ⟨c?, log', memo'⟩ ∧ Agrees c log r c? log'

/-- The evaluation comes to the reading, wherever only allowed applications occur. -/
def Performs (e : Evaluation) (read : List Char → Reading) : Prop :=
  ∀ c log memo cs, s.Ready c log cs → s.Inv memo →
    (∀ call ∈ (read cs).calls, s.Allowed (c.pos + call.offset) call.rule) →
      s.Delivers c log memo (read cs) (e c log memo)

variable {s} {c : Cursor} {log log' : Log} {memo memo' : Memo} {cs : List Char} {m : Meaning}
variable {r a b : Reading} {t : Taken} {c? : Option Cursor} {result : Option Outcome}

theorem Ready.mono (h : s.Ready c log cs) (hle : log.reach ≤ log'.reach) : s.Ready c log' cs :=
  ⟨h.left, h.near.trans hle, h.floor.trans hle⟩

/-- The place behind what was taken. -/
theorem Ready.take (h : s.Ready c log cs) (hr : r.Fits m cs) (ht : r.taken? = some t)
    (hreach : log'.reach = max log.reach (c.pos + r.examined)) :
    s.Ready (c.take t) log' (dropBytes cs t.size) := by
  obtain ⟨hcut, hle⟩ := hr.taken t ht
  refine ⟨h.left.drop hcut, ?_, ?_⟩
  · have : (c.take t).pos = c.pos + t.size := rfl
    omega
  · have := h.floor
    omega

theorem delivers_of_no_calls (hcalls : r.calls = []) (hinv : s.Inv memo)
    (hresult : result = some ⟨c?, log', memo⟩) (h : Agrees c log r c? log') :
    s.Delivers c log memo r result := by
  rw [Delivers, hcalls]
  exact ⟨hinv, c?, log', hresult, h⟩

theorem delivers_none (h : runCalls s.touch c.pos r.calls memo = none) (hresult : result = none) :
    s.Delivers c log memo r result := by
  rw [Delivers, h]
  exact hresult

theorem delivers_some (h : runCalls s.touch c.pos r.calls memo = some memo') (hinv : s.Inv memo')
    (hresult : result = some ⟨c?, log', memo'⟩) (hagrees : Agrees c log r c? log') :
    s.Delivers c log memo r result := by
  rw [Delivers, h]
  exact ⟨hinv, c?, log', hresult, hagrees⟩

/-- An evaluation that came to the reading either came to nothing, as the calls of the reading do,
or to an outcome that agrees. -/
theorem Delivers.cases (h : s.Delivers c log memo r result) :
    runCalls s.touch c.pos r.calls memo = none ∧ result = none ∨
      ∃ memo' c? log', runCalls s.touch c.pos r.calls memo = some memo' ∧ s.Inv memo' ∧
        result = some ⟨c?, log', memo'⟩ ∧ Agrees c log r c? log' := by
  rw [Delivers] at h
  split at h
  · exact .inl ⟨‹_›, h⟩
  · obtain ⟨hinv, c?, log', hresult, hagrees⟩ := h
    exact .inr ⟨_, c?, log', ‹_›, hinv, hresult, hagrees⟩

/-! ## Reading the text -/

theorem any_performs : s.Performs (any s.set) Reading.any := by
  intro c log memo cs hr hinv _
  rw [any, hr.left.rest_eq]
  cases cs with
  | nil =>
      have hsize := hr.left.size_eq
      refine delivers_of_no_calls rfl hinv rfl ⟨rfl, rfl, ?_, Nat.le_max_left _ _⟩
      simp [Log.fail, Log.examine, Reading.any, Reading.miss, hsize]
  | cons ch cs =>
      refine delivers_of_no_calls rfl hinv rfl ⟨?_, rfl, rfl, Nat.le_max_left _ _⟩
      rw [Cursor.push_eq_take]
      rfl

theorem range_performs (lo hi : Char) :
    s.Performs (range s.set lo hi) (Reading.range lo hi) := by
  intro c log memo cs hr hinv _
  rw [range, hr.left.rest_eq]
  cases cs with
  | nil =>
      have hsize := hr.left.size_eq
      refine delivers_of_no_calls rfl hinv rfl ⟨rfl, rfl, ?_, Nat.le_max_left _ _⟩
      simp [Log.fail, Log.examine, Reading.range, Reading.miss, hsize]
  | cons ch cs =>
      rw [Reading.range]
      by_cases hch : lo ≤ ch ∧ ch ≤ hi
      · rw [if_pos hch]
        refine delivers_of_no_calls rfl hinv (if_pos hch) ⟨?_, rfl, rfl, Nat.le_max_left _ _⟩
        rw [Cursor.push_eq_take]
        rfl
      · rw [if_neg hch]
        exact delivers_of_no_calls rfl hinv (if_neg hch) ⟨rfl, rfl, rfl, Nat.le_max_left _ _⟩

theorem terminal_performs (text : String) :
    s.Performs (terminal s.set text) (Reading.terminal text) := by
  intro c log memo cs hr hinv _
  have hrest := hr.left.rest_eq
  have hsize := hr.left.size_eq
  have hreach : (if s.set.input.size < c.pos + text.utf8ByteSize then s.set.input.size + 1
      else c.pos + text.utf8ByteSize) =
      c.pos + if byteSize cs < text.utf8ByteSize then byteSize cs + 1 else text.utf8ByteSize := by
    by_cases h : byteSize cs < text.utf8ByteSize
    · rw [if_pos h, if_pos (by omega)]
      omega
    · rw [if_neg h, if_neg (by omega)]
  by_cases hp : text.toList.isPrefixOf cs
  · rw [terminal, hrest, Reading.terminal, if_pos hp, hreach]
    refine delivers_of_no_calls rfl hinv (if_pos hp) ⟨?_, rfl, rfl, Nat.le_max_left _ _⟩
    rw [Cursor.push_eq_take]
    rfl
  · rw [terminal, hrest, Reading.terminal, if_neg hp, hreach]
    exact delivers_of_no_calls rfl hinv (if_neg hp) ⟨rfl, rfl, rfl, Nat.le_max_left _ _⟩

theorem endOfInput_performs : s.Performs (endOfInput s.set) Reading.endOfInput := by
  intro c log memo cs hr hinv _
  have hsize := hr.left.size_eq
  cases cs with
  | nil =>
      have hend : s.set.input.size ≤ c.pos := by simpa using hsize.le
      refine delivers_of_no_calls rfl hinv (if_pos hend) ⟨?_, rfl, rfl, Nat.le_max_left _ _⟩
      simp [Reading.endOfInput]
  | cons ch cs =>
      have hmore : ¬ s.set.input.size ≤ c.pos := by
        rw [byteSize_cons] at hsize
        have := ch.utf8Size_pos
        omega
      exact delivers_of_no_calls rfl hinv (if_neg hmore) ⟨rfl, rfl, rfl, Nat.le_max_left _ _⟩

/-! ## Combining evaluations -/

/-- A reading in two parts is delivered by its second part behind its first. -/
theorem Delivers.followed {c₁? : Option Cursor}
    (hcalls : runCalls s.touch c.pos a.calls memo = some memo') (ha : Agrees c log a c₁? log')
    (hb : s.Delivers (c.take t) log' memo' b result) :
    s.Delivers c log memo (a.followed t b) result := by
  have hboth : runCalls s.touch c.pos (a.followed t b).calls memo =
      runCalls s.touch (c.take t).pos b.calls memo' := by
    rw [Reading.followed, runCalls_append, hcalls, Option.bind_some, runCalls_shift]
    rfl
  rcases hb.cases with ⟨hnone, hresult⟩ | ⟨memo₂, c₂?, log₂, hsome, hinv, hresult, hagrees⟩
  · exact delivers_none (hboth.trans hnone) hresult
  · exact delivers_some (hboth.trans hsome) hinv hresult (ha.followed hagrees)

/-- The same calls with an outcome told otherwise. -/
theorem Delivers.retold {r' : Reading} {c₀ : Cursor} {log₀ : Log} {result₀ : Option Outcome}
    (h : s.Delivers c₀ log₀ memo r result₀) (hpos : c₀.pos = c.pos) (hcalls : r'.calls = r.calls)
    (hnone : result₀ = none → result = none)
    (hsome : ∀ c? log' memo', result₀ = some ⟨c?, log', memo'⟩ → Agrees c₀ log₀ r c? log' →
      ∃ c?' log'', result = some ⟨c?', log'', memo'⟩ ∧ Agrees c log r' c?' log'') :
    s.Delivers c log memo r' result := by
  rcases h.cases with ⟨hrun, hresult⟩ | ⟨memo', c?, log', hrun, hinv, hresult, hagrees⟩
  · exact delivers_none (by rw [hcalls, ← hpos, hrun]) (hnone hresult)
  · obtain ⟨c?', log'', heq, hagrees'⟩ := hsome c? log' memo' hresult hagrees
    exact delivers_some (by rw [hcalls, ← hpos, hrun]) hinv heq hagrees'

section

variable {first second e : Evaluation} {read next : List Char → Reading}

theorem andThen_performs (hfits : ∀ cs, (read cs).Fits m cs) (h₁ : s.Performs first read)
    (h₂ : s.Performs second next) :
    s.Performs (first.andThen second)
      fun cs => (read cs).andThen fun t => next (dropBytes cs t.size) := by
  intro c log memo cs hr hinv hallowed
  dsimp only at hallowed ⊢
  cases ht : (read cs).taken? with
  | none =>
      rw [Reading.andThen_of_none ht] at hallowed ⊢
      refine (h₁ c log memo cs hr hinv hallowed).retold rfl rfl ?_ ?_
      · intro hnone
        rw [Evaluation.andThen, hnone]
      · intro c? log' memo' hsome hagrees
        obtain rfl := hagrees.eq_none ht
        exact ⟨none, log', by rw [Evaluation.andThen, hsome], hagrees⟩
  | some t =>
      rw [Reading.andThen_of_some ht] at hallowed ⊢
      have hfirst := h₁ c log memo cs hr hinv fun call hc =>
        hallowed call (List.mem_append_left _ hc)
      rcases hfirst.cases with ⟨hrun, hnone⟩ | ⟨memo', c?, log', hrun, hinv', hsome, hagrees⟩
      · refine delivers_none ?_ (by rw [Evaluation.andThen, hnone])
        rw [Reading.followed, runCalls_append, hrun, Option.bind_none]
      · obtain rfl := hagrees.eq_take ht
        -- the calls of the second reading, moved by what the first one took
        have hnext := h₂ (c.take t) log' memo' _ (hr.take (hfits cs) ht hagrees.reach) hinv'
          fun call hc => by
            have := hallowed (call.shift t.size)
              (List.mem_append_right _ (List.mem_map_of_mem hc))
            rwa [Call.shift, ← Nat.add_assoc] at this
        rw [Evaluation.andThen, hsome]
        exact hnext.followed hrun hagrees

theorem orElse_performs (h₁ : s.Performs first read) (h₂ : s.Performs second next) :
    s.Performs (first.orElse second) fun cs => (read cs).orElse (next cs) := by
  intro c log memo cs hr hinv hallowed
  dsimp only at hallowed ⊢
  cases ht : (read cs).taken? with
  | none =>
      rw [Reading.orElse_of_none ht] at hallowed ⊢
      have hfirst := h₁ c log memo cs hr hinv fun call hc =>
        hallowed call (List.mem_append_left _ hc)
      rcases hfirst.cases with ⟨hrun, hnone⟩ | ⟨memo', c?, log', hrun, hinv', hsome, hagrees⟩
      · refine delivers_none ?_ (by rw [Evaluation.orElse, hnone])
        rw [Reading.followed, runCalls_append, hrun, Option.bind_none]
      · obtain rfl := hagrees.eq_none ht
        have hreach : log.reach ≤ log'.reach := hagrees.reach ▸ Nat.le_max_left _ _
        have hnext := h₂ c log' memo' cs (hr.mono hreach) hinv' fun call hc => by
          have := hallowed (call.shift 0) (List.mem_append_right _ (List.mem_map_of_mem hc))
          rwa [Call.shift, Nat.zero_add] at this
        rw [Evaluation.orElse, hsome]
        rw [← c.take_nothing] at hnext
        exact Delivers.followed hrun hagrees hnext
  | some t =>
      rw [Reading.orElse_of_some ht] at hallowed ⊢
      refine (h₁ c log memo cs hr hinv hallowed).retold rfl rfl ?_ ?_
      · intro hnone
        rw [Evaluation.orElse, hnone]
      · intro c? log' memo' hsome hagrees
        obtain rfl := hagrees.eq_take ht
        exact ⟨some (c.take t), log', by rw [Evaluation.orElse, hsome], hagrees⟩

theorem not_performs (expr : Expr) (h : s.Performs e read) :
    s.Performs (Evaluation.not expr e) fun cs => (read cs).negated expr.text := by
  intro c log memo cs hr hinv hallowed
  have hcalls : ((read cs).negated expr.text).calls = (read cs).calls := by
    rw [Reading.negated]
    split <;> rfl
  have hready : s.Ready c { log with failures := ∅ } cs := hr.mono (Nat.le_refl _)
  refine (h c _ memo cs hready hinv fun call hc => hallowed call (hcalls ▸ hc)).retold rfl hcalls
    (fun hnone => by rw [Evaluation.not, hnone]) ?_
  intro c? log' memo' hsome hagrees
  rw [Evaluation.not, hsome]
  cases ht : (read cs).taken? with
  | none =>
      obtain rfl := hagrees.eq_none ht
      refine ⟨_, _, rfl, ?_, ?_, ?_, hagrees.heads⟩
      · simp [Reading.negated, ht]
      · simp [Reading.negated, ht]
      · simpa [Reading.negated, ht] using hagrees.reach
  | some t =>
      obtain rfl := hagrees.eq_take ht
      refine ⟨_, _, rfl, ?_, ?_, ?_, hagrees.heads⟩
      · simp [Reading.negated, ht]
      · simp [Reading.negated, ht, Log.fail, Failures.recordAll, Failure.shift]
      · simpa [Reading.negated, ht, Log.fail] using hagrees.reach

theorem look_performs (h : s.Performs e read) :
    s.Performs (look e) fun cs => (read cs).restored := by
  intro c log memo cs hr hinv hallowed
  refine (h c log memo cs hr hinv hallowed).retold rfl rfl
    (fun hnone => by rw [look, hnone]) ?_
  intro c? log' memo' hsome hagrees
  rw [look, hsome]
  refine ⟨_, _, rfl, ?_, hagrees.failures, hagrees.reach, hagrees.heads⟩
  rw [hagrees.cursor]
  cases ht : (read cs).taken? <;> simp [Reading.restored, ht]

/-- So many rounds suffice for what is left of the text. -/
def Suffice (op : Repeat) (n : Nat) (cs : List Char) : Prop :=
  op = .opt ∧ n = 1 ∨ op ≠ .opt ∧ byteSize cs < n

theorem Suffice.more {op : Repeat} {n size : Nat} {cs : List Char} (h : Suffice op (n + 1) cs)
    (hop : op ≠ .opt) (hcut : Cuts cs size) (hsize : 0 < size) :
    Suffice op n (dropBytes cs size) := by
  have := hcut.byteSize_drop
  rcases h with ⟨hopt, -⟩ | ⟨-, hn⟩
  · exact absurd hopt hop
  · exact .inr ⟨hop, by omega⟩

/-- A round that took something is the last one only if it is the one round of an option. -/
theorem Suffice.last {op : Repeat} {n size : Nat} {cs : List Char} (h : Suffice op (n + 1) cs)
    (hcut : Cuts cs size) (hsize : 0 < size) (hlast : ¬ (op ≠ .opt ∧ 0 < size ∧ cs ≠ [])) :
    n = 0 := by
  have hne : cs ≠ [] := by
    rintro rfl
    have := hcut.le
    simp at this
    omega
  rcases h with ⟨-, hn⟩ | ⟨hop, -⟩
  · omega
  · exact absurd ⟨hop, hsize, hne⟩ hlast

theorem rounds_performs (hfits : ∀ cs, (read cs).Fits m cs) (h : s.Performs e read) (op : Repeat)
    (n : Nat) (matched : Bool) (c : Cursor) (log : Log) (memo : Memo) (cs : List Char)
    (hn : Suffice op n cs) (hr : s.Ready c log cs) (hinv : s.Inv memo)
    (hallowed : ∀ call ∈ (Reading.rounds op read matched cs).calls,
      s.Allowed (c.pos + call.offset) call.rule) :
    s.Delivers c log memo (Reading.rounds op read matched cs) (rounds e n matched c log memo) := by
  induction n generalizing matched c log memo cs with
  | zero => rcases hn with ⟨-, hn⟩ | ⟨-, hn⟩ <;> omega
  | succ n ih =>
      cases ht : (read cs).taken? with
      | none =>
          -- the round matched nothing, and the rounds before it stand
          rw [Reading.rounds_of_none ht] at hallowed ⊢
          have hsame : (if matched then { read cs with taken? := some .nothing }
              else read cs).calls = (read cs).calls := by
            split <;> rfl
          refine (h c log memo cs hr hinv fun call hc => hallowed call (hsame ▸ hc)).retold rfl
            hsame (fun hnone => by simp only [rounds, hnone]) ?_
          intro c? log' memo' hsome hagrees
          obtain rfl := hagrees.eq_none ht
          simp only [rounds, hsome]
          refine ⟨_, _, rfl, ?_⟩
          cases matched with
          | false => exact hagrees
          | true => exact ⟨by simp, hagrees.failures, hagrees.reach, hagrees.heads⟩
      | some t =>
          have hcut := ((hfits cs).taken t ht).1
          have hpos : (c.take t).pos = c.pos + t.size := rfl
          by_cases hmore : op ≠ .opt ∧ 0 < t.size ∧ cs ≠ []
          · -- the induction goes on behind what the round took
            rw [Reading.rounds_more ht hmore] at hallowed ⊢
            have hfirst := h c log memo cs hr hinv fun call hc =>
              hallowed call (List.mem_append_left _ hc)
            rcases hfirst.cases with ⟨hrun, hnone⟩ | ⟨memo', c?, log', hrun, hinv', hsome, hagrees⟩
            · refine delivers_none ?_ (by simp only [rounds, hnone])
              rw [Reading.followed, runCalls_append, hrun, Option.bind_none]
            · obtain rfl := hagrees.eq_take ht
              have hmoved : (c.take t).pos ≠ c.pos := by omega
              have hnext := ih true (c.take t) log' memo' _ (hn.more hmore.1 hcut hmore.2.1)
                (hr.take (hfits cs) ht hagrees.reach) hinv' fun call hc => by
                  have := hallowed (call.shift t.size)
                    (List.mem_append_right _ (List.mem_map_of_mem hc))
                  rwa [Call.shift, ← Nat.add_assoc] at this
              simp only [rounds, hsome, if_neg hmoved]
              exact hnext.followed hrun hagrees
          · rw [Reading.rounds_last ht hmore] at hallowed ⊢
            refine (h c log memo cs hr hinv hallowed).retold rfl rfl
              (fun hnone => by simp only [rounds, hnone]) ?_
            intro c? log' memo' hsome hagrees
            obtain rfl := hagrees.eq_take ht
            simp only [rounds, hsome]
            by_cases hmoved : (c.take t).pos = c.pos
            · exact ⟨_, _, if_pos hmoved, hagrees⟩
            · -- no rounds are left to go on with
              obtain rfl := hn.last hcut (by omega) hmore
              exact ⟨_, _, if_neg hmoved, hagrees⟩

theorem iter_performs (hfits : ∀ cs, (read cs).Fits m cs) (h : s.Performs e read) (op : Repeat) :
    s.Performs (iter s.set op e) (Reading.iterated op read) := by
  intro c log memo cs hr hinv hallowed
  have hlimit : Suffice op (roundLimit s.set op c.pos) cs := by
    have := hr.left.size_eq
    cases op <;> simp [Suffice, roundLimit]
    all_goals omega
  have hready : s.Ready ⟨c.pos, []⟩ log cs := ⟨hr.left, hr.near, hr.floor⟩
  refine (rounds_performs hfits h op _ (op != .plus) ⟨c.pos, []⟩ log memo cs hlimit hready hinv
    hallowed).retold rfl rfl (fun hnone => by rw [iter, hnone]) ?_
  intro c? log' memo' hsome hagrees
  rw [iter, hsome]
  cases ht : (Reading.rounds op read (op != .plus) cs).taken? with
  | none =>
      obtain rfl := hagrees.eq_none ht
      refine ⟨_, _, rfl, ?_, hagrees.failures, hagrees.reach, hagrees.heads⟩
      simp [Reading.iterated, Reading.asTree, ht]
  | some t =>
      obtain rfl := hagrees.eq_take ht
      refine ⟨_, _, rfl, ?_, hagrees.failures, hagrees.reach, hagrees.heads⟩
      have hlength : (Cursor.take ⟨c.pos, []⟩ t).pos - c.pos = t.size := by simp [Cursor.take]
      rw [Cursor.push_eq_take, Cursor.children_take, hlength]
      simp [Reading.iterated, Reading.asTree, ht]

end

/-! ## Expressions -/

section

variable {apply : String → Evaluation} {read : List Char → Reading} {e : Evaluation}

theorem skipSpaces_performs
    (happly : ∀ q, s.Performs (apply q) fun cs => (m q cs).reading q) :
    s.Performs (skipSpaces apply) (Reading.spaces m) := by
  intro c log memo cs hr hinv hallowed
  have hready : s.Ready c { log with failures := ∅ } cs := hr.mono (Nat.le_refl _)
  refine (happly "spaces" c _ memo cs hready hinv hallowed).retold rfl rfl
    (fun hnone => by rw [skipSpaces, hnone]) ?_
  intro c? log' memo' hsome hagrees
  have hmark : ∀ log : Log, log.markSpaces.failures = log.failures ∧
      log.markSpaces.reach = log.reach ∧ log.markSpaces.heads = log.heads := by
    intro log
    rw [Log.markSpaces]
    split <;> exact ⟨rfl, rfl, rfl⟩
  rw [skipSpaces, hsome]
  refine ⟨_, _, rfl, ?_, ?_, ?_, ?_⟩
  · rw [hagrees.cursor]
    cases ht : ((m "spaces" cs).reading "spaces").taken? <;>
      simp [Reading.spaces, ht, Cursor.take]
  · simp [(hmark _).1, Reading.spaces]
  · rw [(hmark _).2.1]
    exact hagrees.reach
  · rw [(hmark _).2.2]
    exact hagrees.heads

theorem spaced_performs (hm : m.Fits)
    (happly : ∀ q, s.Performs (apply q) fun cs => (m q cs).reading q) (skip : Bool)
    (h : s.Performs e read) : s.Performs (spaced apply skip e) (Reading.spaced m skip read) := by
  cases skip with
  | false => exact h
  | true => exact andThen_performs (Reading.fits_spaces hm) (skipSpaces_performs happly) h

theorem traced_eq {set : Setting} (hset : set.tracing = false) (expr : Expr) (e : Evaluation) :
    traced set expr e = e := by
  funext c log memo
  simp [traced, hset]

end

mutual

/-- An expression comes to its reading, if the rules that it applies do. -/
theorem ofExpr_performs {apply : String → Evaluation} (hset : s.set.tracing = false)
    (hm : m.Fits) (happly : ∀ q, s.Performs (apply q) fun cs => (m q cs).reading q)
    (syntactic : Bool) :
    ∀ e : Expr, s.Performs (ofExpr s.set apply syntactic e) (e.read m syntactic)
  | .any => by
      have h := spaced_performs hm happly syntactic (any_performs (s := s))
      simpa only [ofExpr, traced_eq hset, Performs, Expr.read] using h
  | .endOfInput => by
      have h := spaced_performs hm happly syntactic (endOfInput_performs (s := s))
      simpa only [ofExpr, traced_eq hset, Performs, Expr.read] using h
  | .terminal text => by
      have h := spaced_performs hm happly syntactic (terminal_performs (s := s) text)
      simpa only [ofExpr, traced_eq hset, Performs, Expr.read] using h
  | .range lo hi => by
      have h := spaced_performs hm happly syntactic (range_performs (s := s) lo hi)
      simpa only [ofExpr, traced_eq hset, Performs, Expr.read] using h
  | .apply rule => by
      have h := spaced_performs hm happly (syntactic && rule != "spaces") (happly rule)
      simpa only [ofExpr, Performs, Expr.read] using h
  | .alt es => by
      have h := ofChoices_performs hset hm happly syntactic es
      simpa only [ofExpr, traced_eq hset, Performs, Expr.read] using h
  | .seq es => by
      have h := ofParts_performs hset hm happly syntactic es
      simpa only [ofExpr, traced_eq hset, Performs, Expr.read] using h
  | .iter op e => by
      have h := iter_performs (Expr.read_fits hm syntactic e)
        (ofExpr_performs hset hm happly syntactic e) op
      simpa only [ofExpr, traced_eq hset, Performs, Expr.read] using h
  | .not e => by
      have h := not_performs e (ofExpr_performs hset hm happly syntactic e)
      simpa only [ofExpr, traced_eq hset, Performs, Expr.read] using h
  | .look e => by
      have h := look_performs (ofExpr_performs hset hm happly syntactic e)
      simpa only [ofExpr, traced_eq hset, Performs, Expr.read] using h
  | .lex e => by
      have h := ofExpr_performs hset hm happly false e
      simpa only [ofExpr, traced_eq hset, Performs, Expr.read] using h

theorem ofChoices_performs {apply : String → Evaluation} (hset : s.set.tracing = false)
    (hm : m.Fits) (happly : ∀ q, s.Performs (apply q) fun cs => (m q cs).reading q)
    (syntactic : Bool) :
    ∀ es : List Expr,
      s.Performs (ofChoices s.set apply syntactic es) (Expr.readFirst m syntactic es)
  | [] => by
      intro c log memo cs hr hinv _
      rw [Expr.readFirst]
      refine delivers_of_no_calls rfl hinv rfl ⟨rfl, rfl, ?_, Nat.le_max_left _ _⟩
      exact (Nat.max_eq_left hr.near).symm
  | e :: es => by
      have h := orElse_performs (ofExpr_performs hset hm happly syntactic e)
        (ofChoices_performs hset hm happly syntactic es)
      simpa only [ofChoices, Performs, Expr.readFirst] using h

theorem ofParts_performs {apply : String → Evaluation} (hset : s.set.tracing = false)
    (hm : m.Fits) (happly : ∀ q, s.Performs (apply q) fun cs => (m q cs).reading q)
    (syntactic : Bool) :
    ∀ es : List Expr,
      s.Performs (ofParts s.set apply syntactic es) (Expr.readEach m syntactic es)
  | [] => by
      intro c log memo cs hr hinv _
      rw [Expr.readEach]
      refine delivers_of_no_calls rfl hinv rfl ⟨?_, rfl, ?_, Nat.le_max_left _ _⟩
      · simp [Reading.blank]
      · exact (Nat.max_eq_left hr.near).symm
  | e :: es => by
      have h := andThen_performs (Expr.read_fits hm syntactic e)
        (ofExpr_performs hset hm happly syntactic e) (ofParts_performs hset hm happly syntactic es)
      simpa only [ofParts, Performs, Expr.readEach] using h

end

end Scope

end Pegboard.Match
