import Pegboard.Proofs.Match.Moments
import Pegboard.Proofs.Match.Session

/-!
# Matches stay in bounds

Whatever the grammar and whatever was asked of a session, the table of the session fits its text, and
no match in it ever leaves the text: at each of its moments the cursor stands at a boundary, and
every length that is worked out is one of a piece of text that was passed.

The rules being evaluated at a moment are different pairs of a place and a rule, each with a seed in
the table. So there are never more of them than there are such pairs, and a match that may nest as
deep never comes to nothing.

Main statements: `Session.confined_after`, `Session.frames_after`.
-/

namespace Pegboard.Match

open Text Evaluation

/-! ## What is true of every moment -/

/-- A cursor, a log and a table stay in a text, below a rule that began at `origin` and an iteration
or a rule that began at `base`. So the offsets and lengths of trees, counted from `base`, are
differences that do not fall below zero, and so are what was looked at and where failures stand,
counted from `origin`. -/
structure Confined (i : Input) (origin base : Nat) (c : Cursor) (log : Log) (memo : Memo) :
    Prop where
  boundary : i.Boundary c.pos
  pos_le : c.pos ≤ i.size
  base_le : base ≤ c.pos
  found : ∀ x ∈ c.found, base ≤ x.1
  origin_le : origin ≤ log.reach
  failures : ∀ q, log.failures.pos? = some q → origin ≤ q ∧ i.Boundary q
  slots : memo.slots.size = i.size + 1
  settled : ∀ pos q s, memo.find? pos q = some (.settled s) → s.Within i pos

theorem Stack.Ready.confined {σ : Stack} {base : Nat} {c : Cursor} {log : Log} {memo : Memo}
    (h : σ.Ready base c log memo) : Confined σ.set.input σ.origin base c log memo where
  boundary := h.boundary
  pos_le := h.boundary.le
  base_le := h.base_le
  found := h.found
  origin_le := h.origin_le_reach
  failures := fun q hq => ⟨(h.failures q hq).1, (h.failures q hq).2.1⟩
  slots := h.intact.size
  settled := h.intact.settled

namespace Moment

/-- Where the innermost rule being evaluated began. -/
def origin (m : Moment) : Nat :=
  (m.frames.head?.map Prod.fst).getD 0

/-- The evaluation begins in the text and ends in it. -/
structure StaysWithin (set : Setting) (m : Moment) : Prop where
  begins : Confined set.input m.origin m.base m.cursor m.log m.memo
  ends : ∀ out, m.outcome set = some out →
    Confined set.input m.origin m.base (out.cursor?.getD m.cursor) out.log out.memo

/-- The rules being evaluated are different pairs of a place and a rule, each with its seed in the
table, and no loop is cut short by the number of rounds that it is given. -/
structure Bounded (set : Setting) (m : Moment) : Prop where
  nodup : m.frames.Nodup
  active : ∀ f ∈ m.frames, f.1 ≤ set.input.size ∧ f.2 ∈ set.grammar.ruleNames ∧
    ∃ seed? trace? read, m.memo.find? f.1 f.2 = some (.growing seed? trace? read)
  count_le : m.frames.length ≤ (set.input.size + 1) * set.grammar.rules.length
  /-- Only an optional expression stops after its rounds, and it has one by design. -/
  rounds : ∀ syntactic op e matched, m.task = .rounds syntactic op e 0 matched → op = .opt
  grow : ∀ rule best trace, m.task ≠ .grow rule 0 best trace

variable {set : Setting} {limit : Nat} {m : Moment}

theorem Holds.staysWithin (hm : m.Holds set limit) : m.StaysWithin set where
  begins := by
    obtain ⟨ends, hready⟩ := hm.ready
    exact hready.confined
  ends := fun out hout => by
    obtain ⟨ends, hready⟩ := (hm.ends hout).ready
    exact hready.confined

theorem Holds.bounded (hm : m.Holds set limit) : m.Bounded set := by
  obtain ⟨ends, hready⟩ := hm.ready
  refine ⟨hready.placed.nodup, fun f hf => ?_, hready.placed.length_le, ?_, ?_⟩
  · exact ⟨(hready.placed.boundary f hf).le, hready.placed.rule f hf, hready.intact.active f hf⟩
  · intro syntactic op e matched htask
    refine (hm.rounds _ _ _ _ _ htask).resolve_right fun hlt => ?_
    have : m.cursor.pos ≤ set.input.size := hready.boundary.le
    omega
  · intro rule best trace htask
    obtain ⟨-, hlt, σ, stop, rfl, -, -, hcovers⟩ := hm.grow _ _ _ _ htask
    have := hcovers.boundary.le
    omega

end Moment

/-- A result reports failures at boundaries of its text only. -/
def Result.ReportsWithin (r : Result) : Prop :=
  r.input.Boundary r.failureOffset ∧ ∀ f ∈ r.failures.toList, r.input.Boundary f.offset

theorem Result.reportsWithin {r : Result}
    (h : ∀ q, r.failures.pos? = some q → r.input.Boundary q) : r.ReportsWithin := by
  rw [ReportsWithin, failureOffset]
  cases hf : r.failures with
  | empty => exact ⟨r.input.boundary_zero, List.forall_mem_nil _⟩
  | furthest pos es =>
      have hpos := h pos (by rw [hf]; rfl)
      refine ⟨hpos, fun f hmem => ?_⟩
      obtain ⟨e, -, rfl⟩ := List.mem_map.mp hmem
      exact hpos

/-! ## Tables between matches -/

namespace Stack

variable {set : Setting} {memo : Memo} {i j : Input} {front old new back : List Char}

theorem intact_blank (set : Setting) : (bottom set).Intact (.blank set.input.size) where
  size := by simp [Memo.blank, bottom]
  keyed := Memo.keyed_blank _
  settled := fun _ _ _ hs => by simp at hs
  growing := fun _ _ _ _ _ hs => by simp at hs
  active := List.forall_mem_nil _

/-- Between matches only the text counts. -/
theorem Intact.ofInput {set' : Setting} (h : (bottom set).Intact memo)
    (hinput : set'.input = set.input) : (bottom set').Intact memo where
  size := hinput ▸ h.size
  keyed := h.keyed
  settled := hinput ▸ h.settled
  growing := hinput ▸ h.growing
  active := List.forall_mem_nil _

/-- Between matches all entries are settled. -/
theorem Intact.entry_settled (h : (bottom set).Intact memo) {pos : Nat} {q : String} {e : Entry}
    (he : memo.find? pos q = some e) : ∃ s, e = .settled s ∧ s.Within set.input pos := by
  cases e with
  | settled s => exact ⟨s, rfl, h.settled pos q s he⟩
  | growing seed? trace? read => exact nomatch (h.growing pos q seed? trace? read he).1

end Stack

namespace Settled.Within

variable {i j : Input} {pos k : Nat} {s : Settled} {front old new back : List Char}

/-- What looked at nothing behind the beginning of an edit stays in the text. -/
theorem before_edit (h : s.Within i pos) (hends : pos + s.examined ≤ byteSize front)
    (hi : i.text.toList = front ++ old ++ back) (hj : j.text.toList = front ++ new ++ back) :
    s.Within j pos := by
  have stays : ∀ {p}, i.Boundary p → p ≤ byteSize front → j.Boundary p := by
    intro p hp hle
    obtain ⟨cs, hleft⟩ := hp.exists_left
    obtain ⟨mid, -, -, hafter⟩ := hleft.before_edit (by rw [hi, List.append_assoc]) hle
    have hafter : j.LeftAt p (mid ++ (new ++ back)) := hafter (by rw [hj, List.append_assoc])
    exact hafter.boundary
  have hlength := h.length_le
  have hsize := j.size_eq_byteSize
  rw [hj, byteSize_append, byteSize_append] at hsize
  refine ⟨stays h.start (by omega), stays h.stop (by omega), h.length_le, by omega, fun q hq => ?_⟩
  obtain ⟨hle, hb⟩ := h.failures q hq
  exact ⟨hle, stays hb (by omega)⟩

/-- What lies behind an edit moves with its text. -/
theorem behind_edit (h : s.Within i (byteSize front + byteSize old + k))
    (hi : i.text.toList = front ++ old ++ back) (hj : j.text.toList = front ++ new ++ back) :
    s.Within j (byteSize front + byteSize new + k) := by
  have moves : ∀ {n}, i.Boundary (byteSize front + byteSize old + k + n) →
      j.Boundary (byteSize front + byteSize new + k + n) := by
    intro n hn
    obtain ⟨cs, hleft⟩ := hn.exists_left
    rw [← byteSize_append, Nat.add_assoc] at hleft ⊢
    exact (hleft.behind_edit hi hj).boundary
  have hexamined := h.examined_le
  have hi' := i.size_eq_byteSize
  have hj' := j.size_eq_byteSize
  rw [hi, byteSize_append, byteSize_append] at hi'
  rw [hj, byteSize_append, byteSize_append] at hj'
  refine ⟨moves (n := 0) h.start, moves h.stop, h.length_le, by omega, fun q hq => ?_⟩
  obtain ⟨hle, hb⟩ := h.failures q hq
  exact ⟨hle, moves hb⟩

end Settled.Within

/-- An edit keeps entries that stay in the text. -/
theorem Stack.Intact.splice {set set' : Setting} {memo : Memo} {front old new back : List Char}
    (h : (bottom set).Intact memo) (hi : set.input.text.toList = front ++ old ++ back)
    (hj : set'.input.text.toList = front ++ new ++ back) :
    (bottom set').Intact
      (memo.splice (byteSize front) (byteSize front + byteSize old) (byteSize new)) := by
  have hi' := set.input.size_eq_byteSize
  have hj' := set'.input.size_eq_byteSize
  simp only [hi, hj, byteSize_append] at hi' hj'
  have hsize : memo.slots.size = set.input.size + 1 := h.size
  have settled : ∀ {pos q e},
      (memo.splice (byteSize front) (byteSize front + byteSize old) (byteSize new)).find? pos q =
        some e → ∃ s, e = .settled s ∧ s.Within set'.input pos := by
    intro pos q e he
    rcases Memo.of_find?_splice h.keyed (by omega) he with ⟨-, hfind, hends⟩ | ⟨k, rfl, hfind⟩
    · obtain ⟨s, rfl, hs⟩ := h.entry_settled hfind
      exact ⟨s, rfl, hs.before_edit (of_decide_eq_true hends) hi hj⟩
    · obtain ⟨s, rfl, hs⟩ := h.entry_settled hfind
      exact ⟨s, rfl, hs.behind_edit hi hj⟩
  refine ⟨?_, h.keyed.splice (by omega), ?_, ?_, List.forall_mem_nil _⟩
  · rw [Memo.size_splice (by omega) (by omega)]
    show _ = set'.input.size + 1
    omega
  · intro pos q s hs
    obtain ⟨s', heq, hwithin⟩ := settled hs
    cases heq
    exact hwithin
  · intro pos q seed? trace? read hs
    obtain ⟨s', heq, -⟩ := settled hs
    cases heq

namespace Session

variable {g : Grammar} {s s' : Session}

/-- The table of a session fits its text. -/
structure Fits (g : Grammar) (s : Session) : Prop where
  grammar : s.grammar = g
  intact : (Stack.bottom ⟨g, s.input, false⟩).Intact s.memo

theorem Fits.step (h : Fits g s) (op : Operation) : Fits g (s.step op) := by
  cases op with
  | setText text => exact ⟨h.grammar, Stack.intact_blank ⟨g, .ofString text, false⟩⟩
  | replaceRange start stop new =>
      rw [Session.step]
      split
      · rename_i s' hs
        obtain ⟨text, htext, rfl⟩ := replaceRange_eq_ok hs
        obtain ⟨front, old, back, hold, hnew, rfl, rfl⟩ := Text.replaceRange_eq_ok htext
        refine ⟨h.grammar, ?_⟩
        rw [← byteSize_toList]
        exact h.intact.splice hold hnew
      · exact h
  | matchRule start? =>
      rw [Session.step, Session.matchRule, h.grammar]
      cases g.startRule start? with
      | error e => exact h
      | ok rule =>
          dsimp only
          cases hrun : run ⟨g, s.input, false⟩ nestingLimit rule.name s.memo with
          | none => exact ⟨rfl, Stack.intact_blank ⟨g, s.input, false⟩⟩
          | some out => exact ⟨rfl, ((Stack.run_sound h.intact).of_eq_some hrun).1⟩

theorem fits_after (g : Grammar) (ops : List Operation) : Fits g (after g ops) := by
  have run : ∀ s, Fits g s → Fits g (ops.foldl Session.step s) := by
    induction ops with
    | nil => exact fun s h => h
    | cons op ops ih => exact fun s h => ih _ (h.step op)
  exact run _ ⟨rfl, Stack.intact_blank ⟨g, .ofString "", false⟩⟩

theorem Fits.reportsWithin (h : Fits g s) {start? : Option String} {r : Result}
    (hr : (s.matchRule start?).1 = .ok r) : r.ReportsWithin := by
  rw [matchRule, h.grammar] at hr
  cases hstart : g.startRule start? with
  | error e =>
      rw [hstart] at hr
      cases hr
  | ok rule =>
      cases hrun : run ⟨g, s.input, false⟩ nestingLimit rule.name s.memo with
      | none =>
          simp only [hstart, hrun] at hr
          cases hr
      | some out =>
          simp only [hstart, hrun, Except.ok.injEq] at hr
          subst hr
          exact Result.reportsWithin ((Stack.run_sound h.intact).of_eq_some hrun).2

end Session

theorem reportsWithin_of_answer {g : Grammar} {tracing : Bool} {text : String}
    {start? : Option String} {r : Result} {root : Trace.Node}
    (h : g.answer tracing text start? = .ok (r, root)) : r.ReportsWithin := by
  rw [Grammar.answer] at h
  cases hstart : g.startRule start? with
  | error e =>
      rw [hstart] at h
      cases h
  | ok rule =>
      simp only [hstart, bind, Except.bind] at h
      have hblank := Stack.intact_blank ⟨g, .ofString text, tracing⟩
      cases hrun : run ⟨g, .ofString text, tracing⟩ nestingLimit rule.name
          (.blank (Input.ofString text).size) with
      | none =>
          rw [hrun] at h
          cases h
      | some out =>
          rw [hrun] at h
          cases h
          exact Result.reportsWithin ((Stack.run_sound hblank).of_eq_some hrun).2

theorem reportsWithin_of_matchText {g : Grammar} {text : String} {start? : Option String}
    {r : Result} (h : g.matchText text start? = .ok r) : r.ReportsWithin := by
  rw [Grammar.matchText] at h
  cases hanswer : g.answer false text start? with
  | error e =>
      rw [hanswer] at h
      cases h
  | ok out =>
      rw [hanswer] at h
      cases h
      exact reportsWithin_of_answer hanswer

end Pegboard.Match
