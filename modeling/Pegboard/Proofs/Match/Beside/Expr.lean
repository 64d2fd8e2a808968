import Pegboard.Proofs.Match.Confined
import Pegboard.Proofs.Match.SelfContained
import Pegboard.Proofs.Match.Shift
import Pegboard.Proofs.Text.Alike

/-!
# Expressions beside each other

Two evaluations that begin at different places, of one text or of two, go the same way for as long
as they look at the same bytes and find the same entries. Neither of them sees what lies before the
place where it began, so that all places count from there.

The rules that are followed step by step are `locked`: the two tables hold the same entries of them.
Of the other rules that come to be applied it is enough to know that each application as a whole
comes to the same on both sides. Whether the rounds of an iteration end for lack of rounds never
matters, since there are more of them than places.

Main statement: `Twin.ofExpr_follows`.
-/

namespace Pegboard.Match

open Text Evaluation

/-! ## Two sides -/

/-- Two texts that are alike for `n` bytes, the one from `a` on and the other one from `b` on, and
two kinds of rules: those that are followed step by step, and those that these apply besides. Of the
two tables more may be known that the entries of locked rules do not touch. -/
structure Twin where
  grammar : Grammar
  left : Text.Input
  right : Text.Input
  a : Nat
  b : Nat
  n : Nat
  alike : ∀ k < n, left.text.toUTF8.data[a + k]? = right.text.toUTF8.data[b + k]?
  locked : String → Prop
  aside : String → Prop
  closed : ∀ r q, locked r → grammar.Calls r q → locked q ∨ aside q
  known : Memo → Memo → Prop
  known_put : ∀ memo memo' p p' q e, known memo memo' → locked q → p < memo.slots.size →
    p' < memo'.slots.size → known (memo.put p q e) (memo'.put p' q e)
  known_drop : ∀ memo memo' p p' q, known memo memo' → locked q → memo.Keyed → memo'.Keyed →
    known (memo.drop p q) (memo'.drop p' q)

namespace Twin

variable (T : Twin)

def leftSet : Setting :=
  ⟨T.grammar, T.left, false⟩

def rightSet : Setting :=
  ⟨T.grammar, T.right, false⟩

/-- The frames on the left side. -/
def leftStack (frames : List Frame) (ends : Frame → Nat) : Stack :=
  ⟨T.leftSet, frames.map (shiftFrame T.a), ends⟩

/-- The frames on the right side. -/
def rightStack (frames : List Frame) (ends : Frame → Nat) : Stack :=
  ⟨T.rightSet, frames.map (shiftFrame T.b), ends⟩

/-- The tables hold the same entries of locked rules. -/
structure Near (memo memo' : Memo) : Prop where
  same : ∀ k q, T.locked q → memo.find? (T.a + k) q = memo'.find? (T.b + k) q
  known : T.known memo memo'

/-- Both sides are ready for an evaluation. -/
structure Ready (frames : List Frame) (c : Cursor) (log : Log) (memo memo' : Memo) : Prop where
  left : ∃ ends base, (T.leftStack frames ends).Ready base (c.shift T.a) (log.shift T.a) memo
  right : ∃ ends base, (T.rightStack frames ends).Ready base (c.shift T.b) (log.shift T.b) memo'
  near : T.Near memo memo'

/-- Outcomes that are the same, each counted from its own place. -/
inductive Beside : Outcome → Outcome → Prop
  | intro (c? : Option Cursor) (log : Log) {memo memo' : Memo} (near : T.Near memo memo') :
      Beside ⟨c?.map (·.shift T.a), log.shift T.a, memo⟩ ⟨c?.map (·.shift T.b), log.shift T.b, memo'⟩

/-- Where the evaluation on the left looked at nothing but what both texts have in common, the one on
the right comes to the same, or to nothing for a reason. -/
structure Follows (frames : List Frame) (reason : Prop) (e e' : Evaluation) : Prop where
  left : ∀ ends, (T.leftStack frames ends).Sound True e
  right : ∀ ends, (T.rightStack frames ends).Sound True e'
  beside : ∀ c log memo memo' out, T.Ready frames c log memo memo' →
    e (c.shift T.a) (log.shift T.a) memo = some out → out.log.reach ≤ T.a + T.n →
      Yields reason (T.Beside out) (e' (c.shift T.b) (log.shift T.b) memo')

variable {T} {frames : List Frame} {reason : Prop} {e e' e₁ e₁' e₂ e₂' : Evaluation}
variable {c : Cursor} {log : Log} {memo memo' : Memo} {out : Outcome}

theorem Ready.alike (h : T.Ready frames c log memo memo') :
    ∃ cs cs', T.leftSet.input.LeftAt (c.shift T.a).pos cs ∧
      T.rightSet.input.LeftAt (c.shift T.b).pos cs' ∧ Alike (T.n - c.pos) cs cs' := by
  obtain ⟨⟨ends, base, hleft⟩, ⟨ends', base', hright⟩, -⟩ := h
  obtain ⟨cs, hcs⟩ := hleft.boundary.exists_left
  obtain ⟨cs', hcs'⟩ := hright.boundary.exists_left
  refine ⟨cs, cs', hcs, hcs', hcs.alike hcs' fun k hk => ?_⟩
  have := T.alike (c.pos + k) (by omega)
  rwa [← Nat.add_assoc, ← Nat.add_assoc] at this

/-- What the left side looked at before it has looked at afterwards, and it is ready to go on. -/
theorem Follows.ahead (h : T.Follows frames reason e e') (hr : T.Ready frames c log memo memo')
    (he : e (c.shift T.a) (log.shift T.a) memo = some out) :
    ∃ ends base, (T.leftStack frames ends).Done base (c.shift T.a) (log.shift T.a) out := by
  obtain ⟨ends, base, hleft⟩ := hr.left
  exact ⟨ends, base, (h.left ends _ _ _ _ hleft).of_eq_some he⟩

/-- What an evaluation looked at, those after it have looked at. -/
theorem Follows.reach_le (h : T.Follows frames reason e e')
    (h₂ : ∀ ends, (T.leftStack frames ends).Sound True e₂) (hr : T.Ready frames c log memo memo')
    {out₁ : Outcome} (he : e (c.shift T.a) (log.shift T.a) memo = some out₁)
    (he₂ : e₂ (out₁.cursor?.getD (c.shift T.a)) out₁.log out₁.memo = some out)
    (hreach : out.log.reach ≤ T.a + T.n) : out₁.log.reach ≤ T.a + T.n := by
  obtain ⟨ends, base, hdone⟩ := h.ahead hr he
  exact ((h₂ ends _ _ _ _ hdone.ready).of_eq_some he₂).reach_le.trans hreach

/-- After an evaluation both sides are ready for the next one. -/
theorem Follows.step (h : T.Follows frames reason e e') (hr : T.Ready frames c log memo memo')
    (he : e (c.shift T.a) (log.shift T.a) memo = some out) (hreach : out.log.reach ≤ T.a + T.n) :
    e' (c.shift T.b) (log.shift T.b) memo' = none ∧ reason ∨
      ∃ (c? : Option Cursor) (log' : Log) (memo₁ memo₁' : Memo),
        out = ⟨c?.map (·.shift T.a), log'.shift T.a, memo₁⟩ ∧
        e' (c.shift T.b) (log.shift T.b) memo' =
          some ⟨c?.map (·.shift T.b), log'.shift T.b, memo₁'⟩ ∧
        T.Ready frames (c?.getD c) log' memo₁ memo₁' := by
  have hbeside := h.beside c log memo memo' out hr he hreach
  obtain ⟨ends, base, hdone⟩ := h.ahead hr he
  obtain ⟨ends', base', hright⟩ := hr.right
  have hdone' := h.right ends' _ _ _ _ hright
  cases he' : e' (c.shift T.b) (log.shift T.b) memo' with
  | none =>
      rw [he'] at hbeside
      exact .inl ⟨rfl, hbeside⟩
  | some out' =>
      rw [he'] at hbeside hdone'
      obtain ⟨c?, log', hnear⟩ := hbeside
      refine .inr ⟨c?, log', _, _, rfl, rfl, ⟨ends, base, ?_⟩, ⟨ends', base', ?_⟩, hnear⟩
      · have := hdone.ready
        cases c? <;> exact this
      · have := Stack.Done.ready hdone'
        cases c? <;> exact this

/-! ## Reading the text -/

theorem Ready.fail (h : T.Ready frames c log memo memo') (stop : Nat) (e : Expectation) :
    T.Beside ⟨none, ((log.shift T.a).examine (T.a + stop)).fail (T.a + c.pos) e, memo⟩
      ⟨none, ((log.shift T.b).examine (T.b + stop)).fail (T.b + c.pos) e, memo'⟩ := by
  simp only [Log.shift_examine, Log.shift_fail]
  exact .intro none _ h.near

theorem Ready.push (h : T.Ready frames c log memo memo') (stop : Nat) (t : Tree) :
    T.Beside ⟨some ((c.shift T.a).push t), (log.shift T.a).examine (T.a + stop), memo⟩
      ⟨some ((c.shift T.b).push t), (log.shift T.b).examine (T.b + stop), memo'⟩ := by
  simp only [Log.shift_examine, Cursor.shift_push]
  exact .intro (some (c.push t)) _ h.near

/-- Where the text on the left ends, the one on the right ends, if the end is looked at. -/
theorem Ready.fail_at_end (h : T.Ready frames c log memo memo') {cs' : List Char}
    (hcs : T.leftSet.input.LeftAt (c.shift T.a).pos [])
    (hcs' : T.rightSet.input.LeftAt (c.shift T.b).pos cs') (halike : Alike (T.n - c.pos) [] cs')
    (hreach : T.leftSet.input.size + 1 ≤ T.a + T.n) (e : Expectation) : cs' = [] ∧ T.Beside
      ⟨none, ((log.shift T.a).examine (T.leftSet.input.size + 1)).fail (T.a + c.pos) e, memo⟩
      ⟨none, ((log.shift T.b).examine (T.rightSet.input.size + 1)).fail (T.b + c.pos) e, memo'⟩ := by
  have hsize : T.leftSet.input.size + 1 = T.a + (c.pos + 1) := congrArg (· + 1) hcs.size_eq
  rw [hsize] at hreach ⊢
  obtain rfl := halike.eq_nil (by omega)
  have hsize' : T.rightSet.input.size + 1 = T.b + (c.pos + 1) := congrArg (· + 1) hcs'.size_eq
  rw [hsize']
  exact ⟨rfl, h.fail (c.pos + 1) e⟩

theorem any_follows : T.Follows frames reason (any T.leftSet) (any T.rightSet) where
  left ends := Stack.any_sound (σ := T.leftStack frames ends)
  right ends := Stack.any_sound (σ := T.rightStack frames ends)
  beside := by
    intro c log memo memo' out hr he hreach
    obtain ⟨cs, cs', hcs, hcs', halike⟩ := hr.alike
    rw [any, hcs.rest_eq] at he
    rw [any, hcs'.rest_eq]
    cases cs with
    | nil =>
        cases he
        simp only [Log.fail, Log.examine] at hreach
        obtain ⟨rfl, hfail⟩ := hr.fail_at_end hcs hcs' halike (by omega) .any
        exact hfail
    | cons ch cs =>
        cases he
        simp only [Log.examine, Cursor.shift_pos, Nat.add_assoc] at hreach
        obtain ⟨rest, rfl⟩ := halike.eq_cons (by omega)
        simp only [Cursor.shift_pos, Nat.add_assoc]
        exact hr.push _ _

theorem range_follows (lo hi : Char) :
    T.Follows frames reason (range T.leftSet lo hi) (range T.rightSet lo hi) where
  left ends := Stack.range_sound (σ := T.leftStack frames ends) lo hi
  right ends := Stack.range_sound (σ := T.rightStack frames ends) lo hi
  beside := by
    intro c log memo memo' out hr he hreach
    obtain ⟨cs, cs', hcs, hcs', halike⟩ := hr.alike
    rw [range, hcs.rest_eq] at he
    rw [range, hcs'.rest_eq]
    cases cs with
    | nil =>
        cases he
        simp only [Log.fail, Log.examine] at hreach
        obtain ⟨rfl, hfail⟩ := hr.fail_at_end hcs hcs' halike (by omega) (.range lo hi)
        exact hfail
    | cons ch cs =>
        simp only [Cursor.shift_pos, Nat.add_assoc] at he ⊢
        have hn : ch.utf8Size ≤ T.n - c.pos := by
          split at he <;> cases he <;> simp only [Log.fail, Log.examine] at hreach <;> omega
        obtain ⟨rest, rfl⟩ := halike.eq_cons hn
        dsimp only
        split at he
        · rw [if_pos ‹_›]
          cases he
          exact hr.push _ _
        · rw [if_neg ‹_›]
          cases he
          exact hr.fail _ _

theorem terminal_follows (s : String) :
    T.Follows frames reason (terminal T.leftSet s) (terminal T.rightSet s) where
  left ends := Stack.terminal_sound (σ := T.leftStack frames ends) s
  right ends := Stack.terminal_sound (σ := T.rightStack frames ends) s
  beside := by
    intro c log memo memo' out hr he hreach
    obtain ⟨cs, cs', hcs, hcs', halike⟩ := hr.alike
    have hstop : ∀ {size p k : Nat}, size = p + k →
        (if size < p + s.utf8ByteSize then size + 1 else p + s.utf8ByteSize) =
          p + min (k + 1) s.utf8ByteSize := by
      intro size p k hsize
      split <;> omega
    rw [terminal, hcs.rest_eq, hstop hcs.size_eq] at he
    rw [terminal, hcs'.rest_eq, hstop hcs'.size_eq]
    simp only [Cursor.shift_pos, Nat.add_assoc] at he ⊢
    have hn : min (byteSize cs + 1) s.utf8ByteSize ≤ T.n - c.pos := by
      split at he <;> cases he <;> simp only [Log.fail, Log.examine] at hreach <;> omega
    rw [halike.min_eq hn, halike.isPrefixOf_eq (by rwa [byteSize_toList])]
    split at he
    · rw [if_pos ‹_›]
      cases he
      exact hr.push _ _
    · rw [if_neg ‹_›]
      cases he
      exact hr.fail _ _

theorem endOfInput_follows :
    T.Follows frames reason (endOfInput T.leftSet) (endOfInput T.rightSet) where
  left ends := Stack.endOfInput_sound (σ := T.leftStack frames ends)
  right ends := Stack.endOfInput_sound (σ := T.rightStack frames ends)
  beside := by
    intro c log memo memo' out hr he hreach
    obtain ⟨cs, cs', hcs, hcs', halike⟩ := hr.alike
    have hsize : T.leftSet.input.size = T.a + c.pos + byteSize cs := hcs.size_eq
    have hsize' : T.rightSet.input.size = T.b + c.pos + byteSize cs' := hcs'.size_eq
    rw [endOfInput] at he ⊢
    simp only [Cursor.shift_pos, Nat.add_assoc] at he ⊢
    have hn : 1 ≤ T.n - c.pos := by
      split at he <;> cases he <;> simp only [Log.fail, Log.examine] at hreach <;> omega
    have hends := halike.byteSize_lt_iff hn
    split at he
    · rw [if_pos (by omega)]
      cases he
      simp only [Log.shift_examine]
      exact .intro (some c) _ hr.near
    · rw [if_neg (by omega)]
      cases he
      exact hr.fail _ _

/-! ## Combining evaluations -/

theorem andThen_follows (h₁ : T.Follows frames reason e₁ e₁') (h₂ : T.Follows frames reason e₂ e₂') :
    T.Follows frames reason (e₁.andThen e₂) (e₁'.andThen e₂') where
  left ends := Stack.andThen_sound (h₁.left ends) (h₂.left ends)
  right ends := Stack.andThen_sound (h₁.right ends) (h₂.right ends)
  beside := by
    intro c log memo memo' out hr he hreach
    rw [andThen]
    rcases andThen_eq_some he with ⟨hfirst, hnone⟩ | ⟨c₁, log₁, memo₁, hfirst, hsecond⟩
    · rcases h₁.step hr hfirst hreach with ⟨hright, hreason⟩ |
        ⟨c?, log', memo₁, memo₁', hout, hright, hnext⟩
      · rw [hright]
        exact hreason
      · obtain ⟨cursor?, log₀, memo₀⟩ := out
        obtain rfl : cursor? = none := hnone
        obtain ⟨hc, rfl, rfl⟩ := Outcome.mk.inj hout
        obtain rfl : c? = none := Option.map_eq_none_iff.mp hc.symm
        rw [hright]
        exact .intro none log' hnext.near
    · rcases h₁.step hr hfirst (h₁.reach_le h₂.left hr hfirst hsecond hreach) with
        ⟨hright, hreason⟩ | ⟨c?, log', memo₁, memo₁', hout, hright, hnext⟩
      · rw [hright]
        exact hreason
      · obtain ⟨hc, rfl, rfl⟩ := Outcome.mk.inj hout
        obtain ⟨c', rfl, rfl⟩ := Option.map_eq_some_iff.mp hc.symm
        rw [hright]
        exact h₂.beside c' log' _ _ out hnext hsecond hreach

theorem here_follows :
    T.Follows frames reason (fun c log memo => some ⟨some c, log, memo⟩)
      (fun c log memo => some ⟨some c, log, memo⟩) where
  left _ := Stack.here_sound
  right _ := Stack.here_sound
  beside := by
    rintro c log memo memo' out hr ⟨⟩ -
    exact .intro (some c) log hr.near

theorem orElse_follows (h₁ : T.Follows frames reason e₁ e₁') (h₂ : T.Follows frames reason e₂ e₂') :
    T.Follows frames reason (e₁.orElse e₂) (e₁'.orElse e₂') where
  left ends := Stack.orElse_sound (h₁.left ends) (h₂.left ends)
  right ends := Stack.orElse_sound (h₁.right ends) (h₂.right ends)
  beside := by
    intro c log memo memo' out hr he hreach
    rw [orElse]
    rcases orElse_eq_some he with ⟨hfirst, hsome⟩ | ⟨log₁, memo₁, hfirst, hsecond⟩
    · rcases h₁.step hr hfirst hreach with ⟨hright, hreason⟩ |
        ⟨c?, log', memo₁, memo₁', rfl, hright, hnext⟩
      · rw [hright]
        exact hreason
      · rw [Option.isSome_map] at hsome
        obtain ⟨c', rfl⟩ := Option.isSome_iff_exists.mp hsome
        rw [hright]
        exact .intro (some c') log' hnext.near
    · rcases h₁.step hr hfirst (h₁.reach_le h₂.left hr hfirst hsecond hreach) with
        ⟨hright, hreason⟩ | ⟨c?, log', memo₁, memo₁', hout, hright, hnext⟩
      · rw [hright]
        exact hreason
      · obtain ⟨hc, rfl, rfl⟩ := Outcome.mk.inj hout
        obtain rfl : c? = none := Option.map_eq_none_iff.mp hc.symm
        rw [hright]
        exact h₂.beside c log' _ _ out hnext hsecond hreach

theorem Ready.withoutFailures (h : T.Ready frames c log memo memo') :
    T.Ready frames c { log with failures := ∅ } memo memo' := by
  obtain ⟨⟨ends, base, hleft⟩, ⟨ends', base', hright⟩, hnear⟩ := h
  exact ⟨⟨ends, base, hleft.withoutFailures⟩, ⟨ends', base', hright.withoutFailures⟩, hnear⟩

section

variable {apply apply' : String → Evaluation}
variable (hleft : ∀ q ends, (T.leftStack frames ends).Sound True (apply q))
variable (hright : ∀ q ends, (T.rightStack frames ends).Sound True (apply' q))

include hleft hright

theorem skipSpaces_follows (h : T.Follows frames reason (apply "spaces") ( apply' "spaces")) :
    T.Follows frames reason (skipSpaces apply) (skipSpaces apply') where
  left ends := Stack.skipSpaces_sound fun q => hleft q ends
  right ends := Stack.skipSpaces_sound fun q => hright q ends
  beside := by
    intro c log memo memo' out hr he hreach
    obtain ⟨c?, inner, hspaces, hcursor, hlog⟩ := skipSpaces_eq_some he
    have hreach' : inner.reach ≤ T.a + T.n := by
      rw [hlog, Log.reach_markSpaces] at hreach
      exact hreach
    rcases h.step hr.withoutFailures hspaces hreach' with ⟨hnone, hreason⟩ |
      ⟨k?, log', memo₁, memo₁', hout, hsome, hnext⟩
    · rw [skipSpaces, show apply' "spaces" _ { log.shift T.b with failures := ∅ } _ = none from hnone]
      exact hreason
    · obtain ⟨cursor?, log₀, memo₀⟩ := out
      obtain ⟨rfl, rfl, rfl⟩ := Outcome.mk.inj hout
      obtain rfl := hcursor
      obtain rfl := hlog
      rw [skipSpaces, show apply' "spaces" _ { log.shift T.b with failures := ∅ } _ =
        some ⟨k?.map (·.shift T.b), log'.shift T.b, memo₁'⟩ from hsome]
      have hbeside := Beside.intro (some { c with pos := (k?.map (·.pos)).getD c.pos })
        (Log.markSpaces { log' with failures := log.failures }) hnext.near
      simp only [← Log.shift_markSpaces] at hbeside
      cases k? <;> exact hbeside

/-- Where spaces are not skipped, nothing has to be known of them. -/
theorem spaced_follows (skip : Bool)
    (h : skip = true → T.Follows frames reason (apply "spaces") ( apply' "spaces"))
    (he : T.Follows frames reason e e') :
    T.Follows frames reason (spaced apply skip e) (spaced apply' skip e') := by
  cases skip with
  | false => exact he
  | true => exact andThen_follows (skipSpaces_follows hleft hright (h rfl)) he

end

theorem traced_follows (expr : Expr) (h : T.Follows frames reason e e') :
    T.Follows frames reason (traced T.leftSet expr e) (traced T.rightSet expr e') := by
  rwa [Scope.traced_eq rfl, Scope.traced_eq rfl]

theorem not_follows (expr : Expr) (h : T.Follows frames reason e e') :
    T.Follows frames reason (Evaluation.not expr e) (Evaluation.not expr e') where
  left ends := Stack.not_sound expr (h.left ends)
  right ends := Stack.not_sound expr (h.right ends)
  beside := by
    intro c log memo memo' out hr he hreach
    rw [Evaluation.not] at he
    rcases hinner : e (c.shift T.a) { log.shift T.a with failures := ∅ } memo with
      _ | ⟨c?, inner, memo₁⟩
    · rw [hinner] at he
      cases he
    have hreach' : inner.reach ≤ T.a + T.n := by
      rw [hinner] at he
      cases c? <;> cases he <;> exact hreach
    rcases h.step hr.withoutFailures hinner hreach' with ⟨hnone, hreason⟩ |
      ⟨k?, log', memo₁, memo₁', hout, hsome, hnext⟩
    · rw [Evaluation.not, show e' _ { log.shift T.b with failures := ∅ } _ = none from hnone]
      exact hreason
    · obtain ⟨rfl, rfl, rfl⟩ := Outcome.mk.inj hout
      rw [hinner] at he
      rw [Evaluation.not, show e' _ { log.shift T.b with failures := ∅ } _ =
        some ⟨k?.map (·.shift T.b), log'.shift T.b, memo₁'⟩ from hsome]
      cases k? with
      | none =>
          cases he
          exact .intro (some c) { log' with failures := log.failures } hnext.near
      | some k =>
          cases he
          have hbeside := Beside.intro none
            (Log.fail { log' with failures := log.failures } c.pos (.not expr.text)) hnext.near
          simp only [← Log.shift_fail] at hbeside
          exact hbeside

theorem look_follows (h : T.Follows frames reason e e') :
    T.Follows frames reason (look e) (look e') where
  left ends := Stack.look_sound (h.left ends)
  right ends := Stack.look_sound (h.right ends)
  beside := by
    intro c log memo memo' out hr he hreach
    obtain ⟨c?, hinner, hcursor⟩ := look_eq_some he
    rcases h.step hr hinner hreach with ⟨hnone, hreason⟩ |
      ⟨k?, log', memo₁, memo₁', hout, hsome, hnext⟩
    · rw [look, hnone]
      exact hreason
    · obtain ⟨cursor?, log₀, memo₀⟩ := out
      obtain ⟨rfl, rfl, rfl⟩ := Outcome.mk.inj hout
      obtain rfl := hcursor
      rw [look, hsome]
      have hbeside := Beside.intro (k?.map fun _ => c) log' hnext.near
      cases k? <;> exact hbeside

/-- As many rounds are left on both sides, or on each more than places. -/
def Rounds (T : Twin) (pos n n' : Nat) : Prop :=
  n = n' ∨ T.left.size < T.a + pos + n ∧ T.right.size < T.b + pos + n'

theorem Ready.le (h : T.Ready frames c log memo memo') :
    T.a + c.pos ≤ T.left.size ∧ T.b + c.pos ≤ T.right.size := by
  obtain ⟨⟨ends, base, hleft⟩, ⟨ends', base', hright⟩, -⟩ := h
  exact ⟨hleft.boundary.le, hright.boundary.le⟩

/-- Where a round fails the rounds before it stand. -/
theorem Near.stand (h : T.Near memo memo') (matched : Bool) (c : Cursor) (log : Log) :
    T.Beside ⟨if matched then some (c.shift T.a) else none, log.shift T.a, memo⟩
      ⟨if matched then some (c.shift T.b) else none, log.shift T.b, memo'⟩ := by
  cases matched with
  | false => exact .intro none log h
  | true => exact .intro (some c) log h

theorem rounds_beside (h : T.Follows frames reason e e') (n n' : Nat) (matched : Bool)
    (hr : T.Ready frames c log memo memo') (hn : T.Rounds c.pos n n')
    (he : rounds e n matched (c.shift T.a) (log.shift T.a) memo = some out)
    (hreach : out.log.reach ≤ T.a + T.n) :
    Yields reason (T.Beside out) (rounds e' n' matched (c.shift T.b) (log.shift T.b) memo') := by
  have hle := hr.le
  induction n generalizing n' matched c log memo memo' with
  | zero =>
      obtain rfl : n' = 0 := by rcases hn with hn | hn <;> omega
      cases he
      exact hr.near.stand matched c log
  | succ n ih =>
      obtain ⟨n', rfl⟩ : ∃ m, n' = m + 1 :=
        Nat.exists_eq_succ_of_ne_zero (by rcases hn with hn | hn <;> omega)
      simp only [rounds]
      -- the expression failed, stayed where it was, or went on and is repeated
      rcases rounds_succ_eq_some he with ⟨hround, hcursor⟩ | ⟨c', hround, hcursor, hstays⟩ |
        ⟨c', log₁, memo₁, hround, hmoved, hrest⟩
      · rcases h.step hr hround hreach with ⟨hnone, hreason⟩ |
          ⟨k?, log', memo₁, memo₁', hout, hsome, hnext⟩
        · rw [hnone]
          exact hreason
        · obtain ⟨cursor?, log₀, memo₀⟩ := out
          obtain ⟨hk, rfl, rfl⟩ := Outcome.mk.inj hout
          obtain rfl : k? = none := Option.map_eq_none_iff.mp hk.symm
          obtain rfl := hcursor
          rw [hsome]
          exact hnext.near.stand matched c log'
      · rcases h.step hr hround hreach with ⟨hnone, hreason⟩ |
          ⟨k?, log', memo₁, memo₁', rfl, hsome, hnext⟩
        · rw [hnone]
          exact hreason
        · obtain ⟨k, rfl, rfl⟩ := Option.map_eq_some_iff.mp hcursor
          rw [hsome]
          have hstays' : (k.shift T.b).pos = (c.shift T.b).pos := by
            simp only [Cursor.shift_pos] at hstays ⊢
            omega
          simp only [Option.map_some, if_pos hstays']
          exact .intro (some k) log' hnext.near
      · obtain ⟨ends, base, hdone⟩ := h.ahead hr hround
        have hdone' := (Stack.rounds_sound (h.left ends) n true _ _ _ _ hdone.ready).of_eq_some hrest
        rcases h.step hr hround (hdone'.reach_le.trans hreach) with ⟨hnone, hreason⟩ |
          ⟨k?, log', memo₁, memo₁', hout, hsome, hnext⟩
        · rw [hnone]
          exact hreason
        · obtain ⟨hk, rfl, rfl⟩ := Outcome.mk.inj hout
          obtain ⟨k, rfl, rfl⟩ := Option.map_eq_some_iff.mp hk.symm
          rw [hsome]
          have hforth := hdone.moved _ rfl
          simp only [Cursor.shift_pos] at hmoved hforth
          have hmoved' : ¬ (k.shift T.b).pos = (c.shift T.b).pos := by
            simp only [Cursor.shift_pos]
            omega
          simp only [Option.map_some, if_neg hmoved']
          have hn' : T.Rounds k.pos n n' := by
            rcases hn with hn | hn
            · exact .inl (Nat.succ.inj hn)
            · exact .inr (by omega)
          exact ih n' true hnext hn' hrest hnext.le

theorem iter_follows (op : Repeat) (h : T.Follows frames reason e e') :
    T.Follows frames reason (iter T.leftSet op e) (iter T.rightSet op e') where
  left ends := Stack.iter_sound (σ := T.leftStack frames ends) op (h.left ends)
  right ends := Stack.iter_sound (σ := T.rightStack frames ends) op (h.right ends)
  beside := by
    intro c log memo memo' out hr he hreach
    obtain ⟨c?, hrounds, hcursor⟩ := iter_eq_some he
    have hanew : T.Ready frames ⟨c.pos, []⟩ log memo memo' := by
      obtain ⟨⟨ends, base, hleft⟩, ⟨ends', base', hright⟩, hnear⟩ := hr
      exact ⟨⟨ends, _, hleft.anew⟩, ⟨ends', _, hright.anew⟩, hnear⟩
    have hn : T.Rounds c.pos (roundLimit T.leftSet op (T.a + c.pos))
        (roundLimit T.rightSet op (T.b + c.pos)) := by
      have more : ∀ size pos, size < pos + (size - pos + 1) := fun size pos => by omega
      cases op with
      | opt => exact .inl rfl
      | star | plus => exact .inr ⟨more _ _, more _ _⟩
    have hbeside : Yields reason (T.Beside ⟨c?, out.log, out.memo⟩)
        (rounds e' (roundLimit T.rightSet op (c.shift T.b).pos) (op != .plus)
          ⟨(c.shift T.b).pos, []⟩ (log.shift T.b) memo') :=
      rounds_beside h _ _ (op != .plus) hanew hn hrounds hreach
    obtain ⟨cursor?, log₁, memo₁⟩ := out
    obtain rfl := hcursor
    rw [iter]
    generalize rounds e' _ _ ⟨(c.shift T.b).pos, []⟩ _ _ = result at hbeside ⊢
    rcases result with _ | out'
    · exact hbeside
    obtain ⟨k?, log', hnear⟩ := hbeside
    cases k? with
    | none => exact .intro none log' hnear
    | some k =>
        have hbeside := Beside.intro
          (some (c.push (.iter (op == .opt) (k.pos - c.pos) (k.children c.pos)))) log' hnear
        simp only [Option.map_some, Cursor.shift_pos, Cursor.shift_children, Nat.add_sub_add_left,
          ← Cursor.shift_push] at hbeside ⊢
        exact hbeside

/-! ## Expressions -/

section

variable {apply apply' : String → Evaluation}
variable (hleft : ∀ q ends, (T.leftStack frames ends).Sound True (apply q))
variable (hright : ∀ q ends, (T.rightStack frames ends).Sound True (apply' q))

include hleft hright

mutual

/-- An expression is followed where the rules that it applies are. -/
theorem ofExpr_follows (syn : Bool) : ∀ e : Expr,
    (∀ q ∈ e.applied syn, T.Follows frames reason (apply q) (apply' q)) →
      T.Follows frames reason (ofExpr T.leftSet apply syn e) (ofExpr T.rightSet apply' syn e)
  | .any, h => by
      rw [ofExpr, ofExpr]
      exact spaced_follows hleft hright syn (fun hsyn => h _ (by simp [Expr.applied, hsyn]))
        (traced_follows _ any_follows)
  | .endOfInput, h => by
      rw [ofExpr, ofExpr]
      exact spaced_follows hleft hright syn (fun hsyn => h _ (by simp [Expr.applied, hsyn]))
        (traced_follows _ endOfInput_follows)
  | .terminal s, h => by
      rw [ofExpr, ofExpr]
      exact spaced_follows hleft hright syn (fun hsyn => h _ (by simp [Expr.applied, hsyn]))
        (traced_follows _ (terminal_follows s))
  | .range lo hi, h => by
      rw [ofExpr, ofExpr]
      exact spaced_follows hleft hright syn (fun hsyn => h _ (by simp [Expr.applied, hsyn]))
        (traced_follows _ (range_follows lo hi))
  | .apply q, h => by
      rw [ofExpr, ofExpr]
      refine spaced_follows hleft hright _ (fun hskip => h _ ?_) (h q ?_)
      · simp [Expr.applied, (Bool.and_eq_true_iff.mp hskip).1]
      · cases syn <;> simp [Expr.applied]
  | .alt es, h => by
      rw [ofExpr, ofExpr]
      exact traced_follows _ (ofChoices_follows syn es (by rwa [Expr.applied] at h))
  | .seq es, h => by
      rw [ofExpr, ofExpr]
      exact traced_follows _ (ofParts_follows syn es (by rwa [Expr.applied] at h))
  | .iter op e, h => by
      rw [ofExpr, ofExpr]
      exact traced_follows _ (iter_follows op (ofExpr_follows syn e (by rwa [Expr.applied] at h)))
  | .not e, h => by
      rw [ofExpr, ofExpr]
      exact traced_follows _ (not_follows e (ofExpr_follows syn e (by rwa [Expr.applied] at h)))
  | .look e, h => by
      rw [ofExpr, ofExpr]
      exact traced_follows _ (look_follows (ofExpr_follows syn e (by rwa [Expr.applied] at h)))
  | .lex e, h => by
      rw [ofExpr, ofExpr]
      exact traced_follows _ (ofExpr_follows false e (by rwa [Expr.applied] at h))

theorem ofChoices_follows (syn : Bool) : ∀ es : List Expr,
    (∀ q ∈ Expr.appliedInAll syn es, T.Follows frames reason (apply q) (apply' q)) →
      T.Follows frames reason (ofChoices T.leftSet apply syn es) (ofChoices T.rightSet apply' syn es)
  | [], _ =>
      { left := fun ends => Stack.ofChoices_sound (σ := T.leftStack frames ends)
          (fun q => hleft q ends) syn []
        right := fun ends => Stack.ofChoices_sound (σ := T.rightStack frames ends)
          (fun q => hright q ends) syn []
        beside := by
          intro c log memo memo' out hr he _
          cases he
          exact .intro none log hr.near }
  | e :: es, h => by
      rw [Expr.appliedInAll, List.forall_mem_append] at h
      rw [ofChoices, ofChoices]
      exact orElse_follows (ofExpr_follows syn e h.1) (ofChoices_follows syn es h.2)

theorem ofParts_follows (syn : Bool) : ∀ es : List Expr,
    (∀ q ∈ Expr.appliedInAll syn es, T.Follows frames reason (apply q) (apply' q)) →
      T.Follows frames reason (ofParts T.leftSet apply syn es) (ofParts T.rightSet apply' syn es)
  | [], _ =>
      { left := fun ends => Stack.ofParts_sound (σ := T.leftStack frames ends)
          (fun q => hleft q ends) syn []
        right := fun ends => Stack.ofParts_sound (σ := T.rightStack frames ends)
          (fun q => hright q ends) syn []
        beside := by
          intro c log memo memo' out hr he _
          cases he
          exact .intro (some c) log hr.near }
  | e :: es, h => by
      rw [Expr.appliedInAll, List.forall_mem_append] at h
      rw [ofParts, ofParts]
      exact andThen_follows (ofExpr_follows syn e h.1) (ofParts_follows syn es h.2)

end

end

end Twin

end Pegboard.Match
