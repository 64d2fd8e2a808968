import Pegboard.Proofs.Match.Beside.Expr

/-!
# Rule applications beside each other

An application of a locked rule finds the same entry on both sides, or is worked out on both: the
rounds of the rule come to the same, the seed is read on both sides or on none, and the entry is kept
on both sides or dropped on both.

Main statement: `Twin.ofRule_follows`.
-/

namespace Pegboard.Match

open Text Evaluation

namespace Twin

variable {T : Twin} {frames : List Frame} {reason : Prop} {c : Cursor} {log : Log}
variable {memo memo' : Memo} {out : Outcome}

/-! ## Rounds of a rule -/

section

variable {ends ends' : Frame → Nat} {q : String} {pos : Nat} {body body' : Evaluation} {best : Tree}
variable {r : Round} {log₁ : Log} {memo₁ : Memo}

theorem Near.put (h : T.Near memo memo') (hq : T.locked q) (hpos : T.a + pos < memo.slots.size)
    (hpos' : T.b + pos < memo'.slots.size) (e : Entry) :
    T.Near (memo.put (T.a + pos) q e) (memo'.put (T.b + pos) q e) where
  same := by
    intro k r hr
    rw [Memo.find?_put hpos, Memo.find?_put hpos', h.same k r hr]
    simp
  known := T.known_put _ _ _ _ _ _ h.known hq hpos hpos'

theorem Near.drop (h : T.Near memo memo') (hq : T.locked q) (hm : memo.Keyed) (hm' : memo'.Keyed)
    (pos : Nat) : T.Near (memo.drop (T.a + pos) q) (memo'.drop (T.b + pos) q) where
  same := by
    intro k r hr
    rw [Memo.find?_drop hm, Memo.find?_drop hm', h.same k r hr]
    simp
  known := T.known_drop _ _ _ _ _ h.known hq hm hm'

variable (T frames ends ends' q pos) in
/-- Both sides are between two rounds of a rule. -/
structure Between (log : Log) (memo memo' : Memo) : Prop where
  left : ∃ stop, (T.leftStack frames ends).Between (T.a + pos, q) stop (log.shift T.a) memo
  right : ∃ stop, (T.rightStack frames ends').Between (T.b + pos, q) stop (log.shift T.b) memo'
  near : T.Near memo memo'

variable (T frames ends ends' q pos) in
/-- The tree ends in the text on both sides. -/
structure Covers (log : Log) (t : Tree) : Prop where
  left : (T.leftStack frames ends).Covers (T.a + pos, q) (log.shift T.a) t
  right : (T.rightStack frames ends').Covers (T.b + pos, q) (log.shift T.b) t

theorem Between.reseed (h : T.Between frames ends ends' q pos log memo memo') (hq : T.locked q)
    (hbest : T.Covers frames ends ends' q pos log best) (trace : List Trace.Node) :
    T.Between frames ends ends' q pos log
      (memo.put (T.a + pos) q (reseeded T.leftSet q (T.a + pos) best trace))
      (memo'.put (T.b + pos) q (reseeded T.rightSet q (T.b + pos) best trace)) := by
  obtain ⟨⟨stop, hleft⟩, ⟨stop', hright⟩, hnear⟩ := h
  exact ⟨⟨_, hleft.reseed hbest.left none⟩, ⟨_, hright.reseed hbest.right none⟩,
    hnear.put hq (hleft.intact.lt_size hleft.boundary) (hright.intact.lt_size hright.boundary) _⟩

variable (T frames ends ends' q pos reason) in
/-- Rounds that came to `r` on the left come to the same on the right, or to nothing for a reason. -/
inductive Rounded (r : Round) : Log → Memo → Option (Round × Log × Memo) → Prop
  | nothing {log : Log} {memo : Memo} (h : reason) : Rounded r log memo none
  | same {log : Log} {memo memo' : Memo} (between : T.Between frames ends ends' q pos log memo memo')
      (covers : ∀ t, r.tree? = some t → T.Covers frames ends ends' q pos log t) :
      Rounded r (log.shift T.a) memo (some (r, log.shift T.b, memo'))

theorem round_beside (hbody : T.Follows ((pos, q) :: frames) reason body body')
    (h : T.Between frames ends ends' q pos log memo memo')
    (hround : Evaluation.round q (T.a + pos) body (log.shift T.a) memo = some (r, log₁, memo₁))
    (hreach : log₁.reach ≤ T.a + T.n) :
    T.Rounded frames reason ends ends' q pos r log₁ memo₁
      (Evaluation.round q (T.b + pos) body' (log.shift T.b) memo') := by
  obtain ⟨⟨stop, hleft⟩, ⟨stop', hright⟩, hnear⟩ := h
  obtain ⟨c?, hbodyleft, htree, htrace⟩ := round_eq_some hround
  have hready : T.Ready ((pos, q) :: frames) ⟨pos, []⟩ { log with trace := [] } memo memo' :=
    ⟨⟨Function.update ends (T.a + pos, q) stop, _, hleft.ready.congr rfl rfl rfl⟩,
      ⟨Function.update ends' (T.b + pos, q) stop', _, hright.ready.congr rfl rfl rfl⟩, hnear⟩
  obtain ⟨hleft', -, -, hcovers⟩ :=
    (Stack.round_sound hleft (hbody.left (Function.update ends (T.a + pos, q) stop))).of_eq_some hround
  have hsound := Stack.round_sound hright (hbody.right (Function.update ends' (T.b + pos, q) stop'))
  rcases hbody.step hready hbodyleft hreach with ⟨hnone, hreason⟩ |
    ⟨k?, log', memo₁, memo₁', hout, hsome, hnext⟩
  · rw [Evaluation.round,
      show body' ⟨T.b + pos, []⟩ { log.shift T.b with trace := [] } memo' = none from hnone]
    exact .nothing hreason
  · obtain ⟨rfl, rfl, rfl⟩ := Outcome.mk.inj hout
    have hround' : Evaluation.round q (T.b + pos) body' (log.shift T.b) memo' =
        some (r, log'.shift T.b, memo₁') := by
      obtain ⟨tree?, trace⟩ := r
      obtain rfl := htree
      obtain rfl := htrace
      rw [Evaluation.round, show body' ⟨T.b + pos, []⟩ { log.shift T.b with trace := [] } memo' =
        some ⟨k?.map (·.shift T.b), log'.shift T.b, memo₁'⟩ from hsome]
      simp only [Option.map_map, Function.comp_def, Cursor.shift_pos, Cursor.shift_children,
        Nat.add_sub_add_left]
      rfl
    obtain ⟨hright', -, -, hcovers'⟩ := hsound.of_eq_some hround'
    rw [hround']
    exact .same ⟨⟨_, hleft'⟩, ⟨_, hright'⟩, hnext.near⟩ fun t ht => ⟨hcovers t ht, hcovers' t ht⟩

theorem grow_beside (hq : T.locked q) (hbody : T.Follows ((pos, q) :: frames) reason body body')
    (n n' : Nat) (best : Tree) (trace : List Trace.Node)
    (h : T.Between frames ends ends' q pos log memo memo')
    (hbest : T.Covers frames ends ends' q pos log best) (hn : T.left.size < n + best.length)
    (hn' : T.right.size < n' + best.length)
    (hgrow : grow T.leftSet q (T.a + pos) body n best trace (log.shift T.a) memo =
      some (r, log₁, memo₁)) (hreach : log₁.reach ≤ T.a + T.n) :
    T.Rounded frames reason ends ends' q pos r log₁ memo₁
      (grow T.rightSet q (T.b + pos) body' n' best trace (log.shift T.b) memo') := by
  induction n generalizing n' best trace log memo memo' with
  | zero =>
      -- rounds are left as long as the best match ends in the text
      have hle : T.a + pos + best.length ≤ T.left.size := hbest.left.boundary.le
      omega
  | succ n ih =>
      have hle : T.b + pos + best.length ≤ T.right.size := hbest.right.boundary.le
      obtain ⟨n', rfl⟩ := Nat.exists_eq_succ_of_ne_zero (n := n') (by omega)
      obtain ⟨r₁, log₂, memo₂, hround, hcases⟩ := grow_succ_eq_some hgrow
      have hnext := h.reseed hq hbest trace
      obtain ⟨stop, hleft⟩ := hnext.left
      obtain ⟨stop', hright⟩ := hnext.right
      have hbodyleft : ∀ stop, ((T.leftStack frames ends).push (T.a + pos, q) stop).Sound True body :=
        fun stop => hbody.left (Function.update ends (T.a + pos, q) stop)
      obtain ⟨hleft', hforth, hheads, hcovers⟩ :=
        (Stack.round_sound hleft (hbodyleft stop)).of_eq_some hround
      have hsound :=
        Stack.round_sound hright (hbody.right (Function.update ends' (T.b + pos, q) stop'))
      have hreach' : log₂.reach ≤ log₁.reach := by
        rcases hcases with ⟨-, -, rfl, -⟩ | ⟨t, ht, -, hrest⟩
        · exact Nat.le_refl _
        · exact ((Stack.grow_sound hbodyleft n t r₁.trace hleft' (hcovers t ht)).of_eq_some hrest).1
      have hrounded := round_beside hbody hnext hround (hreach'.trans hreach)
      generalize hround' : Evaluation.round q (T.b + pos) body' (log.shift T.b) _ = result
        at hrounded hsound
      cases hrounded with
      | nothing hreason =>
          rw [grow_succ_eq, hround']
          exact .nothing hreason
      | @same log' _ memo₂' hbetween hcovers' =>
          obtain ⟨-, hforth', hheads', -⟩ := hsound
          rcases hcases with ⟨hlast, rfl, rfl, rfl⟩ | ⟨t, ht, hmore, hrest⟩
          · rw [grow_eq_last hround' hlast]
            refine .same hbetween fun t ht => ?_
            obtain rfl := Option.some.inj ht
            exact ⟨hbest.left.mono hforth hheads, hbest.right.mono hforth' hheads'⟩
          · rw [grow_eq_more hround' ht hmore]
            exact ih n' t r₁.trace hbetween (hcovers' t ht) (by omega) (by omega) hrest

theorem settle_beside (hq : T.locked q) (hrule : q ∈ T.grammar.ruleNames)
    (hbody : T.Follows ((c.pos, q) :: frames) reason body body')
    (hr : T.Ready frames c log memo memo') (hnew : memo.find? (T.a + c.pos) q = none)
    (hsettle : settle T.leftSet q (T.a + c.pos) body memo = some (r, log₁, memo₁))
    (hreach : log₁.reach ≤ T.a + T.n) :
    ∃ ends ends', T.Rounded frames reason ends ends' q c.pos r log₁ memo₁
      (settle T.rightSet q (T.b + c.pos) body' memo') := by
  have hnew' : memo'.find? (T.b + c.pos) q = none := by rwa [← hr.near.same c.pos q hq]
  obtain ⟨⟨ends, base, hleft⟩, ⟨ends', base', hright⟩, hnear⟩ := hr
  refine ⟨ends, ends', ?_⟩
  obtain ⟨r₁, log₂, memo₂, hround, hcases⟩ := settle_eq_some hsettle
  rw [Log.shift_start] at hround
  have hpos := hleft.intact.lt_size hleft.boundary
  have hpos' := hright.intact.lt_size hright.boundary
  obtain ⟨rule, hmem, rfl⟩ := List.mem_map.mp hrule
  have hfirst : T.Between frames ends ends' rule.name c.pos (.start c.pos)
      (memo.put (T.a + c.pos) rule.name (.growing none none false))
      (memo'.put (T.b + c.pos) rule.name (.growing none none false)) :=
    ⟨⟨_, hleft.enter hrule hnew⟩, ⟨_, hright.enter hrule hnew'⟩, hnear.put hq hpos hpos' _⟩
  have hbodyleft : ∀ stop,
      ((T.leftStack frames ends).push (T.a + c.pos, rule.name) stop).Sound True body :=
    fun stop => hbody.left (Function.update ends (T.a + c.pos, rule.name) stop)
  obtain ⟨stop, hbetween⟩ := hfirst.left
  obtain ⟨hbetween, -, -, hcovers⟩ :=
    (Stack.round_sound hbetween (hbodyleft stop)).of_eq_some hround
  have hreach' : log₂.reach ≤ log₁.reach := by
    rcases hcases with ⟨-, -, rfl, -⟩ | ⟨t, ht, -, hgrow⟩
    · exact Nat.le_refl _
    · exact ((Stack.grow_sound hbodyleft _ t r₁.trace hbetween (hcovers t ht)).of_eq_some hgrow).1
  have hrounded := round_beside hbody hfirst hround (hreach'.trans hreach)
  rw [← Log.shift_start] at hrounded
  generalize hround' : Evaluation.round rule.name (T.b + c.pos) body' _ _ = result at hrounded
  cases hrounded with
  | nothing hreason =>
      rw [settle_eq, hround']
      exact .nothing hreason
  | @same log' _ memo₂' hnext hcovers' =>
      -- both tables tell whether the rule has read its own seed
      have hread : seedRead memo₂ (T.a + c.pos) rule.name =
          seedRead memo₂' (T.b + c.pos) rule.name := by
        rw [seedRead, seedRead, hnext.near.same c.pos rule.name hq]
      rcases hcases with ⟨honce, rfl, rfl, rfl⟩ | ⟨t, ht, hseed, hgrow⟩
      · rw [settle_eq_once hround' fun t ht => hread ▸ honce t ht]
        exact .same hnext hcovers'
      · rw [settle_eq_grow hround' ht (hread ▸ hseed)]
        exact grow_beside hq hbody _ _ t r₁.trace hnext (hcovers' t ht)
          (Nat.lt_add_right _ (Nat.lt_succ_self _)) (Nat.lt_add_right _ (Nat.lt_succ_self _))
          hgrow hreach

end

/-! ## Rule applications -/

theorem work_beside {rule : Rule} {body body' : Evaluation} (hq : T.locked rule.name)
    (hrule : rule.name ∈ T.grammar.ruleNames)
    (hbody : T.Follows ((c.pos, rule.name) :: frames) reason body body')
    (hr : T.Ready frames c log memo memo') (hnew : memo.find? (T.a + c.pos) rule.name = none)
    (hwork : work T.leftSet rule body (c.shift T.a) (log.shift T.a) memo = some out)
    (hreach : out.log.reach ≤ T.a + T.n) :
    Yields reason (T.Beside out)
      (work T.rightSet rule body' (c.shift T.b) (log.shift T.b) memo') := by
  rw [work_eq] at hwork ⊢
  obtain ⟨⟨r, inner, memo₁⟩, hsettle, rfl⟩ := Option.map_eq_some_iff.mp hwork
  have hreach' : inner.reach ≤ T.a + T.n := by
    dsimp only at hreach
    rw [concluded, Log.reach_note] at hreach
    exact (Nat.le_max_right _ _).trans hreach
  obtain ⟨ends, ends', hrounded⟩ := settle_beside hq hrule hbody hr hnew hsettle hreach'
  rw [show (c.shift T.b).pos = T.b + c.pos from rfl]
  generalize settle T.rightSet rule.name (T.b + c.pos) body' memo' = result at hrounded ⊢
  cases hrounded with
  | nothing hreason => exact hreason
  | @same log' _ memo₁' hnext hcovers =>
      obtain ⟨⟨stop, hleft⟩, ⟨stop', hright⟩, hnear⟩ := hnext
      have hkept : keptEntry T.rightSet rule c.pos r log' = keptEntry T.leftSet rule c.pos r log' := rfl
      simp only [Option.map_some, concluded_shift T.leftSet rfl, concluded_shift T.rightSet rfl, hkept]
      refine .intro (r.tree?.map c.push) _ ?_
      -- the entry is dropped on both sides, or kept on both
      split
      · exact hnear.drop hq hleft.intact.keyed hright.intact.keyed c.pos
      · exact hnear.put hq (hleft.intact.lt_size hleft.boundary)
          (hright.intact.lt_size hright.boundary) _

theorem reuse_beside {rule : String} (hq : T.locked rule) (hr : T.Ready frames c log memo memo')
    (entry : Entry) :
    T.Beside
      (reuse T.leftSet (frames.map (shiftFrame T.a)) rule entry (c.shift T.a) (log.shift T.a) memo)
      (reuse T.rightSet (frames.map (shiftFrame T.b)) rule entry (c.shift T.b) (log.shift T.b)
        memo') := by
  obtain ⟨⟨ends, base, hleft⟩, ⟨ends', base', hright⟩, hnear⟩ := hr
  cases entry with
  | growing seed? trace? read =>
      have hput := hnear.put hq (hleft.intact.lt_size hleft.boundary)
        (hright.intact.lt_size hright.boundary) (.growing seed? trace? true)
      simp only [reuse, Cursor.shift_pos, findIdx?_shift, Cursor.map_shift_push, Log.shift_examine]
      cases frames.findIdx? (· == (c.pos, rule)) with
      | none =>
          exact .intro (seed?.map c.push) { log.examine c.pos with heads := max log.heads 0 } hput
      | some i =>
          exact .intro (seed?.map c.push) { log.examine c.pos with heads := max log.heads (i + 1) } hput
  | settled s =>
      have hbeside := Beside.intro (s.tree?.map c.push)
        { log.examine (c.pos + s.examined) with
          failures := log.failures.merge (s.failures.absoluteFrom c.pos) } hnear
      simp only [Log.shift, Failures.absoluteFrom_merge, Failures.absoluteFrom_absoluteFrom] at hbeside
      simp only [reuse, Cursor.shift_pos, Cursor.map_shift_push, Nat.add_assoc, Log.shift_examine]
      exact hbeside

theorem sound_left (frames : List Frame) (depth : Nat) (q : String) (ends : Frame → Nat) :
    (T.leftStack frames ends).Sound True (ofRule T.leftSet depth (frames.map (shiftFrame T.a)) q) :=
  (Stack.ofRule_sound (T.leftStack frames ends) depth q).weaken fun _ => trivial

theorem sound_right (frames : List Frame) (depth : Nat) (q : String) (ends : Frame → Nat) :
    (T.rightStack frames ends).Sound True
      (ofRule T.rightSet depth (frames.map (shiftFrame T.b)) q) :=
  (Stack.ofRule_sound (T.rightStack frames ends) depth q).weaken fun _ => trivial

/-- The application of a rule is followed where its body is. -/
theorem ofRule_follows_of_body {q : String} (hq : T.locked q) (depth : Nat)
    (hbody : ∀ d rule pos, depth = d + 1 → T.grammar.rule? q = some rule →
      T.Follows ((pos, rule.name) :: frames) reason
        (bodyAt T.leftSet d (frames.map (shiftFrame T.a)) (T.a + pos) rule)
        (bodyAt T.rightSet d (frames.map (shiftFrame T.b)) (T.b + pos) rule)) :
    T.Follows frames reason (ofRule T.leftSet depth (frames.map (shiftFrame T.a)) q)
      (ofRule T.rightSet depth (frames.map (shiftFrame T.b)) q) where
  left := sound_left frames depth q
  right := sound_right frames depth q
  beside := by
    intro c log memo memo' out hr he hreach
    rcases ofRule_eq_some he with ⟨hrule, rfl⟩ | ⟨rule, hrule, happlied⟩
    · have hrule' : T.rightSet.grammar.rule? q = none := hrule
      rw [ofRule_of_none hrule']
      exact .intro none log hr.near
    have hrule' : T.rightSet.grammar.rule? q = some rule := hrule
    obtain rfl := Grammar.rule?_name hrule
    have hsame : memo.find? (T.a + c.pos) rule.name = memo'.find? (T.b + c.pos) rule.name :=
      hr.near.same c.pos rule.name hq
    rw [ofRule, hrule']
    rcases happlied with ⟨entry, hentry, rfl⟩ | ⟨hnew, d, rfl, hwork⟩
    · simp only [show memo'.find? (c.shift T.b).pos rule.name = some entry from hsame ▸ hentry]
      exact reuse_beside hq hr entry
    · simp only [show memo'.find? (c.shift T.b).pos rule.name = none from hsame ▸ hnew, descend_eq]
      exact work_beside hq (List.mem_map_of_mem (Grammar.rule?_mem hrule))
        (hbody d rule c.pos rfl hrule) hr hnew hwork hreach

/-- Applications of rules that are followed step by step come to the same on both sides, as long as
those of the others do. -/
theorem ofRule_follows
    (haside : ∀ depth frames q, T.aside q → (∀ f ∈ frames, T.locked f.2) →
      T.Follows frames reason (ofRule T.leftSet depth (frames.map (shiftFrame T.a)) q)
        (ofRule T.rightSet depth (frames.map (shiftFrame T.b)) q))
    (depth : Nat) (frames : List Frame) (q : String) (hq : T.locked q ∨ T.aside q)
    (hframes : ∀ f ∈ frames, T.locked f.2) :
    T.Follows frames reason (ofRule T.leftSet depth (frames.map (shiftFrame T.a)) q)
      (ofRule T.rightSet depth (frames.map (shiftFrame T.b)) q) := by
  induction depth generalizing frames q with
  | zero =>
      rcases hq with hq | hq
      · exact ofRule_follows_of_body hq 0 fun d _ _ hd => nomatch hd
      · exact haside 0 frames q hq hframes
  | succ depth ih =>
      rcases hq with hq | hq
      · refine ofRule_follows_of_body hq (depth + 1) fun d rule pos hd hrule => ?_
        obtain rfl := Nat.succ.inj hd
        obtain rfl := Grammar.rule?_name hrule
        have hframes' : ∀ f ∈ (pos, rule.name) :: frames, T.locked f.2 :=
          List.forall_mem_cons.mpr ⟨hq, hframes⟩
        exact ofExpr_follows (fun q => sound_left ((pos, rule.name) :: frames) depth q)
          (fun q => sound_right ((pos, rule.name) :: frames) depth q) _ rule.body fun q' hq' =>
            ih ((pos, rule.name) :: frames) q' (T.closed rule.name q' hq ⟨rule, hrule, hq'⟩) hframes'
      · exact haside (depth + 1) frames q hq hframes

end Twin

end Pegboard.Match
