import Pegboard.Proofs.Match.Stack

/-!
# Evaluations stay in the text

Whatever the grammar, an evaluation moves between boundaries of the text and leaves in the table
only entries that do. Each way of combining evaluations has its lemma, the rounds of a growing seed
included, and `Stack.ofRule_sound` is the induction over the depth.

An evaluation comes to nothing only where the depth is used up and a rule without an entry at its
place is applied. No pair of a place and a rule is evaluated below itself, so there were more pairs
than applications may nest.

Main statement: `Stack.run_sound`.
-/

namespace Pegboard

open Text

namespace Match

open Evaluation

namespace Stack

variable {σ : Stack} {base stop reach heads pos : Nat} {c : Cursor} {log log' : Log}
variable {memo : Memo} {out : Outcome} {f : Frame} {rule : String} {reason : Prop}
variable {e e₁ e₂ : Evaluation}

/-! ### Reading the text -/

/-- The text is looked at up to `stop`, and nothing is read. -/
theorem Ready.examine (h : σ.Ready base c log memo) (hstop : stop ≤ σ.set.input.size + 1) :
    σ.Done base c log ⟨some c, log.examine stop, memo⟩ := by
  have hle : log.reach ≤ (log.examine stop).reach := Nat.le_max_left _ _
  exact
    { reach_le := hle
      heads_le := Nat.le_refl _
      moved := by
        rintro c' ⟨⟩
        exact Nat.le_refl _
      ready :=
        { h with
          seen := h.seen.mono hle (Nat.le_refl _)
          reach_le := Nat.max_le.mpr ⟨h.reach_le, hstop⟩
          origin_le_reach := h.origin_le_reach.trans hle
          failures := fun q hq =>
            have ⟨hle', hb, hseen⟩ := h.failures q hq
            ⟨hle', hb, hseen.mono hle (Nat.le_refl _)⟩ } }

/-- Something was expected in vain at the cursor. -/
theorem Ready.fail (h : σ.Ready base c log memo) (e : Expectation) :
    σ.Done base c log ⟨none, log.fail c.pos e, memo⟩ where
  reach_le := Nat.le_refl _
  heads_le := Nat.le_refl _
  moved := fun _ hc => nomatch hc
  ready := h.withFailures fun q hq => by
    rcases Failures.pos?_record hq with hq | rfl
    · exact h.failures q hq
    · exact ⟨h.origin_le.trans h.base_le, h.boundary, h.seen⟩

/-- A tree was read that ends where it is known of. -/
theorem Ready.push (h : σ.Ready base c log memo) {t : Tree}
    (hb : σ.set.input.Boundary (c.pos + t.length))
    (hseen : σ.Seen log.reach log.heads (c.pos + t.length)) :
    σ.Done base c log ⟨some (c.push t), log, memo⟩ where
  reach_le := Nat.le_refl _
  heads_le := Nat.le_refl _
  moved := by
    rintro c' ⟨⟩
    exact Nat.le_add_right _ _
  ready :=
    { h with
      boundary := hb
      seen := hseen
      base_le := h.base_le.trans (Nat.le_add_right _ _)
      found := List.forall_mem_cons.mpr ⟨h.base_le, h.found⟩ }

/-- A tree was read, if there was one, that ends where it is known of. -/
theorem Ready.outcome (h : σ.Ready base c log memo) (tree? : Option Tree)
    (ht : ∀ t, tree? = some t → σ.set.input.Boundary (c.pos + t.length) ∧
      σ.Seen log.reach log.heads (c.pos + t.length)) :
    σ.Done base c log ⟨tree?.map c.push, log, memo⟩ := by
  cases tree? with
  | none => exact h.done none rfl
  | some t => exact h.push (ht t rfl).1 (ht t rfl).2

/-- The text was looked at in vain. -/
theorem Ready.examine_fail (h : σ.Ready base c log memo) (hstop : stop ≤ σ.set.input.size + 1)
    (e : Expectation) : σ.Done base c log ⟨none, (log.examine stop).fail c.pos e, memo⟩ :=
  have hlooked := h.examine hstop
  hlooked.trans h (Ready.fail hlooked.ready e)

/-- The text was looked at and some of it read. -/
theorem Ready.examine_push (h : σ.Ready base c log memo) {t : Tree}
    (hb : σ.set.input.Boundary (c.pos + t.length)) (hstop : stop ≤ σ.set.input.size + 1)
    (hle : c.pos + t.length ≤ stop) :
    σ.Done base c log ⟨some (c.push t), log.examine stop, memo⟩ :=
  have hlooked := h.examine hstop
  hlooked.trans h (Ready.push hlooked.ready hb (.inl (hle.trans (Nat.le_max_right _ _))))

theorem any_sound : σ.Sound reason (any σ.set) := by
  intro base c log memo h
  obtain ⟨cs, hleft⟩ := h.boundary.exists_left
  rw [any, hleft.rest_eq]
  cases cs with
  | nil => exact h.examine_fail (Nat.le_refl _) _
  | cons ch cs =>
      have hb := hleft.boundary_add (.head ch cs)
      exact h.examine_push (t := .terminal ch.utf8Size) hb (hb.le.trans (Nat.le_succ _))
        (Nat.le_refl _)

theorem range_sound (lo hi : Char) : σ.Sound reason (range σ.set lo hi) := by
  intro base c log memo h
  obtain ⟨cs, hleft⟩ := h.boundary.exists_left
  rw [range, hleft.rest_eq]
  cases cs with
  | nil => exact h.examine_fail (Nat.le_refl _) _
  | cons ch cs =>
      have hb := hleft.boundary_add (.head ch cs)
      have hstop := hb.le.trans (Nat.le_succ _)
      dsimp only
      split
      · exact h.examine_push (t := .terminal ch.utf8Size) hb hstop (Nat.le_refl _)
      · exact h.examine_fail hstop _

theorem terminal_sound (s : String) : σ.Sound reason (terminal σ.set s) := by
  intro base c log memo h
  obtain ⟨cs, hleft⟩ := h.boundary.exists_left
  rw [terminal, hleft.rest_eq]
  have hstop : (if σ.set.input.size < c.pos + s.utf8ByteSize then σ.set.input.size + 1
      else c.pos + s.utf8ByteSize) ≤ σ.set.input.size + 1 := by
    split <;> omega
  split
  · rename_i hprefix
    obtain ⟨back, rfl⟩ := List.isPrefixOf_iff_prefix.mp hprefix
    have hb : σ.set.input.Boundary (c.pos + s.utf8ByteSize) :=
      hleft.boundary_add ⟨s.toList, back, rfl, byteSize_toList s⟩
    have hle := hb.le
    exact h.examine_push (t := .terminal s.utf8ByteSize) hb hstop
      (by rw [if_neg (by omega)]; exact Nat.le_refl _)
  · exact h.examine_fail hstop _

theorem endOfInput_sound : σ.Sound reason (endOfInput σ.set) := by
  intro base c log memo h
  have hstop : c.pos + 1 ≤ σ.set.input.size + 1 := Nat.succ_le_succ h.boundary.le
  rw [endOfInput]
  split
  · exact h.examine hstop
  · exact h.examine_fail hstop _

/-! ### Combining evaluations -/

theorem andThen_sound (h₁ : σ.Sound reason e₁) (h₂ : σ.Sound reason e₂) :
    σ.Sound reason (e₁.andThen e₂) := by
  intro base c log memo h
  have hfirst := h₁ base c log memo h
  rw [Evaluation.andThen]
  generalize e₁ c log memo = first at hfirst ⊢
  rcases first with _ | ⟨_ | c', log', memo'⟩
  · exact hfirst
  · exact hfirst
  · have hsecond := h₂ base c' log' memo' (Done.ready hfirst)
    dsimp only
    generalize e₂ c' log' memo' = second at hsecond ⊢
    rcases second with _ | out
    · exact hsecond
    · exact Done.trans h hfirst hsecond

theorem orElse_sound (h₁ : σ.Sound reason e₁) (h₂ : σ.Sound reason e₂) :
    σ.Sound reason (e₁.orElse e₂) := by
  intro base c log memo h
  have hfirst := h₁ base c log memo h
  rw [Evaluation.orElse]
  generalize e₁ c log memo = first at hfirst ⊢
  rcases first with _ | ⟨_ | c', log', memo'⟩
  · exact hfirst
  · have hsecond := h₂ base c log' memo' (Done.ready hfirst)
    dsimp only
    generalize e₂ c log' memo' = second at hsecond ⊢
    rcases second with _ | out
    · exact hsecond
    · exact Done.since hfirst hsecond
  · exact hfirst

/-- Where the failures met are discarded, those met before are there again. -/
theorem Done.restoreFailures (h : σ.Done base c log out) (hr : σ.Ready base c log memo) :
    σ.Ready base c { out.log with failures := log.failures } out.memo :=
  (h.back hr).withFailures fun q hq =>
    have ⟨hle, hb, hseen⟩ := hr.failures q hq
    ⟨hle, hb, h.seen hseen⟩

theorem skipSpaces_sound {apply : String → Evaluation} (happly : ∀ q, σ.Sound reason (apply q)) :
    σ.Sound reason (skipSpaces apply) := by
  intro base c log memo h
  have hspaces := happly "spaces" base c _ memo h.withoutFailures
  rw [skipSpaces]
  generalize apply "spaces" c { log with failures := ∅ } memo = spaces at hspaces ⊢
  rcases spaces with _ | ⟨c?, inner, memo'⟩
  · exact hspaces
  · have hdone : σ.Done base c log _ := Done.relog hspaces (Nat.le_refl _) (Nat.le_refl _)
    have hback := hdone.restoreFailures h
    suffices h : σ.Done base c log ⟨some ⟨((c?.map (·.pos)).getD c.pos), c.found⟩,
        { inner with failures := log.failures }, memo'⟩ from
      h.congr (by cases c? <;> rfl) rfl (by simp) (by simp) (by simp)
    cases c? with
    | none => exact (hback.done (some c) rfl).relog hdone.reach_le hdone.heads_le
    | some c' =>
        have hmoved : c.pos ≤ c'.pos := hdone.moved c' rfl
        exact
          { reach_le := hdone.reach_le
            heads_le := hdone.heads_le
            moved := by
              rintro c'' ⟨⟩
              exact hmoved
            ready := { hback with
              boundary := hdone.ready.boundary
              seen := hdone.ready.seen
              base_le := hdone.ready.base_le } }

theorem spaced_sound {apply : String → Evaluation} (happly : ∀ q, σ.Sound reason (apply q))
    (skip : Bool) (h : σ.Sound reason e) : σ.Sound reason (spaced apply skip e) := by
  cases skip with
  | false => exact h
  | true => exact andThen_sound (skipSpaces_sound happly) h

theorem traced_sound (expr : Expr) (h : σ.Sound reason e) :
    σ.Sound reason (traced σ.set expr e) := by
  intro base c log memo hr
  rw [traced]
  split
  · have hinner := h base c { log with trace := [] } memo (hr.congr rfl rfl rfl)
    generalize e c { log with trace := [] } memo = inner at hinner ⊢
    rcases inner with _ | out
    · exact hinner
    · have hdone : σ.Done base c log _ := Done.relog hinner (Nat.le_refl _) (Nat.le_refl _)
      exact Done.congr hdone rfl rfl rfl rfl rfl
  · exact h base c log memo hr

theorem not_sound (expr : Expr) (h : σ.Sound reason e) :
    σ.Sound reason (Evaluation.not expr e) := by
  intro base c log memo hr
  have hinner := h base c _ memo hr.withoutFailures
  rw [Evaluation.not]
  generalize e c { log with failures := ∅ } memo = result at hinner ⊢
  rcases result with _ | ⟨c?, inner, memo'⟩
  · exact hinner
  · have hdone : σ.Done base c log _ := Done.relog hinner (Nat.le_refl _) (Nat.le_refl _)
    have hback := hdone.restoreFailures hr
    cases c? with
    | none => exact (hback.done (some c) rfl).relog hdone.reach_le hdone.heads_le
    | some c' => exact (hback.fail _).relog hdone.reach_le hdone.heads_le

theorem look_sound (h : σ.Sound reason e) : σ.Sound reason (look e) := by
  intro base c log memo hr
  have hinner := h base c log memo hr
  rw [look]
  generalize e c log memo = result at hinner ⊢
  rcases result with _ | ⟨c?, log', memo'⟩
  · exact hinner
  · have hback := Done.back hinner hr
    exact Done.since hinner (hback.done (c?.map fun _ => c) (by cases c? <;> rfl))

theorem rounds_sound (h : σ.Sound reason e) (n : Nat) (matched : Bool) :
    σ.Sound reason (rounds e n matched) := by
  induction n generalizing matched with
  | zero =>
      intro base c log memo hr
      exact hr.done _ (by cases matched <;> rfl)
  | succ n ih =>
      intro base c log memo hr
      have hround := h base c log memo hr
      simp only [rounds]
      generalize e c log memo = first at hround ⊢
      rcases first with _ | ⟨_ | c', log', memo'⟩
      · exact hround
      · exact Done.since hround ((Done.ready hround).done _ (by cases matched <;> rfl))
      · dsimp only
        split
        · exact hround
        · have hrest := ih true base c' log' memo' (Done.ready hround)
          generalize rounds e n true c' log' memo' = rest at hrest ⊢
          rcases rest with _ | out
          · exact hrest
          · exact Done.trans hr hround hrest

/-- An iteration begins anew at the cursor. -/
theorem Ready.anew (h : σ.Ready base c log memo) : σ.Ready c.pos ⟨c.pos, []⟩ log memo :=
  { h with
    origin_le := h.origin_le.trans h.base_le
    base_le := Nat.le_refl _
    found := fun _ hx => nomatch hx }

theorem iter_sound (op : Repeat) (h : σ.Sound reason e) :
    σ.Sound reason (iter σ.set op e) := by
  intro base c log memo hr
  have hrounds := rounds_sound h (roundLimit σ.set op c.pos) (op != .plus) c.pos ⟨c.pos, []⟩ log
    memo hr.anew
  rw [iter]
  generalize rounds e (roundLimit σ.set op c.pos) (op != .plus) ⟨c.pos, []⟩ log memo = result
    at hrounds ⊢
  rcases result with _ | ⟨_ | c', log', memo'⟩
  · exact hrounds
  · exact Done.since hrounds ((Done.back hrounds hr).done none rfl)
  · have hstop := Done.ready hrounds
    have hmoved : c.pos ≤ c'.pos := Done.moved hrounds c' rfl
    have hlength : c.pos + (c'.pos - c.pos) = c'.pos := by omega
    exact Done.since hrounds ((Done.back hrounds hr).push
      (t := .iter (op == .opt) (c'.pos - c.pos) (c'.children c.pos))
      (by simpa only [Tree.length, hlength] using! hstop.boundary)
      (by simpa only [Tree.length, hlength] using! hstop.seen))

section

variable {apply : String → Evaluation}

mutual

theorem ofExpr_sound (happly : ∀ q, σ.Sound reason (apply q)) (syntactic : Bool) :
    ∀ e : Expr, σ.Sound reason (ofExpr σ.set apply syntactic e)
  | .any => by
      rw [ofExpr]
      exact spaced_sound happly _ (traced_sound _ any_sound)
  | .endOfInput => by
      rw [ofExpr]
      exact spaced_sound happly _ (traced_sound _ endOfInput_sound)
  | .terminal s => by
      rw [ofExpr]
      exact spaced_sound happly _ (traced_sound _ (terminal_sound s))
  | .range lo hi => by
      rw [ofExpr]
      exact spaced_sound happly _ (traced_sound _ (range_sound lo hi))
  | .apply rule => by
      rw [ofExpr]
      exact spaced_sound happly _ (happly rule)
  | .alt es => by
      rw [ofExpr]
      exact traced_sound _ (ofChoices_sound happly syntactic es)
  | .seq es => by
      rw [ofExpr]
      exact traced_sound _ (ofParts_sound happly syntactic es)
  | .iter op e => by
      rw [ofExpr]
      exact traced_sound _ (iter_sound op (ofExpr_sound happly syntactic e))
  | .not e => by
      rw [ofExpr]
      exact traced_sound _ (not_sound e (ofExpr_sound happly syntactic e))
  | .look e => by
      rw [ofExpr]
      exact traced_sound _ (look_sound (ofExpr_sound happly syntactic e))
  | .lex e => by
      rw [ofExpr]
      exact traced_sound _ (ofExpr_sound happly false e)

theorem ofChoices_sound (happly : ∀ q, σ.Sound reason (apply q)) (syntactic : Bool) :
    ∀ es : List Expr, σ.Sound reason (ofChoices σ.set apply syntactic es)
  | [] => fun _ c _ _ hr => hr.done none rfl
  | e :: es => by
      rw [ofChoices]
      exact orElse_sound (ofExpr_sound happly syntactic e) (ofChoices_sound happly syntactic es)

theorem ofParts_sound (happly : ∀ q, σ.Sound reason (apply q)) (syntactic : Bool) :
    ∀ es : List Expr, σ.Sound reason (ofParts σ.set apply syntactic es)
  | [] => fun _ c _ _ hr => hr.done (some c) rfl
  | e :: es => by
      rw [ofParts]
      exact andThen_sound (ofExpr_sound happly syntactic e) (ofParts_sound happly syntactic es)

end

end

/-! ### Rule applications -/

theorem Seen.of_le {pos' : Nat} (h : σ.Seen reach heads pos) (hle : pos' ≤ pos) :
    σ.Seen reach heads pos' := by
  rcases h with h | ⟨f, hf, h⟩
  · exact .inl (hle.trans h)
  · exact .inr ⟨f, hf, hle.trans h⟩

theorem exists_findIdx?_of_mem {frames : List Frame} (hf : f ∈ frames) :
    ∃ i, frames.findIdx? (· == f) = some i ∧ frames[i]? = some f := by
  have hfound := List.findIdx?_eq_some_of_exists (p := (· == f)) ⟨f, hf, beq_self_eq_true f⟩
  obtain ⟨hlt, heq, -⟩ := List.findIdx?_eq_some_iff_getElem.mp hfound
  exact ⟨_, hfound, by rw [List.getElem?_eq_getElem hlt, beq_iff_eq.mp heq]⟩

/-- A seed that is read lies within what the outcome is then known to depend on. -/
theorem seen_of_read (hf : (pos, rule) ∈ σ.frames) (reach heads : Nat) :
    σ.Seen reach (max heads (match σ.frames.findIdx? (· == (pos, rule)) with
      | some i => i + 1
      | none => 0)) (σ.ends (pos, rule)) := by
  obtain ⟨i, hi, hframe⟩ := exists_findIdx?_of_mem hf
  rw [hi]
  have htake := List.getElem?_take_of_lt (l := σ.frames)
    ((Nat.lt_succ_self i).trans_le (Nat.le_max_right heads (i + 1)))
  exact .inr ⟨_, List.mem_of_getElem? (htake.trans hframe), Nat.le_refl _⟩

theorem reuse_done (h : σ.Ready base c log memo) {rule : String} {entry : Entry}
    (hentry : memo.find? c.pos rule = some entry) :
    σ.Done base c log (reuse σ.set σ.frames rule entry c log memo) := by
  cases entry with
  | growing seed? trace? read =>
      obtain ⟨hmem, hend, hb⟩ := h.intact.growing _ _ _ _ _ hentry
      have hseen := seen_of_read hmem (max log.reach c.pos) log.heads
      have hlooked := h.examine (h.boundary.le.trans (Nat.le_succ _))
      -- the place is looked at again, and the seed noted as read
      have hread : σ.Ready base c { log.examine c.pos with
          heads := max log.heads (match σ.frames.findIdx? (· == (c.pos, rule)) with
            | some i => i + 1
            | none => 0) }
          (memo.put c.pos rule (.growing seed? trace? true)) :=
        { hlooked.ready with
          intact := h.intact.plant (f := (c.pos, rule)) rfl
            (fun _ => ⟨.inr, fun hx => hx.elim (fun heq => heq ▸ hmem) id⟩) (fun _ _ => rfl)
            h.boundary hend hb
          seen := hlooked.ready.seen.mono (Nat.le_refl _) (Nat.le_max_left _ _)
          failures := fun q hq =>
            have ⟨hle, hb, hseen⟩ := hlooked.ready.failures q hq
            ⟨hle, hb, hseen.mono (Nat.le_refl _) (Nat.le_max_left _ _)⟩ }
      have hdone := hread.outcome seed? fun t ht => by
        rw [ht] at hend
        exact hend ▸ ⟨hb, hseen⟩
      exact (hdone.relog (Nat.le_max_left _ _) (Nat.le_max_left _ _)).congr rfl rfl
        (Log.failures_note _ _ _) (Log.reach_note _ _ _) (Log.heads_note _ _ _)
  | settled s =>
      have hs := h.intact.settled _ _ _ hentry
      have hlooked := h.examine hs.examined_le
      have hread : σ.Ready base c { log.examine (c.pos + s.examined) with
          failures := log.failures.merge (s.failures.absoluteFrom c.pos) } memo := by
        refine Ready.withFailures hlooked.ready fun q hq => ?_
        rcases Failures.pos?_merge hq with hq | hq
        · exact hlooked.ready.failures q hq
        · obtain ⟨r, hr, rfl⟩ := Failures.pos?_absoluteFrom hq
          obtain ⟨hle, hb⟩ := hs.failures r hr
          rw [Nat.add_comm]
          exact ⟨(h.origin_le.trans h.base_le).trans (Nat.le_add_right _ _), hb,
            .inl ((Nat.add_le_add_left hle _).trans (Nat.le_max_right _ _))⟩
      have hdone := hread.outcome s.tree? fun t ht => by
        have hlength : s.length = t.length := by rw [Settled.length, ht]; rfl
        rw [← hlength]
        exact ⟨hs.stop, .inl ((Nat.add_le_add_left hs.length_le _).trans (Nat.le_max_right _ _))⟩
      exact (hdone.relog (Nat.le_max_left _ _) (Nat.le_refl _)).congr rfl rfl
        (Log.failures_note _ _ _) (Log.reach_note _ _ _) (Log.heads_note _ _ _)

variable (σ) in
/-- What is true between two rounds of a rule whose seed ends at `stop`. What was found so far is
known of without the seed, as the rounds before have looked there. -/
structure Between (f : Frame) (stop : Nat) (log : Log) (memo : Memo) : Prop where
  placed : (σ.push f stop).Placed
  intact : (σ.push f stop).Intact memo
  stop_seen : σ.Seen log.reach (log.heads - 1) stop
  reach_le : log.reach ≤ σ.set.input.size + 1
  start_le : f.1 ≤ log.reach
  failures : ∀ q, log.failures.pos? = some q →
    f.1 ≤ q ∧ σ.set.input.Boundary q ∧ σ.Seen log.reach (log.heads - 1) q

variable (σ) in
/-- A tree read at the place of a rule ends where it is known of without the rule's seed. -/
structure Covers (f : Frame) (log : Log) (t : Tree) : Prop where
  boundary : σ.set.input.Boundary (f.1 + t.length)
  seen : σ.Seen log.reach (log.heads - 1) (f.1 + t.length)

theorem Covers.mono {t : Tree} (h : σ.Covers f log t) (hreach : log.reach ≤ log'.reach)
    (hheads : log.heads ≤ log'.heads) : σ.Covers f log' t :=
  ⟨h.boundary, h.seen.mono hreach (Nat.sub_le_sub_right hheads 1)⟩

theorem Between.not_mem (h : σ.Between f stop log memo) : f ∉ σ.frames :=
  (List.nodup_cons.mp h.placed.nodup).1

theorem Between.boundary (h : σ.Between f stop log memo) : σ.set.input.Boundary f.1 :=
  h.placed.boundary f List.mem_cons_self

theorem Between.ready (h : σ.Between f stop log memo) :
    (σ.push f stop).Ready f.1 ⟨f.1, []⟩ log memo where
  placed := h.placed
  intact := h.intact
  boundary := h.boundary
  seen := .inl h.start_le
  origin_le := Nat.le_refl _
  base_le := Nat.le_refl _
  found := fun _ hx => nomatch hx
  reach_le := h.reach_le
  origin_le_reach := h.start_le
  failures := fun q hq =>
    have ⟨hle, hb, hseen⟩ := h.failures q hq
    ⟨hle, hb, hseen.push h.not_mem⟩

/-- What an evaluation of the body comes to is known of without the seed. -/
theorem Between.seen_of_done (h : σ.Between f stop log memo)
    (hdone : (σ.push f stop).Done base c log out)
    (hpos : (σ.push f stop).Seen out.log.reach out.log.heads pos) :
    σ.Seen out.log.reach (out.log.heads - 1) pos :=
  hpos.pop h.not_mem fun hle => (h.stop_seen.of_le hle).mono hdone.reach_le
    (Nat.sub_le_sub_right hdone.heads_le 1)

/-- A rule without an entry begins its first round. -/
theorem Ready.enter (h : σ.Ready base c log memo) {rule : Rule}
    (hrule : rule.name ∈ σ.set.grammar.ruleNames) (hnew : memo.find? c.pos rule.name = none) :
    σ.Between (c.pos, rule.name) c.pos (.start c.pos)
      (memo.put c.pos rule.name (.growing none none false)) where
  placed := by
    refine h.placed.push (fun hmem => ?_) h.boundary hrule
    obtain ⟨seed?, trace?, read, hentry⟩ := h.intact.active _ hmem
    rw [hnew] at hentry
    cases hentry
  intact := h.intact.enter (f := (c.pos, rule.name)) h.boundary
  stop_seen := .inl (Nat.le_refl _)
  reach_le := h.boundary.le.trans (Nat.le_succ _)
  start_le := Nat.le_refl _
  failures := fun _ hq => nomatch hq

theorem round_sound {body : Evaluation} (h : σ.Between f stop log memo)
    (hbody : (σ.push f stop).Sound reason body) :
    Yields reason
      (fun (r, log', memo') => σ.Between f stop log' memo' ∧ log.reach ≤ log'.reach ∧
        log.heads ≤ log'.heads ∧ ∀ t, r.tree? = some t → σ.Covers f log' t)
      (Evaluation.round f.2 f.1 body log memo) := by
  have hround := hbody f.1 ⟨f.1, []⟩ { log with trace := [] } memo (h.ready.congr rfl rfl rfl)
  rw [Evaluation.round]
  generalize body ⟨f.1, []⟩ { log with trace := [] } memo = result at hround ⊢
  rcases result with _ | ⟨c?, log', memo'⟩
  · exact hround
  · have hdone : (σ.push f stop).Done f.1 ⟨f.1, []⟩ log _ :=
      Done.relog hround (Nat.le_refl _) (Nat.le_refl _)
    have hready := hdone.ready
    refine ⟨?_, hdone.reach_le, hdone.heads_le, ?_⟩
    · exact
        { placed := h.placed
          intact := hready.intact
          stop_seen := h.stop_seen.mono hdone.reach_le (Nat.sub_le_sub_right hdone.heads_le 1)
          reach_le := hready.reach_le
          start_le := h.start_le.trans hdone.reach_le
          failures := fun q hq =>
            have ⟨hle, hb, hseen⟩ := hready.failures q hq
            ⟨hle, hb, h.seen_of_done hdone hseen⟩ }
    · intro t ht
      obtain ⟨c', rfl, rfl⟩ := Option.map_eq_some_iff.mp ht
      have hle : f.1 ≤ c'.pos := hready.base_le
      have hlength : f.1 + (c'.pos - f.1) = c'.pos := by omega
      exact
        { boundary := by simpa only [Tree.length, hlength] using! hready.boundary
          seen := by
            simpa only [Tree.length, hlength] using! h.seen_of_done hdone hready.seen }

/-- What was found is the seed of the next round. -/
theorem Between.reseed (h : σ.Between f stop log memo) {best : Tree} (hbest : σ.Covers f log best)
    (trace? : Option Trace.Node) :
    σ.Between f (f.1 + best.length) log (memo.put f.1 f.2 (.growing (some best) trace? true)) :=
  { h with
    placed := ⟨h.placed.nodup, h.placed.boundary, h.placed.rule⟩
    intact := h.intact.reseed h.boundary hbest.boundary trace? true
    stop_seen := hbest.seen }

theorem grow_sound {body : Evaluation} (hbody : ∀ stop, (σ.push f stop).Sound reason body) (n : Nat)
    (best : Tree) (trace : List Trace.Node) (h : σ.Between f stop log memo)
    (hbest : σ.Covers f log best) :
    Yields reason
      (fun (r, log', memo') => log.reach ≤ log'.reach ∧ (∃ stop, σ.Between f stop log' memo') ∧
        ∀ t, r.tree? = some t → σ.Covers f log' t)
      (grow σ.set f.2 f.1 body n best trace log memo) := by
  induction n generalizing best trace stop log memo with
  | zero => exact ⟨Nat.le_refl _, ⟨stop, h⟩, fun t ht => Option.some.inj ht ▸ hbest⟩
  | succ n ih =>
      rw [grow]
      dsimp only
      generalize (if σ.set.tracing then _ else _ : Option Trace.Node) = seedTrace?
      have hround := round_sound (h.reseed hbest seedTrace?) (hbody _)
      generalize Evaluation.round f.2 f.1 body log _ = result at hround ⊢
      rcases result with _ | ⟨⟨_ | t, trace'⟩, log', memo'⟩
      · exact hround
      · obtain ⟨hnext, hreach, hheads, -⟩ := hround
        exact ⟨hreach, ⟨_, hnext⟩, fun t ht => Option.some.inj ht ▸ hbest.mono hreach hheads⟩
      · obtain ⟨hnext, hreach, hheads, ht⟩ := hround
        dsimp only
        split
        · exact ⟨hreach, ⟨_, hnext⟩, fun t ht => Option.some.inj ht ▸ hbest.mono hreach hheads⟩
        · have hrest := ih t trace' hnext (ht t rfl)
          generalize grow σ.set f.2 f.1 body n t trace' log' memo' = rest at hrest ⊢
          rcases rest with _ | ⟨r, log'', memo''⟩
          · exact hrest
          · exact ⟨hreach.trans hrest.1, hrest.2⟩

theorem settle_sound {body : Evaluation} {rule : Rule}
    (hbody : ∀ stop, (σ.push (c.pos, rule.name) stop).Sound reason body)
    (h : σ.Ready base c log memo) (hrule : rule.name ∈ σ.set.grammar.ruleNames)
    (hnew : memo.find? c.pos rule.name = none) :
    Yields reason
      (fun (r, log', memo') => (∃ stop, σ.Between (c.pos, rule.name) stop log' memo') ∧
        ∀ t, r.tree? = some t → σ.Covers (c.pos, rule.name) log' t)
      (settle σ.set rule.name c.pos body memo) := by
  have hfirst := round_sound (h.enter hrule hnew) (hbody _)
  rw [settle]
  dsimp only at hfirst
  generalize Evaluation.round rule.name c.pos body (.start c.pos) _ = result at hfirst ⊢
  rcases result with _ | ⟨⟨_ | t, trace⟩, log', memo'⟩
  · exact hfirst
  · exact ⟨⟨_, hfirst.1⟩, fun t ht => nomatch ht⟩
  · obtain ⟨hnext, -, -, ht⟩ := hfirst
    dsimp only
    split
    · have hgrown := grow_sound hbody (σ.set.input.size + 1) t trace hnext (ht t rfl)
      dsimp only at hgrown
      generalize grow σ.set rule.name c.pos body _ t trace log' memo' = grown at hgrown ⊢
      rcases grown with _ | ⟨r, log'', memo''⟩
      · exact hgrown
      · exact hgrown.2
    · exact ⟨⟨_, hnext⟩, ht⟩

/-- The failures that a rule reports are met at its place or later, and known of. -/
theorem Between.reported (h : σ.Between f stop log memo) (rule : Rule) (matched : Bool) {q : Nat}
    (hq : (reported rule f.1 matched log.failures).pos? = some q) :
    f.1 ≤ q ∧ σ.set.input.Boundary q ∧ σ.Seen log.reach (log.heads - 1) q := by
  rw [Evaluation.reported] at hq
  split at hq
  · exact h.failures q hq
  · split at hq
    · cases hq
    · cases hq
      exact ⟨Nat.le_refl _, h.boundary, .inl h.start_le⟩

/-- What is kept of a rule that depends on no seed further out stays in the text. -/
theorem Between.within (h : σ.Between f stop log memo) (rule : Rule) {tree? : Option Tree}
    (ht : ∀ t, tree? = some t → σ.Covers f log t) (hheads : ¬ 2 ≤ log.heads)
    (trace? : Option Trace.Node) :
    Settled.Within σ.set.input f.1
      { tree? := tree?
        examined := log.reach - f.1
        failures := (Evaluation.reported rule f.1 tree?.isSome log.failures).relativeTo f.1
        trace? := trace? } := by
  have hexamined : f.1 + (log.reach - f.1) = log.reach := by
    have := h.start_le
    omega
  -- no rule further out is left to depend on
  have known : ∀ {pos}, σ.Seen log.reach (log.heads - 1) pos → pos ≤ log.reach := by
    intro pos hpos
    rcases hpos with hpos | ⟨x, hx, -⟩
    · exact hpos
    · rw [show log.heads - 1 = 0 by omega] at hx
      simp at hx
  refine ⟨h.boundary, ?_, ?_, by rw [hexamined]; exact h.reach_le, fun q hq => ?_⟩
  · cases tree? with
    | none => exact h.boundary
    | some t => exact (ht t rfl).boundary
  · cases tree? with
    | none => exact Nat.zero_le _
    | some t =>
        have : f.1 + t.length ≤ log.reach := known (ht t rfl).seen
        simp only [Settled.length, Option.map_some, Option.getD_some]
        omega
  · obtain ⟨r, hr, rfl⟩ := Failures.pos?_relativeTo hq
    obtain ⟨hle, hb, hseen⟩ := h.reported rule _ hr
    have := known hseen
    rw [Nat.add_sub_of_le hle]
    exact ⟨by simp only; omega, hb⟩

theorem work_sound {body : Evaluation} {rule : Rule}
    (hbody : ∀ stop, (σ.push (c.pos, rule.name) stop).Sound reason body)
    (h : σ.Ready base c log memo) (hrule : rule.name ∈ σ.set.grammar.ruleNames)
    (hnew : memo.find? c.pos rule.name = none) :
    Yields reason (σ.Done base c log) (work σ.set rule body c log memo) := by
  have hsettled := settle_sound hbody h hrule hnew
  rw [work]
  generalize settle σ.set rule.name c.pos body memo = result at hsettled ⊢
  rcases result with _ | ⟨⟨tree?, trace⟩, inner, memo'⟩
  · exact hsettled
  obtain ⟨⟨stop, hnext⟩, ht⟩ := hsettled
  have hreach : log.reach ≤ max log.reach inner.reach := Nat.le_max_left _ _
  have hheads : log.heads ≤ max log.heads (inner.heads - 1) := Nat.le_max_left _ _
  have known : ∀ {pos}, σ.Seen inner.reach (inner.heads - 1) pos →
      σ.Seen (max log.reach inner.reach) (max log.heads (inner.heads - 1)) pos :=
    fun hpos => hpos.mono (Nat.le_max_right _ _) (Nat.le_max_right _ _)
  dsimp only
  refine Done.congr (?_ : σ.Done base c log ⟨tree?.map c.push, ⟨_, _, _, log.trace⟩, _⟩) rfl rfl
    (Log.failures_note _ _ _) (Log.reach_note _ _ _) (Log.heads_note _ _ _)
  refine (Ready.outcome ?_ tree? fun t h => ⟨(ht t h).boundary, known (ht t h).seen⟩).relog
    hreach hheads
  exact
    { h with
      intact := by
        -- the entry is dropped, or kept
        split
        · exact hnext.intact.drop (f := (c.pos, rule.name)) hnext.not_mem
        · exact hnext.intact.settle (f := (c.pos, rule.name)) hnext.not_mem h.boundary
            (hnext.within rule ht ‹_› _)
      seen := h.seen.mono hreach hheads
      reach_le := Nat.max_le.mpr ⟨h.reach_le, hnext.reach_le⟩
      origin_le_reach := h.origin_le_reach.trans hreach
      failures := by
        intro q hq
        rcases Failures.pos?_merge hq with hq | hq
        · obtain ⟨hle, hb, hseen⟩ := h.failures q hq
          exact ⟨hle, hb, hseen.mono hreach hheads⟩
        · obtain ⟨hle, hb, hseen⟩ := hnext.reported rule _ hq
          exact ⟨(h.origin_le.trans h.base_le).trans hle, hb, known hseen⟩ }

/-- Rule applications are sound. They come to nothing only if there is still a pair of a place and a
rule that is not being evaluated where the depth is used up. -/
theorem ofRule_sound (σ : Stack) (depth : Nat) (name : String) :
    σ.Sound (depth + σ.frames.length < σ.capacity) (ofRule σ.set depth σ.frames name) := by
  induction depth generalizing σ name with
  | zero =>
      intro base c log memo h
      rw [ofRule]
      cases hrule : σ.set.grammar.rule? name with
      | none => exact h.done none rfl
      | some rule =>
          dsimp only
          cases hentry : memo.find? c.pos rule.name with
          | some entry => exact reuse_done h hentry
          | none =>
              have hmem := List.mem_map_of_mem (f := (·.name)) (Grammar.rule?_mem hrule)
              have := (h.enter hmem hentry).placed.length_le
              exact (Nat.zero_add _).symm ▸ this
  | succ depth ih =>
      intro base c log memo h
      rw [ofRule]
      cases hrule : σ.set.grammar.rule? name with
      | none => exact h.done none rfl
      | some rule =>
          dsimp only
          cases hentry : memo.find? c.pos rule.name with
          | some entry => exact reuse_done h hentry
          | none =>
              have hmem := List.mem_map_of_mem (f := (·.name)) (Grammar.rule?_mem hrule)
              simp only [descend_eq]
              refine work_sound (fun stop => ?_) h hmem hentry
              have hcount : depth + 1 + σ.frames.length =
                  depth + (σ.push (c.pos, rule.name) stop).frames.length := by
                rw [Stack.push, List.length_cons]
                omega
              rw [hcount]
              exact ofExpr_sound (σ := σ.push (c.pos, rule.name) stop) (fun q => ih _ q) _ rule.body

end Stack

/-! ### Matches of a whole text -/

/-- No rule is being evaluated. -/
def Stack.bottom (set : Setting) : Stack :=
  ⟨set, [], fun _ => 0⟩

namespace Stack

variable {set : Setting} {limit : Nat} {start : String} {memo : Memo}

theorem ready_at (h : (bottom set).Intact memo) {pos : Nat} (hpos : set.input.Boundary pos) :
    (bottom set).Ready pos ⟨pos, []⟩ (.start pos) memo where
  placed := ⟨List.nodup_nil, List.forall_mem_nil _, List.forall_mem_nil _⟩
  intact := h
  boundary := hpos
  seen := .inl (Nat.le_refl _)
  origin_le := Nat.zero_le _
  base_le := Nat.le_refl _
  found := fun _ hx => nomatch hx
  reach_le := hpos.le.trans (Nat.le_succ _)
  origin_le_reach := Nat.zero_le _
  failures := fun _ hq => nomatch hq

theorem ready_bottom (h : (bottom set).Intact memo) :
    (bottom set).Ready 0 ⟨0, []⟩ (.start 0) memo :=
  ready_at h set.input.boundary_zero

theorem ofRule_sound_bottom (name : String) :
    (bottom set).Sound (limit < (bottom set).capacity) (ofRule set limit [] name) :=
  ofRule_sound (bottom set) limit name

theorem here_sound {σ : Stack} {reason : Prop} :
    σ.Sound reason fun c log memo => some ⟨some c, log, memo⟩ :=
  fun _ c _ _ h => h.done (some c) rfl

/-- What a match begins with behind the spaces before it. -/
theorem spaces_done (limit : Nat) (start : String) (h : (bottom set).Intact memo) :
    Yields (limit < (bottom set).capacity) ((bottom set).Done 0 ⟨0, []⟩ (.start 0))
      (spaced (ofRule set limit []) (isSyntactic start)
        (fun c log memo => some ⟨some c, log, memo⟩) ⟨0, []⟩ (.start 0) memo) :=
  spaced_sound ofRule_sound_bottom _ here_sound _ _ _ _ (ready_bottom h)

/-- A match in a table without seeds, whose entries stay in the text, leaves such a table, and reports
failures at boundaries only. It comes to nothing only if there are more pairs of a place and a rule
than applications may nest. -/
theorem run_sound (h : (bottom set).Intact memo) :
    Yields (limit < (bottom set).capacity)
      (fun (a, memo') => (bottom set).Intact memo' ∧
        ∀ q, a.failures.pos? = some q → set.input.Boundary q)
      (run set limit start memo) := by
  have hspaces := spaces_done limit start h
  rw [run]
  generalize spaced (ofRule set limit []) _ _ _ _ _ = spaces at hspaces ⊢
  rcases spaces with _ | ⟨c?, log, memo'⟩
  · exact hspaces
  have hend : (bottom set).Sound (limit < (bottom set).capacity)
      (ofExpr set (ofRule set limit []) (isSyntactic start) .endOfInput) :=
    ofExpr_sound ofRule_sound_bottom _ _
  have hwhole := andThen_sound (ofRule_sound_bottom start) hend 0 (c?.getD ⟨0, []⟩) log memo'
    (Done.ready hspaces)
  dsimp only
  generalize (ofRule set limit [] start).andThen _ _ _ _ = whole at hwhole ⊢
  rcases whole with _ | ⟨c'?, log', memo''⟩
  · exact hwhole
  · have hready := Done.ready hwhole
    exact ⟨hready.intact, fun q hq => (hready.failures q hq).2.1⟩

end Stack

end Match

end Pegboard
