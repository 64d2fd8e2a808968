import Pegboard.Proofs.Match.Outcomes
import Pegboard.Proofs.Recording
import Mathlib.Data.List.Nodup

/-!
# Failures are gathered

An evaluation records failures one by one, or all those of an application that it came to, and takes
none back. So a match ends with a set that some list of failures leaves: what was expected at one
place, each expectation once.

Main statements: `Evaluation.ofExpr_gathers`, `Evaluation.run_gathers`.
-/

namespace Pegboard

namespace Failures

variable {f f' f'' g : Failures} {pos : Nat} {e : Expectation}

/-- The second set is the first one with more recorded. -/
def Gathers (f f' : Failures) : Prop :=
  ∃ fs, f' = f.recordAll fs

namespace Gathers

theorem refl (f : Failures) : f.Gathers f :=
  ⟨[], rfl⟩

theorem trans (h : f.Gathers f') (h' : f'.Gathers f'') : f.Gathers f'' := by
  obtain ⟨fs, rfl⟩ := h
  obtain ⟨fs', rfl⟩ := h'
  exact ⟨fs ++ fs', (recordAll_append f fs fs').symm⟩

theorem record (f : Failures) (pos : Nat) (e : Expectation) : f.Gathers (f.record pos e) :=
  ⟨[⟨pos, e⟩], rfl⟩

theorem merge (f g : Failures) : f.Gathers (f.merge g) := by
  cases g with
  | empty => exact refl f
  | furthest pos es =>
      refine ⟨es.map (⟨pos, ·⟩), ?_⟩
      rw [Failures.merge, recordAll, List.foldl_map]

end Gathers

/-! ## What a list of failures leaves -/

theorem furthest_ne_empty (pos : Nat) (es : List Expectation) : furthest pos es ≠ ∅ := by
  rintro ⟨⟩

theorem record_ne_empty (f : Failures) (pos : Nat) (e : Expectation) : f.record pos e ≠ ∅ := by
  obtain ⟨reached, es, hrecord, -⟩ := record_eq_furthest f pos e
  rw [hrecord]
  exact furthest_ne_empty _ _

theorem recordAll_ne_empty (hf : f ≠ ∅) (fs : List Failure) : f.recordAll fs ≠ ∅ := by
  induction fs using List.reverseRecOn with
  | nil => exact hf
  | append_singleton fs x _ =>
      rw [recordAll_append, recordAll_singleton]
      exact record_ne_empty _ _ _

theorem Gathers.ne_empty (h : f.Gathers f') (hf : f ≠ ∅) : f' ≠ ∅ := by
  obtain ⟨fs, rfl⟩ := h
  exact recordAll_ne_empty hf fs

theorem merge_ne_empty (hg : g.expected ≠ []) : f.merge g ≠ ∅ := by
  cases g with
  | empty => exact absurd rfl hg
  | furthest pos es =>
      cases es with
      | nil => exact absurd rfl hg
      | cons e es =>
          have hrecorded : f.merge (.furthest pos (e :: es)) =
              (f.record pos e).recordAll (es.map (⟨pos, ·⟩)) := by
            rw [merge, recordAll, List.foldl_map, List.foldl_cons]
          rw [hrecorded]
          exact recordAll_ne_empty (record_ne_empty f pos e) _

theorem nodup_record (h : f.expected.Nodup) : (f.record pos e).expected.Nodup := by
  cases f with
  | empty => exact List.nodup_singleton e
  | furthest reached es =>
      rw [record]
      split
      · exact h
      · split
        · split
          · exact h
          · exact List.Nodup.append h (List.nodup_singleton e) (by simpa)
        · exact List.nodup_singleton e

theorem Gathers.nodup (h : f.Gathers f') (hf : f.expected.Nodup) : f'.expected.Nodup := by
  obtain ⟨fs, rfl⟩ := h
  induction fs using List.reverseRecOn with
  | nil => exact hf
  | append_singleton fs x ih =>
      rw [recordAll_append, recordAll_singleton]
      exact nodup_record ih

/-- What was gathered from nothing is nothing, or something is expected. -/
theorem Gathers.expected_ne_nil (h : Gathers ∅ f) (hf : f ≠ ∅) : f.expected ≠ [] := by
  obtain ⟨fs, rfl⟩ := h
  cases hlist : recordAll ∅ fs with
  | empty => exact absurd hlist hf
  | furthest reached es => exact (ofList_eq_furthest hlist).1

@[simp] theorem expected_relativeTo (f : Failures) (base : Nat) :
    (f.relativeTo base).expected = f.expected := by
  cases f <;> rfl

@[simp] theorem expected_absoluteFrom (f : Failures) (base : Nat) :
    (f.absoluteFrom base).expected = f.expected := by
  cases f <;> rfl

end Failures

namespace Match.Evaluation

variable {set : Setting} {apply : String → Evaluation} {e first second : Evaluation}
variable {c : Cursor} {log log' : Log} {memo memo' : Memo} {out : Outcome}

/-- What the evaluation ends with it gathered from what it began with. -/
def Gathers (e : Evaluation) : Prop :=
  ∀ c log memo out, e c log memo = some out → log.failures.Gathers out.log.failures

theorem any_gathers : (any set).Gathers := by
  intro c log memo out h
  rw [any] at h
  split at h <;> cases h
  · exact .record _ _ _
  · exact .refl _

theorem range_gathers {lo hi : Char} : (range set lo hi).Gathers := by
  intro c log memo out h
  rw [range] at h
  split at h
  · cases h
    exact .record _ _ _
  · dsimp only at h
    split at h <;> cases h
    · exact .refl _
    · exact .record _ _ _

theorem terminal_gathers {s : String} : (terminal set s).Gathers := by
  intro c log memo out h
  rw [terminal] at h
  split at h <;> cases h
  · exact .refl _
  · exact .record _ _ _

theorem endOfInput_gathers : (endOfInput set).Gathers := by
  intro c log memo out h
  rw [endOfInput] at h
  split at h <;> cases h
  · exact .refl _
  · exact .record _ _ _

theorem andThen_gathers (h₁ : first.Gathers) (h₂ : second.Gathers) :
    (first.andThen second).Gathers := by
  intro c log memo out h
  rcases andThen_eq_some h with ⟨hfirst, -⟩ | ⟨c', log', memo', hfirst, hsecond⟩
  · have hgathers := h₁ _ _ _ _ hfirst
    exact hgathers
  · exact (h₁ _ _ _ _ hfirst).trans (h₂ _ _ _ _ hsecond)

theorem orElse_gathers (h₁ : first.Gathers) (h₂ : second.Gathers) :
    (first.orElse second).Gathers := by
  intro c log memo out h
  rcases orElse_eq_some h with ⟨hfirst, -⟩ | ⟨log', memo', hfirst, hsecond⟩
  · exact h₁ _ _ _ _ hfirst
  · exact (h₁ _ _ _ _ hfirst).trans (h₂ _ _ _ _ hsecond)

theorem skipSpaces_failures (h : skipSpaces apply c log memo = some out) :
    out.log.failures = log.failures := by
  obtain ⟨c?, inner, -, -, hlog⟩ := skipSpaces_eq_some h
  rw [hlog, Log.markSpaces]
  split <;> rfl

theorem spaced_gathers (skip : Bool) (h : e.Gathers) : (spaced apply skip e).Gathers := by
  cases skip with
  | false => exact h
  | true =>
      refine andThen_gathers (fun c log memo out hskip => ?_) h
      rw [skipSpaces_failures hskip]
      exact .refl _

theorem traced_gathers (expr : Expr) (h : e.Gathers) : (traced set expr e).Gathers := by
  intro c log memo out he
  obtain ⟨inner, hinner, -, -, hlog⟩ := traced_eq_some he
  have hgathers := h _ _ _ _ hinner
  rw [hlog]
  split at hgathers <;> split <;> simp_all

theorem not_gathers (expr : Expr) (e : Evaluation) : (Evaluation.not expr e).Gathers := by
  intro c log memo out h
  rw [Evaluation.not] at h
  rcases hinner : e c { log with failures := ∅ } memo with _ | ⟨_ | c', inner, memo'⟩ <;>
    rw [hinner] at h <;> cases h
  · exact .refl _
  · exact .record _ _ _

theorem look_gathers (h : e.Gathers) : (look e).Gathers := by
  intro c log memo out he
  obtain ⟨c?, hinner, -⟩ := look_eq_some he
  have hgathers := h _ _ _ _ hinner
  exact hgathers

theorem rounds_gathers (h : e.Gathers) (n : Nat) (matched : Bool) :
    (rounds e n matched).Gathers := by
  induction n generalizing matched with
  | zero =>
      rintro c log memo out ⟨⟩
      exact .refl _
  | succ n ih =>
      intro c log memo out he
      rcases rounds_succ_eq_some he with ⟨hround, -⟩ | ⟨c', hround, -⟩ |
        ⟨c', log', memo', hround, -, hrest⟩
      · have hgathers := h _ _ _ _ hround
        exact hgathers
      · exact h _ _ _ _ hround
      · exact (h _ _ _ _ hround).trans (ih true _ _ _ _ hrest)

theorem iter_gathers (op : Repeat) (h : e.Gathers) : (iter set op e).Gathers := by
  intro c log memo out he
  obtain ⟨c?, hrounds, -⟩ := iter_eq_some he
  have hgathers := rounds_gathers h _ _ _ _ _ _ hrounds
  exact hgathers

mutual

/-- An expression gathers failures if the rules that it applies do. -/
theorem ofExpr_gathers (happly : ∀ q, (apply q).Gathers) (syn : Bool) :
    ∀ e : Expr, (ofExpr set apply syn e).Gathers
  | .any => by
      rw [ofExpr]
      exact spaced_gathers syn (traced_gathers _ any_gathers)
  | .endOfInput => by
      rw [ofExpr]
      exact spaced_gathers syn (traced_gathers _ endOfInput_gathers)
  | .terminal s => by
      rw [ofExpr]
      exact spaced_gathers syn (traced_gathers _ terminal_gathers)
  | .range lo hi => by
      rw [ofExpr]
      exact spaced_gathers syn (traced_gathers _ range_gathers)
  | .apply q => by
      rw [ofExpr]
      exact spaced_gathers _ (happly q)
  | .alt es => by
      rw [ofExpr]
      exact traced_gathers _ (ofChoices_gathers happly syn es)
  | .seq es => by
      rw [ofExpr]
      exact traced_gathers _ (ofParts_gathers happly syn es)
  | .iter op e => by
      rw [ofExpr]
      exact traced_gathers _ (iter_gathers op (ofExpr_gathers happly syn e))
  | .not e => by
      rw [ofExpr]
      exact traced_gathers _ (not_gathers e _)
  | .look e => by
      rw [ofExpr]
      exact traced_gathers _ (look_gathers (ofExpr_gathers happly syn e))
  | .lex e => by
      rw [ofExpr]
      exact traced_gathers _ (ofExpr_gathers happly false e)

theorem ofChoices_gathers (happly : ∀ q, (apply q).Gathers) (syn : Bool) :
    ∀ es : List Expr, (ofChoices set apply syn es).Gathers
  | [] => by
      rintro c log memo out ⟨⟩
      exact .refl _
  | e :: es => by
      rw [ofChoices]
      exact orElse_gathers (ofExpr_gathers happly syn e) (ofChoices_gathers happly syn es)

theorem ofParts_gathers (happly : ∀ q, (apply q).Gathers) (syn : Bool) :
    ∀ es : List Expr, (ofParts set apply syn es).Gathers
  | [] => by
      rintro c log memo out ⟨⟩
      exact .refl _
  | e :: es => by
      rw [ofParts]
      exact andThen_gathers (ofExpr_gathers happly syn e) (ofParts_gathers happly syn es)

end

/-- What an application reports is merged into what there is. -/
theorem ofRule_gathers (set : Setting) (depth : Nat) (frames : List Frame) (q : String) :
    (ofRule set depth frames q).Gathers := by
  intro c log memo out h
  rcases ofRule_eq_some h with ⟨-, rfl⟩ | ⟨rule, -, ⟨entry, -, rfl⟩ | ⟨-, d, -, hwork⟩⟩
  · exact .refl _
  · cases entry with
    | growing seed? trace? read =>
        rw [reuse, Log.note]
        split <;> exact .refl _
    | settled s =>
        rw [reuse, Log.note]
        split <;> exact .merge _ _
  · rw [work_eq] at hwork
    obtain ⟨⟨r, inner, memo'⟩, -, rfl⟩ := Option.map_eq_some_iff.mp hwork
    dsimp only [concluded]
    rw [Log.note]
    split <;> exact .merge _ _

section

variable {rule : String} {pos : Nat} {body : Evaluation} {r : Round}

theorem round_gathers (hbody : body.Gathers)
    (h : round rule pos body log memo = some (r, log', memo')) :
    log.failures.Gathers log'.failures := by
  obtain ⟨c?, hround, -⟩ := round_eq_some h
  have hgathers := hbody _ _ _ _ hround
  exact hgathers

theorem grow_gathers (hbody : body.Gathers) (n : Nat) (best : Tree) (trace : List Trace.Node)
    (h : grow set rule pos body n best trace log memo = some (r, log', memo')) :
    log.failures.Gathers log'.failures := by
  induction n generalizing best trace log memo with
  | zero =>
      cases h
      exact .refl _
  | succ n ih =>
      obtain ⟨r₁, log₁, memo₁, hround, ⟨-, -, rfl, -⟩ | ⟨t, -, -, hrest⟩⟩ := grow_succ_eq_some h
      · exact round_gathers hbody hround
      · exact (round_gathers hbody hround).trans (ih t r₁.trace hrest)

/-- The rounds of a rule begin with no failures. -/
theorem settle_gathers (hbody : body.Gathers)
    (h : settle set rule pos body memo = some (r, log', memo')) :
    Failures.Gathers ∅ log'.failures := by
  obtain ⟨r₁, log₁, memo₁, hround, ⟨-, -, rfl, -⟩ | ⟨t, -, -, hgrow⟩⟩ := settle_eq_some h
  · exact round_gathers hbody hround
  · have hfirst : Failures.Gathers ∅ log₁.failures := round_gathers hbody hround
    exact hfirst.trans (grow_gathers hbody _ t r₁.trace hgrow)

end

/-- A match reports what it gathered. -/
theorem run_gathers {limit : Nat} {start : String} {a : Answer}
    (h : run set limit start memo = some (a, memo')) : Failures.Gathers ∅ a.failures := by
  obtain ⟨pos, log₁, memo₁, out, hbefore, hwhole, rfl, -⟩ := run_eq_some h
  have happly := ofRule_gathers set limit []
  have hspaces : Failures.Gathers ∅ log₁.failures := by
    refine spaced_gathers (isSyntactic start) ?_ _ _ _ _ hbefore
    rintro c log memo out ⟨⟩
    exact .refl _
  exact hspaces.trans
    (andThen_gathers (happly start) (ofExpr_gathers happly _ .endOfInput) _ _ _ _ hwhole)

end Match.Evaluation

end Pegboard
