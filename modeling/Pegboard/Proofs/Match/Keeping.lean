import Pegboard.Proofs.Match.Moments
import Pegboard.Proofs.Match.Outcomes

/-!
# What evaluations keep

Some facts about the table, and about the seeds that an outcome depends on, are kept by every
evaluation because every rule application keeps them. `Stack.Keeps` says so of one evaluation, each
way of combining evaluations has its lemma, and `Lasting` lists what is left to be shown of a fact:
that it survives the reading of a seed, the beginning and the end of a rule, and a new seed.

Which rules are applied where can be limited beforehand. At the place where an expression begins it
applies rules from its left only, and further on whatever rules are written in it. To tell the two
apart one has to know that an expression which stayed where it was may stay; entries of trees
without length are therefore followed as well.

Main statements: `Lasting.ofRule_keeps`, `Lasting.run_keeps`.
-/

namespace Pegboard

open Relation

/-! ## Rules applied in an expression -/

namespace Expr

mutual

/-- The rules that the expression applies anywhere, in a syntactic context or not. -/
def applied (syn : Bool) : Expr → List String
  | .any | .endOfInput | .terminal _ | .range _ _ => if syn then ["spaces"] else []
  | .apply rule => if syn then ["spaces", rule] else [rule]
  | .alt es => appliedInAll syn es
  | .seq es => appliedInAll syn es
  | .iter _ e | .not e | .look e => e.applied syn
  | .lex e => e.applied false

def appliedInAll (syn : Bool) : List Expr → List String
  | [] => []
  | e :: es => e.applied syn ++ appliedInAll syn es

end

theorem mem_appliedInAll {syn : Bool} {e : Expr} {es : List Expr} {q : String} (he : e ∈ es)
    (h : q ∈ e.applied syn) : q ∈ appliedInAll syn es := by
  induction es with
  | nil => cases he
  | cons d es ih =>
      rw [appliedInAll, List.mem_append]
      rcases List.mem_cons.mp he with rfl | he
      · exact .inl h
      · exact .inr (ih he)

/-- Where spaces are skipped, they are among the rules applied. -/
theorem spaces_mem_applied {e : Expr} (h : e.skipsSpaces = true) : "spaces" ∈ e.applied true := by
  cases e <;> simp_all [skipsSpaces, consumesInput, applied]

end Expr

namespace Grammar

variable {g : Grammar} {admitted : Nat → String → Prop} {syn : Bool} {e d : Expr} {es : List Expr}
variable {q : String} {pos pos' : Nat}

theorem LeftApplies.mem_applied (h : g.LeftApplies syn e q) : q ∈ e.applied syn := by
  induction h with
  | @apply syn rule => cases syn <;> simp [Expr.applied]
  | spaces hskips => exact Expr.spaces_mem_applied hskips
  | alt he _ ih => exact Expr.mem_appliedInAll he ih
  | seq before _ _ ih => exact Expr.mem_appliedInAll (by simp) ih
  | iter _ ih => exact ih
  | not _ ih => exact ih
  | look _ ih => exact ih
  | lex _ ih => exact ih

/-- From a place on the expression applies admitted rules only. -/
structure Admits (g : Grammar) (admitted : Nat → String → Prop) (syn : Bool) (e : Expr)
    (pos : Nat) : Prop where
  left : ∀ q, g.LeftApplies syn e q → admitted pos q
  later : ∀ p, pos < p → ∀ q ∈ e.applied syn, admitted p q

/-- It makes no difference where rules are applied, or else the expression may stay where it is. -/
def Rests (g : Grammar) (free : Prop) (e : Expr) : Prop :=
  free ∨ g.MayStay e

namespace Admits

variable (h : g.Admits admitted syn e pos)

include h

/-- What the part of an expression applies is admitted. -/
theorem part {syn' : Bool} (hleft : ∀ q, g.LeftApplies syn' d q → g.LeftApplies syn e q)
    (happlied : ∀ q ∈ d.applied syn', q ∈ e.applied syn) : g.Admits admitted syn' d pos where
  left := fun q hq => h.left q (hleft q hq)
  later := fun p hp q hq => h.later p hp q (happlied q hq)

/-- Further on all rules written in the expression are admitted, the first ones among them. -/
theorem further (hpos : pos ≤ pos') : g.Admits admitted syn e pos' := by
  rcases Nat.eq_or_lt_of_le hpos with rfl | hpos
  · exact h
  · exact ⟨fun q hq => h.later _ hpos q hq.mem_applied, fun p hp => h.later p (hpos.trans hp)⟩

theorem spaces (hsyn : syn = true) (he : e.skipsSpaces = true) : admitted pos "spaces" := by
  subst hsyn
  exact h.left _ (.spaces he)

end Admits

theorem Admits.head (h : g.Admits admitted syn (.seq (d :: es)) pos) :
    g.Admits admitted syn d pos :=
  h.part (fun _ hq => .seq [] (by simp) hq)
    (fun _ hq => Expr.mem_appliedInAll List.mem_cons_self hq)

/-- What is left of a sequence, where its first part may have stayed. -/
theorem Admits.tail {free : Prop} (hfree : free → ∀ p p' q, admitted p q → admitted p' q)
    (h : g.Admits admitted syn (.seq (d :: es)) pos) (hpos : pos ≤ pos')
    (hstay : pos' = pos → g.Rests free d) : g.Admits admitted syn (.seq es) pos' := by
  have happlied : ∀ q ∈ (Expr.seq es).applied syn, q ∈ (Expr.seq (d :: es)).applied syn := by
    intro q hq
    rw [Expr.applied] at hq ⊢
    exact List.mem_append_right _ hq
  have later : ∀ p, pos < p → ∀ q ∈ (Expr.seq es).applied syn, admitted p q :=
    fun p hp q hq => h.later p hp q (happlied q hq)
  refine ⟨fun q hq => ?_, fun p hp => later p (hpos.trans_lt hp)⟩
  rcases Nat.eq_or_lt_of_le hpos with heq | hlt
  · rcases hstay heq.symm with hanywhere | hstays
    · exact hfree hanywhere _ _ _ (later (pos + 1) (Nat.lt_succ_self _) q hq.mem_applied)
    · exact heq ▸ h.left q (hq.seq_cons hstays)
  · exact later pos' hlt q hq.mem_applied

theorem Admits.first (h : g.Admits admitted syn (.alt (d :: es)) pos) :
    g.Admits admitted syn d pos :=
  h.part (fun _ hq => .alt List.mem_cons_self hq)
    (fun _ hq => Expr.mem_appliedInAll List.mem_cons_self hq)

theorem Admits.others (h : g.Admits admitted syn (.alt (d :: es)) pos) :
    g.Admits admitted syn (.alt es) pos := by
  refine h.part (fun q hq => ?_) (fun q hq => ?_)
  · cases hq with
    | spaces hskips => cases hskips
    | alt he hq => exact .alt (List.mem_cons_of_mem _ he) hq
  · rw [Expr.applied] at hq ⊢
    exact List.mem_append_right _ hq

end Grammar

namespace Match

open Evaluation

namespace Stack

theorem Sound.weaken {σ : Stack} {reason reason' : Prop} {e : Evaluation} (h : σ.Sound reason e)
    (hreason : reason → reason') : σ.Sound reason' e := by
  intro base c log memo hr
  have hyields := h base c log memo hr
  revert hyields
  cases e c log memo with
  | none => exact hreason
  | some out => exact id

/-! ## What one evaluation keeps -/

/-- At an admitted place the evaluation keeps a fact about the seeds that were read and the table,
and if it matched where it began it may do so. -/
def Keeps (σ : Stack) (P : Nat → Memo → Prop) (ok : Nat → Prop) (stays : Prop) (e : Evaluation) :
    Prop :=
  ∀ base c log memo out, σ.Ready base c log memo → ok c.pos → P log.heads memo →
    e c log memo = some out →
      P out.log.heads out.memo ∧ ∀ c', out.cursor? = some c' → c'.pos = c.pos → stays

variable {σ : Stack} {P : Nat → Memo → Prop} {ok ok₁ ok₂ : Nat → Prop} {stays stays₁ stays₂ : Prop}
variable {reason : Prop} {e e₁ e₂ : Evaluation} {set : Setting} {apply : String → Evaluation}

theorem Keeps.weaken (h : σ.Keeps P ok₁ stays₁ e) (hok : ∀ p, ok p → ok₁ p)
    (hstays : stays₁ → stays) : σ.Keeps P ok stays e := by
  intro base c log memo out hr hc hP he
  obtain ⟨hP', hstay⟩ := h base c log memo out hr (hok _ hc) hP he
  exact ⟨hP', fun c' hc' hpos => hstays (hstay c' hc' hpos)⟩

/-- To read the text reads no seed and leaves the table alone. -/
theorem keeps_of_reads (hreads : e.Reads)
    (hheads : ∀ c log memo out, e c log memo = some out → out.log.heads = log.heads)
    (hstays : ∀ c log memo out c', e c log memo = some out → out.cursor? = some c' →
      c'.pos = c.pos → stays) : σ.Keeps P ok stays e := by
  intro base c log memo out _ _ hP he
  obtain ⟨hmemo, -⟩ := hreads c log memo out he
  rw [hmemo, hheads c log memo out he]
  exact ⟨hP, fun c' => hstays c log memo out c' he⟩

theorem any_keeps : σ.Keeps P ok stays (any set) := by
  refine keeps_of_reads (any_reads set) (fun c log memo out h => ?_) fun c log memo out c' h hc' => ?_
  · rw [any] at h
    split at h <;> cases h <;> rfl
  · rw [any] at h
    split at h <;> cases h
    · cases hc'
    · rename_i ch _ _
      obtain rfl := Option.some.inj hc'
      have := ch.utf8Size_pos
      simp only [Cursor.push, Tree.length]
      omega

theorem range_keeps {lo hi : Char} : σ.Keeps P ok stays (range set lo hi) := by
  refine keeps_of_reads (range_reads set lo hi) (fun c log memo out h => ?_)
    fun c log memo out c' h hc' => ?_
  · rw [range] at h
    split at h
    · cases h
      rfl
    · dsimp only at h
      split at h <;> cases h <;> rfl
  · rw [range] at h
    split at h
    · cases h
      cases hc'
    · rename_i ch _ _
      dsimp only at h
      split at h <;> cases h
      · obtain rfl := Option.some.inj hc'
        have := ch.utf8Size_pos
        simp only [Cursor.push, Tree.length]
        omega
      · cases hc'

theorem terminal_keeps {s : String} (hstays : s = "" → stays) :
    σ.Keeps P ok stays (terminal set s) := by
  refine keeps_of_reads (terminal_reads set s) (fun c log memo out h => ?_)
    fun c log memo out c' h hc' hpos => ?_
  · rw [terminal] at h
    split at h <;> cases h <;> rfl
  · rw [terminal] at h
    split at h <;> cases h
    · obtain rfl := Option.some.inj hc'
      simp only [Cursor.push, Tree.length] at hpos
      exact hstays (String.utf8ByteSize_eq_zero_iff.mp (by omega))
    · cases hc'

theorem endOfInput_keeps (hstays : stays) : σ.Keeps P ok stays (endOfInput set) := by
  refine keeps_of_reads (endOfInput_reads set) (fun c log memo out h => ?_)
    fun _ _ _ _ _ _ _ _ => hstays
  rw [endOfInput] at h
  split at h <;> cases h <;> rfl

theorem andThen_keeps (hsound₁ : σ.Sound reason e₁) (hsound₂ : σ.Sound reason e₂)
    (h₁ : σ.Keeps P ok₁ stays₁ e₁) (h₂ : σ.Keeps P ok₂ stays₂ e₂) (hok₁ : ∀ p, ok p → ok₁ p)
    (hok₂ : ∀ p p', ok p → p ≤ p' → (p' = p → stays₁) → ok₂ p') :
    σ.Keeps P ok (stays₁ ∧ stays₂) (e₁.andThen e₂) := by
  intro base c log memo out hr hc hP he
  rcases andThen_eq_some he with ⟨hfirst, hnone⟩ | ⟨c', log', memo', hfirst, hsecond⟩
  · exact ⟨(h₁ _ _ _ _ _ hr (hok₁ _ hc) hP hfirst).1, fun c' hc' => nomatch hnone.symm.trans hc'⟩
  · have hdone := (hsound₁ _ _ _ _ hr).of_eq_some hfirst
    have hmoved : c.pos ≤ c'.pos := hdone.moved c' rfl
    have hdone' := (hsound₂ _ _ _ _ hdone.ready).of_eq_some hsecond
    obtain ⟨hP', hstay⟩ := h₁ _ _ _ _ _ hr (hok₁ _ hc) hP hfirst
    obtain ⟨hP'', hstay'⟩ :=
      h₂ _ _ _ _ _ hdone.ready (hok₂ _ _ hc hmoved (hstay c' rfl)) hP' hsecond
    refine ⟨hP'', fun c'' hc'' hpos => ?_⟩
    have hmoved' : c'.pos ≤ c''.pos := hdone'.moved c'' hc''
    have hstays : c'.pos = c.pos := by omega
    exact ⟨hstay c' rfl hstays, hstay' c'' hc'' (hpos.trans hstays.symm)⟩

theorem orElse_keeps (hsound : σ.Sound reason e₁) (h₁ : σ.Keeps P ok stays₁ e₁)
    (h₂ : σ.Keeps P ok stays₂ e₂) : σ.Keeps P ok (stays₁ ∨ stays₂) (e₁.orElse e₂) := by
  intro base c log memo out hr hc hP he
  rcases orElse_eq_some he with ⟨hfirst, -⟩ | ⟨log', memo', hfirst, hsecond⟩
  · obtain ⟨hP', hstay⟩ := h₁ _ _ _ _ _ hr hc hP hfirst
    exact ⟨hP', fun c' hc' hpos => .inl (hstay c' hc' hpos)⟩
  · have hdone := (hsound _ _ _ _ hr).of_eq_some hfirst
    obtain ⟨hP', hstay⟩ :=
      h₂ _ _ _ _ _ hdone.ready hc (h₁ _ _ _ _ _ hr hc hP hfirst).1 hsecond
    exact ⟨hP', fun c' hc' hpos => .inr (hstay c' hc' hpos)⟩

theorem skipSpaces_keeps (h : σ.Keeps P ok stays (apply "spaces")) :
    σ.Keeps P ok True (skipSpaces apply) := by
  intro base c log memo out hr hc hP he
  obtain ⟨c?, inner, hspaces, -, hlog⟩ := skipSpaces_eq_some he
  have hkept := (h _ _ _ _ _ hr.withoutFailures hc hP hspaces).1
  rw [hlog, Log.heads_markSpaces]
  exact ⟨hkept, fun _ _ _ => trivial⟩

theorem spaced_keeps (happly : ∀ q, σ.Sound reason (apply q)) (skip : Bool)
    (hsound : σ.Sound reason e) (hspaces : skip = true → σ.Keeps P ok stays₁ (apply "spaces"))
    (h : σ.Keeps P ok stays e) (hok : ∀ p p', ok p → p ≤ p' → ok p') :
    σ.Keeps P ok stays (spaced apply skip e) := by
  cases skip with
  | false => exact h
  | true =>
      exact (andThen_keeps (skipSpaces_sound happly) hsound (skipSpaces_keeps (hspaces rfl)) h
        (fun _ hp => hp) fun p p' hp hle _ => hok p p' hp hle).weaken (fun _ hp => hp) And.right

theorem traced_keeps (expr : Expr) (h : σ.Keeps P ok stays e) :
    σ.Keeps P ok stays (traced set expr e) := by
  intro base c log memo out hr hc hP he
  obtain ⟨inner, hinner, hcursor, hmemo, hlog⟩ := traced_eq_some he
  have hheads : out.log.heads = inner.log.heads := by
    rw [hlog]
    split <;> rfl
  rw [hmemo, hcursor, hheads]
  split at hinner
  · exact h base c { log with trace := [] } memo inner (hr.congr rfl rfl rfl) hc hP hinner
  · exact h base c log memo inner hr hc hP hinner

theorem not_keeps (expr : Expr) (h : σ.Keeps P ok stays e) :
    σ.Keeps P ok True (Evaluation.not expr e) := by
  intro base c log memo out hr hc hP he
  refine ⟨?_, fun _ _ _ => trivial⟩
  rw [Evaluation.not] at he
  rcases hinner : e c { log with failures := ∅ } memo with _ | ⟨_ | c', inner, memo'⟩ <;>
    rw [hinner] at he <;> cases he
  · exact (h _ _ _ _ _ hr.withoutFailures hc hP hinner).1
  · exact (h _ _ _ _ _ hr.withoutFailures hc hP hinner).1

theorem look_keeps (h : σ.Keeps P ok stays e) : σ.Keeps P ok True (look e) := by
  intro base c log memo out hr hc hP he
  obtain ⟨c?, hinner, -⟩ := look_eq_some he
  exact ⟨(h _ _ _ _ _ hr hc hP hinner).1, fun _ _ _ => trivial⟩

theorem rounds_keeps (hsound : σ.Sound reason e) (h : σ.Keeps P ok stays e)
    (hok : ∀ p p', ok p → p ≤ p' → ok p') (n : Nat) (matched : Bool) :
    σ.Keeps P ok (matched = true ∨ stays) (rounds e n matched) := by
  have kept : ∀ {c c' : Cursor} {matched : Bool}, (if matched then some c else none) = some c' →
      matched = true ∨ stays := by
    rintro c c' (_ | _) hc'
    · cases hc'
    · exact .inl rfl
  induction n generalizing matched with
  | zero =>
      intro base c log memo out _ _ hP he
      cases he
      exact ⟨hP, fun c' hc' _ => kept hc'⟩
  | succ n ih =>
      intro base c log memo out hr hc hP he
      rcases rounds_succ_eq_some he with ⟨hround, hcursor⟩ | ⟨c', hround, hcursor, -⟩ |
        ⟨c', log', memo', hround, hmoved, hrest⟩
      · exact ⟨(h _ _ _ _ _ hr hc hP hround).1, fun c' hc' _ => kept (hcursor.symm.trans hc')⟩
      · obtain ⟨hP', hstay⟩ := h _ _ _ _ _ hr hc hP hround
        exact ⟨hP', fun c' hc' hpos => .inr (hstay c' hc' hpos)⟩
      · have hdone := (hsound _ _ _ _ hr).of_eq_some hround
        have hle : c.pos ≤ c'.pos := hdone.moved c' rfl
        obtain ⟨hP', -⟩ := ih true _ _ _ _ _ hdone.ready (hok _ _ hc hle)
          (h _ _ _ _ _ hr hc hP hround).1 hrest
        have hdone' := (rounds_sound hsound n true _ _ _ _ hdone.ready).of_eq_some hrest
        refine ⟨hP', fun c'' hc'' hpos => ?_⟩
        have hle' : c'.pos ≤ c''.pos := hdone'.moved c'' hc''
        omega

theorem iter_keeps (hset : set = σ.set) (hsound : σ.Sound reason e) (h : σ.Keeps P ok stays e)
    (hok : ∀ p p', ok p → p ≤ p' → ok p') (op : Repeat) :
    σ.Keeps P ok (op ≠ .plus ∨ stays) (iter set op e) := by
  subst hset
  intro base c log memo out hr hc hP he
  obtain ⟨c?, hrounds, hcursor⟩ := iter_eq_some he
  obtain ⟨hP', hstay⟩ := rounds_keeps hsound h hok _ _ _ _ _ _ _ hr.anew hc hP hrounds
  refine ⟨hP', fun c'' hc'' hpos => ?_⟩
  rw [hcursor] at hc''
  obtain ⟨c', rfl, rfl⟩ := Option.map_eq_some_iff.mp hc''
  have hdone := (rounds_sound hsound _ _ _ _ _ _ hr.anew).of_eq_some hrounds
  have hle : c.pos ≤ c'.pos := hdone.moved c' rfl
  simp only [Cursor.push, Tree.length] at hpos
  refine (hstay c' rfl ?_).imp_left fun hop => ?_
  · show c'.pos = c.pos
    omega
  · rintro rfl
    cases hop

/-! ## What expressions keep -/

section

variable {admitted : Nat → String → Prop} {free : Prop}

mutual

theorem ofExpr_keeps (hfree : free → ∀ p p' q, admitted p q → admitted p' q)
    (happly : ∀ q, σ.Sound reason (apply q))
    (hkeeps : ∀ q, σ.Keeps P (admitted · q) (σ.set.grammar.Rests free (.apply q)) (apply q))
    (syn : Bool) : ∀ e : Expr, σ.Keeps P (σ.set.grammar.Admits admitted syn e)
      (σ.set.grammar.Rests free e) (ofExpr σ.set apply syn e)
  | .any => by
      rw [ofExpr]
      refine spaced_keeps happly syn (traced_sound _ any_sound) (fun hsyn => (hkeeps "spaces").weaken
        (fun p hp => hp.spaces hsyn rfl) id) (traced_keeps _ any_keeps) fun p p' hp => hp.further
  | .endOfInput => by
      rw [ofExpr]
      refine spaced_keeps happly syn (traced_sound _ endOfInput_sound)
        (fun hsyn => (hkeeps "spaces").weaken (fun p hp => hp.spaces hsyn rfl) id)
        (traced_keeps _ (endOfInput_keeps (.inr .endOfInput))) fun p p' hp => hp.further
  | .terminal s => by
      rw [ofExpr]
      refine spaced_keeps happly syn (traced_sound _ (terminal_sound s))
        (fun hsyn => (hkeeps "spaces").weaken (fun p hp => hp.spaces hsyn rfl) id)
        (traced_keeps _ (terminal_keeps ?_)) fun p p' hp => hp.further
      rintro rfl
      exact .inr .terminal
  | .range lo hi => by
      rw [ofExpr]
      refine spaced_keeps happly syn (traced_sound _ (range_sound lo hi))
        (fun hsyn => (hkeeps "spaces").weaken (fun p hp => hp.spaces hsyn rfl) id)
        (traced_keeps _ range_keeps) fun p p' hp => hp.further
  | .apply q => by
      rw [ofExpr]
      refine spaced_keeps happly _ (happly q) (fun hskip => (hkeeps "spaces").weaken
        (fun p hp => ?_) id) ((hkeeps q).weaken (fun p hp => hp.left q .apply) id)
        fun p p' hp => hp.further
      rw [Bool.and_eq_true] at hskip
      exact hp.spaces hskip.1 hskip.2
  | .alt es => by
      rw [ofExpr]
      refine traced_keeps _ ((ofChoices_keeps hfree happly hkeeps syn es).weaken (fun _ hp => hp) ?_)
      rintro ⟨e, he, hany | hstays⟩
      · exact .inl hany
      · exact .inr (.alt he hstays)
  | .seq es => by
      rw [ofExpr]
      refine traced_keeps _ ((ofParts_keeps hfree happly hkeeps syn es).weaken (fun _ hp => hp)
        fun h => ?_)
      by_cases hany : free
      · exact .inl hany
      · exact .inr (.seq fun e he => (h e he).resolve_left hany)
  | .iter op e => by
      rw [ofExpr]
      refine traced_keeps _ ((iter_keeps rfl (ofExpr_sound happly syn e)
        ((ofExpr_keeps hfree happly hkeeps syn e).weaken (fun p hp => hp) id)
        (fun p p' hp => hp.further) op).weaken (fun p hp => ?_) ?_)
      · exact hp.part (fun _ hq => .iter hq) (fun _ hq => by rwa [Expr.applied])
      · rintro (hop | hany | hstays)
        · exact .inr (.iter hop)
        · exact .inl hany
        · by_cases hop : op = .plus
          · subst hop
            exact .inr (.plus hstays)
          · exact .inr (.iter hop)
  | .not e => by
      rw [ofExpr]
      exact traced_keeps _ ((not_keeps e (ofExpr_keeps hfree happly hkeeps syn e)).weaken
        (fun p hp => hp.part (fun _ hq => .not hq) (fun _ hq => by rwa [Expr.applied]))
        fun _ => .inr .not)
  | .look e => by
      rw [ofExpr]
      exact traced_keeps _ ((look_keeps (ofExpr_keeps hfree happly hkeeps syn e)).weaken
        (fun p hp => hp.part (fun _ hq => .look hq) (fun _ hq => by rwa [Expr.applied]))
        fun _ => .inr .look)
  | .lex e => by
      rw [ofExpr]
      exact traced_keeps _ ((ofExpr_keeps hfree happly hkeeps false e).weaken
        (fun p hp => hp.part (fun _ hq => .lex hq) (fun _ hq => by rwa [Expr.applied]))
        fun h => h.imp_right .lex)

theorem ofChoices_keeps (hfree : free → ∀ p p' q, admitted p q → admitted p' q)
    (happly : ∀ q, σ.Sound reason (apply q))
    (hkeeps : ∀ q, σ.Keeps P (admitted · q) (σ.set.grammar.Rests free (.apply q)) (apply q))
    (syn : Bool) : ∀ es : List Expr, σ.Keeps P (σ.set.grammar.Admits admitted syn (.alt es))
      (∃ e ∈ es, σ.set.grammar.Rests free e) (ofChoices σ.set apply syn es)
  | [] => by
      intro base c log memo out _ _ hP he
      cases he
      exact ⟨hP, by rintro _ ⟨⟩⟩
  | e :: es => by
      rw [ofChoices]
      refine (orElse_keeps (ofExpr_sound happly syn e)
        ((ofExpr_keeps hfree happly hkeeps syn e).weaken (fun p hp => hp.first) id)
        ((ofChoices_keeps hfree happly hkeeps syn es).weaken (fun p hp => hp.others) id)).weaken
        (fun _ hp => hp) ?_
      rintro (hstays | ⟨d, hd, hstays⟩)
      · exact ⟨e, List.mem_cons_self, hstays⟩
      · exact ⟨d, List.mem_cons_of_mem _ hd, hstays⟩

theorem ofParts_keeps (hfree : free → ∀ p p' q, admitted p q → admitted p' q)
    (happly : ∀ q, σ.Sound reason (apply q))
    (hkeeps : ∀ q, σ.Keeps P (admitted · q) (σ.set.grammar.Rests free (.apply q)) (apply q))
    (syn : Bool) : ∀ es : List Expr, σ.Keeps P (σ.set.grammar.Admits admitted syn (.seq es))
      (∀ e ∈ es, σ.set.grammar.Rests free e) (ofParts σ.set apply syn es)
  | [] => by
      intro base c log memo out _ _ hP he
      cases he
      exact ⟨hP, fun _ _ _ => List.forall_mem_nil _⟩
  | e :: es => by
      rw [ofParts]
      exact (andThen_keeps (ofExpr_sound happly syn e) (ofParts_sound happly syn es)
        (ofExpr_keeps hfree happly hkeeps syn e) (ofParts_keeps hfree happly hkeeps syn es)
        (fun p hp => hp.head) (fun p p' hp hle hstay => hp.tail hfree hle hstay)).weaken
        (fun _ hp => hp) List.forall_mem_cons.mpr

end

end

/-! ## What rule applications keep -/

/-- A rule without an entry was evaluated; its rounds came to `r`, and left the log `inner` and the
table `memo'`. -/
structure Finished (σ : Stack) (rule : Rule) (depth base : Nat) (c : Cursor) (log : Log)
    (memo : Memo) (r : Round) (inner : Log) (memo' : Memo) : Prop where
  ready : σ.Ready base c log memo
  declared : σ.set.grammar.rule? rule.name = some rule
  missing : memo.find? c.pos rule.name = none
  applied : ofRule σ.set (depth + 1) σ.frames rule.name c log memo =
    some (concluded σ.set rule c log r inner memo')
  between : ∃ stop, σ.Between (c.pos, rule.name) stop inner memo'

end Stack

/-- Below which frames a rule may be applied at a place: the bodies of rules apply nothing but
admitted rules, wherever they are admitted themselves. If it is free where rules are applied, the
place makes no difference. -/
structure Admitting (g : Grammar) (free : Prop) (admitted : List Frame → Nat → String → Prop) :
    Prop where
  body : ∀ frames pos rule, admitted frames pos rule.name → g.rule? rule.name = some rule →
    g.Admits (admitted ((pos, rule.name) :: frames)) (isSyntactic rule.name) rule.body pos
  free : free → ∀ frames p p' q, admitted frames p q → admitted frames p' q

/-- A fact about the rules being evaluated, the seeds read and the table that survives all that the
application of an admitted rule does. -/
structure Lasting (set : Setting) (admitted : List Frame → Nat → String → Prop)
    (P : List Frame → Nat → Memo → Prop) : Prop where
  read : ∀ (σ : Stack) base c log memo q i seed? trace? read, σ.set = set →
    σ.Ready base c log memo → admitted σ.frames c.pos q → σ.frames[i]? = some (c.pos, q) →
      memo.find? c.pos q = some (.growing seed? trace? read) → P σ.frames log.heads memo →
        P σ.frames (max log.heads (i + 1)) (memo.put c.pos q (.growing seed? trace? true))
  enter : ∀ (σ : Stack) base c log memo (rule : Rule), σ.set = set → σ.Ready base c log memo →
    admitted σ.frames c.pos rule.name → memo.find? c.pos rule.name = none →
      P σ.frames log.heads memo →
      P ((c.pos, rule.name) :: σ.frames) 0 (memo.put c.pos rule.name (.growing none none false))
  reseed : ∀ (σ : Stack) f stop log memo t trace?, σ.set = set → σ.Between f stop log memo →
    admitted σ.frames f.1 f.2 → P (f :: σ.frames) log.heads memo →
      P (f :: σ.frames) log.heads (memo.put f.1 f.2 (.growing (some t) trace? true))
  leave : ∀ (σ : Stack) (rule : Rule) depth base c log memo r inner memo', σ.set = set →
    σ.Finished rule depth base c log memo r inner memo' → admitted σ.frames c.pos rule.name →
      P σ.frames log.heads memo → P ((c.pos, rule.name) :: σ.frames) inner.heads memo' →
        P σ.frames (max log.heads (inner.heads - 1))
          (if 2 ≤ inner.heads then memo'.drop c.pos rule.name
            else memo'.put c.pos rule.name (.settled (keptEntry set rule c.pos r inner)))

/-- An entry that took nothing is one of a rule that may stay where it is. -/
def Memo.Rests (g : Grammar) (free : Prop) (memo : Memo) : Prop :=
  ∀ pos q e t, memo.find? pos q = some e → e.tree? = some t → t.length = 0 →
    g.Rests free (.apply q)

theorem Memo.Rests.put {g : Grammar} {free : Prop} {memo : Memo} {pos : Nat} {q : String} {e : Entry}
    (h : memo.Rests g free) (he : ∀ t, e.tree? = some t → t.length = 0 → g.Rests free (.apply q)) :
    (memo.put pos q e).Rests g free := by
  intro p r e' t hfind ht h0
  rcases Memo.of_find?_put hfind with ⟨heq, rfl⟩ | hfind
  · obtain ⟨rfl, rfl⟩ := Prod.mk.inj heq
    exact he t ht h0
  · exact h p r e' t hfind ht h0

theorem Memo.rests_blank (g : Grammar) (free : Prop) (size : Nat) : (blank size).Rests g free := by
  intro pos q e t hfind
  rw [find?_blank] at hfind
  cases hfind

theorem Memo.rests_of_free (g : Grammar) (memo : Memo) : memo.Rests g True :=
  fun _ _ _ _ _ _ _ => .inl trivial

namespace Lasting

variable {set : Setting} {free : Prop} {admitted : List Frame → Nat → String → Prop}
variable {P : List Frame → Nat → Memo → Prop}
variable {σ : Stack} {f : Frame} {rule : Rule} {body : Evaluation} {stop depth : Nat}
variable {log log' : Log} {memo memo' : Memo} {r : Round} {reason : Prop}

/-- What is kept below the frames. -/
abbrev Kept (set : Setting) (free : Prop) (P : List Frame → Nat → Memo → Prop)
    (frames : List Frame) (heads : Nat) (memo : Memo) : Prop :=
  P frames heads memo ∧ memo.Rests set.grammar free

variable (set free P σ f body) in
/-- The body of a rule keeps what is kept below its frame. -/
def BodyKeeps : Prop :=
  ∀ stop, (σ.push f stop).Sound True body ∧
    (σ.push f stop).Keeps (Kept set free P (f :: σ.frames)) (· = f.1)
      (set.grammar.Rests free (.apply f.2)) body

theorem round_keeps (hbody : BodyKeeps set free P σ f body)
    (hbetween : σ.Between f stop log memo) (hP : Kept set free P (f :: σ.frames) log.heads memo)
    (h : Evaluation.round f.2 f.1 body log memo = some (r, log', memo')) :
    σ.Between f stop log' memo' ∧ Kept set free P (f :: σ.frames) log'.heads memo' ∧
      ∀ t, r.tree? = some t → σ.Covers f log' t ∧
        (t.length = 0 → set.grammar.Rests free (.apply f.2)) := by
  have hready : (σ.push f stop).Ready f.1 ⟨f.1, []⟩ { log with trace := [] } memo :=
    hbetween.ready.congr rfl rfl rfl
  obtain ⟨hnext, -, -, hcovers⟩ := (Stack.round_sound hbetween (hbody stop).1).of_eq_some h
  obtain ⟨c?, hround, htree, -⟩ := round_eq_some h
  obtain ⟨hP', hstay⟩ := (hbody stop).2 _ _ _ _ _ hready rfl hP hround
  refine ⟨hnext, hP', fun t ht => ⟨hcovers t ht, fun h0 => ?_⟩⟩
  rw [htree] at ht
  obtain ⟨c', rfl, rfl⟩ := Option.map_eq_some_iff.mp ht
  have hmoved : f.1 ≤ c'.pos :=
    (((hbody stop).1 _ _ _ _ hready).of_eq_some hround).moved c' rfl
  have h0 : c'.pos - f.1 = 0 := h0
  exact hstay c' rfl (by dsimp only; omega)

variable (h : Lasting set admitted P) (hset : σ.set = set)

include h hset

/-- A rule that is entered begins with what is kept. -/
theorem enter_keeps {base : Nat} {c : Cursor} (hr : σ.Ready base c log memo)
    (hadmitted : admitted σ.frames c.pos rule.name) (hnew : memo.find? c.pos rule.name = none)
    (hP : Kept set free P σ.frames log.heads memo) :
    Kept set free P ((c.pos, rule.name) :: σ.frames) 0
      (memo.put c.pos rule.name (.growing none none false)) :=
  ⟨h.enter σ base c log memo rule hset hr hadmitted hnew hP.1, hP.2.put (by rintro t ⟨⟩)⟩

theorem reseed_keeps {best : Tree} (hbetween : σ.Between f stop log memo)
    (hadmitted : admitted σ.frames f.1 f.2) (hP : Kept set free P (f :: σ.frames) log.heads memo)
    (hstays : best.length = 0 → set.grammar.Rests free (.apply f.2)) (trace? : Option Trace.Node) :
    Kept set free P (f :: σ.frames) log.heads
      (memo.put f.1 f.2 (.growing (some best) trace? true)) :=
  ⟨h.reseed σ f stop log memo best trace? hset hbetween hadmitted hP.1,
    hP.2.put fun _ ht => Option.some.inj ht ▸ hstays⟩

theorem grow_keeps (hbody : BodyKeeps set free P σ f body) (hadmitted : admitted σ.frames f.1 f.2)
    (n : Nat) (best : Tree) (trace : List Trace.Node) (hbetween : σ.Between f stop log memo)
    (hP : Kept set free P (f :: σ.frames) log.heads memo) (hbest : σ.Covers f log best)
    (hstays : best.length = 0 → set.grammar.Rests free (.apply f.2))
    (hgrow : grow set f.2 f.1 body n best trace log memo = some (r, log', memo')) :
    (∃ stop, σ.Between f stop log' memo') ∧
      Kept set free P (f :: σ.frames) log'.heads memo' ∧
      ∀ t, r.tree? = some t → t.length = 0 → set.grammar.Rests free (.apply f.2) := by
  induction n generalizing best trace stop log memo with
  | zero =>
      cases hgrow
      exact ⟨⟨stop, hbetween⟩, hP, fun t ht => Option.some.inj ht ▸ hstays⟩
  | succ n ih =>
      obtain ⟨r₁, log₁, memo₁, hround, hcases⟩ := grow_succ_eq_some hgrow
      rw [reseeded] at hround
      generalize (if set.tracing then _ else _ : Option Trace.Node) = seedTrace? at hround
      obtain ⟨hnext, hP₁, hcovers⟩ := round_keeps hbody (hbetween.reseed hbest seedTrace?)
        (h.reseed_keeps hset hbetween hadmitted hP hstays seedTrace?) hround
      rcases hcases with ⟨-, rfl, rfl, rfl⟩ | ⟨t, ht, -, hrest⟩
      · exact ⟨⟨_, hnext⟩, hP₁, fun t ht => Option.some.inj ht ▸ hstays⟩
      · obtain ⟨hcovers, hstays⟩ := hcovers t ht
        exact ih t r₁.trace hnext hP₁ hcovers hstays hrest

theorem settle_keeps {base : Nat} {c : Cursor}
    (hbody : BodyKeeps set free P σ (c.pos, rule.name) body)
    (hr : σ.Ready base c log memo) (hadmitted : admitted σ.frames c.pos rule.name)
    (hrule : rule.name ∈ σ.set.grammar.ruleNames) (hnew : memo.find? c.pos rule.name = none)
    (hP : Kept set free P σ.frames log.heads memo)
    (hsettle : settle set rule.name c.pos body memo = some (r, log', memo')) :
    (∃ stop, σ.Between (c.pos, rule.name) stop log' memo') ∧
      Kept set free P ((c.pos, rule.name) :: σ.frames) log'.heads memo' ∧
      ∀ t, r.tree? = some t → t.length = 0 → set.grammar.Rests free (.apply rule.name) := by
  obtain ⟨r₁, log₁, memo₁, hround, hcases⟩ := settle_eq_some hsettle
  obtain ⟨hnext, hP₁, hcovers⟩ := round_keeps hbody (hr.enter hrule hnew)
    (h.enter_keeps hset hr hadmitted hnew hP) hround
  rcases hcases with ⟨-, rfl, rfl, rfl⟩ | ⟨t, ht, -, hgrow⟩
  · exact ⟨⟨_, hnext⟩, hP₁, fun t ht => (hcovers t ht).2⟩
  · obtain ⟨hcovers, hstays⟩ := hcovers t ht
    exact h.grow_keeps hset hbody hadmitted _ t _ hnext hP₁ hcovers hstays hgrow

theorem reuse_keeps {base : Nat} {c : Cursor} {q : String} {entry : Entry}
    (hr : σ.Ready base c log memo) (hadmitted : admitted σ.frames c.pos q)
    (hentry : memo.find? c.pos q = some entry) (hP : Kept set free P σ.frames log.heads memo) :
    let out := reuse set σ.frames q entry c log memo
    Kept set free P σ.frames out.log.heads out.memo ∧
      ∀ c', out.cursor? = some c' → c'.pos = c.pos → set.grammar.Rests free (.apply q) := by
  intro out
  have hstays : ∀ t, entry.tree? = some t → t.length = 0 → set.grammar.Rests free (.apply q) :=
    fun t => hP.2 c.pos q entry t hentry
  refine ⟨?_, fun c' hc' hpos => ?_⟩
  · cases entry with
    | settled s =>
        simp only [out, reuse, Log.heads_note]
        exact hP
    | growing seed? trace? read =>
        -- the seed is that of a rule being evaluated, whose frame is noted as a head
        obtain ⟨i, hi, hframe⟩ :=
          Stack.exists_findIdx?_of_mem (hr.intact.growing _ _ _ _ _ hentry).1
        simp only [out, reuse, Log.heads_note]
        rw [hi]
        exact ⟨h.read σ base c log memo q i seed? trace? read hset hr hadmitted hframe hentry hP.1,
          hP.2.put hstays⟩
  · have hcursor := (reuse_eq set σ.frames q entry c log memo).1
    obtain ⟨t, ht, rfl⟩ := Option.map_eq_some_iff.mp (hcursor.symm.trans hc')
    simp only [Cursor.push] at hpos
    exact hstays t ht (by omega)

/-- Applications that nest so deep keep what lasts, below whatever rules. -/
abbrev AppliesKeep (set : Setting) (free : Prop) (admitted : List Frame → Nat → String → Prop)
    (P : List Frame → Nat → Memo → Prop) (depth : Nat) : Prop :=
  ∀ (τ : Stack) q, τ.set = set → τ.Keeps (Kept set free P τ.frames) (admitted τ.frames · q)
    (set.grammar.Rests free (.apply q)) (ofRule set depth τ.frames q)

/-- What is known of a rule without an entry when its rounds have ended. -/
theorem finished_keeps {base : Nat} {c : Cursor} {out : Outcome}
    (hadmitting : Admitting set.grammar free admitted) (hbelow : AppliesKeep set free admitted P depth)
    (hr : σ.Ready base c log memo) (hadmitted : admitted σ.frames c.pos rule.name)
    (hrule : set.grammar.rule? rule.name = some rule) (hnew : memo.find? c.pos rule.name = none)
    (hP : Kept set free P σ.frames log.heads memo)
    (happ : ofRule set (depth + 1) σ.frames rule.name c log memo = some out) :
    ∃ r inner memo', out = concluded set rule c log r inner memo' ∧
      σ.Finished rule depth base c log memo r inner memo' ∧
      Kept set free P ((c.pos, rule.name) :: σ.frames) inner.heads memo' ∧
      ∀ t, r.tree? = some t → t.length = 0 → set.grammar.Rests free (.apply rule.name) := by
  have hbody : BodyKeeps set free P σ (c.pos, rule.name)
      (ofExpr set (ofRule set depth ((c.pos, rule.name) :: σ.frames)) (isSyntactic rule.name)
        rule.body) := by
    subst hset
    intro stop
    have hsound : ∀ r, (σ.push (c.pos, rule.name) stop).Sound True
        (ofRule σ.set depth ((c.pos, rule.name) :: σ.frames) r) := fun r =>
      (Stack.ofRule_sound (σ.push (c.pos, rule.name) stop) depth r).weaken fun _ => trivial
    refine ⟨Stack.ofExpr_sound (σ := σ.push (c.pos, rule.name) stop) hsound _ rule.body,
      (Stack.ofExpr_keeps (σ := σ.push (c.pos, rule.name) stop)
        (fun hfree => hadmitting.free hfree _) hsound
        (fun r => hbelow (σ.push (c.pos, rule.name) stop) r rfl) _ rule.body).weaken ?_ ?_⟩
    · rintro _ rfl
      exact hadmitting.body σ.frames c.pos rule hadmitted hrule
    · exact fun hstays => hstays.imp_right (.apply hrule)
  rcases ofRule_eq_some happ with ⟨hnone, -⟩ | ⟨rule', hrule', ⟨entry, hentry, -⟩ | ⟨-, d, hd, hwork⟩⟩
  · cases hrule.symm.trans hnone
  · obtain rfl := Option.some.inj (hrule.symm.trans hrule')
    cases hnew.symm.trans hentry
  obtain rfl := Option.some.inj (hrule.symm.trans hrule')
  obtain rfl := Nat.succ.inj hd
  rw [work_eq] at hwork
  obtain ⟨⟨r, inner, memo'⟩, hsettle, rfl⟩ := Option.map_eq_some_iff.mp hwork
  have hmem : rule.name ∈ σ.set.grammar.ruleNames :=
    hset ▸ List.mem_map_of_mem (Grammar.rule?_mem hrule)
  obtain ⟨hbetween, hP', hstays⟩ := h.settle_keeps hset hbody hr hadmitted hmem hnew hP hsettle
  exact ⟨r, inner, memo', rfl, ⟨hr, hset ▸ hrule, hnew, hset ▸ happ, hbetween⟩, hP', hstays⟩

/-- An application keeps what lasts if those that nest less deep do. -/
theorem apply_keeps (hadmitting : Admitting set.grammar free admitted)
    (hbelow : ∀ d, depth = d + 1 → AppliesKeep set free admitted P d) (q : String) :
    σ.Keeps (Kept set free P σ.frames) (admitted σ.frames · q) (set.grammar.Rests free (.apply q))
      (ofRule set depth σ.frames q) := by
  intro base c log memo out hr hadmitted hP happ
  rcases ofRule_eq_some happ with ⟨-, rfl⟩ | ⟨rule, hrule, ⟨entry, hentry, rfl⟩ | ⟨hnew, d, hd, -⟩⟩
  · exact ⟨hP, fun c' hc' => nomatch hc'⟩
  · obtain rfl := Grammar.rule?_name hrule
    exact h.reuse_keeps hset hr hadmitted hentry hP
  · obtain rfl := Grammar.rule?_name hrule
    subst hd
    obtain ⟨r, inner, memo', rfl, hfinished, hP', hstays⟩ :=
      h.finished_keeps hset hadmitting (hbelow d rfl) hr hadmitted hrule hnew hP happ
    refine ⟨⟨?_, ?_⟩, fun c' hc' hpos => ?_⟩
    · simp only [concluded, Log.heads_note]
      exact h.leave σ rule d base c log memo r inner memo' hset hfinished hadmitted hP.1 hP'.1
    · simp only [concluded]
      split
      · obtain ⟨stop, hbetween⟩ := hfinished.between
        intro p q e t hfind
        rw [Memo.find?_drop hbetween.intact.keyed] at hfind
        split at hfind
        · cases hfind
        · exact hP'.2 p q e t hfind
      · exact hP'.2.put hstays
    · obtain ⟨t, ht, rfl⟩ := Option.map_eq_some_iff.mp hc'
      simp only [Cursor.push] at hpos
      exact hstays t ht (by omega)

omit hset in
/-- Every application of an admitted rule keeps what lasts. -/
theorem ofRule_keeps (hadmitting : Admitting set.grammar free admitted) (depth : Nat) :
    AppliesKeep set free admitted P depth := by
  induction depth with
  | zero =>
      exact fun τ q hτ => h.apply_keeps hτ hadmitting (fun d hd => (Nat.succ_ne_zero d hd.symm).elim) q
  | succ depth ih =>
      intro τ q hτ
      refine h.apply_keeps hτ hadmitting (fun d hd => ?_) q
      obtain rfl := Nat.succ.inj hd
      exact ih

end Lasting

/-! ## What matches keep -/

namespace Lasting

variable {set : Setting} {free : Prop} {admitted : List Frame → Nat → String → Prop}
variable {P : List Frame → Nat → Memo → Prop} {limit : Nat} {start : String} {memo memo' : Memo}
variable {a : Answer}

/-- The start rule may be applied, and the spaces around it where there may be spaces. -/
structure Starts (admitted : List Frame → Nat → String → Prop) (start : String) : Prop where
  rule : ∀ p, admitted [] p start
  spaces : isSyntactic start = true → ∀ p, admitted [] p "spaces"

/-- At the end nothing is applied but the spaces. -/
theorem Starts.atEnd (h : Starts admitted start) {q : String}
    (hq : q ∈ Expr.endOfInput.applied (isSyntactic start)) (p : Nat) : admitted [] p q := by
  rw [Expr.applied] at hq
  split at hq
  · rw [List.mem_singleton.mp hq]
    exact h.spaces ‹_› p
  · cases hq

variable (h : Lasting set admitted P) (hadmitting : Admitting set.grammar free admitted)

include h hadmitting

theorem outermost_keeps (limit : Nat) {q : String} (hq : ∀ p, admitted [] p q) :
    (Stack.bottom set).Keeps (Kept set free P []) (fun _ => True)
      (set.grammar.Rests free (.apply q)) (ofRule set limit [] q) :=
  (h.ofRule_keeps hadmitting limit (Stack.bottom set) q rfl).weaken (fun p _ => hq p) id

theorem spaced_keeps (limit : Nat) (hstarts : Starts admitted start) {e : Evaluation} {stays : Prop}
    (hsound : (Stack.bottom set).Sound True e)
    (he : (Stack.bottom set).Keeps (Kept set free P []) (fun _ => True) stays e) :
    (Stack.bottom set).Keeps (Kept set free P []) (fun _ => True) stays
      (spaced (ofRule set limit []) (isSyntactic start) e) :=
  Stack.spaced_keeps
    (fun q => (Stack.ofRule_sound (Stack.bottom set) limit q).weaken fun _ => trivial) _ hsound
    (fun hsyntactic => h.outermost_keeps hadmitting limit (hstarts.spaces hsyntactic)) he
    fun _ _ _ _ => trivial

/-- The spaces before the start rule. -/
theorem before_keeps (limit : Nat) (hstarts : Starts admitted start) :
    (Stack.bottom set).Keeps (Kept set free P []) (fun _ => True) True
      (spaced (ofRule set limit []) (isSyntactic start)
        fun c log memo => some ⟨some c, log, memo⟩) := by
  refine h.spaced_keeps hadmitting limit hstarts Stack.here_sound ?_
  rintro base c log memo out - - hP ⟨⟩
  exact ⟨hP, fun _ _ _ => trivial⟩

/-- The end behind the start rule. -/
theorem end_keeps (limit : Nat) (hstarts : Starts admitted start) :
    (Stack.bottom set).Keeps (Kept set free P []) (fun _ => True) True
      (ofExpr set (ofRule set limit []) (isSyntactic start) .endOfInput) := by
  rw [ofExpr]
  exact h.spaced_keeps hadmitting limit hstarts (Stack.traced_sound _ Stack.endOfInput_sound)
    (Stack.traced_keeps _ (Stack.endOfInput_keeps trivial))

/-- A match keeps what lasts. -/
theorem run_keeps (hstarts : Starts admitted start) (hmemo : (Stack.bottom set).Intact memo)
    (hP : Kept set free P [] 0 memo) (hrun : run set limit start memo = some (a, memo')) :
    ∃ heads, Kept set free P [] heads memo' := by
  obtain ⟨pos, log₁, memo₁, out, hbefore, hwhole, -, rfl⟩ := run_eq_some hrun
  have hr := Stack.ready_bottom hmemo
  have hdone := (Stack.spaces_done limit start hmemo).of_eq_some hbefore
  have hP₁ := (h.before_keeps hadmitting limit hstarts _ _ _ _ _ hr trivial hP hbefore).1
  have hrule := h.outermost_keeps hadmitting limit hstarts.rule
  rcases andThen_eq_some hwhole with ⟨hfirst, -⟩ | ⟨c', log', memo', hfirst, hsecond⟩
  · exact ⟨_, (hrule _ _ _ _ _ hdone.ready trivial hP₁ hfirst).1⟩
  · have hdone' := (Stack.ofRule_sound_bottom start _ _ _ _ hdone.ready).of_eq_some hfirst
    have hP' := (hrule _ _ _ _ _ hdone.ready trivial hP₁ hfirst).1
    exact ⟨_, (h.end_keeps hadmitting limit hstarts _ _ _ _ _ hdone'.ready trivial hP' hsecond).1⟩

end Lasting

/-! ## Seeds of the rules being evaluated -/

/-- No seeds are read but those of the rules being evaluated. Where there are none, as many heads
are noted as before. -/
structure Inside (before : Nat) (frames : List Frame) (heads : Nat) : Prop where
  base : frames = [] → heads ≤ before
  within : frames ≠ [] → heads ≤ frames.length

theorem inside_lasts (set : Setting) (admitted : List Frame → Nat → String → Prop) (before : Nat) :
    Lasting set admitted fun frames heads _ => Inside before frames heads where
  read := by
    intro σ base c log memo q i seed? trace? read _ _ _ hframe _ h
    obtain ⟨hi, -⟩ := List.getElem?_eq_some_iff.mp hframe
    refine ⟨fun hnil => ?_, fun hcons => Nat.max_le.mpr ⟨h.within hcons, hi⟩⟩
    rw [hnil] at hi
    cases hi
  enter := fun _ _ _ _ _ _ _ _ _ _ _ => ⟨fun h => (nomatch h), fun _ => Nat.zero_le _⟩
  reseed := fun _ _ _ _ _ _ _ _ _ _ h => h
  leave := by
    intro σ rule depth base c log memo r inner memo' _ _ _ h h'
    have hinner := h'.within (List.cons_ne_nil _ _)
    rw [List.length_cons] at hinner
    refine ⟨fun hnil => ?_, fun hcons => ?_⟩
    · have := h.base hnil
      rw [hnil, List.length_nil] at hinner
      omega
    · have := h.within hcons
      omega

/-- All rules, anywhere. -/
abbrev anywhere : List Frame → Nat → String → Prop :=
  fun _ _ _ => True

theorem admitting_anywhere (g : Grammar) : Admitting g True anywhere :=
  ⟨fun _ _ _ _ _ => ⟨fun _ _ => trivial, fun _ _ _ _ => trivial⟩, fun _ _ _ _ _ => id⟩

/-- Outside of all rules an application depends on no seed but its own, so that it leaves its entry. -/
theorem ofRule_leaves {set : Setting} {limit base : Nat} {rule : Rule} {c : Cursor} {log : Log}
    {memo : Memo} {out : Outcome} (hr : (Stack.bottom set).Ready base c log memo)
    (hrule : set.grammar.rule? rule.name = some rule) (hnew : memo.find? c.pos rule.name = none)
    (h : ofRule set limit [] rule.name c log memo = some out) :
    ∃ r inner memo' stop, out = concluded set rule c log r inner memo' ∧
      (Stack.bottom set).Between (c.pos, rule.name) stop inner memo' ∧
      out.memo.find? c.pos rule.name = some (.settled (keptEntry set rule c.pos r inner)) := by
  rcases ofRule_eq_some h with ⟨hnone, -⟩ | ⟨rule', hrule', ⟨entry, hentry, -⟩ | ⟨-, d, rfl, -⟩⟩
  · cases hrule.symm.trans hnone
  · obtain rfl := Option.some.inj (hrule.symm.trans hrule')
    cases hnew.symm.trans hentry
  have hlasts := inside_lasts set anywhere log.heads
  obtain ⟨r, inner, memo', rfl, hfinished, ⟨hinside, -⟩, -⟩ :=
    hlasts.finished_keeps (σ := Stack.bottom set) rfl (admitting_anywhere _)
      (hlasts.ofRule_keeps (admitting_anywhere _) d) hr trivial hrule hnew
      ⟨⟨fun _ => Nat.le_refl _, fun h => absurd rfl h⟩, Memo.rests_of_free _ _⟩ h
  obtain ⟨stop, hbetween⟩ := hfinished.between
  -- a rule without frames below it notes no other head than its own, so that its entry is kept
  have hheads : ¬ 2 ≤ inner.heads :=
    Nat.not_le.mpr (Nat.lt_succ_of_le (hinside.within (List.cons_ne_nil _ _)))
  refine ⟨r, inner, memo', stop, rfl, hbetween, ?_⟩
  simp only [concluded, if_neg hheads]
  exact Memo.find?_put_self (hbetween.intact.lt_size hbetween.boundary)

end Match

end Pegboard
