import Pegboard.Proofs.Match.Confined
import Pegboard.Proofs.Match.Gathered
import Pegboard.Proofs.Match.Keeping

/-!
# Failed matches that say what was expected

Whatever reads the text records what it expected when it fails, and so does a rule with a
description. One thing fails without a word: the application of a rule at the place where that rule
is being evaluated and has not matched yet. A rule that can only fail in this way is mute.

`Grammar.TellsIn` ranks the rules that are not: such a rule has a description, or its body has a
choice each part of which tells. Parts that are reached without taking anything may rely on rules of
a lower rank only, so that they never rely on a rule that is being evaluated there; parts behind
something taken may rely on all rules that tell. A rule may still fail without a word while it is
evaluated below a rule of a lower rank, but then it read the seed of that rule, and its failure is
not kept.

Main statement: `Stack.ofRule_speaks`.
-/

namespace Pegboard

open Match Match.Evaluation

namespace Grammar

variable (g : Grammar) (later : String → Prop)

/-- Where the expression fails it says what it expected, if the rules that are applied where it
begins do so `here`, and those behind something taken do so `later`. -/
inductive Tells : (String → Prop) → Expr → Prop
  | any {here : String → Prop} : Tells here .any
  | endOfInput {here : String → Prop} : Tells here .endOfInput
  | terminal {here : String → Prop} {s : String} : Tells here (.terminal s)
  | range {here : String → Prop} {lo hi : Char} : Tells here (.range lo hi)
  | apply {here : String → Prop} {q : String} : here q → Tells here (.apply q)
  | alt {here : String → Prop} {e : Expr} {es : List Expr} :
      e ∈ es → Tells here e → Tells here (.alt es)
  | nil {here : String → Prop} : Tells here (.seq [])
  | cons {here : String → Prop} {e : Expr} {es : List Expr} :
      Tells here e → (g.MayStay e → Tells here (.seq es)) → Tells later (.seq es) →
        Tells here (.seq (e :: es))
  | iter {here : String → Prop} {op : Repeat} {e : Expr} : op ≠ .plus → Tells here (.iter op e)
  | plus {here : String → Prop} {e : Expr} : Tells here e → Tells here (.iter .plus e)
  | not {here : String → Prop} {e : Expr} : Tells here (.not e)
  | look {here : String → Prop} {e : Expr} : Tells here e → Tells here (.look e)
  | lex {here : String → Prop} {e : Expr} : Tells here e → Tells here (.lex e)

/-- The rule has a description, or its body tells what it expects by rules of a lower rank. -/
def TellsIn : Nat → String → Prop
  | 0, _ => False
  | n + 1, q => ∃ rule, g.rule? q = some rule ∧
      (rule.description.isSome = true ∨ g.Tells later (TellsIn n) rule.body)

/-- All these rules tell, as long as all of them do behind something taken. -/
def Telling : Prop :=
  ∀ q, later q → ∃ n, g.TellsIn later n q

/-- A rule is mute unless it is one of some rules that tell. -/
def Mute (q : String) : Prop :=
  ∀ later, g.Telling later → ¬ later q

variable {g later} {here here' : String → Prop} {e : Expr} {m n : Nat} {q : String}

theorem Tells.mono (h : g.Tells later here e) (hle : ∀ q, here q → here' q) :
    g.Tells later here' e := by
  induction h generalizing here' with
  | any => exact .any
  | endOfInput => exact .endOfInput
  | terminal => exact .terminal
  | range => exact .range
  | apply hq => exact .apply (hle _ hq)
  | alt he _ ih => exact .alt he (ih hle)
  | nil => exact .nil
  | cons _ _ hlater ih ihstay _ => exact .cons (ih hle) (fun hstay => ihstay hstay hle) hlater
  | iter hop => exact .iter hop
  | plus _ ih => exact .plus (ih hle)
  | not => exact .not
  | look _ ih => exact .look (ih hle)
  | lex _ ih => exact .lex (ih hle)

theorem TellsIn.succ (h : g.TellsIn later n q) : g.TellsIn later (n + 1) q := by
  induction n generalizing q with
  | zero => exact h.elim
  | succ n ih =>
      obtain ⟨rule, hrule, hdescribed | hbody⟩ := h
      · exact ⟨rule, hrule, .inl hdescribed⟩
      · exact ⟨rule, hrule, .inr (hbody.mono fun _ => ih)⟩

theorem TellsIn.mono (h : g.TellsIn later m q) (hle : m ≤ n) : g.TellsIn later n q := by
  induction hle with
  | refl => exact h
  | step _ ih => exact ih.succ

/-- What tells by rules that tell does so by rules of some rank. -/
theorem Telling.ranked (hg : g.Telling later) (h : g.Tells later here e)
    (hhere : ∀ q, here q → ∃ n, g.TellsIn later n q) :
    ∃ n, g.Tells later (g.TellsIn later n) e := by
  induction h with
  | any => exact ⟨0, .any⟩
  | endOfInput => exact ⟨0, .endOfInput⟩
  | terminal => exact ⟨0, .terminal⟩
  | range => exact ⟨0, .range⟩
  | apply hq =>
      obtain ⟨n, hn⟩ := hhere _ hq
      exact ⟨n, .apply hn⟩
  | alt he _ ih =>
      obtain ⟨n, hn⟩ := ih hhere
      exact ⟨n, .alt he hn⟩
  | nil => exact ⟨0, .nil⟩
  | cons _ _ hlater ih _ ihlater =>
      obtain ⟨m, hm⟩ := ih hhere
      obtain ⟨n, hn⟩ := ihlater hg
      exact ⟨max m n, .cons (hm.mono fun _ hq => hq.mono (Nat.le_max_left m n))
        (fun _ => hn.mono fun _ hq => hq.mono (Nat.le_max_right m n)) hlater⟩
  | iter hop => exact ⟨0, .iter hop⟩
  | plus _ ih =>
      obtain ⟨n, hn⟩ := ih hhere
      exact ⟨n, .plus hn⟩
  | not => exact ⟨0, .not⟩
  | look _ ih =>
      obtain ⟨n, hn⟩ := ih hhere
      exact ⟨n, .look hn⟩
  | lex _ ih =>
      obtain ⟨n, hn⟩ := ih hhere
      exact ⟨n, .lex hn⟩

end Grammar

namespace Match

/-- The table keeps no failure of a rule that tells without what was expected. -/
def Memo.Spoken (g : Grammar) (later : String → Prop) (memo : Memo) : Prop :=
  ∀ pos q n s, memo.find? pos q = some (.settled s) → s.tree? = none → g.TellsIn later n q →
    s.failures.expected ≠ []

namespace Memo.Spoken

variable {g : Grammar} {later : String → Prop} {memo : Memo} {pos : Nat} {q : String}

theorem blank (g : Grammar) (later : String → Prop) (size : Nat) : (blank size).Spoken g later := by
  intro pos q n s hfind
  rw [Memo.find?_blank] at hfind
  cases hfind

theorem plant (h : memo.Spoken g later) (seed? : Option Tree) (trace? : Option Trace.Node)
    (read : Bool) : (memo.put pos q (.growing seed? trace? read)).Spoken g later := by
  intro p r n s hfind
  rcases Memo.of_find?_put hfind with ⟨-, heq⟩ | hfind
  · cases heq
  · exact h p r n s hfind

theorem settle {s : Settled} (h : memo.Spoken g later)
    (hs : s.tree? = none → ∀ n, g.TellsIn later n q → s.failures.expected ≠ []) :
    (memo.put pos q (.settled s)).Spoken g later := by
  intro p r n s' hfind hnone hn
  rcases Memo.of_find?_put hfind with ⟨heq, hsettled⟩ | hfind
  · obtain ⟨rfl, rfl⟩ := Prod.mk.inj heq
    obtain rfl := Entry.settled.inj hsettled
    exact hs hnone n hn
  · exact h p r n s' hfind hnone hn

theorem drop (h : memo.Spoken g later) (hkeyed : memo.Keyed) : (memo.drop pos q).Spoken g later := by
  intro p r n s hfind
  rw [Memo.find?_drop hkeyed] at hfind
  split at hfind
  · cases hfind
  · exact h p r n s hfind

end Memo.Spoken

/-- What is followed beside what tells: entries without length are those of rules that may stay. -/
abbrev Rested (σ : Stack) : Nat → Memo → Prop :=
  Lasting.Kept σ.set False (fun _ _ _ => True) σ.frames

theorem nothing_lasts (set : Setting) : Lasting set anywhere fun _ _ _ => True where
  read := by intros; trivial
  enter := by intros; trivial
  reseed := by intros; trivial
  leave := by intros; trivial

theorem admits_anywhere (g : Grammar) : Admitting g False anywhere :=
  ⟨fun _ _ _ _ _ => ⟨fun _ _ => trivial, fun _ _ _ _ => trivial⟩, fun h => h.elim⟩

namespace Stack

variable (later : String → Prop) (σ : Stack)

/-- The seed was read of a rule at the place that has the rank. -/
def Leans (n pos heads : Nat) : Prop :=
  ∃ (i : Nat) (q : String), σ.frames[i]? = some (pos, q) ∧ i < heads ∧ σ.set.grammar.TellsIn later n q

/-- If the evaluation fails, it says what was expected or leaned on a rule of any rank that it tells
by. -/
def Speaks (tells : Nat → Prop) (e : Evaluation) : Prop :=
  ∀ base c log memo out, σ.Ready base c log memo → (∀ f ∈ σ.frames, f.1 ≤ c.pos) →
    Rested σ log.heads memo → memo.Spoken σ.set.grammar later → e c log memo = some out →
      out.memo.Spoken σ.set.grammar later ∧ (out.cursor? = none → ∀ n, tells n →
        out.log.failures ≠ ∅ ∨ σ.Leans later n c.pos out.log.heads)

variable {later σ} {tells tells' tells₁ tells₂ : Nat → Prop} {stays : Prop} {reason : Prop}
variable {e e₁ e₂ : Evaluation} {set : Setting} {apply : String → Evaluation}
variable {n pos heads heads' : Nat}

theorem Leans.mono (h : σ.Leans later n pos heads) (hle : heads ≤ heads') :
    σ.Leans later n pos heads' := by
  obtain ⟨i, q, hframe, hi, hq⟩ := h
  exact ⟨i, q, hframe, hi.trans_le hle, hq⟩

/-- There is nothing to lean on where no rule is being evaluated. -/
theorem not_leans (h : ∀ f ∈ σ.frames, f.1 ≠ pos) : ¬ σ.Leans later n pos heads := by
  rintro ⟨i, q, hframe, -, -⟩
  exact h _ (List.mem_of_getElem? hframe) rfl

theorem Speaks.weaken (h : σ.Speaks later tells e) (htells : ∀ n, tells' n → tells n) :
    σ.Speaks later tells' e := by
  intro base c log memo out hr hbelow hrests hmemo he
  obtain ⟨hmemo', hfails⟩ := h base c log memo out hr hbelow hrests hmemo he
  exact ⟨hmemo', fun hnone n hn => hfails hnone n (htells n hn)⟩

/-! ## Combining evaluations -/

theorem speaks_of_reads (hreads : e.Reads)
    (hfails : ∀ c log memo out, e c log memo = some out → out.cursor? = none →
      out.log.failures ≠ ∅) : σ.Speaks later tells e := by
  intro base c log memo out _ _ _ hmemo he
  obtain ⟨heq, -⟩ := hreads c log memo out he
  rw [heq]
  exact ⟨hmemo, fun hnone _ _ => .inl (hfails c log memo out he hnone)⟩

theorem any_speaks : σ.Speaks later tells (any set) := by
  refine speaks_of_reads (any_reads set) fun c log memo out h hnone => ?_
  rw [any] at h
  split at h <;> cases h
  · exact Failures.record_ne_empty _ _ _
  · cases hnone

theorem range_speaks {lo hi : Char} : σ.Speaks later tells (range set lo hi) := by
  refine speaks_of_reads (range_reads set lo hi) fun c log memo out h hnone => ?_
  rw [range] at h
  split at h
  · cases h
    exact Failures.record_ne_empty _ _ _
  · dsimp only at h
    split at h <;> cases h
    · cases hnone
    · exact Failures.record_ne_empty _ _ _

theorem terminal_speaks {s : String} : σ.Speaks later tells (terminal set s) := by
  refine speaks_of_reads (terminal_reads set s) fun c log memo out h hnone => ?_
  rw [terminal] at h
  split at h <;> cases h
  · cases hnone
  · exact Failures.record_ne_empty _ _ _

theorem endOfInput_speaks : σ.Speaks later tells (endOfInput set) := by
  refine speaks_of_reads (endOfInput_reads set) fun c log memo out h hnone => ?_
  rw [endOfInput] at h
  split at h <;> cases h
  · cases hnone
  · exact Failures.record_ne_empty _ _ _

/-- Behind something taken no rule is being evaluated, so that any rank will do. -/
theorem andThen_speaks (hsound : σ.Sound reason e₁)
    (hkeeps : σ.Keeps (Rested σ) (fun _ => True) stays e₁)
    (h₁ : σ.Speaks later tells₁ e₁) (h₂ : σ.Speaks later tells₂ e₂)
    (hfirst : ∀ n, tells n → tells₁ n) (hstay : ∀ n, tells n → stays → tells₂ n)
    (hmove : ∀ n, tells n → ∃ m, tells₂ m) : σ.Speaks later tells (e₁.andThen e₂) := by
  intro base c log memo out hr hbelow hrests hmemo he
  rcases andThen_eq_some he with ⟨hone, hnone⟩ | ⟨c', log', memo', hone, htwo⟩
  · obtain ⟨hmemo', hfails⟩ := h₁ _ _ _ _ _ hr hbelow hrests hmemo hone
    exact ⟨hmemo', fun _ n hn => hfails rfl n (hfirst n hn)⟩
  · have hdone := (hsound _ _ _ _ hr).of_eq_some hone
    have hmoved : c.pos ≤ c'.pos := hdone.moved c' rfl
    obtain ⟨hrests', hstays⟩ := hkeeps _ _ _ _ _ hr trivial hrests hone
    have hmemo' := (h₁ _ _ _ _ _ hr hbelow hrests hmemo hone).1
    obtain ⟨hmemo'', hfails⟩ := h₂ _ _ _ _ _ hdone.ready
      (fun f hf => (hbelow f hf).trans hmoved) hrests' hmemo' htwo
    refine ⟨hmemo'', fun hnone n hn => ?_⟩
    rcases Nat.eq_or_lt_of_le hmoved with hpos | hpos
    · rw [hpos]
      exact hfails hnone n (hstay n hn (hstays c' rfl hpos.symm))
    · obtain ⟨m, hm⟩ := hmove n hn
      refine .inl ((hfails hnone m hm).resolve_right (not_leans fun f hf => ?_))
      exact ((hbelow f hf).trans_lt hpos).ne

theorem orElse_speaks (hsound₁ : σ.Sound reason e₁) (hsound₂ : σ.Sound reason e₂)
    (hkeeps : σ.Keeps (Rested σ) (fun _ => True) stays e₁) (hgathers : e₂.Gathers)
    (h₁ : σ.Speaks later tells₁ e₁) (h₂ : σ.Speaks later tells₂ e₂) :
    σ.Speaks later (fun n => tells₁ n ∨ tells₂ n) (e₁.orElse e₂) := by
  intro base c log memo out hr hbelow hrests hmemo he
  rcases orElse_eq_some he with ⟨hone, hsome⟩ | ⟨log', memo', hone, htwo⟩
  · obtain ⟨hmemo', -⟩ := h₁ _ _ _ _ _ hr hbelow hrests hmemo hone
    refine ⟨hmemo', fun hnone => ?_⟩
    rw [hnone] at hsome
    cases hsome
  · have hdone := (hsound₁ _ _ _ _ hr).of_eq_some hone
    have hdone' := (hsound₂ _ _ _ _ hdone.ready).of_eq_some htwo
    obtain ⟨hrests', -⟩ := hkeeps _ _ _ _ _ hr trivial hrests hone
    obtain ⟨hmemo', hfails⟩ := h₁ _ _ _ _ _ hr hbelow hrests hmemo hone
    obtain ⟨hmemo'', hfails'⟩ := h₂ _ _ _ _ _ hdone.ready hbelow hrests' hmemo' htwo
    refine ⟨hmemo'', fun hnone n hn => ?_⟩
    rcases hn with hn | hn
    · -- what the first choice said is not forgotten over the second one
      exact (hfails rfl n hn).imp (hgathers _ _ _ _ htwo).ne_empty (·.mono hdone'.heads_le)
    · exact hfails' hnone n hn

theorem skipSpaces_speaks (h : σ.Speaks later tells₁ (apply "spaces")) :
    σ.Speaks later tells (skipSpaces apply) := by
  intro base c log memo out hr hbelow hrests hmemo he
  obtain ⟨c?, inner, hspaces, hcursor, -⟩ := skipSpaces_eq_some he
  refine ⟨(h _ _ _ _ _ hr.withoutFailures hbelow hrests hmemo hspaces).1, fun hnone => ?_⟩
  cases hcursor.symm.trans hnone

theorem spaced_speaks (hsound : ∀ q, σ.Sound reason (apply q))
    (hkeeps : σ.Keeps (Rested σ) (fun _ => True) stays (apply "spaces"))
    (hspaces : σ.Speaks later tells₁ (apply "spaces")) (skip : Bool) (h : σ.Speaks later tells e) :
    σ.Speaks later tells (spaced apply skip e) := by
  cases skip with
  | false => exact h
  | true =>
      have hskip : σ.Speaks later tells (skipSpaces apply) := skipSpaces_speaks hspaces
      exact andThen_speaks (skipSpaces_sound hsound) (skipSpaces_keeps hkeeps) hskip h
        (fun _ hn => hn) (fun _ hn _ => hn) fun n hn => ⟨n, hn⟩

theorem traced_speaks (expr : Expr) (h : σ.Speaks later tells e) :
    σ.Speaks later tells (traced set expr e) := by
  intro base c log memo out hr hbelow hrests hmemo he
  obtain ⟨inner, hinner, hcursor, hmemo', hlog⟩ := traced_eq_some he
  have hlogs : out.log.failures = inner.log.failures ∧ out.log.heads = inner.log.heads := by
    rw [hlog]
    split <;> exact ⟨rfl, rfl⟩
  rw [hmemo', hcursor, hlogs.1, hlogs.2]
  split at hinner
  · exact h base c { log with trace := [] } memo inner (hr.congr rfl rfl rfl) hbelow hrests hmemo
      hinner
  · exact h base c log memo inner hr hbelow hrests hmemo hinner

theorem not_speaks (expr : Expr) (h : σ.Speaks later tells₁ e) :
    σ.Speaks later tells (Evaluation.not expr e) := by
  intro base c log memo out hr hbelow hrests hmemo he
  rw [Evaluation.not] at he
  rcases hinner : e c { log with failures := ∅ } memo with _ | ⟨_ | c', inner, memo'⟩ <;>
    rw [hinner] at he <;> cases he
  · refine ⟨(h _ _ _ _ _ hr.withoutFailures hbelow hrests hmemo hinner).1, fun hnone => ?_⟩
    cases hnone
  · refine ⟨(h _ _ _ _ _ hr.withoutFailures hbelow hrests hmemo hinner).1, fun _ _ _ => ?_⟩
    exact .inl (Failures.record_ne_empty _ _ _)

theorem look_speaks (h : σ.Speaks later tells e) : σ.Speaks later tells (look e) := by
  intro base c log memo out hr hbelow hrests hmemo he
  obtain ⟨c?, hinner, hcursor⟩ := look_eq_some he
  obtain ⟨hmemo', hfails⟩ := h _ _ _ _ _ hr hbelow hrests hmemo hinner
  refine ⟨hmemo', fun hnone => hfails ?_⟩
  rwa [hcursor, Option.map_eq_none_iff] at hnone

/-- Rounds do not fail once one of them matched. -/
theorem rounds_matched {c : Cursor} {log : Log} {memo : Memo} {out : Outcome}
    (h : rounds e n true c log memo = some out) : out.cursor? ≠ none := by
  induction n generalizing c log memo with
  | zero =>
      cases h
      nofun
  | succ n ih =>
      rcases rounds_succ_eq_some h with ⟨-, hcursor⟩ | ⟨c', -, hcursor, -⟩ |
        ⟨c', log', memo', -, -, hrest⟩
      · rw [hcursor]
        nofun
      · rw [hcursor]
        nofun
      · exact ih hrest

/-- The first round fails as the expression does. -/
theorem rounds_speaks (hsound : σ.Sound reason e)
    (hkeeps : σ.Keeps (Rested σ) (fun _ => True) stays e) (h : σ.Speaks later tells e) (n : Nat)
    (matched : Bool) :
    σ.Speaks later (fun m => matched = true ∨ 0 < n ∧ tells m) (rounds e n matched) := by
  induction n generalizing matched with
  | zero =>
      rintro base c log memo out - - - hmemo ⟨⟩
      refine ⟨hmemo, fun hnone m hm => ?_⟩
      obtain rfl := hm.resolve_right fun h => absurd h.1 (Nat.lt_irrefl 0)
      cases hnone
  | succ n ih =>
      intro base c log memo out hr hbelow hrests hmemo he
      rcases rounds_succ_eq_some he with ⟨hround, hcursor⟩ | ⟨c', hround, hcursor, -⟩ |
        ⟨c', log', memo', hround, -, hrest⟩
      · obtain ⟨hmemo', hfails⟩ := h _ _ _ _ _ hr hbelow hrests hmemo hround
        refine ⟨hmemo', fun hnone m hm => ?_⟩
        rcases hm with rfl | ⟨-, hm⟩
        · cases hcursor.symm.trans hnone
        · exact hfails rfl m hm
      · obtain ⟨hmemo', -⟩ := h _ _ _ _ _ hr hbelow hrests hmemo hround
        exact ⟨hmemo', fun hnone => nomatch hcursor.symm.trans hnone⟩
      · have hdone := (hsound _ _ _ _ hr).of_eq_some hround
        have hmoved : c.pos ≤ c'.pos := hdone.moved c' rfl
        obtain ⟨hrests', -⟩ := hkeeps _ _ _ _ _ hr trivial hrests hround
        have hmemo' := (h _ _ _ _ _ hr hbelow hrests hmemo hround).1
        obtain ⟨hmemo'', -⟩ := ih true _ _ _ _ _ hdone.ready
          (fun f hf => (hbelow f hf).trans hmoved) hrests' hmemo' hrest
        exact ⟨hmemo'', fun hnone => absurd hnone (rounds_matched hrest)⟩

theorem iter_speaks (hsound : σ.Sound reason e)
    (hkeeps : σ.Keeps (Rested σ) (fun _ => True) stays e) (h : σ.Speaks later tells e)
    (op : Repeat) : σ.Speaks later (fun n => op ≠ .plus ∨ tells n) (iter set op e) := by
  intro base c log memo out hr hbelow hrests hmemo he
  obtain ⟨c?, hrounds, hcursor⟩ := iter_eq_some he
  obtain ⟨hmemo', hfails⟩ := rounds_speaks hsound hkeeps h _ _ _ _ _ _ _ hr.anew hbelow hrests
    hmemo hrounds
  refine ⟨hmemo', fun hnone n hn => hfails ?_ n ?_⟩
  · rwa [hcursor, Option.map_eq_none_iff] at hnone
  · rcases hn with hop | hn
    · exact .inl (bne_iff_ne.mpr hop)
    · refine .inr ⟨?_, hn⟩
      cases op <;> simp [roundLimit]

/-! ## Expressions -/

variable (later σ apply) in
/-- What is known of the rules that are applied below the frames. -/
structure Informed : Prop where
  telling : σ.set.grammar.Telling later
  sound : ∀ q, σ.Sound True (apply q)
  keeps : ∀ q, σ.Keeps (Rested σ) (fun _ => True) (σ.set.grammar.Rests False (.apply q)) (apply q)
  gathers : ∀ q, (apply q).Gathers
  speaks : ∀ q, σ.Speaks later (fun n => σ.set.grammar.TellsIn later n q) (apply q)

theorem Informed.rests (h : σ.Informed later apply) (syn : Bool) (e : Expr) :
    σ.Keeps (Rested σ) (fun _ => True) (σ.set.grammar.Rests False e)
      (ofExpr σ.set apply syn e) := by
  have hkeeps : σ.Keeps (Rested σ) (σ.set.grammar.Admits (fun _ _ => True) syn e)
      (σ.set.grammar.Rests False e) (ofExpr σ.set apply syn e) :=
    ofExpr_keeps (fun h => h.elim) h.sound h.keeps syn e
  exact hkeeps.weaken (fun _ _ => ⟨fun _ _ => trivial, fun _ _ _ _ => trivial⟩) id

theorem Informed.spaced (h : σ.Informed later apply) (skip : Bool) (he : σ.Speaks later tells e) :
    σ.Speaks later tells (spaced apply skip e) :=
  spaced_speaks h.sound (h.keeps _) (h.speaks _) skip he

mutual

theorem ofExpr_speaks (h : σ.Informed later apply) (syn : Bool) : ∀ e : Expr,
    σ.Speaks later (fun n => σ.set.grammar.Tells later (σ.set.grammar.TellsIn later n) e)
      (ofExpr σ.set apply syn e)
  | .any => by
      rw [ofExpr]
      exact h.spaced syn (traced_speaks _ any_speaks)
  | .endOfInput => by
      rw [ofExpr]
      exact h.spaced syn (traced_speaks _ endOfInput_speaks)
  | .terminal s => by
      rw [ofExpr]
      exact h.spaced syn (traced_speaks _ terminal_speaks)
  | .range lo hi => by
      rw [ofExpr]
      exact h.spaced syn (traced_speaks _ range_speaks)
  | .apply q => by
      rw [ofExpr]
      refine (h.spaced _ (h.speaks q)).weaken fun n hn => ?_
      cases hn with
      | apply hq => exact hq
  | .alt es => by
      rw [ofExpr]
      exact traced_speaks _ (ofChoices_speaks h syn es)
  | .seq es => by
      rw [ofExpr]
      exact traced_speaks _ (ofParts_speaks h syn es)
  | .iter op e => by
      rw [ofExpr]
      refine traced_speaks _ ((iter_speaks (ofExpr_sound h.sound syn e) (h.rests syn e)
        (ofExpr_speaks h syn e) op).weaken fun n hn => ?_)
      cases hn with
      | iter hop => exact .inl hop
      | plus he => exact .inr he
  | .not e => by
      rw [ofExpr]
      exact traced_speaks _ (not_speaks e (ofExpr_speaks h syn e))
  | .look e => by
      rw [ofExpr]
      refine traced_speaks _ ((look_speaks (ofExpr_speaks h syn e)).weaken fun n hn => ?_)
      cases hn with
      | look he => exact he
  | .lex e => by
      rw [ofExpr]
      refine traced_speaks _ ((ofExpr_speaks h false e).weaken fun n hn => ?_)
      cases hn with
      | lex he => exact he

theorem ofChoices_speaks (h : σ.Informed later apply) (syn : Bool) : ∀ es : List Expr,
    σ.Speaks later (fun n => σ.set.grammar.Tells later (σ.set.grammar.TellsIn later n) (.alt es))
      (ofChoices σ.set apply syn es)
  | [] => by
      rintro base c log memo out - - - hmemo ⟨⟩
      refine ⟨hmemo, fun _ n hn => ?_⟩
      cases hn with
      | alt he _ => cases he
  | e :: es => by
      rw [ofChoices]
      refine (orElse_speaks (ofExpr_sound h.sound syn e) (ofChoices_sound h.sound syn es)
        (h.rests syn e) (ofChoices_gathers h.gathers syn es) (ofExpr_speaks h syn e)
        (ofChoices_speaks h syn es)).weaken fun n hn => ?_
      cases hn with
      | alt he htells =>
          rcases List.mem_cons.mp he with rfl | he
          · exact .inl htells
          · exact .inr (.alt he htells)

theorem ofParts_speaks (h : σ.Informed later apply) (syn : Bool) : ∀ es : List Expr,
    σ.Speaks later (fun n => σ.set.grammar.Tells later (σ.set.grammar.TellsIn later n) (.seq es))
      (ofParts σ.set apply syn es)
  | [] => by
      rintro base c log memo out - - - hmemo ⟨⟩
      exact ⟨hmemo, fun hnone => nomatch hnone⟩
  | e :: es => by
      rw [ofParts]
      refine andThen_speaks (ofExpr_sound h.sound syn e) (h.rests syn e) (ofExpr_speaks h syn e)
        (ofParts_speaks h syn es) (fun n hn => ?_) (fun n hn hstay => ?_) fun n hn => ?_
      · cases hn with
        | cons he => exact he
      · cases hn with
        | cons _ hes => exact hes (hstay.resolve_left id)
      · cases hn with
        | cons _ _ hbehind => exact h.telling.ranked hbehind h.telling

end

/-! ## Rule applications -/

section

variable {rule : Rule} {body : Evaluation} {f : Frame} {stop base depth : Nat} {c : Cursor}
variable {log log' : Log} {memo memo' : Memo} {r : Round}

variable (later σ f rule body) in
/-- The body of a rule says what it expected, below its frame. -/
structure BodySpeaks : Prop where
  keeps : Lasting.BodyKeeps σ.set False (fun _ _ _ => True) σ f body
  speaks : ∀ stop, (σ.push f stop).Speaks later
    (fun n => σ.set.grammar.Tells later (σ.set.grammar.TellsIn later n) rule.body) body

theorem round_speaks (hbody : σ.BodySpeaks later rule body f)
    (hbelow : ∀ x ∈ σ.frames, x.1 ≤ f.1) (hbetween : σ.Between f stop log memo)
    (hrests : memo.Rests σ.set.grammar False) (hmemo : memo.Spoken σ.set.grammar later)
    (h : Evaluation.round f.2 f.1 body log memo = some (r, log', memo')) :
    memo'.Spoken σ.set.grammar later ∧ (r.tree? = none → ∀ n,
      σ.set.grammar.Tells later (σ.set.grammar.TellsIn later n) rule.body →
        log'.failures ≠ ∅ ∨ (σ.push f stop).Leans later n f.1 log'.heads) := by
  have hready : (σ.push f stop).Ready f.1 ⟨f.1, []⟩ { log with trace := [] } memo :=
    hbetween.ready.congr rfl rfl rfl
  obtain ⟨c?, hround, htree, -⟩ := round_eq_some h
  obtain ⟨hmemo', hfails⟩ := hbody.speaks stop _ _ _ _ _ hready
    (List.forall_mem_cons.mpr ⟨Nat.le_refl _, hbelow⟩) ⟨trivial, hrests⟩ hmemo hround
  refine ⟨hmemo', fun hnone => hfails ?_⟩
  rwa [htree, Option.map_eq_none_iff] at hnone

/-- A rule that grows does not fail. -/
theorem grow_speaks (hbody : σ.BodySpeaks later rule body f)
    (hbelow : ∀ x ∈ σ.frames, x.1 ≤ f.1) (n : Nat) (best : Tree) (trace : List Trace.Node)
    (hbetween : σ.Between f stop log memo) (hbest : σ.Covers f log best)
    (hstays : best.length = 0 → σ.set.grammar.Rests False (.apply f.2))
    (hrests : memo.Rests σ.set.grammar False) (hmemo : memo.Spoken σ.set.grammar later)
    (h : grow σ.set f.2 f.1 body n best trace log memo = some (r, log', memo')) :
    memo'.Spoken σ.set.grammar later ∧ r.tree? ≠ none := by
  induction n generalizing best trace stop log memo with
  | zero =>
      cases h
      exact ⟨hmemo, nofun⟩
  | succ n ih =>
      obtain ⟨r₁, log₁, memo₁, hround, hcases⟩ := grow_succ_eq_some h
      rw [reseeded] at hround
      generalize (if σ.set.tracing then _ else _ : Option Trace.Node) = seedTrace? at hround
      have hbetween₁ := hbetween.reseed hbest seedTrace?
      have hrests₁ : (memo.put f.1 f.2 (.growing (some best) seedTrace? true)).Rests
          σ.set.grammar False := hrests.put fun _ ht => Option.some.inj ht ▸ hstays
      obtain ⟨hnext, ⟨-, hrests'⟩, hcovers⟩ :=
        Lasting.round_keeps hbody.keeps hbetween₁ ⟨trivial, hrests₁⟩ hround
      obtain ⟨hmemo', -⟩ := round_speaks hbody hbelow hbetween₁ hrests₁ (hmemo.plant _ _ _) hround
      rcases hcases with ⟨-, rfl, rfl, rfl⟩ | ⟨t, ht, -, hrest⟩
      · exact ⟨hmemo', nofun⟩
      · exact ih t r₁.trace hnext (hcovers t ht).1 (hcovers t ht).2 hrests' hmemo' hrest

theorem settle_speaks (hbody : σ.BodySpeaks later rule body (c.pos, rule.name))
    (hbelow : ∀ x ∈ σ.frames, x.1 ≤ c.pos) (hr : σ.Ready base c log memo)
    (hrule : rule.name ∈ σ.set.grammar.ruleNames) (hnew : memo.find? c.pos rule.name = none)
    (hrests : memo.Rests σ.set.grammar False) (hmemo : memo.Spoken σ.set.grammar later)
    (h : settle σ.set rule.name c.pos body memo = some (r, log', memo')) :
    memo'.Spoken σ.set.grammar later ∧ (r.tree? = none → ∀ n,
      σ.set.grammar.Tells later (σ.set.grammar.TellsIn later n) rule.body →
        log'.failures ≠ ∅ ∨
          (σ.push (c.pos, rule.name) c.pos).Leans later n c.pos log'.heads) := by
  have hbetween := hr.enter hrule hnew
  have hrests₀ : (memo.put c.pos rule.name (.growing none none false)).Rests σ.set.grammar False :=
    hrests.put (by rintro t ⟨⟩)
  obtain ⟨r₁, log₁, memo₁, hround, hcases⟩ := settle_eq_some h
  obtain ⟨hnext, ⟨-, hrests₁⟩, hcovers⟩ :=
    Lasting.round_keeps hbody.keeps hbetween ⟨trivial, hrests₀⟩ hround
  obtain ⟨hmemo₁, hfails⟩ :=
    round_speaks hbody hbelow hbetween hrests₀ (hmemo.plant none none false) hround
  rcases hcases with ⟨-, rfl, rfl, rfl⟩ | ⟨t, ht, -, hgrow⟩
  · exact ⟨hmemo₁, hfails⟩
  · obtain ⟨hmemo', hsome⟩ := grow_speaks hbody hbelow _ t _ hnext (hcovers t ht).1 (hcovers t ht).2
      hrests₁ hmemo₁ hgrow
    exact ⟨hmemo', fun hnone => absurd hnone hsome⟩

/-- Applications that nest so deep speak below whatever rules. -/
abbrev AppliesSpeak (later : String → Prop) (set : Setting) (depth : Nat) : Prop :=
  ∀ (τ : Stack) q, τ.set = set →
    τ.Speaks later (fun n => set.grammar.TellsIn later n q) (ofRule set depth τ.frames q)

theorem bodySpeaks (hlater : σ.set.grammar.Telling later) (hbelow : AppliesSpeak later σ.set depth)
    (hrule : σ.set.grammar.rule? rule.name = some rule) (pos : Nat) :
    σ.BodySpeaks later rule (ofExpr σ.set (ofRule σ.set depth ((pos, rule.name) :: σ.frames))
      (isSyntactic rule.name) rule.body) (pos, rule.name) := by
  have hinformed (stop : Nat) : (σ.push (pos, rule.name) stop).Informed later
      (ofRule σ.set depth ((pos, rule.name) :: σ.frames)) :=
    { telling := hlater
      sound := fun q =>
        (ofRule_sound (σ.push (pos, rule.name) stop) depth q).weaken fun _ => trivial
      keeps := fun q => ((nothing_lasts σ.set).ofRule_keeps (admits_anywhere _) depth
        (σ.push (pos, rule.name) stop) q rfl)
      gathers := ofRule_gathers σ.set depth _
      speaks := fun q => hbelow (σ.push (pos, rule.name) stop) q rfl }
  refine ⟨fun stop => ⟨?_, ?_⟩, fun stop => ?_⟩
  · exact ofExpr_sound (σ := σ.push (pos, rule.name) stop) (hinformed stop).sound _ rule.body
  · exact ((hinformed stop).rests _ rule.body).weaken (fun _ _ => trivial)
      fun hstays => hstays.imp_right (.apply hrule)
  · exact ofExpr_speaks (hinformed stop) _ rule.body

/-- The table keeps no seed that tells less than before, and a failure that is read from it tells. -/
theorem reuse_speaks {q : String} {entry : Entry} (hr : σ.Ready base c log memo)
    (hentry : memo.find? c.pos q = some entry) (hmemo : memo.Spoken σ.set.grammar later) :
    let out := reuse σ.set σ.frames q entry c log memo
    out.memo.Spoken σ.set.grammar later ∧ (out.cursor? = none → ∀ n,
      σ.set.grammar.TellsIn later n q →
        out.log.failures ≠ ∅ ∨ σ.Leans later n c.pos out.log.heads) := by
  intro out
  cases entry with
  | settled s =>
      refine ⟨hmemo, fun hnone n hn => .inl ?_⟩
      simp only [out, reuse, Log.failures_note, Option.map_eq_none_iff] at hnone ⊢
      refine Failures.merge_ne_empty ?_
      rw [Failures.expected_absoluteFrom]
      exact hmemo _ _ n s hentry hnone hn
  | growing seed? trace? read =>
      refine ⟨hmemo.plant _ _ _, fun _ n hn => .inr ?_⟩
      -- the seed is that of a rule being evaluated, whose frame is noted as a head
      obtain ⟨i, hi, hframe⟩ :=
        Stack.exists_findIdx?_of_mem (hr.intact.growing _ _ _ _ _ hentry).1
      refine ⟨i, q, hframe, ?_, hn⟩
      simp only [out, reuse, Log.heads_note, hi]
      exact (Nat.lt_succ_self i).trans_le (Nat.le_max_right _ _)

/-- A rule whose body leaned on the rule itself has a lower rank than it seemed to have. -/
theorem Leans.pop {rank : Nat} (hleans : (σ.push f stop).Leans later rank f.1 heads)
    (hleast : ¬ σ.set.grammar.TellsIn later rank f.2) : σ.Leans later rank f.1 (heads - 1) := by
  obtain ⟨i, q, hframe, hi, hq⟩ := hleans
  cases i with
  | zero =>
      have hself : f.2 = q := congrArg Prod.snd (Option.some.inj hframe)
      exact absurd (hself ▸ hq) hleast
  | succ i => exact ⟨i, q, hframe, by omega, hq⟩

theorem Leans.rank {rank : Nat} (h : σ.Leans later rank pos heads) (hle : rank ≤ n) :
    σ.Leans later n pos heads := by
  obtain ⟨i, q, hframe, hi, hq⟩ := h
  exact ⟨i, q, hframe, hi, hq.mono hle⟩

/-- The least rank of a rule that tells decides what its failure says. -/
theorem reported_speaks (hrule : σ.set.grammar.rule? rule.name = some rule)
    (hn : σ.set.grammar.TellsIn later n rule.name)
    (hfails : ∀ n, σ.set.grammar.Tells later (σ.set.grammar.TellsIn later n) rule.body →
      log'.failures ≠ ∅ ∨ (σ.push (pos, rule.name) stop).Leans later n pos log'.heads) :
    reported rule pos false log'.failures ≠ ∅ ∨ σ.Leans later n pos (log'.heads - 1) := by
  classical
  have hex : ∃ n, σ.set.grammar.TellsIn later n rule.name := ⟨n, hn⟩
  obtain ⟨rank, hrank, hleast, hle⟩ : ∃ rank, σ.set.grammar.TellsIn later (rank + 1) rule.name ∧
      ¬ σ.set.grammar.TellsIn later rank rule.name ∧ rank + 1 ≤ n := by
    have hfind := Nat.find_spec hex
    cases hrank : Nat.find hex with
    | zero =>
        rw [hrank] at hfind
        exact hfind.elim
    | succ rank =>
        rw [hrank] at hfind
        exact ⟨rank, hfind, Nat.find_min hex (by omega), hrank ▸ Nat.find_min' hex hn⟩
  obtain ⟨rule', hrule', hdescribed | hbody⟩ := hrank <;>
    obtain rfl := Option.some.inj (hrule.symm.trans hrule')
  · obtain ⟨d, hd⟩ := Option.isSome_iff_exists.mp hdescribed
    refine .inl ?_
    rw [reported, hd]
    exact Failures.furthest_ne_empty _ _
  · rcases hfails rank hbody with htold | hleans
    · rw [reported]
      split
      · exact .inl htold
      · exact .inl (Failures.furthest_ne_empty _ _)
    · exact .inr ((hleans.pop (f := (pos, rule.name)) hleast).rank (by omega))

/-- A rule that is worked out keeps its failure only if it leaned on no rule further out. -/
theorem work_speaks {out : Outcome} (hlater : σ.set.grammar.Telling later)
    (happly : AppliesSpeak later σ.set depth) (hr : σ.Ready base c log memo)
    (hbelow : ∀ f ∈ σ.frames, f.1 ≤ c.pos) (hrests : memo.Rests σ.set.grammar False)
    (hmemo : memo.Spoken σ.set.grammar later)
    (hrule : σ.set.grammar.rule? rule.name = some rule) (hnew : memo.find? c.pos rule.name = none)
    (hwork : work σ.set rule (ofExpr σ.set (ofRule σ.set depth ((c.pos, rule.name) :: σ.frames))
      (isSyntactic rule.name) rule.body) c log memo = some out) :
    out.memo.Spoken σ.set.grammar later ∧ (out.cursor? = none → ∀ n,
      σ.set.grammar.TellsIn later n rule.name →
        out.log.failures ≠ ∅ ∨ σ.Leans later n c.pos out.log.heads) := by
  have hbody := bodySpeaks hlater happly hrule c.pos
  have hmem : rule.name ∈ σ.set.grammar.ruleNames := List.mem_map_of_mem (Grammar.rule?_mem hrule)
  rw [work_eq] at hwork
  obtain ⟨⟨r, inner, memo'⟩, hsettle, rfl⟩ := Option.map_eq_some_iff.mp hwork
  obtain ⟨hmemo', hfails⟩ := settle_speaks hbody hbelow hr hmem hnew hrests hmemo hsettle
  obtain ⟨⟨stop, hbetween⟩, -⟩ :=
    (settle_sound (fun stop => (hbody.keeps stop).1) hr hmem hnew).of_eq_some hsettle
  have hgathers : Failures.Gathers ∅ inner.failures :=
    settle_gathers (ofExpr_gathers (ofRule_gathers σ.set depth _) _ rule.body) hsettle
  have hreported (hnone : r.tree? = none) (n : Nat) (hn : σ.set.grammar.TellsIn later n rule.name) :=
    reported_speaks hrule hn (hfails hnone)
  have hexpected (h : reported rule c.pos false inner.failures ≠ ∅) :
      (reported rule c.pos false inner.failures).expected ≠ [] := by
    rw [reported] at h ⊢
    split at h
    · exact hgathers.expected_ne_nil h
    · exact List.cons_ne_nil _ _
  refine ⟨?_, fun hnone n hn => ?_⟩
  · dsimp only [concluded]
    split
    · exact hmemo'.drop hbetween.intact.keyed
    · rename_i hheads
      refine hmemo'.settle fun hnone n hn => ?_
      replace hnone : r.tree? = none := hnone
      simp only [keptEntry, hnone, Failures.expected_relativeTo]
      refine hexpected ((hreported hnone n hn).resolve_right ?_)
      rintro ⟨i, q, -, hi, -⟩
      omega
  · have hnone : r.tree? = none := Option.map_eq_none_iff.mp hnone
    simp only [concluded, hnone, Log.failures_note, Log.heads_note]
    refine (hreported hnone n hn).imp (fun htold => ?_) fun hleans => ?_
    · exact Failures.merge_ne_empty (hexpected htold)
    · exact hleans.mono (Nat.le_max_right _ _)

theorem apply_speaks (hlater : σ.set.grammar.Telling later)
    (happly : ∀ d, depth = d + 1 → AppliesSpeak later σ.set d) (q : String) :
    σ.Speaks later (fun n => σ.set.grammar.TellsIn later n q) (ofRule σ.set depth σ.frames q) := by
  intro base c log memo out hr hbelow hrests hmemo happ
  rcases ofRule_eq_some happ with ⟨hnone, rfl⟩ | ⟨rule, hrule, ⟨entry, hentry, rfl⟩ | ⟨hnew, d, hd, hwork⟩⟩
  · refine ⟨hmemo, fun _ n hn => ?_⟩
    obtain ⟨rank, rfl⟩ : ∃ rank, n = rank + 1 := Nat.exists_eq_succ_of_ne_zero (by rintro rfl; exact hn)
    obtain ⟨rule, hrule, -⟩ := hn
    cases hnone.symm.trans hrule
  · obtain rfl := Grammar.rule?_name hrule
    exact reuse_speaks hr hentry hmemo
  · obtain rfl := Grammar.rule?_name hrule
    exact work_speaks hlater (happly d hd) hr hbelow hrests.2 hmemo hrule hnew hwork

/-- Whatever is evaluated, an application that fails says what was expected, or leaned on a rule
further out. -/
theorem ofRule_speaks (set : Setting) (hlater : set.grammar.Telling later) (depth : Nat) :
    AppliesSpeak later set depth := by
  induction depth with
  | zero =>
      rintro σ q rfl
      exact apply_speaks hlater (fun d hd => (Nat.succ_ne_zero d hd.symm).elim) q
  | succ depth ih =>
      rintro σ q rfl
      refine apply_speaks hlater (fun d hd => ?_) q
      obtain rfl := Nat.succ.inj hd
      exact ih

end

/-- A match from a rule that tells fails with what was expected. -/
theorem run_speaks {set : Setting} {limit : Nat} {start : String} {a : Answer} {memo memo' : Memo}
    (hlater : set.grammar.Telling later) (hstart : later start) (hmemo : (bottom set).Intact memo)
    (hrests : memo.Rests set.grammar False) (htells : memo.Spoken set.grammar later)
    (h : run set limit start memo = some (a, memo')) (hfailed : a.tree? = none) :
    a.failures ≠ ∅ := by
  obtain ⟨pos, log₁, memo₁, out, hbefore, hwhole, rfl, -⟩ := run_eq_some h
  have hinformed : (bottom set).Informed later (ofRule set limit []) :=
    { telling := hlater
      sound := fun q => (ofRule_sound (bottom set) limit q).weaken fun _ => trivial
      keeps := fun q => (nothing_lasts set).ofRule_keeps (admits_anywhere _) limit (bottom set) q rfl
      gathers := ofRule_gathers set limit []
      speaks := fun q => ofRule_speaks set hlater limit (bottom set) q rfl }
  have hr := ready_bottom hmemo
  have hdone := (spaces_done limit start hmemo).of_eq_some hbefore
  have hhere : (bottom set).Speaks later (fun _ => True)
      fun c log memo => some ⟨some c, log, memo⟩ := by
    rintro base c log memo out - - - htells ⟨⟩
    exact ⟨htells, fun hnone => nomatch hnone⟩
  have htells₁ := (hinformed.spaced (isSyntactic start) hhere _ _ _ _ _ hr (List.forall_mem_nil _)
    ⟨trivial, hrests⟩ htells hbefore).1
  have hstarts : Lasting.Starts anywhere start := ⟨fun _ => trivial, fun _ _ => trivial⟩
  have hrests₁ := ((nothing_lasts set).before_keeps (admits_anywhere _) limit hstarts _ _ _ _ _ hr
    trivial ⟨trivial, hrests⟩ hbefore).1
  obtain ⟨n, hn⟩ := hlater start hstart
  have hnone : out.cursor? = none := by
    by_contra hsome
    obtain ⟨c', hc'⟩ := Option.ne_none_iff_exists'.mp hsome
    obtain ⟨t, -, -, hfound, -⟩ := whole_found hwhole hc'
    simp [hc', hfound] at hfailed
  have hwhole_speaks := andThen_speaks (hinformed.sound start) (hinformed.keeps start)
    (hinformed.speaks start) (ofExpr_speaks hinformed (isSyntactic start) .endOfInput)
    (fun _ hn => hn) (fun _ _ _ => .endOfInput) (fun _ _ => ⟨0, .endOfInput⟩)
  obtain ⟨-, hfails⟩ := hwhole_speaks _ _ _ _ _ hdone.ready (List.forall_mem_nil _) hrests₁ htells₁
    hwhole
  exact (hfails hnone n hn).resolve_right (not_leans (List.forall_mem_nil _))

end Stack

end Match

end Pegboard
