import Pegboard.Proofs.Reading
import Mathlib.Data.Finset.Card
import Mathlib.Logic.Relation

/-!
# Left calls

A rule calls another one from its left if the evaluation of its body may apply the other where the
body itself began. Left recursion is a cycle of left calls. The graph is the one that can be read
off the grammar: an expression may stay where it is if nothing in it has to take something.

Main statements: what a reading applies at its own place is a left call (`Expr.read_left`), and
where left calls have no cycles but loops, they lead to rules of a smaller rank
(`LoopsOnly.rank_lt`), so that applications wait for one another in a well-founded order.
-/

namespace Pegboard

open Relation Text

/-- Whether spaces are skipped in front of the expression where they are skipped at all. -/
def Expr.skipsSpaces : Expr → Bool
  | .apply rule => rule != "spaces"
  | e => e.consumesInput

namespace Grammar

variable (g : Grammar)

/-- The expression may match without taking anything. -/
inductive MayStay : Expr → Prop
  | endOfInput : MayStay .endOfInput
  | terminal : MayStay (.terminal "")
  | apply {name : String} {rule : Rule} :
      g.rule? name = some rule → MayStay rule.body → MayStay (.apply name)
  | alt {e : Expr} {es : List Expr} : e ∈ es → MayStay e → MayStay (.alt es)
  | seq {es : List Expr} : (∀ e ∈ es, MayStay e) → MayStay (.seq es)
  | iter {op : Repeat} {e : Expr} : op ≠ .plus → MayStay (.iter op e)
  | plus {e : Expr} : MayStay e → MayStay (.iter .plus e)
  | not {e : Expr} : MayStay (.not e)
  | look {e : Expr} : MayStay (.look e)
  | lex {e : Expr} : MayStay e → MayStay (.lex e)

/-- The expression, in a syntactic context or not, may apply a rule where it begins. -/
inductive LeftApplies : Bool → Expr → String → Prop
  | apply {syn : Bool} {rule : String} : LeftApplies syn (.apply rule) rule
  | spaces {e : Expr} : e.skipsSpaces → LeftApplies true e "spaces"
  | alt {syn : Bool} {e : Expr} {es : List Expr} {rule : String} :
      e ∈ es → LeftApplies syn e rule → LeftApplies syn (.alt es) rule
  | seq {syn : Bool} (before : List Expr) {after : List Expr} {e : Expr} {rule : String} :
      (∀ d ∈ before, g.MayStay d) → LeftApplies syn e rule →
        LeftApplies syn (.seq (before ++ e :: after)) rule
  | iter {syn : Bool} {op : Repeat} {e : Expr} {rule : String} :
      LeftApplies syn e rule → LeftApplies syn (.iter op e) rule
  | not {syn : Bool} {e : Expr} {rule : String} :
      LeftApplies syn e rule → LeftApplies syn (.not e) rule
  | look {syn : Bool} {e : Expr} {rule : String} :
      LeftApplies syn e rule → LeftApplies syn (.look e) rule
  | lex {syn : Bool} {e : Expr} {rule : String} :
      LeftApplies false e rule → LeftApplies syn (.lex e) rule

/-- The rule `r` may apply `q` where its own application began. -/
def LeftCalls (r q : String) : Prop :=
  ∃ rule, g.rule? r = some rule ∧ g.LeftApplies (isSyntactic rule.name) rule.body q

/-- No cycle of left calls passes through two rules. A rule may still call itself. -/
def LoopsOnly : Prop :=
  ∀ r q, r ≠ q → TransGen g.LeftCalls r q → ¬ TransGen g.LeftCalls q r

/-- No rule is left-recursive. -/
def Acyclic : Prop :=
  ∀ r, ¬ TransGen g.LeftCalls r r

variable {g}

theorem Acyclic.loopsOnly (h : g.Acyclic) : g.LoopsOnly :=
  fun r _ _ hrq hqr => h r (hrq.trans hqr)

theorem rule?_name {name : String} {rule : Rule} (h : g.rule? name = some rule) :
    rule.name = name := by
  simpa using List.find?_some h

theorem rule?_mem {name : String} {rule : Rule} (h : g.rule? name = some rule) :
    rule ∈ g.rules :=
  List.mem_of_find?_eq_some h

theorem hasRule_of_rule? {name : String} {rule : Rule} (h : g.rule? name = some rule) :
    g.hasRule name = true := by
  rw [hasRule, h, Option.isSome_some]

end Grammar

/-! ## What a reading applies at its place -/

/-- An application that takes nothing is one of a rule that may stay. -/
def Meaning.Stays (m : Meaning) (g : Grammar) : Prop :=
  ∀ rule cs t, (m rule cs).tree? = some t → t.length = 0 → g.MayStay (.apply rule)

namespace Reading

variable {m : Meaning} {a b : Reading} {t : Taken} {op : Repeat} {read : List Char → Reading}

theorem followed_stays {u : Taken} (h : (a.followed t b).taken? = some u) (hu : u.size = 0) :
    t.size = 0 ∧ ∃ v, b.taken? = some v ∧ v.size = 0 := by
  obtain ⟨v, hv, rfl⟩ := Option.map_eq_some_iff.mp h
  simp only [Taken.append] at hu
  exact ⟨by omega, v, hv, by omega⟩

theorem followed_calls_zero {rule : String} (h : ⟨0, rule⟩ ∈ (a.followed t b).calls) :
    ⟨0, rule⟩ ∈ a.calls ∨ t.size = 0 ∧ ⟨0, rule⟩ ∈ b.calls := by
  rcases List.mem_append.mp h with h | h
  · exact .inl h
  · obtain ⟨⟨offset, called⟩, hc, heq⟩ := List.mem_map.mp h
    simp only [Call.shift, Call.mk.injEq] at heq
    obtain ⟨hsum, rfl⟩ := heq
    obtain rfl : offset = 0 := by omega
    exact .inr ⟨by omega, hc⟩

theorem spaced_stays {skip : Bool} {cs : List Char} {u : Taken}
    (h : (spaced m skip read cs).taken? = some u) (hu : u.size = 0) :
    ∃ cs' v, (read cs').taken? = some v ∧ v.size = 0 := by
  cases skip with
  | false => exact ⟨cs, u, h, hu⟩
  | true =>
      rw [spaced, if_pos rfl, andThen_of_some rfl] at h
      exact ⟨_, (followed_stays h hu).2⟩

theorem spaced_calls_zero {skip : Bool} {cs : List Char} {rule : String}
    (h : ⟨0, rule⟩ ∈ (spaced m skip read cs).calls) :
    skip = true ∧ rule = "spaces" ∨ ∃ cs', ⟨0, rule⟩ ∈ (read cs').calls := by
  cases skip with
  | false => exact .inr ⟨cs, h⟩
  | true =>
      rw [spaced, if_pos rfl, andThen_of_some rfl] at h
      rcases followed_calls_zero h with h | ⟨-, h⟩
      · refine .inl ⟨rfl, ?_⟩
        simpa [spaces, Application.reading] using h
      · exact .inr ⟨_, h⟩

/-- An iteration that needs a step and takes nothing made a step that takes nothing. -/
theorem rounds_stays {cs : List Char} {u : Taken}
    (h : (rounds op read false cs).taken? = some u) (hu : u.size = 0) :
    ∃ v, (read cs).taken? = some v ∧ v.size = 0 := by
  cases ht : (read cs).taken? with
  | none =>
      rw [rounds_of_none ht] at h
      exact absurd (ht.symm.trans h) (by simp)
  | some t =>
      by_cases hmore : op ≠ .opt ∧ 0 < t.size ∧ cs ≠ []
      · rw [rounds_more ht hmore] at h
        -- another round would follow only if this one took something
        have := (followed_stays h hu).1
        omega
      · rw [rounds_last ht hmore, ht] at h
        exact ⟨t, rfl, Option.some.inj h ▸ hu⟩

theorem rounds_calls_zero {matched : Bool} {cs : List Char} {rule : String}
    (h : ⟨0, rule⟩ ∈ (rounds op read matched cs).calls) : ⟨0, rule⟩ ∈ (read cs).calls := by
  cases ht : (read cs).taken? with
  | none =>
      rw [rounds_of_none ht] at h
      cases matched <;> exact h
  | some t =>
      by_cases hmore : op ≠ .opt ∧ 0 < t.size ∧ cs ≠ []
      · rw [rounds_more ht hmore] at h
        rcases followed_calls_zero h with h | ⟨h0, -⟩
        · exact h
        · omega
      · rwa [rounds_last ht hmore] at h

end Reading

open Reading in
mutual

/-- An expression that matched without taking anything may stay. -/
theorem Expr.read_stays {g : Grammar} {m : Meaning} (hm : m.Stays g) (syntactic : Bool) :
    ∀ (e : Expr) (cs : List Char) (t : Taken), (e.read m syntactic cs).taken? = some t →
      t.size = 0 → g.MayStay e
  | .any, cs, t, ht, h0 => by
      rw [Expr.read] at ht
      obtain ⟨cs', v, hv, hv0⟩ := spaced_stays ht h0
      cases cs' with
      | nil => cases hv
      | cons c cs' =>
          cases hv
          exact absurd hv0 c.utf8Size_pos.ne'
  | .endOfInput, _, _, _, _ => .endOfInput
  | .terminal s, cs, t, ht, h0 => by
      rw [Expr.read] at ht
      obtain ⟨cs', v, hv, hv0⟩ := spaced_stays ht h0
      rw [Reading.terminal] at hv
      split at hv
      · cases hv
        obtain rfl := String.utf8ByteSize_eq_zero_iff.mp hv0
        exact .terminal
      · cases hv
  | .range lo hi, cs, t, ht, h0 => by
      rw [Expr.read] at ht
      obtain ⟨cs', v, hv, hv0⟩ := spaced_stays ht h0
      cases cs' with
      | nil => cases hv
      | cons c cs' =>
          rw [Reading.range] at hv
          split at hv
          · cases hv
            exact absurd hv0 c.utf8Size_pos.ne'
          · cases hv
  | .apply rule, cs, t, ht, h0 => by
      rw [Expr.read] at ht
      obtain ⟨cs', v, hv, hv0⟩ := spaced_stays ht h0
      obtain ⟨tree, htree, rfl⟩ := Option.map_eq_some_iff.mp hv
      exact hm rule cs' tree htree hv0
  | .alt es, cs, t, ht, h0 => by
      rw [Expr.read] at ht
      obtain ⟨e, he, hstay⟩ := Expr.readFirst_stays hm syntactic es cs t ht h0
      exact .alt he hstay
  | .seq es, cs, t, ht, h0 => by
      rw [Expr.read] at ht
      exact .seq (Expr.readEach_stays hm syntactic es cs t ht h0)
  | .iter op e, cs, t, ht, h0 => by
      by_cases hop : op = .plus
      · subst hop
        rw [Expr.read, iterated] at ht
        obtain ⟨u, hu, rfl⟩ := Option.map_eq_some_iff.mp ht
        obtain ⟨v, hv, hv0⟩ := rounds_stays hu h0
        exact .plus (Expr.read_stays hm syntactic e cs v hv hv0)
      · exact .iter hop
  | .not _, _, _, _, _ => .not
  | .look _, _, _, _, _ => .look
  | .lex e, cs, t, ht, h0 => by
      rw [Expr.read] at ht
      exact .lex (Expr.read_stays hm false e cs t ht h0)

theorem Expr.readFirst_stays {g : Grammar} {m : Meaning} (hm : m.Stays g) (syntactic : Bool) :
    ∀ (es : List Expr) (cs : List Char) (t : Taken),
      (Expr.readFirst m syntactic es cs).taken? = some t → t.size = 0 →
        ∃ e ∈ es, g.MayStay e
  | [], _, _, ht, _ => by
      rw [Expr.readFirst] at ht
      cases ht
  | e :: es, cs, t, ht, h0 => by
      rw [Expr.readFirst] at ht
      cases hfirst : (e.read m syntactic cs).taken? with
      | none =>
          rw [orElse_of_none hfirst] at ht
          obtain ⟨-, v, hv, hv0⟩ := followed_stays ht h0
          obtain ⟨d, hd, hstay⟩ := Expr.readFirst_stays hm syntactic es cs v hv hv0
          exact ⟨d, List.mem_cons_of_mem _ hd, hstay⟩
      | some u =>
          rw [orElse_of_some hfirst] at ht
          exact ⟨e, List.mem_cons_self, Expr.read_stays hm syntactic e cs t ht h0⟩

theorem Expr.readEach_stays {g : Grammar} {m : Meaning} (hm : m.Stays g) (syntactic : Bool) :
    ∀ (es : List Expr) (cs : List Char) (t : Taken),
      (Expr.readEach m syntactic es cs).taken? = some t → t.size = 0 →
        ∀ e ∈ es, g.MayStay e
  | [], _, _, _, _ => by simp
  | e :: es, cs, t, ht, h0 => by
      rw [Expr.readEach] at ht
      cases hfirst : (e.read m syntactic cs).taken? with
      | none =>
          rw [andThen_of_none hfirst, hfirst] at ht
          cases ht
      | some u =>
          rw [andThen_of_some hfirst] at ht
          obtain ⟨hu0, v, hv, hv0⟩ := followed_stays ht h0
          intro d hd
          rcases List.mem_cons.mp hd with heq | hd
          · rw [heq]
            exact Expr.read_stays hm syntactic e cs u hfirst hu0
          · exact Expr.readEach_stays hm syntactic es _ v hv hv0 d hd

end

/-- A list is the parts before one that is applied from the left, that part, and the rest. -/
theorem Grammar.LeftApplies.seq_cons {g : Grammar} {syn : Bool} {d : Expr} {es : List Expr}
    {rule : String} (hd : g.MayStay d) (h : g.LeftApplies syn (.seq es) rule) :
    g.LeftApplies syn (.seq (d :: es)) rule := by
  cases h with
  | spaces h => cases h
  | seq before hbefore he =>
      refine .seq (d :: before) ?_ he
      intro d' hd'
      rcases List.mem_cons.mp hd' with rfl | hd'
      · exact hd
      · exact hbefore d' hd'

open Reading in
mutual

/-- What an expression applies at its own place it may apply from the left. -/
theorem Expr.read_left {g : Grammar} {m : Meaning} (hm : m.Stays g) (syntactic : Bool) :
    ∀ (e : Expr) (cs : List Char) (rule : String),
      ⟨0, rule⟩ ∈ (e.read m syntactic cs).calls → g.LeftApplies syntactic e rule
  | .any, cs, rule, h => by
      rw [Expr.read] at h
      rcases spaced_calls_zero h with ⟨rfl, rfl⟩ | ⟨cs', h⟩
      · exact .spaces rfl
      · cases cs' <;> cases h
  | .endOfInput, cs, rule, h => by
      rw [Expr.read] at h
      rcases spaced_calls_zero h with ⟨rfl, rfl⟩ | ⟨cs', h⟩
      · exact .spaces rfl
      · cases cs' <;> cases h
  | .terminal s, cs, rule, h => by
      rw [Expr.read] at h
      rcases spaced_calls_zero h with ⟨rfl, rfl⟩ | ⟨cs', h⟩
      · exact .spaces rfl
      · rw [Reading.terminal] at h
        split at h <;> cases h
  | .range lo hi, cs, rule, h => by
      rw [Expr.read] at h
      rcases spaced_calls_zero h with ⟨rfl, rfl⟩ | ⟨cs', h⟩
      · exact .spaces rfl
      · cases cs' with
        | nil => cases h
        | cons c cs' =>
            rw [Reading.range] at h
            split at h <;> cases h
  | .apply name, cs, rule, h => by
      rw [Expr.read] at h
      rcases spaced_calls_zero h with ⟨hskip, rfl⟩ | ⟨cs', h⟩
      · rw [Bool.and_eq_true] at hskip
        rw [hskip.1]
        exact .spaces hskip.2
      · obtain ⟨-, rfl⟩ : 0 = 0 ∧ rule = name := by simpa [Application.reading] using h
        exact .apply
  | .alt es, cs, rule, h => by
      rw [Expr.read] at h
      obtain ⟨e, he, hleft⟩ := Expr.readFirst_left hm syntactic es cs rule h
      exact .alt he hleft
  | .seq es, cs, rule, h => by
      rw [Expr.read] at h
      exact Expr.readEach_left hm syntactic es cs rule h
  | .iter op e, cs, rule, h => by
      rw [Expr.read, iterated] at h
      exact .iter (Expr.read_left hm syntactic e cs rule (rounds_calls_zero h))
  | .not e, cs, rule, h => by
      rw [Expr.read, negated] at h
      refine .not (Expr.read_left hm syntactic e cs rule ?_)
      split at h <;> exact h
  | .look e, cs, rule, h => by
      rw [Expr.read] at h
      exact .look (Expr.read_left hm syntactic e cs rule h)
  | .lex e, cs, rule, h => by
      rw [Expr.read] at h
      exact .lex (Expr.read_left hm false e cs rule h)

theorem Expr.readFirst_left {g : Grammar} {m : Meaning} (hm : m.Stays g) (syntactic : Bool) :
    ∀ (es : List Expr) (cs : List Char) (rule : String),
      ⟨0, rule⟩ ∈ (Expr.readFirst m syntactic es cs).calls →
        ∃ e ∈ es, g.LeftApplies syntactic e rule
  | [], _, _, h => by
      rw [Expr.readFirst] at h
      cases h
  | e :: es, cs, rule, h => by
      rw [Expr.readFirst] at h
      cases hfirst : (e.read m syntactic cs).taken? with
      | none =>
          rw [orElse_of_none hfirst] at h
          rcases followed_calls_zero h with h | ⟨-, h⟩
          · exact ⟨e, List.mem_cons_self, Expr.read_left hm syntactic e cs rule h⟩
          · obtain ⟨d, hd, hleft⟩ := Expr.readFirst_left hm syntactic es cs rule h
            exact ⟨d, List.mem_cons_of_mem _ hd, hleft⟩
      | some u =>
          rw [orElse_of_some hfirst] at h
          exact ⟨e, List.mem_cons_self, Expr.read_left hm syntactic e cs rule h⟩

theorem Expr.readEach_left {g : Grammar} {m : Meaning} (hm : m.Stays g) (syntactic : Bool) :
    ∀ (es : List Expr) (cs : List Char) (rule : String),
      ⟨0, rule⟩ ∈ (Expr.readEach m syntactic es cs).calls →
        g.LeftApplies syntactic (.seq es) rule
  | [], _, _, h => by
      rw [Expr.readEach] at h
      cases h
  | e :: es, cs, rule, h => by
      rw [Expr.readEach] at h
      cases hfirst : (e.read m syntactic cs).taken? with
      | none =>
          rw [andThen_of_none hfirst] at h
          exact .seq [] (by simp) (Expr.read_left hm syntactic e cs rule h)
      | some u =>
          rw [andThen_of_some hfirst] at h
          rcases followed_calls_zero h with h | ⟨hu0, h⟩
          · exact .seq [] (by simp) (Expr.read_left hm syntactic e cs rule h)
          · exact (Expr.readEach_left hm syntactic es _ rule h).seq_cons
              (Expr.read_stays hm syntactic e cs u hfirst hu0)

end

/-! ## Induction along left calls -/

namespace Grammar

variable {g : Grammar}

theorem mem_ruleNames {r : String} (h : g.hasRule r = true) : r ∈ g.ruleNames.toFinset := by
  obtain ⟨rule, hrule⟩ := Option.isSome_iff_exists.mp h
  rw [List.mem_toFinset, ruleNames]
  exact List.mem_map.mpr ⟨rule, rule?_mem hrule, rule?_name hrule⟩

open Classical in
/-- How many rules a rule may come to apply at its own place. -/
noncomputable def rank (g : Grammar) (r : String) : Nat :=
  if g.hasRule r then
    (g.ruleNames.toFinset.filter fun q => q ≠ r ∧ TransGen g.LeftCalls r q).card + 1
  else 0

open Classical in
/-- Left calls, loops apart, lead to rules of a smaller rank. -/
theorem LoopsOnly.rank_lt (hg : g.LoopsOnly) {r q : String} (h : g.LeftCalls r q) (hne : q ≠ r) :
    g.rank q < g.rank r := by
  obtain ⟨rule, hrule, hleft⟩ := h
  have hr : g.hasRule r = true := by simp [hasRule, hrule]
  have hcall : g.LeftCalls r q := ⟨rule, hrule, hleft⟩
  unfold rank
  rw [if_pos hr]
  split
  · rename_i hq
    refine Nat.succ_lt_succ (Finset.card_lt_card ?_)
    refine Finset.ssubset_iff_subset_ne.mpr ⟨?_, ?_⟩
    · -- what `q` comes to apply is not `r`, for that were a cycle
      intro x hx
      obtain ⟨hx, hxq, htrans⟩ := Finset.mem_filter.mp hx
      refine Finset.mem_filter.mpr ⟨hx, ?_, htrans.head hcall⟩
      rintro rfl
      exact hg _ _ hne.symm (.single hcall) htrans
    · intro heq
      -- `q` itself counts for `r` only
      have hin : q ∈ g.ruleNames.toFinset.filter fun p => p ≠ r ∧ TransGen g.LeftCalls r p :=
        Finset.mem_filter.mpr ⟨mem_ruleNames hq, hne, .single hcall⟩
      rw [← heq] at hin
      exact (Finset.mem_filter.mp hin).2.1 rfl
  · exact Nat.succ_pos _

/-- An application that another one may have to wait for: one on a shorter text, or one of a rule
that comes to apply fewer rules at its own place. -/
def Before (g : Grammar) (a b : String × List Char) : Prop :=
  a.2.length < b.2.length ∨ a.2.length = b.2.length ∧ g.rank a.1 < g.rank b.1

theorem before_wellFounded (g : Grammar) : WellFounded g.Before := by
  refine Subrelation.wf ?_ (InvImage.wf (fun a : String × List Char => (a.2.length, g.rank a.1))
    (Prod.lex Nat.lt_wfRel Nat.lt_wfRel).wf)
  rintro a b (h | ⟨heq, h⟩)
  · exact .left _ _ h
  · simp only [InvImage, heq]
    exact .right _ h

end Grammar

end Pegboard
