import Pegboard.Proofs.LeftCalls.Check
import Pegboard.Proofs.Match.SelfContained
import Pegboard.Proofs.Match.Throughout
import Pegboard.Proofs.Match.Untraced

/-!
# Direct left recursion

A lexical rule whose body is the rule itself with a step behind it, or else a beginning, repeats its
step as often as it can. The seed grows by one step in each round, and when no step follows any more
the body falls back to the beginning, which is not longer than what there is already.

So the rule matches where its beginning does, and then takes one step after the other for as long as
each of them takes something. Its tree leans to the left: the tree of each number of steps is the
first child of the tree of one step more.

Main statement: `Grammar.IteratesLeft.applications_iterate`.
-/

namespace Pegboard

open Relation Match Text

namespace Grammar

/-- The rule is lexical and its body the rule itself with a step behind it, or else a beginning.
Neither of these applies the rule again where it was applied, and what they apply otherwise is not
left-recursive. -/
structure IteratesLeft (g : Grammar) (x : String) (step : List Expr) (first : Expr) : Prop where
  declared : ∃ rule, g.rule? x = some rule ∧ rule.body = .alt [.seq (.apply x :: step), first]
  lexical : isSyntactic x = false
  apart : ∀ q, g.LeftApplies false (.seq (first :: step)) q → ¬ ReflTransGen g.LeftCalls q x
  others : ∀ r q, r ∈ (Expr.seq (first :: step)).applied false → ReflTransGen g.Calls r q → q ≠ x →
    ¬ TransGen g.LeftCalls q q

variable {g : Grammar} {x q : String} {step : List Expr} {first : Expr}

namespace IteratesLeft

variable (h : g.IteratesLeft x step first)

include h

theorem body {rule : Rule} (hrule : g.rule? x = some rule) :
    rule.body = .alt [.seq (.apply x :: step), first] := by
  obtain ⟨rule', hrule', hbody⟩ := h.declared
  rwa [Option.some.inj (hrule.symm.trans hrule')]

/-- The rule may stay where it is only if its beginning may. -/
theorem first_mayStay (hstays : g.MayStay (.apply x)) : g.MayStay first := by
  have small : ∀ e, g.MayStay e →
      (e = .apply x ∨ e = .seq (.apply x :: step) ∨ e = .alt [.seq (.apply x :: step), first]) →
        g.MayStay first := by
    intro e he
    induction he with
    | apply hrule _ ih =>
        rintro (heq | heq | heq) <;> cases heq
        exact ih (.inr (.inr (h.body hrule)))
    | @alt e es he hstays ih =>
        rintro (heq | heq | heq) <;> cases heq
        rcases List.mem_pair.mp he with rfl | rfl
        · exact ih (.inr (.inl rfl))
        · exact hstays
    | seq _ ih =>
        rintro (heq | heq | heq) <;> cases heq
        exact ih _ List.mem_cons_self (.inl rfl)
    | _ => rintro (heq | heq | heq) <;> cases heq
  exact small _ hstays (.inl rfl)

theorem mem_applied {rule : Rule} (hrule : g.rule? x = some rule)
    (hq : q ∈ rule.body.applied (isSyntactic rule.name)) :
    q = x ∨ q ∈ (Expr.seq (first :: step)).applied false := by
  rw [rule?_name hrule, h.lexical, h.body hrule] at hq
  simp only [Expr.applied, Expr.appliedInAll, Bool.false_eq_true, if_false, List.mem_append,
    List.mem_singleton, List.not_mem_nil, or_false] at hq ⊢
  tauto

/-- The rule and what it comes to apply. -/
theorem reachable (hq : ReflTransGen g.Calls x q) :
    q = x ∨ ∃ r ∈ (Expr.seq (first :: step)).applied false, ReflTransGen g.Calls r q := by
  induction hq with
  | refl => exact .inl rfl
  | tail _ hcalls ih =>
      rcases ih with rfl | ⟨r, hr, hreach⟩
      · obtain ⟨rule, hrule, hq⟩ := hcalls
        exact (h.mem_applied hrule hq).imp_right fun hq => ⟨_, hq, .refl⟩
      · exact .inr ⟨r, hr, hreach.tail hcalls⟩

theorem applied_reachable (hq : q ∈ (Expr.seq (first :: step)).applied false) :
    ReflTransGen g.Calls x q := by
  obtain ⟨rule, hrule, hbody⟩ := h.declared
  refine .single ⟨rule, hrule, ?_⟩
  rw [rule?_name hrule, h.lexical, hbody]
  simp only [Expr.applied, Expr.appliedInAll, List.mem_append] at hq ⊢
  tauto

/-- No other rule that the rule comes to apply is left-recursive. -/
theorem tame : g.Tame (ReflTransGen g.Calls x) where
  closed := g.selfContained_reachable x
  loops := by
    have alone : ∀ q, ReflTransGen g.Calls x q → q ≠ x → ¬ TransGen g.LeftCalls q q := by
      intro q hq hne
      obtain ⟨r, hr, hreach⟩ := (h.reachable hq).resolve_left hne
      exact h.others r q hr hreach hne
    intro r q hr hne hrq hqr
    by_cases hx : r = x
    · subst hx
      have hq : ReflTransGen g.Calls r q :=
        hrq.to_reflTransGen.lift id fun _ _ hcalls => hcalls.calls
      exact alone q hq hne.symm (hqr.trans hrq)
    · exact alone r hr hx (hrq.trans hqr)

end IteratesLeft

/-! ## Checking a grammar at hand -/

variable {g : Grammar} {staying : List String} {rank : String → Nat} {x : String} {step : List Expr}
variable {first : Expr}

/-- The rule iterates if what its beginning and its steps apply from the left has a smaller rank,
and no other rule is left-recursive. -/
theorem RankedBy.iteratesLeft (h : g.RankedBy staying rank)
    (hdeclared : ∃ rule ∈ g.rules, g.rule? x = some rule ∧
      rule.body = .alt [.seq (.apply x :: step), first]) (hlexical : isSyntactic x = false)
    (hapart : ∀ q ∈ (Expr.seq (first :: step)).leftRules staying false, rank q < rank x)
    (hothers : ∀ rule ∈ g.rules, rule.name ≠ x →
      rule.name ∉ rule.body.leftRules staying (isSyntactic rule.name)) :
    g.IteratesLeft x step first where
  declared := let ⟨rule, _, hrule⟩ := hdeclared; ⟨rule, hrule⟩
  lexical := hlexical
  apart := by
    intro q hleft hback
    have hlt := hapart q (hleft.mem_leftRules fun rule hrule => (h rule hrule).1)
    exact absurd (h.reflTransGen hback) (by omega)
  others := by
    intro _ q _ _ hne hloop
    obtain ⟨p, hcalls, hback⟩ := TransGen.head'_iff.mp hloop
    have hback := h.reflTransGen hback
    obtain rfl := (h.leftCalls hcalls).resolve_right (by omega)
    obtain ⟨rule, hrule, hleft⟩ := hcalls
    obtain rfl := rule?_name hrule
    exact hothers rule (rule?_mem hrule) hne (h.mem_leftRules hleft)

end Grammar

/-! ## Rounds of the rule -/

/-- The last choice takes what it takes. -/
theorem Reading.taken?_last {a : Reading} (ha : a.taken? = none) (b : Reading) :
    (a.orElse (b.orElse (.blank none))).taken? = b.taken? := by
  rw [orElse_of_none ha]
  cases ht : b.taken? with
  | none => simp [followed, orElse_of_none ht, blank]
  | some t => simp [followed, orElse_of_some ht, ht, Taken.append, Taken.nothing]

namespace Grammar.IteratesLeft

variable {g : Grammar} {rule : Rule} {step : List Expr} {first : Expr} {m : Meaning}
variable {cs : List Char} {best t : Tree} {seed? : Option Tree}

section

variable (h : g.IteratesLeft rule.name step first) (hrule : g.rule? rule.name = some rule)
variable (hm : m.Fits) (hs : m.Stays g)

include h hm hs

/-- The seed makes no difference to the beginning. -/
theorem first_seeded (cs : List Char) (seed? : Option Tree) :
    first.read (m.seeded rule.name cs seed?) false cs = first.read m false cs := by
  refine Expr.read_same hm _ false first _ cs cs (.refl _ cs) ⟨Nat.le_refl _, fun c hc => ?_⟩
  refine m.seeded_of_ne _ _ ((Expr.read_fits hm false first cs).calls c hc).1 ?_
  rintro rfl
  have hleft := Expr.read_left hs false first cs rule.name hc
  exact h.apart _ (.seq [] (List.forall_mem_nil _) hleft) .refl

include hrule

/-- The seed makes no difference to a step behind it. -/
theorem step_seeded (hbest : rule.Seeds g cs best) :
    Expr.readEach (m.seeded rule.name cs (some best)) false step (dropBytes cs best.length) =
      Expr.readEach m false step (dropBytes cs best.length) := by
  obtain ⟨hcut, hstays⟩ := hbest
  refine Expr.readEach_same hm _ false step _ _ _ (.refl _ _) ⟨Nat.le_refl _, fun c hc => ?_⟩
  have hcut' := ((Expr.readEach_fits hm false step _).calls c hc).1
  obtain ⟨hadd, hdrop⟩ := hcut.add hcut'
  refine if_neg fun ⟨hname, hcs⟩ => ?_
  have hzero := hadd.eq_zero_of_drop_eq (hdrop.trans hcs)
  -- a step that begins where the rule does comes behind a beginning that stayed there
  have hfirst : g.MayStay first := h.first_mayStay (.apply hrule (hstays (by omega)))
  obtain ⟨offset, q⟩ := c
  obtain rfl : offset = 0 := Nat.eq_zero_of_add_eq_zero_left hzero
  have hleft := Expr.readEach_left hs false step _ q hc
  exact h.apart _ (hleft.seq_cons hfirst) (hname ▸ .refl)

/-- Without a seed a round comes to the beginning, and has applied the rule to itself. -/
theorem round_none (cs : List Char) :
    (rule.round m cs none).tree? =
        ((first.read m false cs).taken?.map fun t => .rule rule.name t.size t.trees) ∧
      ⟨0, rule.name⟩ ∈ (rule.round m cs none).calls := by
  have hown : (Expr.apply rule.name).read (m.seeded rule.name cs none) false cs =
      (Application.seed none).reading rule.name := by
    rw [Expr.read, ← m.seeded_own rule.name cs none]
    rfl
  have hloop : (Expr.seq (.apply rule.name :: step)).read (m.seeded rule.name cs none) false cs =
      (Application.seed none).reading rule.name := by
    rw [Expr.read, Expr.readEach, hown]
    rfl
  rw [Rule.round_calls, Rule.round, h.lexical, h.body hrule, Expr.read, Expr.readFirst, hloop,
    Expr.readFirst, h.first_seeded hm hs, Expr.readFirst]
  refine ⟨?_, ?_⟩
  · exact congrArg (Option.map _) (Reading.taken?_last rfl _)
  · rw [Reading.orElse_of_none rfl]
    exact List.mem_append_left _ (List.mem_singleton_self _)

/-- With a seed a round comes to the seed and one step more, or else to the beginning. -/
theorem round_some (hbest : rule.Seeds g cs best) :
    (rule.round m cs (some best)).tree? =
      match (Expr.readEach m false step (dropBytes cs best.length)).taken? with
      | some u => some (.rule rule.name (best.length + u.size)
          ((0, best) :: u.trees.map fun (o, t) => (best.length + o, t)))
      | none => (first.read m false cs).taken?.map fun t => .rule rule.name t.size t.trees := by
  have hown : (Expr.apply rule.name).read (m.seeded rule.name cs (some best)) false cs =
      (Application.seed (some best)).reading rule.name := by
    rw [Expr.read, ← m.seeded_own rule.name cs (some best)]
    rfl
  have hloop : (Expr.seq (.apply rule.name :: step)).read (m.seeded rule.name cs (some best)) false
      cs = ((Application.seed (some best)).reading rule.name).followed (.ofTree best)
        (Expr.readEach m false step (dropBytes cs best.length)) := by
    rw [Expr.read, Expr.readEach, hown, Reading.andThen_of_some rfl]
    exact congrArg _ (h.step_seeded hrule hm hs hbest)
  rw [Rule.round, h.lexical, h.body hrule, Expr.read, Expr.readFirst, hloop, Expr.readFirst,
    h.first_seeded hm hs, Expr.readFirst]
  cases hu : (Expr.readEach m false step (dropBytes cs best.length)).taken? with
  | some u =>
      rw [Reading.orElse_of_some (t := (Taken.ofTree best).append u)
        (by simp [Reading.followed, hu])]
      simp [Reading.followed, hu, Taken.append, Taken.ofTree]
  | none =>
      exact congrArg (Option.map _)
        (Reading.taken?_last (by rw [Reading.followed, hu, Option.map_none]) _)

end

end Grammar.IteratesLeft

/-! ## What the rule matches -/

namespace Match

open Evaluation

/-- What an expression comes to at a place of the text on its own. Applications may nest as deep as
there are pairs of a place and a rule. -/
def Setting.alone (set : Setting) (e : Expr) (pos : Nat) : Option Outcome :=
  ofExpr set (ofRule set (Stack.bottom set).capacity []) false e ⟨pos, []⟩ (.start pos)
    (.blank set.input.size)

/-- What an expression matches at a place of the text on its own: the cursor behind it. -/
def Setting.matchAt (set : Setting) (e : Expr) (pos : Nat) : Option Cursor :=
  (set.alone e pos).bind (·.cursor?)

/-- On its own an expression never comes to nothing. -/
theorem Setting.exists_alone (set : Setting) (e : Expr) {pos : Nat} (hpos : set.input.Boundary pos) :
    ∃ out, set.alone e pos = some out := by
  have hsound : Yields ((Stack.bottom set).capacity < (Stack.bottom set).capacity) _
      (set.alone e pos) :=
    Stack.ofExpr_sound Stack.ofRule_sound_bottom false e _ _ _ _
      (Stack.ready_at (Stack.intact_blank set) hpos)
  cases halone : set.alone e pos with
  | none => exact absurd (halone ▸ hsound) (Nat.lt_irrefl _)
  | some out => exact ⟨out, rfl⟩

variable {set : Setting} {x : String} {step : List Expr} {first : Expr} {pos k : Nat} {t : Tree}

/-- The trees that lean to the left: that of the beginning, and for one step more that of the steps
so far as the first child, and what the step took behind it. -/
inductive Iterated (set : Setting) (x : String) (step : List Expr) (first : Expr) (pos : Nat) :
    Nat → Tree → Prop
  | first {c : Cursor} (h : set.matchAt first pos = some c) :
      Iterated set x step first pos 0 (.rule x (c.pos - pos) (c.children pos))
  | next {k : Nat} {t : Tree} {c : Cursor} (h : Iterated set x step first pos k t)
      (hstep : set.matchAt (.seq step) (pos + t.length) = some c) (hmore : pos + t.length < c.pos) :
      Iterated set x step first pos (k + 1) (.rule x (c.pos - pos) ((0, t) :: c.children pos))

/-- The rule matches where its beginning does, and then takes one step after the other for as long
as each of them takes something. -/
structure Iterates (set : Setting) (x : String) (step : List Expr) (first : Expr) (c : Cursor)
    (c? : Option Cursor) : Prop where
  fails : c? = none ↔ set.matchAt first c.pos = none
  matched : ∀ c', c? = some c' → ∃ k t, c' = c.push t ∧ Iterated set x step first c.pos k t ∧
    ∀ c'', set.matchAt (.seq step) (c.pos + t.length) = some c'' → c''.pos ≤ c.pos + t.length

theorem Iterated.first_le (h : Iterated set x step first pos k t) :
    ∃ c, set.matchAt first pos = some c ∧ c.pos ≤ pos + t.length := by
  induction h with
  | @first c h => exact ⟨c, h, by simp only [Tree.length]; omega⟩
  | @next k t c _ _ hmore ih =>
      obtain ⟨c₀, hfirst, hle⟩ := ih
      exact ⟨c₀, hfirst, by simp only [Tree.length]; omega⟩

theorem Cursor.children_behind (pos n : Nat) (u : Taken) :
    Cursor.children (Cursor.take ⟨pos + n, []⟩ u) pos = u.trees.map fun (o, t) => (n + o, t) := by
  simp only [children, take, List.append_nil, List.reverse_reverse, List.map_map]
  refine List.map_congr_left fun x _ => ?_
  simp only [Function.comp_apply, Nat.add_assoc, Nat.add_sub_cancel_left]

/-- The meaning tells what the beginning and the steps match in the text from the place on. -/
structure Foretells (set : Setting) (m : Meaning) (step : List Expr) (first : Expr) (pos : Nat)
    (cs : List Char) : Prop where
  first : set.matchAt first pos = (first.read m false cs).taken?.map (Cursor.take ⟨pos, []⟩)
  step : ∀ n, Cuts cs n → set.matchAt (.seq step) (pos + n) =
    (Expr.readEach m false step (dropBytes cs n)).taken?.map (Cursor.take ⟨pos + n, []⟩)

section

variable {g : Grammar} {rule : Rule} {m : Meaning} {cs : List Char}
variable (h : g.IteratesLeft rule.name step first) (hrule : g.rule? rule.name = some rule)
variable (hm : m.Fits) (hs : m.Stays g) (htells : Foretells set m step first pos cs)

include h hrule hm hs htells

/-- A round that covers more than its seed has taken one step behind it. -/
theorem Foretells.round {best : Tree} (hbest : rule.Seeds g cs best)
    (hiter : Iterated set rule.name step first pos k best)
    (hround : (rule.round m cs (some best)).tree? = some t) (hlonger : best.length < t.length) :
    Iterated set rule.name step first pos (k + 1) t := by
  rw [h.round_some hrule hm hs hbest] at hround
  split at hround
  · rename_i u hu
    have hstep := htells.step best.length hbest.1
    rw [hu, Option.map_some] at hstep
    obtain rfl := Option.some.inj hround
    have hnext := hiter.next hstep (by
      simp only [Tree.length] at hlonger
      simp only [Cursor.take]
      omega)
    rw [Cursor.children_behind] at hnext
    convert hnext using 2
    simp only [Cursor.take]
    omega
  -- without a step the body falls back to the beginning, which is no longer than the seed
  · obtain ⟨u, hu, rfl⟩ := Option.map_eq_some_iff.mp hround
    obtain ⟨c, hc, hle⟩ := hiter.first_le
    rw [htells.first, hu, Option.map_some] at hc
    obtain rfl := Option.some.inj hc
    simp only [Tree.length, Cursor.take] at hlonger hle
    omega

/-- Where no round covers more, no step takes anything any more. -/
theorem Foretells.last {best : Tree} (hbest : rule.Seeds g cs best)
    (hlast : ¬ ∃ t, (rule.round m cs (some best)).tree? = some t ∧
      best.length < t.length ∧ t.length ≤ byteSize cs) (c : Cursor)
    (hc : set.matchAt (.seq step) (pos + best.length) = some c) : c.pos ≤ pos + best.length := by
  rw [htells.step best.length hbest.1] at hc
  obtain ⟨u, hu, rfl⟩ := Option.map_eq_some_iff.mp hc
  by_contra hmore
  have hsize : 0 < u.size := by
    simp only [Cursor.take] at hmore
    omega
  have hcut := (hbest.1.add ((Expr.readEach_fits hm false step _).taken u hu).1).1
  refine hlast ⟨_, by rw [h.round_some hrule hm hs hbest, hu], ?_, ?_⟩
  · simpa only [Tree.length, Nat.lt_add_right_iff_pos] using hsize
  · exact hcut.le

theorem Foretells.grown {sofar : Application} {best : Tree} (hbest : rule.Seeds g cs best)
    (hiter : Iterated set rule.name step first pos k best) :
    ∃ k t, (rule.grown m cs sofar best).tree? = some t ∧
      Iterated set rule.name step first pos k t ∧
      ∀ c, set.matchAt (.seq step) (pos + t.length) = some c → c.pos ≤ pos + t.length := by
  induction hn : byteSize cs - best.length using Nat.strong_induction_on
      generalizing k sofar best with
  | _ n ih =>
      subst hn
      by_cases hmore : ∃ t, (rule.round m cs (some best)).tree? = some t ∧
          best.length < t.length ∧ t.length ≤ byteSize cs
      · obtain ⟨t, ht, hmore⟩ := hmore
        have hsound := Rule.round_sound hm hs hrule cs (some best) fun u hu =>
          Option.some.inj hu ▸ hbest
        rw [Rule.grown_more ht hmore]
        exact ih _ (by omega) (hsound.seeds ht) (htells.round h hrule hm hs hbest hiter ht hmore.1) rfl
      · rw [Rule.grown_last hmore]
        exact ⟨k, best, rfl, hiter, htells.last h hrule hm hs hbest hmore⟩

/-- What the rounds of the rule come to. -/
theorem Foretells.settled (c : Cursor) (hpos : c.pos = pos) :
    Iterates set rule.name step first c ((rule.settled m cs).tree?.map c.push) := by
  subst hpos
  obtain ⟨hround, hown⟩ := h.round_none hrule hm hs cs
  rw [Rule.settled]
  cases ht : (first.read m false cs).taken? with
  | none =>
      have hfirst := htells.first
      rw [ht, Option.map_none] at hfirst hround
      rw [hround]
      exact ⟨by simp [hround, hfirst], by simp [hround]⟩
  | some u =>
      have hfirst := htells.first
      rw [ht, Option.map_some] at hfirst hround
      simp only [hround, hown, if_true]
      have hsound := Rule.round_sound hm hs hrule cs none (by rintro t ⟨⟩)
      have hbegun : Iterated set rule.name step first c.pos 0 (.rule rule.name u.size u.trees) := by
        have hbegun : Iterated set rule.name step first c.pos 0 _ := .first hfirst
        rw [Cursor.children_take] at hbegun
        simpa [Cursor.take] using hbegun
      obtain ⟨k, t, htree, hiter, hlast⟩ :=
        htells.grown h hrule hm hs (hsound.seeds hround) hbegun
      rw [htree]
      refine ⟨by simp [hfirst], fun c' hc' => ⟨k, t, (Option.some.inj hc').symm, hiter, hlast⟩⟩

end

/-! ## Applications of the rule -/

/-- On its own an expression of a tame part matches what the part means. -/
theorem matchAt_eq {S : String → Prop} {cs : List Char} {e : Expr} (hset : set.tracing = false)
    (hS : set.grammar.Tame S) (he : ∀ q ∈ e.applied false, S q)
    (hleft : set.input.LeftAt pos cs) :
    set.matchAt e pos =
      (e.read (set.grammar.only S).meaning false cs).taken?.map (Cursor.take ⟨pos, []⟩) := by
  have huntraced : (set.only S).tracing = false := hset
  have htruthful := truthful hS.loopsOnly huntraced (Stack.bottom set).capacity
  have hperforms := Scope.ofExpr_performs (s := outerScope (set.only S) _ []) hset
    (set.grammar.only S).meaning_fits (htruthful.performs []) false e ⟨pos, []⟩ (.start pos)
    (.blank set.input.size) cs ⟨hleft, Nat.le_refl _, Nat.zero_le _⟩
    (Table.blank (set.grammar.only S) set.input) fun _ _ => .nil _
  obtain ⟨out, hout⟩ := set.exists_alone e hleft.boundary
  rw [Setting.matchAt, hout, Option.bind_some]
  rw [Setting.alone, ofExpr_over set (set.grammar.only S) false e fun q hq =>
    ofRule_only hS.closed (he q hq) (Stack.bottom set).capacity []] at hout
  rcases hperforms.cases with ⟨-, hnone⟩ | ⟨memo, c?, log, -, -, hsome, hagrees⟩
  · cases hout.symm.trans hnone
  · obtain rfl := Option.some.inj (hout.symm.trans hsome)
    exact hagrees.cursor

/-! ## Traces make no difference -/

@[simp] theorem matchAt_untraced (set : Setting) : set.untraced.matchAt = set.matchAt := by
  funext e pos
  have hforgets : Forgets (ofExpr set _ false e) _ :=
    ofExpr_forgets (ofRule_forgets set (Stack.bottom set).capacity []) false e
  have halone : set.untraced.alone e pos = (set.alone e pos).map Outcome.untraced := by
    have hblank := hforgets ⟨pos, []⟩ (.start pos) (.blank set.input.size)
    rwa [Log.untraced_start, Memo.untraced_blank] at hblank
  rw [Setting.matchAt, Setting.matchAt, halone]
  cases set.alone e pos <;> rfl

theorem Iterated.of_untraced (h : Iterated set.untraced x step first pos k t) :
    Iterated set x step first pos k t := by
  induction h with
  | first h => exact .first (matchAt_untraced set ▸ h)
  | next _ hstep hmore ih => exact .next ih (matchAt_untraced set ▸ hstep) hmore

theorem Iterates.of_untraced {c : Cursor} {c? : Option Cursor}
    (h : Iterates set.untraced x step first c c?) : Iterates set x step first c c? := by
  obtain ⟨hfails, hmatched⟩ := h
  rw [matchAt_untraced] at hfails hmatched
  refine ⟨hfails, fun c' hc' => ?_⟩
  obtain ⟨k, t, hpush, hiter, hlast⟩ := hmatched c' hc'
  exact ⟨k, t, hpush, hiter.of_untraced, hlast⟩

end Match

namespace Grammar.IteratesLeft

open Evaluation Match.Session

variable {g : Grammar} {x : String} {step : List Expr} {first : Expr} {set : Setting}

theorem only_meaning_stays (g : Grammar) (S : String → Prop) :
    Meaning.Stays (g.only S).meaning g :=
  fun q cs t ht h0 => ((g.only S).meaning_stays q cs t ht h0).of_only

/-- An application of the rule under the frames iterates. -/
theorem application_under (h : set.grammar.IteratesLeft x step first) (hset : set.tracing = false)
    {depth : Nat} {frames : List Frame} {c : Cursor} {log : Log} {memo : Memo} {out : Match.Outcome}
    (hpos : set.input.Boundary c.pos)
    (htable : Table (set.grammar.only (ReflTransGen set.grammar.Calls x)) set.input frames memo)
    (hunder : (set.grammar.only (ReflTransGen set.grammar.Calls x)).Under frames (c.pos, x))
    (hout : ofRule set depth frames x c log memo = some out) :
    Iterates set x step first c out.cursor? := by
  obtain ⟨rule, hrule, -⟩ := h.declared
  obtain rfl := rule?_name hrule
  obtain ⟨cs, hleft⟩ := hpos.exists_left
  have hS := h.tame
  have happlied := fun {q} => h.applied_reachable (q := q)
  have hrule' := (only_rule? (g := set.grammar) (S := ReflTransGen set.grammar.Calls rule.name)
    .refl).trans hrule
  rw [(ofRule_tame hset hS .refl hrule hleft htable hunder hout).1, hS.loopsOnly.meaning_eq hrule',
    Rule.applied, Rule.described_tree?]
  refine Foretells.settled h hrule (meaning_fits _) (only_meaning_stays _ _) ⟨?_, fun n hn => ?_⟩ c rfl
  · refine matchAt_eq hset hS (fun q hq => happlied ?_) hleft
    rw [Expr.applied, Expr.appliedInAll]
    exact List.mem_append_left _ hq
  · have hstep := matchAt_eq (e := .seq step) hset hS (fun q hq => happlied ?_) (hleft.drop hn)
    · rwa [Expr.read] at hstep
    · rw [Expr.applied] at hq ⊢
      rw [Expr.appliedInAll]
      exact List.mem_append_right _ hq

/-- An application of the rule iterates: on its own at any place of any text, and at every moment of
every match in a session, as long as the rule is not being evaluated at that place already. -/
theorem applications_iterate (h : g.IteratesLeft x step first) :
    (∀ (input : Text.Input) (tracing : Bool) (depth pos : Nat) (out : Match.Outcome),
      input.Boundary pos →
        ofRule ⟨g, input, tracing⟩ depth [] x ⟨pos, []⟩ (.start pos) (.blank input.size) = some out →
          Iterates ⟨g, input, tracing⟩ x step first ⟨pos, []⟩ out.cursor?) ∧
    ∀ (ops : List Operation) (limit : Nat) (start : String) (m : Moment) (out : Match.Outcome),
      Reached ⟨g, (after g ops).input, false⟩ limit start (after g ops).memo m →
        m.task = .apply x → (m.cursor.pos, x) ∉ m.frames →
          m.outcome ⟨g, (after g ops).input, false⟩ = some out →
            Iterates ⟨g, (after g ops).input, false⟩ x step first m.cursor out.cursor? := by
  refine ⟨fun input tracing depth pos out hpos hout => ?_,
    fun ops limit start m out hm htask hnew hout => ?_⟩
  · have hforgets := ofRule_forgets ⟨g, input, tracing⟩ depth [] x ⟨pos, []⟩ (.start pos)
      (.blank input.size)
    rw [hout, Option.map_some, Log.untraced_start, Memo.untraced_blank] at hforgets
    have hiterates : Iterates (Setting.untraced ⟨g, input, tracing⟩) x step first ⟨pos, []⟩
        out.untraced.cursor? := application_under h rfl hpos (.blank _ input) (.nil _) hforgets
    exact hiterates.of_untraced
  · obtain ⟨⟨-, hintact⟩, htable, hrests⟩ := tells_after h.tame ops
    have hlasts : Lasting ⟨g, (after g ops).input, false⟩ g.Ordered _ := table_lasts rfl h.tame
    have hkeeps := hlasts.reached (admitting_ordered g) (starts_ordered g start) hintact
      ⟨htable, hrests⟩ hm
    obtain ⟨ends, hready⟩ := (hm.holds hintact).ready
    have hordered := hkeeps.admits
    rw [Moment.Admits, htask] at hordered
    rw [Moment.outcome, htask] at hout
    exact application_under h rfl hready.boundary
      hkeeps.kept.1 (h.tame.under .refl hordered hnew) hout

theorem applications_iterate_sums :
    sums.IteratesLeft "sum" [.terminal "+", .apply "digit"] (.apply "digit") ∧
    (∃ out, ofRule ⟨sums, .ofString "1+2+3", true⟩ 20 [] "sum" ⟨0, []⟩ (.start 0)
        (.blank (Text.Input.ofString "1+2+3").size) = some out ∧ out.cursor?.map (·.pos) = some 5 ∧
      Iterates ⟨sums, .ofString "1+2+3", true⟩ "sum" [.terminal "+", .apply "digit"] (.apply "digit")
        ⟨0, []⟩ out.cursor?) ∧
    ∃ m out, Reached ⟨sums, (after sums sumEdits).input, false⟩ nestingLimit "sum"
        (after sums sumEdits).memo m ∧ m.task = .apply "sum" ∧ (m.cursor.pos, "sum") ∉ m.frames ∧
      m.outcome ⟨sums, (after sums sumEdits).input, false⟩ = some out ∧
      out.cursor?.map (·.pos) = some 5 ∧
      Iterates ⟨sums, (after sums sumEdits).input, false⟩ "sum" [.terminal "+", .apply "digit"]
        (.apply "digit") m.cursor out.cursor? := by
  have hranked : sums.RankedBy ["mark"] ["mark", "digit", "sum"].idxOf := by decide +kernel
  have hlexical : isSyntactic "sum" = false := by decide +kernel
  have h : sums.IteratesLeft "sum" [.terminal "+", .apply "digit"] (.apply "digit") :=
    hranked.iteratesLeft ⟨_, List.mem_cons_self, rfl, rfl⟩ hlexical (by decide +kernel)
      (by decide +kernel)
  have hmatch : (ofRule ⟨sums, .ofString "1+2+3", true⟩ 20 [] "sum" ⟨0, []⟩ (.start 0)
      (.blank (Text.Input.ofString "1+2+3").size)).map (fun out => out.cursor?.map (·.pos)) =
        some (some 5) := by decide +kernel
  obtain ⟨out, hout, hpos⟩ := Option.map_eq_some_iff.mp hmatch
  have hagain : (ofRule ⟨sums, (after sums sumEdits).input, false⟩ nestingLimit [] "sum" ⟨0, []⟩
      (.start 0) (after sums sumEdits).memo).map (fun out => out.cursor?.map (·.pos)) =
        some (some 5) := by decide +kernel
  obtain ⟨out', hout', hpos'⟩ := Option.map_eq_some_iff.mp hagain
  refine ⟨h, ⟨out, hout, hpos, ?_⟩, ?_⟩
  · exact h.applications_iterate.1 _ true 20 0 out (Input.boundary_zero _) hout
  have happlied := h.applications_iterate.2 sumEdits nestingLimit "sum"
  generalize after sums sumEdits = s at hout' happlied ⊢
  have hreached : Reached ⟨sums, s.input, false⟩ nestingLimit "sum" s.memo
      ⟨nestingLimit, [], 0, .apply "sum", ⟨0, []⟩, .start 0, s.memo⟩ := by
    have hbefore : spaced (ofRule ⟨sums, s.input, false⟩ nestingLimit []) (isSyntactic "sum")
        (fun c log memo => some ⟨some c, log, memo⟩) ⟨0, []⟩ (.start 0) s.memo =
          some ⟨some ⟨0, []⟩, .start 0, s.memo⟩ := by
      rw [hlexical]
      rfl
    exact .begins (.start hbefore)
  exact ⟨_, out', hreached, rfl, List.not_mem_nil, hout', hpos',
    happlied _ out' hreached rfl List.not_mem_nil hout'⟩

end Grammar.IteratesLeft

end Pegboard
