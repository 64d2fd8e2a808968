import Pegboard.Proofs.Grammar.Rows

/-!
# Courses of steps

What a text is read into, told from where it begins and where it ends: `Leads` for expressions,
`Yields` for rules. In a `Course` the steps of a rule lead from one place to the next, spaces skipped
before each of them; so a rule that is a row of steps is parsed.
-/

namespace Pegboard

open Text Reading

/-- The expression takes what stands in `cs` before `ds`, and the properties hold of the applications
that it finds. -/
def Leads (p : Parser) (syntactic : Bool) (e : Expr) (cs ds : List Char)
    (Ps : List Tree.Property) : Prop :=
  ∃ front, cs = front ++ ds ∧ Reads p.meaning syntactic e front ds Ps

/-- The rule parses what stands in `cs` before `ds` into a tree that has the property. -/
def Parser.Yields (p : Parser) (q : String) (cs ds : List Char) (P : Tree.Property) : Prop :=
  ∃ front, cs = front ++ ds ∧ p.Parses q front ds P

/-- The steps lead from `cs` to `ds`, spaces skipped before each of them, and the properties hold of
the trees. -/
inductive Course (p : Parser) :
    List Step → List Char → List Char → List Tree.Property → Prop
  | nil (cs : List Char) : Course p [] cs cs []
  | mark {s : String} {w : List Step} {cs cs' ds : List Char} {Ps : List Tree.Property}
      (h : skip cs = s.toList ++ cs') (hs : Course p w cs' ds Ps) :
      Course p (.mark s :: w) cs ds Ps
  | rule {q : String} {w : List Step} {cs cs' ds : List Char} {P : Tree.Property}
      {Ps : List Tree.Property} (h : p.Yields q (skip cs) cs' P) (hs : Course p w cs' ds Ps) :
      Course p (.rule q :: w) cs ds (P :: Ps)

/-- A step as an expression. -/
def Step.expr : Step → Expr
  | .mark s => .terminal s
  | .rule q => .apply q

variable {p : Parser} {syntactic : Bool} {e : Expr} {es : List Expr} {q s : String}
  {v w : List Step} {cs cs' ds : List Char} {P : Tree.Property} {Ps Qs Rs : List Tree.Property}

namespace Leads

theorem suffix (h : Leads p syntactic e cs ds Ps) : ds <:+ cs :=
  let ⟨front, hcs, _⟩ := h
  ⟨front, hcs.symm⟩

theorem not_misses (h : Leads p syntactic e cs ds Ps) : ¬ Misses p.meaning syntactic e cs := by
  obtain ⟨front, rfl, hread⟩ := h
  exact hread.not_misses

theorem nil (cs : List Char) : Leads p syntactic (.seq []) cs cs [] :=
  ⟨[], rfl, .nil cs⟩

theorem cons (h : Leads p syntactic e cs cs' Ps) (hs : Leads p syntactic (.seq es) cs' ds Qs) :
    Leads p syntactic (.seq (e :: es)) cs ds (Ps ++ Qs) := by
  obtain ⟨front, rfl, hread⟩ := h
  obtain ⟨front', rfl, hreads⟩ := hs
  exact ⟨front ++ front', (List.append_assoc _ _ _).symm, hread.cons hreads⟩

theorem last (h : Leads p syntactic e cs ds Ps) : Leads p syntactic (.seq [e]) cs ds Ps :=
  let ⟨front, hcs, hread⟩ := h
  ⟨front, hcs, hread.last⟩

theorem first (h : Leads p syntactic e cs ds Ps) : Leads p syntactic (.alt (e :: es)) cs ds Ps :=
  let ⟨front, hcs, hread⟩ := h
  ⟨front, hcs, hread.first⟩

theorem later (h : Misses p.meaning syntactic e cs) (hs : Leads p syntactic (.alt es) cs ds Ps) :
    Leads p syntactic (.alt (e :: es)) cs ds Ps := by
  obtain ⟨front, rfl, hread⟩ := hs
  exact ⟨front, rfl, .later h hread⟩

/-- A choice leads where one of its parts leads, if those before it do not match. -/
theorem alt {before after : List Expr} (hbefore : ∀ e ∈ before, Misses p.meaning syntactic e cs)
    (h : Leads p syntactic e cs ds Ps) :
    Leads p syntactic (.alt (before ++ e :: after)) cs ds Ps := by
  induction before with
  | nil => exact h.first
  | cons e' before ih =>
      obtain ⟨he', hbefore⟩ := List.forall_mem_cons.mp hbefore
      exact later he' (ih hbefore)

theorem not (h : Misses p.meaning syntactic e cs) : Leads p syntactic (.not e) cs cs [] :=
  ⟨[], rfl, .not h⟩

theorem look (h : Leads p syntactic e cs ds Ps) : Leads p syntactic (.look e) cs cs [] := by
  obtain ⟨front, rfl, hread⟩ := h
  exact ⟨[], rfl, hread.look⟩

theorem star_end (h : Misses p.meaning syntactic e cs) :
    Leads p syntactic (.iter .star e) cs cs [] :=
  ⟨[], rfl, .star_end h⟩

theorem star_more (h : Leads p syntactic e cs cs' Ps) (hne : cs' ≠ cs)
    (hs : Leads p syntactic (.iter .star e) cs' ds Qs) :
    Leads p syntactic (.iter .star e) cs ds (Ps ++ Qs) := by
  obtain ⟨front, rfl, hread⟩ := h
  obtain ⟨front', rfl, hreads⟩ := hs
  refine ⟨front ++ front', (List.append_assoc _ _ _).symm, .star_more ?_ hread hreads⟩
  rintro rfl
  exact hne rfl

theorem plus (h : Leads p syntactic e cs cs' Ps) (hne : cs' ≠ cs)
    (hs : Leads p syntactic (.iter .star e) cs' ds Qs) :
    Leads p syntactic (.iter .plus e) cs ds (Ps ++ Qs) := by
  obtain ⟨front, rfl, hread⟩ := h
  obtain ⟨front', rfl, hreads⟩ := hs
  refine ⟨front ++ front', (List.append_assoc _ _ _).symm, .plus ?_ hread hreads⟩
  rintro rfl
  exact hne rfl

theorem opt (h : Leads p syntactic e cs ds Ps) : Leads p syntactic (.iter .opt e) cs ds Ps :=
  let ⟨front, hcs, hread⟩ := h
  ⟨front, hcs, hread.opt⟩

theorem opt_none (h : Misses p.meaning syntactic e cs) : Leads p syntactic (.iter .opt e) cs cs [] :=
  ⟨[], rfl, .opt_none h⟩

/-- A sequence does not match where its first part leads to a place where the others do not. -/
theorem misses_tail (h : Leads p syntactic e cs cs' Ps)
    (hs : Misses p.meaning syntactic (.seq es) cs') :
    Misses p.meaning syntactic (.seq (e :: es)) cs := by
  obtain ⟨front, rfl, hread⟩ := h
  exact hread.tail hs

theorem misses_not (h : Leads p syntactic e cs ds Ps) : Misses p.meaning syntactic (.not e) cs := by
  obtain ⟨front, rfl, hread⟩ := h
  exact .not hread

theorem terminal (hcs : cs = s.toList ++ ds) : Leads p false (.terminal s) cs ds [] :=
  ⟨s.toList, hcs, .terminal rfl ds⟩

end Leads

/-- An expression takes one front of a text only. -/
theorem Took.of_leads {i : Input} {ds' : List Char} {ss : List Tree.Located}
    (h : Took p i syntactic e cs ds ss) (h' : Leads p syntactic e cs ds' Ps) :
    ds = ds' ∧ Tree.Each ss Ps := by
  obtain ⟨t, offset, front, ht, hleft, hcs, hsize, rfl⟩ := h
  obtain ⟨front', hcs', hread⟩ := h'
  rw [Reads, ← hcs'] at hread
  obtain ⟨trees, ht', hPs⟩ := hread
  obtain rfl := Option.some.inj (ht.symm.trans ht')
  exact ⟨(append_inj_of_byteSize (hcs.symm.trans hcs') hsize).2, hPs i offset (hcs' ▸ hleft)⟩

theorem Parser.Parses.rule? {front back : List Char} (h : p.Parses q front back P) :
    p.Parses q front back fun s => s.tree.rule? = some q := by
  rw [Parses] at *
  obtain ⟨hq, trees, htree, -⟩ := h
  exact ⟨hq, trees, htree, fun _ _ _ => rfl⟩

namespace Parser.Yields

theorem suffix (h : p.Yields q cs ds P) : ds <:+ cs :=
  let ⟨front, hcs, _⟩ := h
  ⟨front, hcs.symm⟩

theorem mono {Q : Tree.Property} (h : p.Yields q cs ds P) (hPQ : ∀ s, P s → Q s) :
    p.Yields q cs ds Q := by
  obtain ⟨front, hcs, hparses⟩ := h
  rw [Parses] at hparses
  obtain ⟨hq, trees, htree, hP⟩ := hparses
  refine ⟨front, hcs, ?_⟩
  rw [Parses]
  exact ⟨hq, trees, htree, fun input offset hleft => hPQ _ (hP input offset hleft)⟩

theorem leads (h : p.Yields q cs ds P) : Leads p false (.apply q) cs ds [P] :=
  let ⟨front, hcs, hparses⟩ := h
  ⟨front, hcs, hparses.reads⟩

theorem not_fails (h : p.Yields q cs ds P) : ¬ p.Fails q cs :=
  fun hfails => h.leads.not_misses hfails.misses

/-- In a text of its own, what a rule parses is the tree of that text. -/
theorem spans (h : p.Yields q cs ds P) : ∃ s, p.Spans q cs ds s ∧ P s := by
  obtain ⟨front, rfl, hparses⟩ := h
  rw [Parser.Parses] at hparses
  obtain ⟨-, trees, htree, hP⟩ := hparses
  let i : Input := .ofString (.ofList (front ++ ds))
  have hleft : i.LeftAt 0 (front ++ ds) := by
    have htext : i.text.toList = front ++ ds := by simp [i]
    exact htext ▸ Input.LeftAt.start i
  exact ⟨⟨.rule q (byteSize front) trees, 0, i⟩, ⟨hleft, htree, front, rfl, rfl⟩, hP i 0 hleft⟩

/-- A tree that was made of the text is what the rule parses there. -/
theorem of_spans {ds' : List Char} {s : Tree.Located} (h : p.Yields q cs ds P)
    (hspans : p.Spans q cs ds' s) : ds' = ds ∧ P s := by
  obtain ⟨front, rfl, hparses⟩ := h
  exact hspans.of_parses hparses

/-- A rule parses one front of a text only. -/
theorem unique {ds' : List Char} {Q : Tree.Property} (h : p.Yields q cs ds P)
    (h' : p.Yields q cs ds' Q) : ds = ds' := by
  obtain ⟨front, rfl, hparses⟩ := h
  obtain ⟨front', hcs, hparses'⟩ := h'
  rw [Parser.Parses] at hparses hparses'
  obtain ⟨-, trees, htree, -⟩ := hparses
  obtain ⟨-, trees', htree', -⟩ := hparses'
  rw [← hcs, htree] at htree'
  exact (append_inj_of_byteSize hcs (congrArg Tree.length (Option.some.inj htree'))).2

end Parser.Yields

/-- A rule parses a front of the text, or it does not match. -/
theorem Parser.Tidy.yields_or_fails (hp : p.Tidy) (hq : q ≠ "spaces") (cs : List Char) :
    (∃ ds, p.Yields q cs ds fun s => s.tree.rule? = some q) ∨ p.Fails q cs := by
  cases htree : (p q cs).1 with
  | none =>
      rw [Parser.Fails]
      exact .inr ⟨hq, htree⟩
  | some t =>
      obtain ⟨hrule, hcut⟩ := hp q cs t htree
      obtain ⟨front, hfront, hsize⟩ := hcut.split
      cases t with
      | terminal | iter => cases hrule
      | rule name n trees =>
          obtain rfl : name = q := Option.some.inj hrule
          obtain rfl : byteSize front = n := hsize
          refine .inl ⟨_, front, hfront, ?_⟩
          rw [Parser.Parses, ← hfront]
          exact ⟨hq, trees, htree, fun _ _ _ => rfl⟩

namespace Course

theorem split (h : Course p (v ++ w) cs ds Rs) : ∃ cs' Ps Qs, Course p v cs cs' Ps ∧
    Course p w cs' ds Qs ∧ Rs = Ps ++ Qs := by
  induction v generalizing cs Rs with
  | nil => exact ⟨cs, [], Rs, .nil cs, h, rfl⟩
  | cons x v ih =>
      cases h with
      | mark hskip hrest =>
          obtain ⟨cs', Ps, Qs, hv, hw, rfl⟩ := ih hrest
          exact ⟨cs', Ps, Qs, .mark hskip hv, hw, rfl⟩
      | rule hyields hrest =>
          obtain ⟨cs', Ps, Qs, hv, hw, rfl⟩ := ih hrest
          exact ⟨cs', _ :: Ps, Qs, .rule hyields hv, hw, rfl⟩

end Course

namespace Grammar.ParsedBy

variable (hp : ofGrammars.ParsedBy p)

include hp

theorem yields (hbody : ofGrammars.HasBody q syntactic e) (h : Leads p syntactic e cs ds Ps)
    (hP : ∀ s : Tree.Located, s.tree.rule? = some q → Tree.Each s.applications Ps → P s) :
    p.Yields q cs ds P :=
  let ⟨front, hcs, hread⟩ := h
  ⟨front, hcs, hp.parses hbody hread fun s hrule _ happs => hP s hrule happs⟩

/-- A rule that never matches nothing goes on. -/
theorem yields_ne (hq : q ∉ Source.staying) (h : p.Yields q cs ds P) : ds ≠ cs := by
  rintro rfl
  obtain ⟨front, hcs, hparses⟩ := h
  obtain rfl : front = [] := List.self_eq_append_left.mp hcs
  rw [Parser.Parses] at hparses
  obtain ⟨-, trees, htree, -⟩ := hparses
  rw [hp.unique acyclic_ofGrammars] at htree
  have hstays := (meaning_stays ofGrammars q _ _ htree rfl).staysIf fun rule hrule =>
    (Source.rankedBy_order rule hrule).1
  exact hq (List.contains_iff_mem.mp hstays)

/-! ## Behind spaces -/

theorem leads_skip (he : e.consumesInput = true) (hne : e ≠ .apply "spaces")
    (h : Leads p false e (skip cs) ds Ps) : Leads p true e cs ds Ps := by
  obtain ⟨blank, hcs, hskips⟩ := hp.skips_skip cs
  obtain ⟨front, hfront, hread⟩ := h
  rw [hfront] at hcs hskips
  exact ⟨blank ++ front, by rw [hcs, List.append_assoc], hread.spaced he hne hskips⟩

theorem misses_skip (he : e.consumesInput = true) (hne : e ≠ .apply "spaces")
    (h : Misses p.meaning false e (skip cs)) : Misses p.meaning true e cs := by
  obtain ⟨blank, hcs, hskips⟩ := hp.skips_skip cs
  rw [hcs]
  exact h.spaced he hne hskips

theorem leads_mark (h : skip cs = s.toList ++ ds) : Leads p true (.terminal s) cs ds [] :=
  hp.leads_skip rfl (by simp) (.terminal h)

theorem misses_mark (h : ¬ s.toList <+: skip cs) : Misses p.meaning true (.terminal s) cs := by
  refine hp.misses_skip rfl (by simp) (.terminal ?_)
  exact Bool.eq_false_iff.mpr fun hprefix => h (List.isPrefixOf_iff_prefix.mp hprefix)

/-- A mark misses where the text goes on with another character. -/
theorem misses_mark_of_head {d : Char} (hs : s.toList.head? = some d)
    (h : (skip cs).head? ≠ some d) : Misses p.meaning true (.terminal s) cs :=
  hp.misses_skip rfl (by simp) (.terminal_of_head hs h)

theorem leads_rule (h : p.Yields q (skip cs) ds P) : Leads p true (.apply q) cs ds [P] := by
  have hne : q ≠ "spaces" := by
    obtain ⟨front, -, hparses⟩ := h
    rw [Parser.Parses] at hparses
    exact hparses.1
  exact hp.leads_skip rfl (fun heq => hne (Expr.apply.inj heq)) h.leads

theorem misses_rule (h : p.Fails q (skip cs)) : Misses p.meaning true (.apply q) cs := by
  have hne : q ≠ "spaces" := by
    rw [Parser.Fails] at h
    exact h.1
  exact hp.misses_skip rfl (fun heq => hne (Expr.apply.inj heq)) h.misses

/-- The steps of a course, put in sequence. -/
theorem leads_course (h : Course p w cs ds Ps) :
    Leads p true (.seq (w.map Step.expr)) cs ds Ps := by
  induction h with
  | nil cs => exact .nil cs
  | mark hskip _ ih => exact (hp.leads_mark hskip).cons ih
  | rule hyields _ ih => exact (hp.leads_rule hyields).cons ih

end Grammar.ParsedBy

end Pegboard
