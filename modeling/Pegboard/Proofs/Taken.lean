import Pegboard.Proofs.Found

/-!
# How a text is taken apart

The other way round from `Reads`: where an expression has taken the front of a text, `Took` says
which trees were found there and what is left, and for each form of expression how its parts came to
that. So a text that was parsed is taken apart step by step.

Main statement: `ParsedBy.took`, the body of a rule took what the tree of the rule covers.
-/

namespace Pegboard

open Text Reading

namespace Text

theorem append_inj_of_byteSize {front front' back back' : List Char}
    (h : front ++ back = front' ++ back') (hsize : byteSize front = byteSize front') :
    front = front' ∧ back = back' := by
  have hback : back = back' := by
    rw [← dropBytes_append front back, h, hsize, dropBytes_append]
  subst hback
  exact ⟨List.append_cancel_right h, rfl⟩

end Text

/-- Asked for the rule, the parser makes the tree of what stands in `cs` before `ds`. -/
structure Parser.Spans (p : Parser) (q : String) (cs ds : List Char) (s : Tree.Located) : Prop where
  left : s.input.LeftAt s.offset cs
  tree : (p q cs).1 = some s.tree
  split : ∃ front, cs = front ++ ds ∧ byteSize front = s.tree.length

/-- The reading takes what stands in `cs` before `ds`, and finds the trees. -/
def Reading.TakesTo (r : Reading) (i : Input) (cs ds : List Char) (ss : List Tree.Located) : Prop :=
  ∃ t offset front, r.taken? = some t ∧ i.LeftAt offset cs ∧ cs = front ++ ds ∧
    byteSize front = t.size ∧ ss = Tree.located i offset t.trees

/-- The expression takes what stands in `cs` before `ds`, and finds the trees. -/
def Took (p : Parser) (i : Input) (syntactic : Bool) (e : Expr) (cs ds : List Char)
    (ss : List Tree.Located) : Prop :=
  (e.read p.meaning syntactic cs).TakesTo i cs ds ss

namespace Reading.TakesTo

variable {r a : Reading} {i : Input} {cs ds : List Char} {ss : List Tree.Located}

theorem of_taken {t : Taken} {offset : Nat} (ht : r.taken? = some t) (hcut : Cuts cs t.size)
    (hleft : i.LeftAt offset cs) :
    r.TakesTo i cs (dropBytes cs t.size) (Tree.located i offset t.trees) :=
  let ⟨front, hfront, hsize⟩ := hcut.split
  ⟨t, offset, front, ht, hleft, hfront, hsize, rfl⟩

/-- What is left stands behind what was taken. -/
theorem left {offset : Nat} (h : r.TakesTo i cs ds ss) (hleft : i.LeftAt offset cs) :
    ∃ t, r.taken? = some t ∧ ds = dropBytes cs t.size ∧ i.LeftAt (offset + t.size) ds := by
  obtain ⟨t, -, front, ht, -, rfl, hsize, -⟩ := h
  have hdrop := hleft.drop ⟨front, ds, rfl, hsize⟩
  have hds : dropBytes (front ++ ds) t.size = ds := by
    rw [← hsize, dropBytes_append]
  exact ⟨t, ht, hds.symm, hds ▸ hdrop⟩

theorem suffix (h : r.TakesTo i cs ds ss) : ∃ front, cs = front ++ ds :=
  let ⟨_, _, front, _, _, hcs, _, _⟩ := h
  ⟨front, hcs⟩

/-- What was taken in two steps. -/
theorem andThen {next : Taken → Reading} (h : (a.andThen next).TakesTo i cs ds ss)
    (hcut : ∀ t, a.taken? = some t → Cuts cs t.size)
    (hcut' : ∀ t u, (next t).taken? = some u → Cuts (dropBytes cs t.size) u.size) :
    ∃ t cs' ss₁ ss₂, a.taken? = some t ∧ a.TakesTo i cs cs' ss₁ ∧ cs' = dropBytes cs t.size ∧
      (next t).TakesTo i cs' ds ss₂ ∧ ss = ss₁ ++ ss₂ := by
  obtain ⟨u, offset, front, hu, hleft, hcs, hsize, rfl⟩ := h
  cases ha : a.taken? with
  | none =>
      rw [andThen_of_none ha, ha] at hu
      cases hu
  | some t =>
      rw [andThen_of_some ha] at hu
      obtain ⟨v, hv, rfl⟩ := Option.map_eq_some_iff.mp hu
      have hdrop := hleft.drop (hcut t ha)
      obtain ⟨rest, hrest, hrestsize⟩ := (hcut' t v hv).split
      obtain ⟨passed, hpassed, hpassedsize⟩ := (hcut t ha).split
      refine ⟨t, _, _, Tree.located i (offset + t.size) v.trees, rfl,
        .of_taken ha (hcut t ha) hleft, rfl, ⟨v, offset + t.size, rest, hv, hdrop, ?_, hrestsize, rfl⟩, ?_⟩
      · -- both sides take as many bytes
        have heq : (passed ++ rest) ++ dropBytes (dropBytes cs t.size) v.size = front ++ ds := by
          rw [List.append_assoc, ← hrest, ← hpassed, hcs]
        have hbytes : byteSize (passed ++ rest) = byteSize front := by
          rw [byteSize_append, hpassedsize, hrestsize, hsize]
          rfl
        have hds : ds = dropBytes (dropBytes cs t.size) v.size := by
          rw [← dropBytes_append front ds, ← heq, ← hbytes, dropBytes_append]
        rw [hds]
        exact hrest
      · rw [Taken.append, Tree.located_append, Tree.located_shift]

theorem asTree {optional : Bool} :
    (r.asTree fun t => .iter optional t.size t.trees).TakesTo i cs ds ss ↔
      r.TakesTo i cs ds ss := by
  constructor
  · rintro ⟨t, offset, front, ht, hleft, hcs, hsize, rfl⟩
    obtain ⟨u, hu, rfl⟩ := Option.map_eq_some_iff.mp ht
    exact ⟨u, offset, front, hu, hleft, hcs, hsize, Tree.located_iter i offset u.size optional u.trees⟩
  · rintro ⟨u, offset, front, hu, hleft, hcs, hsize, rfl⟩
    refine ⟨_, offset, front, Option.map_eq_some_iff.mpr ⟨u, hu, rfl⟩, hleft, hcs, hsize, ?_⟩
    exact (Tree.located_iter i offset u.size optional u.trees).symm

/-- Nothing was taken. -/
theorem nothing (h : r.TakesTo i cs ds ss) (hr : ∀ t, r.taken? = some t → t = .nothing) :
    ds = cs ∧ ss = [] := by
  obtain ⟨t, offset, front, ht, -, rfl, hsize, rfl⟩ := h
  obtain rfl := hr t ht
  obtain rfl := byteSize_eq_zero_iff.mp hsize
  exact ⟨rfl, rfl⟩

/-- A piece of the text was taken. -/
theorem token {front back : List Char} (h : r.TakesTo i (front ++ back) ds ss)
    (hr : r.taken? = some (.ofTree (.terminal (byteSize front)))) : ds = back ∧ ss = [] := by
  obtain ⟨t, offset, front', ht, -, hcs, hsize, rfl⟩ := h
  obtain rfl := Option.some.inj (hr.symm.trans ht)
  exact ⟨(append_inj_of_byteSize hcs hsize.symm).2.symm, rfl⟩

end Reading.TakesTo

/-! ## Expressions -/

namespace Took

variable {p : Parser} {i : Input} {syntactic : Bool} {e : Expr} {es : List Expr} {q : String}
  {cs ds : List Char} {ss : List Tree.Located}

theorem suffix (h : Took p i syntactic e cs ds ss) : ∃ front, cs = front ++ ds :=
  Reading.TakesTo.suffix h

/-- An expression takes one front of a text only, with the same trees. -/
theorem unique {ds' : List Char} {ss' : List Tree.Located} (h : Took p i syntactic e cs ds ss)
    (h' : Took p i syntactic e cs ds' ss') : ds = ds' ∧ ss = ss' := by
  obtain ⟨t, offset, front, ht, hleft, rfl, hsize, rfl⟩ := h
  obtain ⟨t', offset', front', ht', hleft', hcs, hsize', rfl⟩ := h'
  obtain rfl := Option.some.inj (ht.symm.trans ht')
  have hoffset : offset = offset' := by
    have := hleft.size_eq
    have := hleft'.size_eq
    omega
  refine ⟨?_, by rw [hoffset]⟩
  rw [← dropBytes_append front ds, hcs, hsize, ← hsize', dropBytes_append]

theorem not_misses (h : Took p i syntactic e cs ds ss) : ¬ Misses p.meaning syntactic e cs := by
  obtain ⟨t, -, -, ht, -⟩ := h
  rw [Misses, ht]
  exact Option.some_ne_none t

/-! ### Characters and literals -/

theorem any (h : Took p i false .any cs ds ss) : ∃ c, cs = c :: ds ∧ ss = [] := by
  rw [Took, Expr.read, spaced_false] at h
  cases cs with
  | nil =>
      obtain ⟨t, -, -, ht, -⟩ := h
      cases ht
  | cons c cs =>
      have h : (Reading.any (c :: cs)).TakesTo i ([c] ++ cs) ds ss := h
      obtain ⟨rfl, rfl⟩ := h.token (by simp [Reading.any, Reading.token])
      exact ⟨c, rfl, rfl⟩

theorem range {lo hi : Char} (h : Took p i false (.range lo hi) cs ds ss) :
    ∃ c, (lo ≤ c ∧ c ≤ hi) ∧ cs = c :: ds ∧ ss = [] := by
  rw [Took, Expr.read, spaced_false] at h
  cases cs with
  | nil =>
      obtain ⟨t, -, -, ht, -⟩ := h
      cases ht
  | cons c cs =>
      rw [Reading.range] at h
      split at h
      · rename_i hc
        have h : (Reading.token c.utf8Size).TakesTo i ([c] ++ cs) ds ss := h
        obtain ⟨rfl, rfl⟩ := h.token (by simp [Reading.token])
        exact ⟨c, hc, rfl, rfl⟩
      · obtain ⟨t, -, -, ht, -⟩ := h
        cases ht

theorem terminal {s : String} (h : Took p i false (.terminal s) cs ds ss) :
    cs = s.toList ++ ds ∧ ss = [] := by
  rw [Took, Expr.read, spaced_false, Reading.terminal] at h
  split at h
  · rename_i hprefix
    obtain ⟨back, rfl⟩ := List.isPrefixOf_iff_prefix.mp hprefix
    obtain ⟨rfl, rfl⟩ := Reading.TakesTo.token h (by rw [byteSize_toList]; rfl)
    exact ⟨rfl, rfl⟩
  · obtain ⟨t, -, -, ht, -⟩ := h
    cases ht

theorem endOfInput (h : Took p i false .endOfInput cs ds ss) : cs = [] ∧ ds = [] ∧ ss = [] := by
  rw [Took, Expr.read, spaced_false] at h
  cases cs with
  | nil =>
      obtain ⟨rfl, rfl⟩ := h.nothing fun t ht => (Option.some.inj ht).symm
      exact ⟨rfl, rfl, rfl⟩
  | cons c cs =>
      obtain ⟨t, -, -, ht, -⟩ := h
      cases ht

/-! ### Behind spaces -/

theorem spaced (hp : p.Tidy) (he : e.consumesInput = true) (hne : e ≠ .apply "spaces")
    (h : Took p i true e cs ds ss) :
    ∃ blank cs', cs = blank ++ cs' ∧ Skips p.meaning blank cs' ∧ Took p i false e cs' ds ss := by
  rw [Took, Expr.read_true he hne, Reading.spaced, if_pos rfl] at h
  have hskipped : ∀ t, (Reading.spaces p.meaning cs).taken? = some t → Cuts cs t.size := by
    intro t ht
    cases ht
    cases htree : (p "spaces" cs).1 with
    | none => simpa [Application.reading, Parser.meaning, htree] using Cuts.zero cs
    | some t =>
        simpa [Application.reading, Parser.meaning, htree, Taken.ofTree] using (hp _ cs t htree).2
  obtain ⟨t, cs', ss₁, ss₂, ht, hspaces, rfl, htook, rfl⟩ := h.andThen hskipped fun t u hu =>
    (Expr.read_finds hp false e _ u hu).1
  obtain ⟨blank, hblank, hsize⟩ := (hskipped t ht).split
  obtain ⟨u, offset, -, hu, -, -, -, rfl⟩ := hspaces
  obtain rfl := Option.some.inj (ht.symm.trans hu)
  cases ht
  refine ⟨blank, _, hblank, ?_, htook⟩
  rw [Skips, ← hblank, hsize]
  simp [Application.reading, Taken.ofTree, Function.comp_def]

/-! ### Sequences and choices -/

theorem nil (h : Took p i syntactic (.seq []) cs ds ss) : ds = cs ∧ ss = [] := by
  rw [Took, Expr.read, Expr.readEach] at h
  exact h.nothing fun t ht => (Option.some.inj ht).symm

theorem cons (hp : p.Tidy) (h : Took p i syntactic (.seq (e :: es)) cs ds ss) :
    ∃ cs' ss₁ ss₂, Took p i syntactic e cs cs' ss₁ ∧ Took p i syntactic (.seq es) cs' ds ss₂ ∧
      ss = ss₁ ++ ss₂ := by
  rw [Took, Expr.read, Expr.readEach] at h
  obtain ⟨t, cs', ss₁, ss₂, -, hfirst, rfl, hrest, rfl⟩ := h.andThen
    (fun t ht => (Expr.read_finds hp syntactic e cs t ht).1)
    fun t u hu => (Expr.readEach_finds hp syntactic es _ u hu).1
  refine ⟨_, ss₁, ss₂, hfirst, ?_, rfl⟩
  rwa [Took, Expr.read]

theorem last (hp : p.Tidy) (h : Took p i syntactic (.seq [e]) cs ds ss) :
    Took p i syntactic e cs ds ss := by
  obtain ⟨cs', ss₁, ss₂, he, hrest, rfl⟩ := h.cons hp
  obtain ⟨rfl, rfl⟩ := hrest.nil
  rwa [List.append_nil]

/-- The first choice took the text, or it does not match and one of the others did. -/
theorem alt_cons (h : Took p i syntactic (.alt (e :: es)) cs ds ss) :
    Took p i syntactic e cs ds ss ∨
      Misses p.meaning syntactic e cs ∧ Took p i syntactic (.alt es) cs ds ss := by
  rw [Took, Expr.read, Expr.readFirst] at h
  cases ht : (e.read p.meaning syntactic cs).taken? with
  | some t =>
      rw [orElse_of_some ht] at h
      exact .inl h
  | none =>
      rw [orElse_of_none ht] at h
      have hmiss : Misses p.meaning syntactic e cs := by
        rwa [Misses]
      refine .inr ⟨hmiss, ?_⟩
      obtain ⟨u, offset, front, hu, hleft, hcs, hsize, rfl⟩ := h
      obtain ⟨v, hv, rfl⟩ := Option.map_eq_some_iff.mp hu
      rw [Took, Expr.read]
      refine ⟨v, offset, front, hv, hleft, hcs, ?_, ?_⟩
      · simpa [Taken.append, Taken.nothing] using hsize
      · simp [Taken.append, Taken.nothing]

theorem not_alt_nil : ¬ Took p i syntactic (.alt []) cs ds ss := by
  rintro ⟨t, -, -, ht, -⟩
  rw [Expr.read, Expr.readFirst] at ht
  cases ht

/-- One of the choices took the text, and those before it do not match. -/
theorem alt (h : Took p i syntactic (.alt es) cs ds ss) :
    ∃ before e after, es = before ++ e :: after ∧
      (∀ e' ∈ before, Misses p.meaning syntactic e' cs) ∧ Took p i syntactic e cs ds ss := by
  induction es with
  | nil => exact absurd h not_alt_nil
  | cons e es ih =>
      rcases h.alt_cons with h | ⟨hmiss, h⟩
      · exact ⟨[], e, es, rfl, by simp, h⟩
      · obtain ⟨before, e', after, rfl, hbefore, htook⟩ := ih h
        exact ⟨e :: before, e', after, rfl, List.forall_mem_cons.mpr ⟨hmiss, hbefore⟩, htook⟩

/-! ### Predicates -/

theorem not (h : Took p i syntactic (.not e) cs ds ss) :
    Misses p.meaning syntactic e cs ∧ ds = cs ∧ ss = [] := by
  rw [Took, Expr.read] at h
  cases ht : (e.read p.meaning syntactic cs).taken? with
  | some t =>
      obtain ⟨u, -, -, hu, -⟩ := h
      rw [negated, ht] at hu
      cases hu
  | none =>
      have hmiss : Misses p.meaning syntactic e cs := by
        rwa [Misses]
      refine ⟨hmiss, h.nothing fun t htaken => ?_⟩
      rw [negated, ht] at htaken
      exact (Option.some.inj htaken).symm

theorem look (hp : p.Tidy) (h : Took p i syntactic (.look e) cs ds ss) :
    ds = cs ∧ ss = [] ∧ ∃ ds' ss', Took p i syntactic e cs ds' ss' := by
  rw [Took, Expr.read] at h
  obtain ⟨t, offset, -, ht, hleft, -⟩ := id h
  obtain ⟨u, hu, -⟩ := Option.map_eq_some_iff.mp ht
  obtain ⟨rfl, rfl⟩ := h.nothing fun t ht => by
    obtain ⟨u, -, rfl⟩ := Option.map_eq_some_iff.mp ht
    rfl
  exact ⟨rfl, rfl, _, _, .of_taken hu (Expr.read_finds hp syntactic e _ u hu).1 hleft⟩

/-! ### Iterations -/

/-- An iteration ended, went on, or took one last round without moving. -/
theorem star (hp : p.Tidy) (h : Took p i syntactic (.iter .star e) cs ds ss) :
    (Misses p.meaning syntactic e cs ∧ ds = cs ∧ ss = []) ∨
      (∃ cs' ss₁ ss₂, Took p i syntactic e cs cs' ss₁ ∧ cs'.length < cs.length ∧
        Took p i syntactic (.iter .star e) cs' ds ss₂ ∧ ss = ss₁ ++ ss₂) ∨
      Took p i syntactic e cs cs ss ∧ ds = cs := by
  rw [Took, Expr.read, iterated, Reading.TakesTo.asTree] at h
  cases ht : (e.read p.meaning syntactic cs).taken? with
  | none =>
      rw [rounds_of_none ht, if_pos (by decide)] at h
      have hmiss : Misses p.meaning syntactic e cs := by
        rwa [Misses]
      exact .inl ⟨hmiss, h.nothing fun t ht => (Option.some.inj ht).symm⟩
  | some t =>
      have hcut := (Expr.read_finds hp syntactic e cs t ht).1
      by_cases hmore : 0 < t.size ∧ cs ≠ []
      · have hrest := dropBytes_length_lt hmore.2 hmore.1
        rw [rounds_more ht ⟨by decide, hmore⟩, ← andThen_of_some ht (fun t => rounds .star
          (e.read p.meaning syntactic) true (dropBytes cs t.size))] at h
        obtain ⟨u, cs', ss₁, ss₂, hu, hfirst, rfl, hrounds, rfl⟩ := h.andThen
          (fun u hu => Option.some.inj (ht.symm.trans hu) ▸ hcut) fun u v hv =>
            (Finds.rounds (fun cs => Expr.read_finds hp syntactic e cs) (by decide) _ v hv).1
        obtain rfl := Option.some.inj (ht.symm.trans hu)
        refine .inr (.inl ⟨_, ss₁, ss₂, hfirst, hrest, ?_, rfl⟩)
        rwa [Took, Expr.read, iterated, Reading.TakesTo.asTree]
      · rw [rounds_last ht fun hall => hmore hall.2] at h
        have hzero : t.size = 0 := by
          by_contra hpos
          obtain rfl : cs = [] := not_not.mp fun hne => hmore ⟨by omega, hne⟩
          have := hcut.le
          simp at this
          exact hpos this
        obtain ⟨u, offset, front, hu, hleft, rfl, hsize, rfl⟩ := h
        obtain rfl := Option.some.inj (ht.symm.trans hu)
        obtain rfl := byteSize_eq_zero_iff.mp (hsize.trans hzero)
        exact .inr (.inr ⟨⟨t, offset, [], ht, hleft, rfl, hsize, rfl⟩, rfl⟩)

/-- What holds at the end of an iteration and is kept by each of its steps, from the last one to the
first, holds of the whole, if every step moves on. -/
theorem star_induction (hp : p.Tidy) {P : List Char → List Tree.Located → Prop}
    (hmoves : ∀ cs ss, ¬ Took p i syntactic e cs cs ss)
    (base : Misses p.meaning syntactic e ds → P ds [])
    (step : ∀ cs cs' ss₁ ss₂, Took p i syntactic e cs cs' ss₁ → P cs' ss₂ → P cs (ss₁ ++ ss₂))
    (h : Took p i syntactic (.iter .star e) cs ds ss) : P cs ss := by
  induction hlen : cs.length using Nat.strong_induction_on generalizing cs ss with
  | _ n ih =>
      subst hlen
      rcases h.star hp with ⟨hmiss, rfl, rfl⟩ | ⟨cs', ss₁, ss₂, hfirst, hlt, hrest, rfl⟩ |
        ⟨hstay, rfl⟩
      · exact base hmiss
      · exact step _ _ _ _ hfirst (ih _ hlt hrest rfl)
      · exact absurd hstay (hmoves _ _)

/-- An iteration that matched at least once went on from there, or took one round without moving. -/
theorem plus (hp : p.Tidy) (h : Took p i syntactic (.iter .plus e) cs ds ss) :
    (∃ cs' ss₁ ss₂, Took p i syntactic e cs cs' ss₁ ∧
      Took p i syntactic (.iter .star e) cs' ds ss₂ ∧ ss = ss₁ ++ ss₂) ∨
      Took p i syntactic e cs cs ss ∧ ds = cs := by
  rw [Took, Expr.read, iterated, Reading.TakesTo.asTree] at h
  cases ht : (e.read p.meaning syntactic cs).taken? with
  | none =>
      obtain ⟨t, -, -, htaken, -⟩ := h
      rw [rounds_of_none ht, if_neg (by decide), ht] at htaken
      cases htaken
  | some t =>
      rw [show (Repeat.plus != .plus) = false from rfl] at h
      have hstar : (rounds .plus (e.read p.meaning syntactic) false cs).taken? =
          (rounds .star (e.read p.meaning syntactic) true cs).taken? := by
        rw [Reading.Takes.rounds_plus]
        by_cases hmore : 0 < t.size ∧ cs ≠ []
        · rw [rounds_more ht ⟨by decide, hmore⟩, rounds_more ht ⟨by decide, hmore⟩]
        · rw [rounds_last ht fun hall => hmore hall.2, rounds_last ht fun hall => hmore hall.2]
      have hall : Took p i syntactic (.iter .star e) cs ds ss := by
        rw [Took, Expr.read, iterated, Reading.TakesTo.asTree, Reading.TakesTo,
          show (Repeat.star != .plus) = true from rfl, ← hstar]
        exact h
      rcases hall.star hp with ⟨hmiss, -⟩ | ⟨cs', ss₁, ss₂, hfirst, -, hrest, rfl⟩ | hstay
      · rw [Misses, ht] at hmiss
        cases hmiss
      · exact .inl ⟨cs', ss₁, ss₂, hfirst, hrest, rfl⟩
      · exact .inr hstay

theorem opt (h : Took p i syntactic (.iter .opt e) cs ds ss) :
    (Misses p.meaning syntactic e cs ∧ ds = cs ∧ ss = []) ∨ Took p i syntactic e cs ds ss := by
  rw [Took, Expr.read, iterated, Reading.TakesTo.asTree] at h
  cases ht : (e.read p.meaning syntactic cs).taken? with
  | none =>
      rw [rounds_of_none ht, if_pos (by decide)] at h
      have hmiss : Misses p.meaning syntactic e cs := by
        rwa [Misses]
      exact .inl ⟨hmiss, h.nothing fun t ht => (Option.some.inj ht).symm⟩
  | some t =>
      rw [rounds_last ht fun hall => hall.1 rfl] at h
      exact .inr h

theorem lex (h : Took p i syntactic (.lex e) cs ds ss) : Took p i false e cs ds ss := by
  rwa [Took, Expr.read] at h

/-! ### Rules -/

theorem apply (h : Took p i false (.apply q) cs ds ss) (hp : p.Tidy) :
    ∃ s, ss = [s] ∧ s.input = i ∧ p.Spans q cs ds s := by
  rw [Took, Expr.read, Bool.false_and, spaced_false] at h
  obtain ⟨t, offset, front, ht, hleft, hcs, hsize, rfl⟩ := h
  obtain ⟨tree, htree, rfl⟩ := Option.map_eq_some_iff.mp ht
  have hrule := (hp q cs tree htree).1
  exact ⟨⟨tree, offset, i⟩, Tree.located_rule hrule i offset 0, rfl, hleft, htree, front, hcs, hsize⟩

end Took

namespace Grammar.ParsedBy

variable {g : Grammar} {p : Parser} {q : String} {e : Expr} {syntactic : Bool} {cs ds : List Char}
  {s : Tree.Located}

/-- What the tree of a rule covers was taken by the body of the rule, and the applications below the
tree were found in it. -/
theorem took (hp : g.ParsedBy p) (hbody : g.HasBody q syntactic e) (h : p.Spans q cs ds s) :
    Took p s.input syntactic e cs ds s.applications := by
  obtain ⟨-, rule, hrule, rfl, rfl⟩ := hbody
  obtain ⟨hleft, htree, front, hcs, hsize⟩ := h
  obtain ⟨rule', n, trees, hrule', hs, htaken⟩ := hp.body_took htree
  obtain rfl := Option.some.inj (hrule.symm.trans hrule')
  refine ⟨_, s.offset, front, htaken, hleft, hcs, ?_, ?_⟩
  · rw [hsize, hs]
    rfl
  · rw [Tree.Located.applications, hs]
    rfl

end Grammar.ParsedBy

/-! ## Whole texts -/

section

variable {p : Parser} {q text : String} {root : Tree.Located}

/-- The root of a result is what the rule took of the text, up to its end. -/
theorem Parser.Tidy.took_root (hp : p.Tidy) (h : (p.result q text).root? = some root) :
    root.input = .ofString text ∧
      ∃ ds, Took p (.ofString text) (isSyntactic q) (.whole q) text.toList ds [root] := by
  obtain ⟨hinput, t, ht, hlocated⟩ := hp.read_root h
  have htook := Reading.TakesTo.of_taken ht (Expr.read_finds hp _ _ _ t ht).1
    (.start (.ofString text))
  rw [hlocated] at htook
  exact ⟨hinput, _, htook⟩

/-- The root of a lexical rule covers the whole text. -/
theorem Parser.Tidy.spans_root (hp : p.Tidy) (hq : isSyntactic q = false)
    (h : (p.result q text).root? = some root) :
    root.input = .ofString text ∧ p.Spans q text.toList [] root := by
  obtain ⟨hinput, ds, htook⟩ := hp.took_root h
  rw [hq] at htook
  obtain ⟨cs', ss₁, ss₂, hrule, hend, hss⟩ := htook.cons hp
  obtain ⟨rfl, -, rfl⟩ := (hend.last hp).endOfInput
  obtain ⟨s, rfl, -, hspans⟩ := hrule.apply hp
  obtain rfl : root = s := by simpa using hss
  exact ⟨hinput, hspans⟩

/-- A lexical rule that parses a whole text is at the root of its result. -/
theorem Parser.Parses.root_of_lexical {P : Tree.Property} (h : p.Parses q text.toList [] P)
    (hq : isSyntactic q = false) : ∃ t, (p.result q text).root? = some t ∧ P t := by
  rw [Parses] at h
  obtain ⟨-, trees, htree, hP⟩ := h
  rw [List.append_nil] at htree hP
  let t : Tree := .rule q (byteSize text.toList) trees
  have hrule : ((Expr.apply q).read p.meaning false text.toList).taken? = some (.ofTree t) := by
    rw [Expr.read, Bool.false_and, spaced_false, Application.reading, Parser.meaning, htree]
    rfl
  have hnothing : dropBytes text.toList (byteSize text.toList) = [] := by
    simpa using dropBytes_append text.toList []
  refine ⟨⟨t, 0, .ofString text⟩, ?_, hP _ 0 (.start _)⟩
  rw [Parser.result, hq, Expr.whole, Match.Result.root?, Reading.tree?, Expr.read, Expr.readEach,
    andThen_of_some hrule]
  simp only [Reading.followed, Taken.ofTree, t, Tree.length, hnothing, Expr.readEach, Expr.read,
    spaced_false, Reading.endOfInput]
  rfl

end

namespace Parser.Spans

variable {p : Parser} {q : String} {cs ds front : List Char} {s : Tree.Located}

theorem rule? (h : p.Spans q cs ds s) (hp : p.Tidy) : s.tree.rule? = some q :=
  (hp q cs s.tree h.tree).1

/-- The tree covers the text that it was made of. -/
theorem text (h : p.Spans q (front ++ ds) ds s) : s.text = .ofList front := by
  obtain ⟨front', hcs, hsize⟩ := h.split
  obtain rfl := List.append_cancel_right hcs
  exact Tree.Located.text_eq h.left hsize.symm

/-- A tree that was made of the text is what the rule parses there. -/
theorem of_parses {P : Tree.Property} {back : List Char} (h : p.Spans q (front ++ back) ds s)
    (hparses : p.Parses q front back P) : ds = back ∧ P s := by
  obtain ⟨hleft, htree, front', hcs, hsize⟩ := h
  rw [Parses] at hparses
  obtain ⟨-, trees, hparsed, hP⟩ := hparses
  have heq : s.tree = .rule q (byteSize front) trees := Option.some.inj (htree.symm.trans hparsed)
  refine ⟨(append_inj_of_byteSize hcs ?_).2.symm, ?_⟩
  · rw [hsize, heq]
    rfl
  · obtain ⟨tree, offset, input⟩ := s
    obtain rfl : tree = _ := heq
    exact hP input offset hleft

theorem not_fails (h : p.Spans q cs ds s) : ¬ p.Fails q cs := by
  intro hfails
  rw [Fails] at hfails
  cases hfails.2.symm.trans h.tree

end Parser.Spans

/-- What a tree covers of the text is in a language that the rule covers. -/
theorem Covers.text_spans {p : Parser} {q : String} {L : Language Char} {cs ds : List Char}
    {s : Tree.Located} (h : Covers p.meaning (.apply q) L) (hs : p.Spans q cs ds s) :
    ∃ front ∈ L, cs = front ++ ds ∧ s.text = .ofList front := by
  have htaken : ((Expr.apply q).read p.meaning false cs).taken? = some (.ofTree s.tree) := by
    rw [Expr.read, Bool.false_and, Reading.spaced_false, Application.reading, Parser.meaning,
      hs.tree]
    rfl
  obtain ⟨front, hfront, back, hcs, hsize⟩ := h cs _ htaken
  obtain ⟨front', rfl, hsize'⟩ := hs.split
  obtain ⟨rfl, rfl⟩ := append_inj_of_byteSize hcs (hsize'.trans hsize.symm)
  exact ⟨_, hfront, rfl, hs.text⟩

end Pegboard
