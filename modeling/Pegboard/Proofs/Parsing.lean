import Mathlib.Data.List.Forall2
import Pegboard.Proofs.Grammar.Rules
import Pegboard.Proofs.Memoization
import Pegboard.Proofs.Tree

/-!
# What a parser takes from a text

`Reads` says that an expression takes some characters off the front of a text, and what is true of
the rule applications found there, in order; `Misses` says that it does not match. For each form of
expression there are the steps by which it reads and by which it misses, so that a text is parsed by
putting these steps together. Where spaces are skipped, `Skips` says which.

Main statements: `ParsedBy.parses` and `ParsedBy.fails`, a rule parses what its body reads.
-/

namespace Pegboard

open Text

/-- What is said of a tree at its place. -/
abbrev Tree.Property := Tree.Located → Prop

/-- The properties hold of the trees, one of each. -/
abbrev Tree.Each (ss : List Tree.Located) (Ps : List Tree.Property) : Prop :=
  List.Forall₂ (fun s P => P s) ss Ps

theorem Tree.each_singleton {ss : List Tree.Located} {P : Tree.Property} (h : Tree.Each ss [P]) :
    ∃ s, ss = [s] ∧ P s := by
  obtain ⟨s, rest, hs, hrest, rfl⟩ := List.forall₂_cons_right_iff.mp h
  obtain rfl := List.forall₂_nil_right_iff.mp hrest
  exact ⟨s, rfl, hs⟩

theorem Tree.rule?_of_each {α : Type} {F : α → Tree.Property} {xs : List α}
    {ss : List Tree.Located} {q : String} (hF : ∀ x s, F x s → s.tree.rule? = some q)
    (h : Tree.Each ss (xs.map F)) : ∀ s ∈ ss, s.tree.rule? = some q := by
  induction xs generalizing ss with
  | nil =>
      obtain rfl := List.forall₂_nil_right_iff.mp h
      nofun
  | cons x xs ih =>
      obtain ⟨s, rest, hs, hrest, rfl⟩ := List.forall₂_cons_right_iff.mp h
      exact List.forall_mem_cons.mpr ⟨hF x s hs, ih hrest⟩

/-- The rule applications among trees at an offset of a text. -/
def Tree.located (input : Input) (offset : Nat) (trees : List (Nat × Tree)) : List Tree.Located :=
  (applicationsBelow offset trees).map fun (o, s) => ⟨s, o, input⟩

theorem Tree.located_append (input : Input) (offset : Nat) (ts us : List (Nat × Tree)) :
    located input offset (ts ++ us) = located input offset ts ++ located input offset us := by
  rw [located, applicationsBelow_append, List.map_append, located, located]

theorem Tree.located_shift (input : Input) (offset n : Nat) (ts : List (Nat × Tree)) :
    located input offset (ts.map fun (o, t) => (n + o, t)) = located input (offset + n) ts := by
  rw [located, applicationsBelow_shift, located]

/-- The applications in an iteration are those of its steps. -/
theorem Tree.located_iter (input : Input) (offset n : Nat) (optional : Bool)
    (trees : List (Nat × Tree)) :
    located input offset [(0, .iter optional n trees)] = located input offset trees := by
  simp [located, applicationsBelow, applicationsAt]

theorem Tree.located_rule {t : Tree} {q : String} (h : t.rule? = some q) (input : Input)
    (offset n : Nat) : located input offset [(n, t)] = [⟨t, offset + n, input⟩] := by
  cases t with
  | rule => rfl
  | terminal | iter => cases h

/-! ## Readings that take the front of a text -/

namespace Reading

/-- The reading takes the characters `front`, before `back`, and the properties hold of the rule
applications that it found. -/
def Takes (r : Reading) (front back : List Char) (Ps : List Tree.Property) : Prop :=
  ∃ trees, r.taken? = some ⟨byteSize front, trees⟩ ∧
    ∀ (input : Input) (offset : Nat), input.LeftAt offset (front ++ back) →
      Tree.Each (Tree.located input offset trees) Ps

variable {m : Meaning} {read : List Char → Reading} {a b r : Reading} {op : Repeat}
  {front front' back cs : List Char} {Ps Qs : List Tree.Property}

namespace Takes

theorem nothing (back : List Char) (h : r.taken? = some .nothing) : r.Takes [] back [] :=
  ⟨[], h, fun _ _ _ => .nil⟩

theorem token (h : r.taken? = some (.ofTree (.terminal (byteSize front)))) :
    r.Takes front back [] :=
  ⟨_, h, fun _ _ _ => .nil⟩

theorem followed {t : Taken} (ha : a.Takes front (front' ++ back) Ps) (ht : a.taken? = some t)
    (hb : b.Takes front' back Qs) : (a.followed t b).Takes (front ++ front') back (Ps ++ Qs) := by
  obtain ⟨trees, hsome, hPs⟩ := ha
  obtain ⟨trees', hsome', hQs⟩ := hb
  obtain rfl : t = _ := Option.some.inj (ht.symm.trans hsome)
  refine ⟨trees ++ trees'.map fun (o, s) => (byteSize front + o, s), ?_,
    fun input offset hleft => ?_⟩
  · rw [Reading.followed, hsome', Option.map_some, Taken.append, byteSize_append]
  · rw [List.append_assoc] at hleft
    have hnext := hleft.drop ⟨front, _, rfl, rfl⟩
    rw [dropBytes_append] at hnext
    rw [Tree.located_append, Tree.located_shift]
    exact List.rel_append (hPs input offset hleft) (hQs input _ hnext)

theorem size_eq {t : Taken} (h : r.Takes front back Ps) (ht : r.taken? = some t) :
    t.size = byteSize front := by
  obtain ⟨trees, hsome, -⟩ := h
  rw [Option.some.inj (ht.symm.trans hsome)]

theorem exists_taken (h : r.Takes front back Ps) :
    ∃ t, r.taken? = some t ∧ t.size = byteSize front :=
  let ⟨_, hsome, _⟩ := h
  ⟨_, hsome, rfl⟩

theorem andThen {next : Taken → Reading} (ha : a.Takes front (front' ++ back) Ps)
    (hb : ∀ t : Taken, t.size = byteSize front → (next t).Takes front' back Qs) :
    (a.andThen next).Takes (front ++ front') back (Ps ++ Qs) := by
  obtain ⟨t, ht, hsize⟩ := ha.exists_taken
  rw [andThen_of_some ht]
  exact ha.followed ht (hb t hsize)

/-- To read something in vain first makes no difference. -/
theorem orElse (ha : a.taken? = none) (hb : b.Takes front back Ps) :
    (a.orElse b).Takes front back Ps := by
  obtain ⟨trees, hsome, hPs⟩ := hb
  refine ⟨trees, ?_, hPs⟩
  rw [orElse_of_none ha, Reading.followed, hsome]
  simp [Taken.append, Taken.nothing]

theorem asTree_iff {optional : Bool} :
    (r.asTree fun t => .iter optional t.size t.trees).Takes front back Ps ↔
      r.Takes front back Ps := by
  constructor
  · rintro ⟨trees, hsome, hPs⟩
    obtain ⟨⟨n, trees'⟩, ht, heq⟩ := Option.map_eq_some_iff.mp hsome
    obtain ⟨rfl, rfl⟩ := Taken.mk.inj heq
    refine ⟨trees', ht, fun input offset hleft => ?_⟩
    rw [← Tree.located_iter]
    exact hPs input offset hleft
  · rintro ⟨trees, hsome, hPs⟩
    refine ⟨[(0, .iter optional (byteSize front) trees)], ?_, fun input offset hleft => ?_⟩
    · rw [asTree, hsome]
      rfl
    · rw [Tree.located_iter]
      exact hPs input offset hleft

/-! ### Iterations -/

theorem rounds_plus (read : List Char → Reading) (matched : Bool) (cs : List Char) :
    rounds .plus read matched cs = rounds .star read matched cs := by
  induction h : cs.length using Nat.strong_induction_on generalizing matched cs with
  | _ n ih =>
      subst h
      cases ht : (read cs).taken? with
      | none => rw [rounds_of_none ht, rounds_of_none ht]
      | some t =>
          by_cases hmore : 0 < t.size ∧ cs ≠ []
          · rw [Reading.rounds_more ht ⟨by decide, hmore⟩,
              Reading.rounds_more ht ⟨by decide, hmore⟩,
              ih _ (dropBytes_length_lt hmore.2 hmore.1) _ _ rfl]
          · rw [rounds_last ht fun h => hmore h.2, rounds_last ht fun h => hmore h.2]

theorem rounds_end (h : (read back).taken? = none) :
    (rounds op read true back).Takes [] back [] := by
  rw [rounds_of_none h]
  exact nothing back rfl

theorem rounds_more {matched : Bool} (hop : op ≠ .opt) (hne : front ≠ [])
    (h : (read (front ++ (front' ++ back))).Takes front (front' ++ back) Ps)
    (hmore : (rounds op read true (front' ++ back)).Takes front' back Qs) :
    (rounds op read matched (front ++ front' ++ back)).Takes (front ++ front') back (Ps ++ Qs) := by
  obtain ⟨t, ht, hsize⟩ := h.exists_taken
  have hpos : 0 < byteSize front :=
    Nat.pos_of_ne_zero fun h0 => hne (byteSize_eq_zero_iff.mp h0)
  rw [List.append_assoc, Reading.rounds_more ht ⟨hop, hsize ▸ hpos, by simp [hne]⟩, hsize,
    dropBytes_append]
  exact h.followed ht hmore

end Takes

/-! ### Skipping spaces -/

@[simp] theorem spaced_false (m : Meaning) (read : List Char → Reading) (cs : List Char) :
    spaced m false read cs = read cs := rfl

/-- The spaces skipped before `rest` are the characters `blank`. -/
def Skips (m : Meaning) (blank rest : List Char) : Prop :=
  ((m "spaces" (blank ++ rest)).tree?.map Tree.length).getD 0 = byteSize blank

namespace Skips

variable {blank : List Char}

theorem spaced_eq (read : List Char → Reading) (h : Skips m blank cs) :
    ∃ r : Reading, r.taken? = some ⟨byteSize blank, []⟩ ∧
      spaced m true read (blank ++ cs) = r.followed ⟨byteSize blank, []⟩ (read cs) := by
  have htaken : (spaces m (blank ++ cs)).taken? = some ⟨byteSize blank, []⟩ := by
    rw [spaces, ← h]
    simp only [Application.reading, Option.map_map]
    rfl
  refine ⟨_, htaken, ?_⟩
  rw [spaced, if_pos rfl, andThen_of_some htaken, dropBytes_append]

theorem takes (hskip : Skips m blank (front ++ back))
    (h : (read (front ++ back)).Takes front back Ps) :
    (spaced m true read (blank ++ front ++ back)).Takes (blank ++ front) back Ps := by
  obtain ⟨r, hr, heq⟩ := hskip.spaced_eq read
  rw [List.append_assoc, heq]
  exact Takes.followed ⟨[], hr, fun _ _ _ => .nil⟩ hr h

theorem taken?_eq_none (hskip : Skips m blank cs) (h : (read cs).taken? = none) :
    (spaced m true read (blank ++ cs)).taken? = none := by
  obtain ⟨r, -, heq⟩ := hskip.spaced_eq read
  rw [heq, Reading.followed, h, Option.map_none]

end Skips

end Reading

/-! ## Expressions -/

/-- The expression takes the characters `front`, before `back`, and the properties hold of the rule
applications in them. -/
def Reads (m : Meaning) (syntactic : Bool) (e : Expr) (front back : List Char)
    (Ps : List Tree.Property) : Prop :=
  (e.read m syntactic (front ++ back)).Takes front back Ps

/-- The expression does not match the text. -/
def Misses (m : Meaning) (syntactic : Bool) (e : Expr) (cs : List Char) : Prop :=
  (e.read m syntactic cs).taken? = none

section

variable {m : Meaning} {syntactic : Bool} {e : Expr} {es : List Expr}
  {blank front front' back cs : List Char} {Ps Qs : List Tree.Property}

open Reading

/-! ### Characters and literals -/

theorem Reads.any (c : Char) (back : List Char) : Reads m false .any [c] back [] := by
  rw [Reads, Expr.read]
  exact .token (by simp [Reading.any, Reading.token])

theorem Misses.any (m : Meaning) : Misses m false .any [] := by
  rw [Misses, Expr.read]
  rfl

theorem Reads.range {lo hi c : Char} (hc : lo ≤ c ∧ c ≤ hi) (back : List Char) :
    Reads m false (.range lo hi) [c] back [] := by
  rw [Reads, Expr.read]
  exact .token (by simp [Reading.range, Reading.token, hc])

theorem Misses.range {lo hi : Char} (hc : ∀ c ∈ cs.head?, ¬ (lo ≤ c ∧ c ≤ hi)) :
    Misses m false (.range lo hi) cs := by
  rw [Misses, Expr.read]
  cases cs with
  | nil => rfl
  | cons c cs =>
      rw [spaced_false, Reading.range, if_neg (hc c rfl)]
      rfl

theorem Reads.terminal {s : String} (hs : s.toList = front) (back : List Char) :
    Reads m false (.terminal s) front back [] := by
  subst hs
  rw [Reads, Expr.read]
  refine .token ?_
  rw [spaced_false, Reading.terminal,
    if_pos (List.isPrefixOf_iff_prefix.mpr (List.prefix_append _ _)), byteSize_toList]
  rfl

theorem Misses.terminal {s : String} (hs : s.toList.isPrefixOf cs = false) :
    Misses m false (.terminal s) cs := by
  rw [Misses, Expr.read, spaced_false, Reading.terminal, if_neg (by simp [hs])]
  rfl

/-- A literal misses where the text begins with another character. -/
theorem Misses.terminal_of_head {s : String} {d : Char} (hs : s.toList.head? = some d)
    (hd : cs.head? ≠ some d) : Misses m false (.terminal s) cs := by
  refine .terminal ?_
  obtain ⟨rest, hs⟩ := List.head?_eq_some_iff.mp hs
  cases cs with
  | nil => rw [hs, List.isPrefixOf_cons_nil]
  | cons c cs =>
      have hne : d ≠ c := fun heq => hd (heq ▸ rfl)
      rw [hs, List.isPrefixOf_cons_cons, beq_eq_false_iff_ne.mpr hne, Bool.false_and]

theorem Reads.endOfInput : Reads m false .endOfInput [] [] [] := by
  rw [Reads, Expr.read]
  exact .nothing [] rfl

theorem Reads.not_misses (h : Reads m syntactic e front back Ps) :
    ¬ Misses m syntactic e (front ++ back) := by
  obtain ⟨t, ht, -⟩ := h.exists_taken
  rw [Misses, ht]
  exact Option.some_ne_none t

/-! ### Behind spaces -/

/-- Where spaces are skipped, an expression that reads the text itself skips them first. -/
theorem Expr.read_true (he : e.consumesInput = true) (hne : e ≠ .apply "spaces") (cs : List Char) :
    e.read m true cs = spaced m true (e.read m false) cs := by
  cases e with
  | apply q =>
      have hq : q ≠ "spaces" := fun heq => hne (heq ▸ rfl)
      simp only [Expr.read, Bool.true_and, Bool.false_and, bne_iff_ne.mpr hq]
      rfl
  | any | endOfInput | terminal | range =>
      simp only [Expr.read]
      rfl
  | _ => cases he

theorem Reads.spaced (he : e.consumesInput = true) (hne : e ≠ .apply "spaces")
    (hskip : Skips m blank (front ++ back)) (h : Reads m false e front back Ps) :
    Reads m true e (blank ++ front) back Ps := by
  rw [Reads, Expr.read_true he hne]
  exact hskip.takes h

theorem Misses.spaced (he : e.consumesInput = true) (hne : e ≠ .apply "spaces")
    (hskip : Skips m blank cs) (h : Misses m false e cs) : Misses m true e (blank ++ cs) := by
  rw [Misses, Expr.read_true he hne]
  exact hskip.taken?_eq_none h

/-! ### Sequences and choices -/

theorem Reads.nil (back : List Char) : Reads m syntactic (.seq []) [] back [] := by
  rw [Reads, Expr.read, Expr.readEach]
  exact .nothing back rfl

theorem Reads.cons (h : Reads m syntactic e front (front' ++ back) Ps)
    (hs : Reads m syntactic (.seq es) front' back Qs) :
    Reads m syntactic (.seq (e :: es)) (front ++ front') back (Ps ++ Qs) := by
  rw [Reads, Expr.read, Expr.readEach, List.append_assoc]
  refine .andThen h fun t ht => ?_
  rw [Reads, Expr.read] at hs
  rwa [ht, dropBytes_append]

theorem Reads.last (h : Reads m syntactic e front back Ps) :
    Reads m syntactic (.seq [e]) front back Ps := by
  simpa using Reads.cons (by simpa using h) (.nil back)

theorem Misses.head (h : Misses m syntactic e cs) : Misses m syntactic (.seq (e :: es)) cs := by
  rw [Misses, Expr.read, Expr.readEach, andThen_of_none h]
  exact h

theorem Reads.tail (h : Reads m syntactic e front back Ps)
    (hs : Misses m syntactic (.seq es) back) :
    Misses m syntactic (.seq (e :: es)) (front ++ back) := by
  obtain ⟨t, ht, hsize⟩ := h.exists_taken
  rw [Misses, Expr.read] at hs
  rw [Misses, Expr.read, Expr.readEach, andThen_of_some ht, hsize, dropBytes_append,
    Reading.followed, hs, Option.map_none]

/-- A sequence does not match where its front part does not. -/
theorem Misses.append (h : Misses m syntactic (.seq es) cs) (es' : List Expr) :
    Misses m syntactic (.seq (es ++ es')) cs := by
  induction es generalizing cs with
  | nil =>
      rw [Misses, Expr.read, Expr.readEach] at h
      cases h
  | cons e es ih =>
      rw [Misses, Expr.read, Expr.readEach] at h
      rw [Misses, List.cons_append, Expr.read, Expr.readEach]
      cases ht : (e.read m syntactic cs).taken? with
      | none => rw [andThen_of_none ht, ht]
      | some t =>
          have hrest : Misses m syntactic (.seq es) (dropBytes cs t.size) := by
            rw [andThen_of_some ht] at h
            rw [Misses, Expr.read]
            exact Option.map_eq_none_iff.mp h
          have hmore := ih hrest
          rw [Misses, Expr.read] at hmore
          rw [andThen_of_some ht, Reading.followed, hmore, Option.map_none]

theorem Misses.of_alt (h : Misses m syntactic (.alt es) cs) (he : e ∈ es) :
    Misses m syntactic e cs := by
  induction es with
  | nil => cases he
  | cons e' es ih =>
      rw [Misses, Expr.read, Expr.readFirst] at h
      cases ht : (e'.read m syntactic cs).taken? with
      | some t =>
          rw [orElse_of_some ht, ht] at h
          cases h
      | none =>
          rcases List.mem_cons.mp he with rfl | he
          · exact ht
          · rw [orElse_of_none ht] at h
            exact ih (Option.map_eq_none_iff.mp h) he

theorem Reads.first (h : Reads m syntactic e front back Ps) :
    Reads m syntactic (.alt (e :: es)) front back Ps := by
  obtain ⟨t, ht, -⟩ := h.exists_taken
  rw [Reads, Expr.read, Expr.readFirst, orElse_of_some ht]
  exact h

theorem Reads.later (h : Misses m syntactic e (front ++ back))
    (hs : Reads m syntactic (.alt es) front back Ps) :
    Reads m syntactic (.alt (e :: es)) front back Ps := by
  rw [Reads, Expr.read] at hs
  rw [Reads, Expr.read, Expr.readFirst]
  exact .orElse h hs

theorem Misses.later (h : Misses m syntactic e cs) (hs : Misses m syntactic (.alt es) cs) :
    Misses m syntactic (.alt (e :: es)) cs := by
  rw [Misses, Expr.read] at hs
  rw [Misses, Expr.read, Expr.readFirst, orElse_of_none h, Reading.followed, hs, Option.map_none]

theorem Misses.alt (h : ∀ e ∈ es, Misses m syntactic e cs) : Misses m syntactic (.alt es) cs := by
  induction es with
  | nil =>
      rw [Misses, Expr.read, Expr.readFirst]
      rfl
  | cons e es ih =>
      obtain ⟨he, hes⟩ := List.forall_mem_cons.mp h
      exact .later he (ih hes)

/-! ### Predicates -/

theorem Reads.not (h : Misses m syntactic e back) : Reads m syntactic (.not e) [] back [] := by
  rw [Misses] at h
  rw [Reads, Expr.read, List.nil_append, negated, h]
  exact .nothing back rfl

theorem Misses.not (h : Reads m syntactic e front back Ps) :
    Misses m syntactic (.not e) (front ++ back) := by
  obtain ⟨t, ht, -⟩ := h.exists_taken
  rw [Misses, Expr.read, negated, ht]

theorem Reads.look (h : Reads m syntactic e front back Ps) :
    Reads m syntactic (.look e) [] (front ++ back) [] := by
  obtain ⟨t, ht, -⟩ := h.exists_taken
  rw [Reads, Expr.read, List.nil_append]
  exact .nothing _ (by rw [restored, ht]; rfl)

/-! ### Iterations -/

theorem Reads.star_end (h : Misses m syntactic e back) :
    Reads m syntactic (.iter .star e) [] back [] := by
  rw [Reads, Expr.read, iterated, Takes.asTree_iff]
  exact .rounds_end h

theorem Reads.star_more (hne : front ≠ []) (h : Reads m syntactic e front (front' ++ back) Ps)
    (hs : Reads m syntactic (.iter .star e) front' back Qs) :
    Reads m syntactic (.iter .star e) (front ++ front') back (Ps ++ Qs) := by
  rw [Reads, Expr.read, iterated, Takes.asTree_iff] at hs ⊢
  exact .rounds_more (by decide) hne h hs

theorem Reads.plus (hne : front ≠ []) (h : Reads m syntactic e front (front' ++ back) Ps)
    (hs : Reads m syntactic (.iter .star e) front' back Qs) :
    Reads m syntactic (.iter .plus e) (front ++ front') back (Ps ++ Qs) := by
  rw [Reads, Expr.read, iterated, Takes.asTree_iff] at hs
  rw [Reads, Expr.read, iterated, Takes.asTree_iff]
  refine .rounds_more (by decide) hne h ?_
  rwa [Takes.rounds_plus]

theorem Misses.plus (h : Misses m syntactic e cs) : Misses m syntactic (.iter .plus e) cs := by
  rw [Misses] at h
  rw [Misses, Expr.read, iterated, rounds_of_none h, if_neg (by decide), asTree, h,
    Option.map_none]

/-- An iteration reads pieces of a text one after the other, where `T` says what each needs to
know of the text behind it. -/
theorem Reads.star_flatMap {α : Type} {f : α → List Char} {F : α → Tree.Property}
    {T : List Char → Prop} {xs : List α} (hne : ∀ x ∈ xs, f x ≠ [])
    (hread : ∀ x ∈ xs, ∀ back, T back → Reads m syntactic e (f x) back [F x])
    (htail : ∀ x ∈ xs, ∀ cs, T cs → T (f x ++ cs)) (hback : T back)
    (hend : Misses m syntactic e back) :
    Reads m syntactic (.iter .star e) (xs.flatMap f) back (xs.map F) := by
  suffices h : T (xs.flatMap f ++ back) ∧
      Reads m syntactic (.iter .star e) (xs.flatMap f) back (xs.map F) from h.2
  induction xs with
  | nil => exact ⟨hback, .star_end hend⟩
  | cons x xs ih =>
      obtain ⟨hx, hxs⟩ := List.forall_mem_cons.mp hne
      obtain ⟨hread, hreads⟩ := List.forall_mem_cons.mp hread
      obtain ⟨htail, htails⟩ := List.forall_mem_cons.mp htail
      obtain ⟨hrest, hmore⟩ := ih hxs hreads htails
      rw [List.flatMap_cons]
      refine ⟨?_, .star_more hx (hread _ hrest) hmore⟩
      rw [List.append_assoc]
      exact htail _ hrest

theorem Reads.opt (h : Reads m syntactic e front back Ps) :
    Reads m syntactic (.iter .opt e) front back Ps := by
  obtain ⟨t, ht, -⟩ := h.exists_taken
  rw [Reads, Expr.read, iterated, Takes.asTree_iff, rounds_last ht fun hall => hall.1 rfl]
  exact h

theorem Reads.opt_none (h : Misses m syntactic e back) :
    Reads m syntactic (.iter .opt e) [] back [] := by
  rw [Reads, Expr.read, iterated, Takes.asTree_iff]
  exact .rounds_end h

/-! ### Rules -/

/-- The rule parses the characters `front`, before `back`, into a tree that has the property. -/
def Parser.Parses (p : Parser) (q : String) (front back : List Char) (P : Tree.Property) : Prop :=
  q ≠ "spaces" ∧ ∃ trees, (p q (front ++ back)).1 = some (.rule q (byteSize front) trees) ∧
    ∀ (input : Input) (offset : Nat), input.LeftAt offset (front ++ back) →
      P ⟨.rule q (byteSize front) trees, offset, input⟩

/-- The rule does not match the text. -/
def Parser.Fails (p : Parser) (q : String) (cs : List Char) : Prop :=
  q ≠ "spaces" ∧ (p q cs).1 = none

end

section

variable {p : Parser} {g : Grammar} {q : String} {e : Expr} {syntactic : Bool}
  {blank front back cs : List Char} {P : Tree.Property} {Ps : List Tree.Property}

open Reading

namespace Parser.Parses

theorem reads (h : p.Parses q front back P) :
    Reads p.meaning false (.apply q) front back [P] := by
  obtain ⟨-, trees, htree, hP⟩ := h
  rw [Reads, Expr.read]
  refine ⟨[(0, .rule q (byteSize front) trees)], ?_, fun input offset hleft => ?_⟩
  · rw [Bool.false_and, spaced_false, Application.reading, Parser.meaning, htree]
    rfl
  · exact .cons (hP input offset hleft) .nil

/-- Where spaces are skipped, those before the rule are. -/
theorem reads_spaced (h : p.Parses q front back P) (hskip : Skips p.meaning blank (front ++ back)) :
    Reads p.meaning true (.apply q) (blank ++ front) back [P] :=
  .spaced rfl (fun heq => h.1 (Expr.apply.inj heq)) hskip h.reads

/-- A rule that parses a whole text is at the root of its result. -/
theorem root (text : String) (h : p.Parses q text.toList [] P) (hq : isSyntactic q = true)
    (hfront : Skips p.meaning [] text.toList) (hback : Skips p.meaning [] []) :
    ∃ t, (p.result q text).root? = some t ∧ P t := by
  obtain ⟨hspaces, trees, htree, hP⟩ := h
  rw [List.append_nil] at htree
  let t : Tree := .rule q (byteSize text.toList) trees
  have hrule : ((Expr.apply q).read p.meaning true text.toList).taken? = some (.ofTree t) := by
    obtain ⟨r, -, heq⟩ := hfront.spaced_eq ((Expr.apply q).read p.meaning false)
    rw [List.nil_append] at heq
    rw [Expr.read_true rfl fun heq => hspaces (Expr.apply.inj heq), heq, Reading.followed, Expr.read,
      Bool.false_and, spaced_false, Application.reading, Parser.meaning, htree]
    simp [Taken.append, Taken.ofTree, t]
  have hend := Reads.spaced (e := .endOfInput) rfl (by simp)
    (show Skips p.meaning [] ([] ++ []) from hback) .endOfInput
  obtain ⟨trees', hsome, -⟩ := Reads.last hend
  refine ⟨⟨t, 0, .ofString text⟩, ?_, hP _ 0 (by simpa using Input.LeftAt.start (.ofString text))⟩
  have hsize : dropBytes text.toList (byteSize text.toList) = [] := by
    simpa using dropBytes_append text.toList []
  rw [List.append_nil, List.append_nil, Expr.read] at hsome
  rw [Parser.result, hq, Expr.whole, Match.Result.root?, Reading.tree?, Expr.read, Expr.readEach,
    andThen_of_some hrule, Reading.followed]
  simp only [Taken.ofTree, t, Tree.length, hsize, hsome]
  rfl

end Parser.Parses

namespace Parser.Fails

theorem misses (h : p.Fails q cs) : Misses p.meaning false (.apply q) cs := by
  rw [Misses, Expr.read, Bool.false_and, spaced_false, Application.reading, Parser.meaning, h.2,
    Option.map_none]

theorem misses_spaced (h : p.Fails q cs) (hskip : Skips p.meaning blank cs) :
    Misses p.meaning true (.apply q) (blank ++ cs) :=
  .spaced rfl (fun heq => h.1 (Expr.apply.inj heq)) hskip h.misses

end Parser.Fails

namespace Grammar.ParsedBy

/-- What the body of a rule reads is the tree of the rule, and the applications below it. -/
theorem tree_eq (hp : g.ParsedBy p) {rule : Rule} (hrule : g.rule? q = some rule)
    (h : Reads p.meaning (isSyntactic q) rule.body front back Ps) :
    ∃ trees, (p q (front ++ back)).1 = some (.rule q (byteSize front) trees) ∧
      ∀ (input : Input) (offset : Nat), input.LeftAt offset (front ++ back) →
        Tree.Each (Tree.located input offset trees) Ps := by
  obtain rfl := rule?_name hrule
  obtain ⟨trees, hsome, hPs⟩ := h
  refine ⟨trees, ?_, hPs⟩
  rw [hp, hrule]
  simp only [Rule.parse, hsome]
  cases rule.description <;> rfl

/-- A rule parses what its body reads, and the applications below its tree are those that its body
found. -/
theorem parses (hp : g.ParsedBy p) (hbody : g.HasBody q syntactic e)
    (h : Reads p.meaning syntactic e front back Ps)
    (hP : ∀ s : Tree.Located, s.tree.rule? = some q → s.text = .ofList front →
      Tree.Each s.applications Ps → P s) :
    p.Parses q front back P := by
  obtain ⟨hq, rule, hrule, rfl, rfl⟩ := hbody
  obtain ⟨trees, htree, hPs⟩ := hp.tree_eq hrule h
  refine ⟨hq, trees, htree, fun input offset hleft => ?_⟩
  exact hP _ rfl (Tree.Located.text_eq hleft rfl) (hPs input offset hleft)

theorem fails (hp : g.ParsedBy p) (hbody : g.HasBody q syntactic e)
    (h : Misses p.meaning syntactic e cs) : p.Fails q cs := by
  obtain ⟨hq, rule, hrule, rfl, rfl⟩ := hbody
  obtain rfl := rule?_name hrule
  rw [Misses] at h
  refine ⟨hq, ?_⟩
  rw [hp, hrule]
  simp only [Rule.parse, h]
  cases rule.description <;> rfl

/-- The spaces skipped are those that the rule for spaces takes. -/
theorem skips (hp : g.ParsedBy p) {rule : Rule} (hrule : g.rule? "spaces" = some rule)
    (h : Reads p.meaning (isSyntactic "spaces") rule.body blank cs Ps) :
    Skips p.meaning blank cs := by
  obtain ⟨trees, htree, -⟩ := hp.tree_eq hrule h
  rw [Skips, Parser.meaning, htree]
  rfl

end Grammar.ParsedBy

end

-- from here on a text is parsed by the steps above, never by working out a reading
attribute [irreducible] Reads Misses Parser.Parses Parser.Fails

end Pegboard
