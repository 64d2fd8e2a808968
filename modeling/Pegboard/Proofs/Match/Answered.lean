import Pegboard.Proofs.Match.Confined
import Pegboard.Proofs.Match.Keeping
import Pegboard.Proofs.Match.Session

/-!
# Asking again

A match leaves in the table what it applied outside of all rules: the start rule, and the spaces
around it. No evaluation takes an entry away once it is settled, so whatever is matched next finds
these entries. The match asked for again is then answered from them alone, with the same tree and
with the same failures in the same order, and goes into the body of no rule.

Main statements: `answered_of_run`, `Answered.run_eq`; `Session.matchRule_again`.
-/

namespace Pegboard.Match

open Text Evaluation

/-! ## Entries that stay -/

/-- What was settled before stays so, and entries of rules that are not admitted stay as they are. -/
structure Memo.KeptBut (admitted : Nat → String → Prop) (memo₀ memo : Memo) : Prop where
  retains : memo₀.Retains memo
  others : ∀ p q, ¬ admitted p q → memo.find? p q = memo₀.find? p q

namespace Memo.KeptBut

variable {admitted : Nat → String → Prop} {memo₀ memo : Memo} {pos : Nat} {q : String} {e : Entry}

theorem refl (admitted : Nat → String → Prop) (memo : Memo) : memo.KeptBut admitted memo :=
  ⟨.refl memo, fun _ _ _ => rfl⟩

theorem put (h : memo₀.KeptBut admitted memo) (hpos : pos < memo.slots.size)
    (hadmitted : admitted pos q) (hopen : ∀ s, memo₀.find? pos q ≠ some (.settled s)) :
    memo₀.KeptBut admitted (memo.put pos q e) where
  retains := by
    intro p r s hs
    rw [find?_put_of_ne hpos]
    · exact h.retains p r s hs
    · intro heq
      obtain ⟨rfl, rfl⟩ := Prod.mk.inj heq
      exact hopen s hs
  others := by
    intro p r hr
    rw [find?_put_of_ne hpos]
    · exact h.others p r hr
    · intro heq
      obtain ⟨rfl, rfl⟩ := Prod.mk.inj heq
      exact hr hadmitted

theorem drop (h : memo₀.KeptBut admitted memo) (hkeyed : memo.Keyed)
    (hadmitted : admitted pos q) (hopen : ∀ s, memo₀.find? pos q ≠ some (.settled s)) :
    memo₀.KeptBut admitted (memo.drop pos q) where
  retains := by
    intro p r s hs
    rw [find?_drop hkeyed, if_neg]
    · exact h.retains p r s hs
    · intro heq
      obtain ⟨rfl, rfl⟩ := Prod.mk.inj heq
      exact hopen s hs
  others := by
    intro p r hr
    rw [find?_drop hkeyed, if_neg]
    · exact h.others p r hr
    · intro heq
      obtain ⟨rfl, rfl⟩ := Prod.mk.inj heq
      exact hr hadmitted

/-- Where no entry is settled now, none was before. -/
theorem not_settled (h : memo₀.KeptBut admitted memo)
    (hopen : ∀ s, memo.find? pos q ≠ some (.settled s)) (s : Settled) :
    memo₀.find? pos q ≠ some (.settled s) :=
  fun hs => hopen s (h.retains pos q s hs)

end Memo.KeptBut

theorem keptBut_lasts (set : Setting) (admitted : Nat → String → Prop) (memo₀ : Memo) :
    Lasting set (fun _ => admitted) fun _ _ memo => memo₀.KeptBut admitted memo where
  read := by
    intro σ base c log memo q i seed? trace? read _ hr hadmitted _ hentry h
    exact h.put (hr.intact.lt_size hr.boundary) hadmitted (h.not_settled (by simp [hentry]))
  enter := by
    intro σ base c log memo rule _ hr hadmitted hnew h
    exact h.put (hr.intact.lt_size hr.boundary) hadmitted (h.not_settled (by simp [hnew]))
  reseed := by
    intro σ f stop log memo t trace? _ hbetween hadmitted h
    obtain ⟨seed?, trace?, read, hentry⟩ := hbetween.intact.active f List.mem_cons_self
    exact h.put (hbetween.intact.lt_size hbetween.boundary) hadmitted
      (h.not_settled (by simp [hentry]))
  leave := by
    intro σ rule depth base c log memo r inner memo' _ hfinished hadmitted h h'
    obtain ⟨stop, hbetween⟩ := hfinished.between
    have hopen : ∀ s, memo₀.find? c.pos rule.name ≠ some (.settled s) :=
      h.not_settled (by simp [hfinished.missing])
    split
    · exact h'.drop hbetween.intact.keyed hadmitted hopen
    · exact h'.put (hbetween.intact.lt_size hbetween.boundary) hadmitted hopen

/-! ## What is found again -/

section

variable {set : Setting} {limit limit' : Nat} {e e' e₁ e₁' e₂ e₂' : Evaluation} {memo : Memo}
variable {apply apply' : String → Evaluation} {q : String}

/-- Outside of all rules the first evaluation keeps what is settled, and whoever finds in the table
what it left gets the same from the second one, which changes nothing. -/
structure Repeats (set : Setting) (e e' : Evaluation) : Prop where
  sound : (Stack.bottom set).Sound True e
  retains : ∀ base c log memo out, (Stack.bottom set).Ready base c log memo →
    e c log memo = some out → memo.Retains out.memo
  again : ∀ base c log memo out, (Stack.bottom set).Ready base c log memo →
    e c log memo = some out → ∀ log' later, out.memo.Retains later →
      ∃ inner, e' c log' later = some ⟨out.cursor?, inner, later⟩ ∧
        (log'.failures = log.failures → inner.failures = out.log.failures)

theorem andThen_repeats (h₁ : Repeats set e₁ e₁') (h₂ : Repeats set e₂ e₂') :
    Repeats set (e₁.andThen e₂) (e₁'.andThen e₂') where
  sound := Stack.andThen_sound h₁.sound h₂.sound
  retains := by
    intro base c log memo out hr he
    rcases andThen_eq_some he with ⟨hfirst, -⟩ | ⟨c', log', memo', hfirst, hsecond⟩
    · exact h₁.retains _ _ _ _ ⟨none, out.log, out.memo⟩ hr hfirst
    · have hdone := (h₁.sound _ _ _ _ hr).of_eq_some hfirst
      exact (h₁.retains _ _ _ _ _ hr hfirst).trans (h₂.retains _ _ _ _ _ hdone.ready hsecond)
  again := by
    intro base c log memo out hr he log' later hretains
    rcases andThen_eq_some he with ⟨hfirst, hnone⟩ | ⟨c₁, log₁, memo₁, hfirst, hsecond⟩
    · obtain ⟨inner, hagain, hinner⟩ := h₁.again _ _ _ _ _ hr hfirst log' later hretains
      refine ⟨inner, ?_, hinner⟩
      rw [Evaluation.andThen, hagain, hnone]
    · have hdone := (h₁.sound _ _ _ _ hr).of_eq_some hfirst
      obtain ⟨inner, hagain, hinner⟩ := h₁.again _ _ _ _ _ hr hfirst log' later
        ((h₂.retains _ _ _ _ _ hdone.ready hsecond).trans hretains)
      obtain ⟨inner', hagain', hinner'⟩ :=
        h₂.again _ _ _ _ _ hdone.ready hsecond inner later hretains
      refine ⟨inner', ?_, fun hfailures => hinner' (hinner hfailures)⟩
      rw [Evaluation.andThen, hagain]
      exact hagain'

theorem here_repeats :
    Repeats set (fun c log memo => some ⟨some c, log, memo⟩)
      (fun c log memo => some ⟨some c, log, memo⟩) where
  sound := Stack.here_sound
  retains := by
    rintro base c log memo out - ⟨⟩
    exact .refl memo
  again := by
    rintro base c log memo out - ⟨⟩ log' later -
    exact ⟨log', rfl, id⟩

theorem endOfInput_repeats : Repeats set (endOfInput set) (endOfInput set) where
  sound := Stack.endOfInput_sound (σ := Stack.bottom set)
  retains := by
    intro base c log memo out _ he
    rw [(endOfInput_reads set c log memo out he).1]
    exact .refl memo
  again := by
    intro base c log memo out _ he log' later _
    rw [endOfInput] at he
    rw [endOfInput]
    split at he <;> cases he
    · exact ⟨log'.examine (c.pos + 1), by rw [if_pos ‹_›], id⟩
    · refine ⟨(log'.examine (c.pos + 1)).fail c.pos .endOfInput, by rw [if_neg ‹_›], ?_⟩
      intro hfailures
      simp only [Log.fail, Log.examine, hfailures]

theorem skipSpaces_repeats (hsound : ∀ q, (Stack.bottom set).Sound True (apply q))
    (h : Repeats set (apply "spaces") ( apply' "spaces")) :
    Repeats set (skipSpaces apply) (skipSpaces apply') where
  sound := Stack.skipSpaces_sound hsound
  retains := by
    intro base c log memo out hr he
    obtain ⟨c?, inner, hspaces, -, -⟩ := skipSpaces_eq_some he
    exact h.retains base c _ memo ⟨c?, inner, out.memo⟩ hr.withoutFailures hspaces
  again := by
    intro base c log memo out hr he log' later hretains
    obtain ⟨c?, inner, hspaces, hcursor, hlog⟩ := skipSpaces_eq_some he
    obtain ⟨inner', hagain, -⟩ := h.again base c _ memo ⟨c?, inner, out.memo⟩ hr.withoutFailures
      hspaces { log' with failures := ∅ } later hretains
    refine ⟨_, by rw [skipSpaces, hagain, hcursor]; cases c? <;> rfl, fun hfailures => ?_⟩
    rw [hlog, Log.failures_markSpaces, Log.failures_markSpaces, hfailures]

theorem spaced_repeats (skip : Bool) (hsound : ∀ q, (Stack.bottom set).Sound True (apply q))
    (hspaces : skip = true → Repeats set (apply "spaces") ( apply' "spaces"))
    (h : Repeats set e e') : Repeats set (spaced apply skip e) (spaced apply' skip e') := by
  cases skip with
  | false => exact h
  | true => exact andThen_repeats (skipSpaces_repeats hsound (hspaces rfl)) h

/-- What was kept of an application is reported in the same way. -/
theorem keptEntry_failures {σ : Stack} {rule : Rule} {f : Frame} {stop : Nat} {r : Round}
    {inner : Log} (h : σ.Between f stop inner memo) :
    (keptEntry set rule f.1 r inner).failures.absoluteFrom f.1 =
      reported rule f.1 r.tree?.isSome inner.failures := by
  rw [keptEntry]
  dsimp only
  have hreported := fun q => h.reported rule r.tree?.isSome (q := q)
  generalize reported rule f.1 r.tree?.isSome inner.failures = failures at hreported ⊢
  cases failures with
  | empty => rfl
  | furthest q es =>
      have hle : f.1 ≤ q := (hreported q rfl).1
      simp only [Failures.relativeTo, Failures.absoluteFrom, Nat.sub_add_cancel hle]

/-- An application with a settled entry reads it, however deep applications may nest. -/
theorem ofRule_of_settled (limit : Nat) (frames : List Frame) {rule : Rule} {c : Cursor} (log : Log)
    {s : Settled} (hrule : set.grammar.rule? q = some rule)
    (hentry : memo.find? c.pos rule.name = some (.settled s)) :
    ∃ inner, ofRule set limit frames q c log memo = some ⟨s.tree?.map c.push, inner, memo⟩ ∧
      inner.failures = log.failures.merge (s.failures.absoluteFrom c.pos) := by
  rw [ofRule, hrule]
  simp only [hentry, reuse]
  exact ⟨_, rfl, Log.failures_note _ _ _⟩

/-- Outside of all rules no application depends on a seed, so that each leaves its entry. -/
theorem ofRule_repeats (set : Setting) (limit limit' : Nat) (q : String) :
    Repeats set (ofRule set limit [] q) (ofRule set limit' [] q) where
  sound := (Stack.ofRule_sound (Stack.bottom set) limit q).weaken fun _ => trivial
  retains := by
    intro base c log memo out hr he
    exact ((keptBut_lasts set (fun _ _ => True) memo).ofRule_keeps (admitting_anywhere _) limit
      (Stack.bottom set) q rfl base c log memo out hr trivial
      ⟨.refl _ _, Memo.rests_of_free _ _⟩ he).1.1.retains
  again := by
    intro base c log memo out hr he log' later hretains
    rcases ofRule_eq_some he with ⟨hnone, rfl⟩ | ⟨rule, hrule, ⟨entry, hentry, rfl⟩ | ⟨hnew, -⟩⟩
    · exact ⟨log', by rw [ofRule, hnone], id⟩
    · obtain ⟨s, rfl, -⟩ := hr.intact.entry_settled hentry
      obtain ⟨inner, hagain, hinner⟩ := ofRule_of_settled limit' [] log' hrule
        (hretains c.pos rule.name s hentry)
      refine ⟨inner, hagain, fun hfailures => ?_⟩
      rw [hinner, hfailures, reuse, Log.failures_note]
    · obtain rfl := Grammar.rule?_name hrule
      obtain ⟨r, inner, memo₁, stop, rfl, hbetween, hleft⟩ := ofRule_leaves hr hrule hnew he
      obtain ⟨inner', hagain, hinner'⟩ := ofRule_of_settled limit' [] log' hrule
        (hretains c.pos rule.name _ hleft)
      refine ⟨inner', hagain, fun hfailures => ?_⟩
      simp only [concluded]
      rw [hinner', hfailures, Log.failures_note]
      exact congrArg _ (keptEntry_failures (f := (c.pos, rule.name)) hbetween)

/-! ## Matches -/

theorem ofRule_sound_any (set : Setting) (limit : Nat) (q : String) :
    (Stack.bottom set).Sound True (ofRule set limit [] q) :=
  (ofRule_repeats set limit limit q).sound

theorem ofExpr_end_repeats (hset : set.tracing = false) (limit limit' : Nat) (syntactic : Bool) :
    Repeats set (ofExpr set (ofRule set limit []) syntactic .endOfInput)
      (ofExpr set (ofRule set limit' []) syntactic .endOfInput) := by
  rw [ofExpr, ofExpr, Scope.traced_eq hset]
  exact spaced_repeats syntactic (ofRule_sound_any set limit)
    (fun _ => ofRule_repeats set limit limit' "spaces") endOfInput_repeats

/-- The table answers a match: it has what is applied outside of all rules, which is the start rule
behind the spaces that end at `pos`, and the spaces around it. -/
structure Answered (set : Setting) (start : String) (memo : Memo) (pos : Nat) (c? : Option Cursor)
    (out : Outcome) : Prop where
  /-- The whole match. -/
  run : ∀ limit, ∃ log log', spaced (ofRule set limit []) (isSyntactic start)
      (fun c log memo => some ⟨some c, log, memo⟩) ⟨0, []⟩ (.start 0) memo =
        some ⟨some ⟨pos, []⟩, log, memo⟩ ∧
    (ofRule set limit [] start).andThen
      (ofExpr set (ofRule set limit []) (isSyntactic start) .endOfInput) ⟨pos, []⟩ log memo =
        some ⟨out.cursor?, log', memo⟩ ∧ log'.failures = out.log.failures
  /-- The start rule. -/
  applied : ∀ limit log, ∃ log', ofRule set limit [] start ⟨pos, []⟩ log memo = some ⟨c?, log', memo⟩
  /-- The end behind it. -/
  ends : ∀ limit log c, c? = some c → ∃ log',
    ofExpr set (ofRule set limit []) (isSyntactic start) .endOfInput c log memo =
      some ⟨out.cursor?, log', memo⟩

variable {start : String} {a : Answer} {memo' later : Memo} {pos : Nat} {c? : Option Cursor}
variable {out : Outcome}

/-- The table that a match left answers it, and so does every later one that still has its entries. -/
theorem answered_of_run (hset : set.tracing = false) (hmemo : (Stack.bottom set).Intact memo)
    (h : run set limit start memo = some (a, memo')) (hretains : memo'.Retains later) :
    ∃ pos c? out, Answered set start later pos c? out ∧
      a = ⟨out.cursor?.bind (·.found.head?), out.log.failures, rootNode start out⟩ := by
  obtain ⟨pos, log₁, memo₁, out, hbefore, hwhole, rfl, rfl⟩ := run_eq_some h
  -- each part of the match comes to the same in the later table, however deep it may nest there
  have hspaces := fun limit' => spaced_repeats (isSyntactic start) (ofRule_sound_any set limit)
    (fun _ => ofRule_repeats set limit limit' "spaces") here_repeats
  have hstart := fun limit' => ofRule_repeats set limit limit' start
  have hend := fun limit' => ofExpr_end_repeats hset limit limit' (isSyntactic start)
  have hrest := fun limit' => andThen_repeats (hstart limit') (hend limit')
  have hr := Stack.ready_bottom hmemo
  have hdone := ((hspaces limit).sound _ _ _ _ hr).of_eq_some hbefore
  have hretains₁ : memo₁.Retains later :=
    ((hrest limit).retains _ _ _ _ _ hdone.ready hwhole).trans hretains
  have run : ∀ limit', ∃ log log', spaced (ofRule set limit' []) (isSyntactic start)
      (fun c log memo => some ⟨some c, log, memo⟩) ⟨0, []⟩ (.start 0) later =
        some ⟨some ⟨pos, []⟩, log, later⟩ ∧
      (ofRule set limit' [] start).andThen
        (ofExpr set (ofRule set limit' []) (isSyntactic start) .endOfInput) ⟨pos, []⟩ log later =
          some ⟨out.cursor?, log', later⟩ ∧ log'.failures = out.log.failures := by
    intro limit'
    obtain ⟨log, hlog, hfailures⟩ :=
      (hspaces limit').again _ _ _ _ _ hr hbefore (.start 0) later hretains₁
    obtain ⟨log', hlog', hfailures'⟩ :=
      (hrest limit').again _ _ _ _ _ hdone.ready hwhole log later hretains
    exact ⟨log, log', hlog, hlog', hfailures' (hfailures rfl)⟩
  rcases andThen_eq_some hwhole with ⟨hfirst, hnone⟩ | ⟨c', log', memo', hfirst, hsecond⟩
  · refine ⟨pos, none, out, ⟨run, fun limit' log => ?_, fun _ _ _ hc => nomatch hc⟩, rfl⟩
    obtain ⟨log', hlog', -⟩ := (hstart limit').again _ _ _ _ _ hdone.ready hfirst log later hretains
    exact ⟨log', hlog'⟩
  · have hdone' := ((hstart limit).sound _ _ _ _ hdone.ready).of_eq_some hfirst
    have hretains' := ((hend limit).retains _ _ _ _ _ hdone'.ready hsecond).trans hretains
    refine ⟨pos, some c', out, ⟨run, fun limit' log => ?_, fun limit' log c hc => ?_⟩, rfl⟩
    · obtain ⟨log', hlog', -⟩ :=
        (hstart limit').again _ _ _ _ _ hdone.ready hfirst log later hretains'
      exact ⟨log', hlog'⟩
    · obtain rfl := Option.some.inj hc
      obtain ⟨log', hlog', -⟩ :=
        (hend limit').again _ _ _ _ _ hdone'.ready hsecond log later hretains
      exact ⟨log', hlog'⟩

/-- A match that is answered from the table comes to that answer, even if no application may nest. -/
theorem Answered.run_eq (h : Answered set start memo pos c? out) (limit : Nat) :
    ∃ a, Match.run set limit start memo = some (a, memo) ∧
      a.tree? = out.cursor?.bind (·.found.head?) ∧ a.failures = out.log.failures := by
  obtain ⟨log, log', hbefore, hwhole, hfailures⟩ := h.run limit
  refine ⟨⟨out.cursor?.bind (·.found.head?), log'.failures, rootNode start ⟨out.cursor?, log', memo⟩⟩,
    ?_, rfl, hfailures⟩
  rw [Match.run]
  simp only [hbefore, Option.getD_some, hwhole]
  rfl

/-! ## No rule is evaluated -/

/-- An application that comes to something although none may nest finds an entry. -/
theorem entry_of_zero {frames : List Frame} {c : Cursor} {log : Log} {rule : Rule}
    (h : ofRule set 0 frames q c log memo = some out) (hrule : set.grammar.rule? q = some rule) :
    memo.find? c.pos rule.name ≠ none := by
  intro hnew
  obtain rfl := Grammar.rule?_name hrule
  cases (ofRule_zero hrule c hnew).symm.trans h

/-- An application that finds an entry leads to no other evaluation. -/
theorem not_leads_of_entry {m m' : Moment} (htask : m.task = .apply q)
    (hentry : ∀ rule, set.grammar.rule? q = some rule → m.memo.find? m.cursor.pos rule.name ≠ none) :
    ¬ Leads set m m' := by
  intro h
  cases h <;> simp_all

/-- Where spaces are skipped, they are found in the table. -/
theorem spaces_of_spaced {skip : Bool} {c : Cursor} {log : Log}
    (h : spaced (ofRule set 0 []) skip e c log memo = some out) (hskip : skip = true) :
    ∀ rule, set.grammar.rule? "spaces" = some rule → memo.find? c.pos rule.name ≠ none := by
  subst hskip
  obtain ⟨c?, log', memo', hskip⟩ : ∃ c? log' memo',
      skipSpaces (ofRule set 0 []) c log memo = some ⟨c?, log', memo'⟩ := by
    rcases andThen_eq_some h with ⟨hskip, -⟩ | ⟨c', log', memo', hskip, -⟩
    · exact ⟨_, _, _, hskip⟩
    · exact ⟨_, _, _, hskip⟩
  obtain ⟨c?, inner, hspaces, -⟩ := skipSpaces_eq_some hskip
  exact fun rule hrule => entry_of_zero hspaces hrule

/-- The end of the text leads at most to the spaces before it. -/
theorem leads_endOfInput {m m' : Moment} {syntactic : Bool}
    (htask : m.task = .expr syntactic .endOfInput) (h : Leads set m m') :
    m'.frames = m.frames ∧ (syntactic = true ∧ m'.task = .apply "spaces" ∧
      m'.cursor = m.cursor ∧ m'.memo = m.memo ∨ m'.task = .expr false .endOfInput) := by
  cases h <;> simp_all

theorem not_leads_endOfInput {m m' : Moment} (htask : m.task = .expr false .endOfInput) :
    ¬ Leads set m m' := by
  intro h
  cases h <;> simp_all

/-- What a match that is answered from the table begins with leads to no rule. -/
theorem Answered.begins (h : Answered set start memo pos c? out) {limit : Nat} {m : Moment}
    (hm : Begins set limit start memo m) :
    m.frames = [] ∧ ∀ m', Leads set m m' → m'.frames = [] ∧ ∀ m'', ¬ Leads set m' m'' := by
  -- where no application may nest, each one that comes to something found its entry
  obtain ⟨log₀, -, hbefore₀, -⟩ := h.run 0
  obtain ⟨log₁, -, hbefore, -⟩ := h.run limit
  cases hm with
  | spaces hsyntactic =>
      exact ⟨rfl, fun m' hleads => absurd hleads
        (not_leads_of_entry rfl (spaces_of_spaced hbefore₀ hsyntactic))⟩
  | start hspaces =>
      cases hbefore.symm.trans hspaces
      obtain ⟨log, hstart⟩ := h.applied 0 log₁
      exact ⟨rfl, fun m' hleads => absurd hleads
        (not_leads_of_entry rfl fun rule hrule => entry_of_zero hstart hrule)⟩
  | @stop _ c _ log' _ _ hspaces hstart =>
      cases hbefore.symm.trans hspaces
      obtain ⟨log, happlied⟩ := h.applied limit log₁
      cases happlied.symm.trans hstart
      refine ⟨rfl, fun m' hleads => ?_⟩
      obtain ⟨hframes, ⟨hsyntactic, htask, hcursor, hmemo⟩ | htask⟩ := leads_endOfInput rfl hleads
      · obtain ⟨log, hend⟩ := h.ends 0 log' c rfl
        rw [ofExpr] at hend
        have hentry := spaces_of_spaced hend hsyntactic
        exact ⟨hframes, fun m'' => not_leads_of_entry htask (by rwa [hcursor, hmemo])⟩
      · exact ⟨hframes, fun m'' => not_leads_endOfInput htask⟩

/-- A match that is answered from the table never goes into the body of a rule. -/
theorem Answered.frames_eq_nil (h : Answered set start memo pos c? out) {limit : Nat} {m : Moment}
    (hm : Reached set limit start memo m) : m.frames = [] := by
  have hquiet : m.frames = [] ∧
      ∀ m', Leads set m m' → m'.frames = [] ∧ ∀ m'', ¬ Leads set m' m'' := by
    induction hm with
    | begins hbegins => exact h.begins hbegins
    | leads _ hleads ih =>
        obtain ⟨hframes, hends⟩ := ih.2 _ hleads
        exact ⟨hframes, fun m'' hleads' => absurd hleads' (hends m'')⟩
  exact hquiet.1

/-- Every application in a match that is answered from the table finds a settled entry. -/
theorem Answered.entry (h : Answered set start memo pos c? out)
    (hmemo : (Stack.bottom set).Intact memo) {m : Moment} {rule : Rule}
    (hm : Reached set (limit + 1) start memo m) (htask : m.task = .apply q)
    (hrule : set.grammar.rule? q = some rule) :
    ∃ s, m.memo.find? m.cursor.pos rule.name = some (.settled s) := by
  have hholds := hm.holds hmemo
  have hframes := h.frames_eq_nil hm
  have hdepth := hholds.depth
  rw [hframes, List.length_nil, Nat.add_zero] at hdepth
  cases hentry : m.memo.find? m.cursor.pos rule.name with
  | none =>
      cases h.frames_eq_nil (hm.leads (.enter htask hrule hentry hdepth))
  | some entry =>
      obtain ⟨ends, hready⟩ := hholds.ready
      cases entry with
      | settled s => exact ⟨s, rfl⟩
      | growing seed? trace? read =>
          have hmem := (hready.intact.growing _ _ _ _ _ hentry).1
          rw [hframes] at hmem
          cases hmem

end

/-! ## Sessions -/

namespace Session

variable {g : Grammar} {s : Session} {start? : Option String} {r : Result}

/-- A match in a session that comes to a result keeps the table for the next one. -/
theorem matchRule_eq_ok (h : (s.matchRule start?).1 = .ok r) :
    ∃ rule a memo, s.grammar.startRule start? = .ok rule ∧
      run ⟨s.grammar, s.input, false⟩ nestingLimit rule.name s.memo = some (a, memo) ∧
      r = ⟨s.input, rule.name, a.tree?, a.failures⟩ ∧
      (s.matchRule start?).2 = { s with memo := memo } := by
  rw [matchRule] at h ⊢
  cases hstart : s.grammar.startRule start? with
  | error e =>
      rw [hstart] at h
      cases h
  | ok rule =>
      cases hrun : run ⟨s.grammar, s.input, false⟩ nestingLimit rule.name s.memo with
      | none =>
          simp only [hstart, hrun] at h
          cases h
      | some out =>
          simp only [hstart, hrun] at h ⊢
          exact ⟨rule, out.1, out.2, rfl, hrun, (Except.ok.inj h).symm, rfl⟩

/-- Whatever was asked of a session, a match that came to a result comes to the same one when it is
asked for again, with the same failures in the same order, and changes nothing any more. Then no
rule is being evaluated at any moment, and every application finds a settled entry. -/
theorem matchRule_again (ops : List Operation)
    (h : ((after g ops).matchRule start?).1 = .ok r) :
    let s := ((after g ops).matchRule start?).2
    s.matchRule start? = (.ok r, s) ∧
      ∀ m, Reached ⟨g, s.input, false⟩ nestingLimit r.start s.memo m → m.frames = [] ∧
        ∀ q rule, m.task = .apply q → g.rule? q = some rule →
          ∃ e, m.memo.find? m.cursor.pos rule.name = some (.settled e) := by
  have hfits := fits_after g ops
  generalize after g ops = s at h hfits ⊢
  obtain ⟨rfl, hintact⟩ := hfits
  obtain ⟨rule, a, memo, hstart, hrun, rfl, hs⟩ := matchRule_eq_ok h
  obtain ⟨pos, c?, out, hanswered, rfl⟩ := answered_of_run rfl hintact hrun (.refl memo)
  have hintact' : (Stack.bottom ⟨s.grammar, s.input, false⟩).Intact memo :=
    ((Stack.run_sound hintact).of_eq_some hrun).1
  obtain ⟨a, hagain, htree, hfailures⟩ := hanswered.run_eq nestingLimit
  dsimp only
  rw [hs]
  refine ⟨?_, fun m hm => ⟨hanswered.frames_eq_nil hm, fun q rule htask hrule =>
    hanswered.entry hintact' hm htask hrule⟩⟩
  rw [matchRule]
  simp only [hstart, hagain, htree, hfailures]

theorem matchRule_again_sums :
    ∃ r, ((after sums sumEdits).matchRule none).1 = .ok r ∧ r.succeeded = true ∧
      let s := ((after sums sumEdits).matchRule none).2
      s.matchRule none = (.ok r, s) ∧
        ∀ m, Reached ⟨sums, s.input, false⟩ nestingLimit r.start s.memo m → m.frames = [] ∧
          ∀ q rule, m.task = .apply q → sums.rule? q = some rule →
            ∃ e, m.memo.find? m.cursor.pos rule.name = some (.settled e) := by
  have hmatch : ((after sums sumEdits).matchRule none).1.toOption.map (·.succeeded) = some true := by
    decide +kernel
  obtain ⟨r, hr, hsucceeded⟩ := toOption_map_eq_some hmatch
  exact ⟨r, hr, hsucceeded, matchRule_again sumEdits hr⟩

end Session

end Pegboard.Match
