import Pegboard.Proofs.Match.Whole

/-!
# How deep matches nest

A match that finds entries in its table nests no deeper than one that begins with a blank table, if
the table is closed: with an entry it also holds the entries of all that its rule applied. Then
nothing has to be worked out that the other match would have found.

One exception remains. An application that looks at nothing at all, as that of a rule `empty = ""`,
may be missing from a table that is closed otherwise. Such rules are called blind. Working them out
takes as many applications, one in the other, as there are blind rules.

Main statement: `run_of_blank`.
-/

namespace Pegboard

open Text Match Match.Evaluation

namespace Grammar

/-- The rule looks at nothing, neither at the text nor at its end. -/
def Blind (g : Grammar) (q : String) : Prop :=
  g.hasRule q ∧ (g.meaning q []).examined = 0

open Classical in
/-- How many rules are blind. -/
noncomputable def blindCount (g : Grammar) : Nat :=
  (g.ruleNames.toFinset.filter g.Blind).card

variable {g : Grammar} {q : String} {cs : List Char}

theorem Blind.meaning_eq (hg : g.LoopsOnly) (h : g.Blind q) (cs : List Char) :
    g.meaning q cs = g.meaning q [] :=
  hg.meaning_same q [] cs (.inr ⟨[], [], cs, rfl, rfl, h.2.le⟩)

theorem blind_of_examined (hg : g.LoopsOnly) (hrule : g.hasRule q)
    (h : (g.meaning q cs).examined = 0) : g.Blind q := by
  refine ⟨hrule, ?_⟩
  rw [hg.meaning_same q cs [] (.inr ⟨[], cs, [], rfl, rfl, h.le⟩)]
  exact h

/-- What a blind rule applies, it applies at its own place, and that is blind as well. -/
theorem Blind.call (hg : g.LoopsOnly) (h : g.Blind q) {c : Call}
    (hc : c ∈ (g.meaning q cs).calls) (hne : c ≠ ⟨0, q⟩) :
    c.offset = 0 ∧ (g.rule? c.rule = none ∨ g.Blind c.rule) := by
  obtain ⟨rule, hrule⟩ := Option.isSome_iff_exists.mp h.1
  have hname := rule?_name hrule
  subst hname
  have hsound := hg.meaning_sound hrule cs
  have hexamined : (g.meaning rule.name cs).examined = 0 := by
    rw [h.meaning_eq hg, h.2]
  have hle := ((hsound.calls c hc).2).resolve_left hne
  rw [hexamined] at hle
  refine ⟨by omega, ?_⟩
  cases hcall : g.rule? c.rule with
  | none => exact .inl rfl
  | some rule' =>
      have hzero : (g.meaning c.rule (dropBytes cs c.offset)).examined = 0 := by omega
      exact .inr (blind_of_examined hg (by simp [hasRule, hcall]) hzero)

open Classical in
/-- How many blind rules there are below a rule, itself included. -/
noncomputable def blindBelow (g : Grammar) (q : String) : Nat :=
  (g.ruleNames.toFinset.filter fun r => g.Blind r ∧ g.rank r ≤ g.rank q).card

theorem blindBelow_le (g : Grammar) (q : String) : g.blindBelow q ≤ g.blindCount := by
  classical
  exact Finset.card_le_card (Finset.monotone_filter_right _ fun r _ h => h.1)

open Classical in
theorem mem_blindBelow {r : String} (hr : g.Blind r) (hrank : g.rank r ≤ g.rank q) :
    r ∈ g.ruleNames.toFinset.filter fun r => g.Blind r ∧ g.rank r ≤ g.rank q :=
  Finset.mem_filter.mpr ⟨mem_ruleNames hr.1, hr, hrank⟩

theorem blindBelow_pos (hq : g.Blind q) : 0 < g.blindBelow q := by
  classical
  exact Finset.card_pos.mpr ⟨q, mem_blindBelow hq (Nat.le_refl _)⟩

theorem blindBelow_lt {r : String} (hr : g.Blind r) (hrank : g.rank q < g.rank r) :
    g.blindBelow q < g.blindBelow r := by
  classical
  refine Finset.card_lt_card (Finset.ssubset_iff_subset_ne.mpr ⟨?_, fun heq => ?_⟩)
  · exact Finset.monotone_filter_right _ fun p _ hp => ⟨hp.1, hp.2.trans hrank.le⟩
  · have hin := mem_blindBelow hr (Nat.le_refl (g.rank r))
    rw [← heq] at hin
    exact absurd (Finset.mem_filter.mp hin).2.2 (by omega)

end Grammar

namespace Match

/-- The application can be had without looking at the text: it has an entry, no rule, or a blind
one. -/
def Backed (g : Grammar) (memo : Memo) (pos : Nat) (q : String) : Prop :=
  g.rule? q = none ∨ g.Blind q ∨ ∃ s, memo.find? pos q = some (.settled s)

/-- With an entry the table holds the entries of what its rule applied. -/
def Closed (g : Grammar) (i : Input) (memo : Memo) : Prop :=
  ∀ pos q s cs, memo.find? pos q = some (.settled s) → i.LeftAt pos cs →
    ∀ c ∈ (g.meaning q cs).calls, c ≠ ⟨0, q⟩ → Backed g memo (pos + c.offset) c.rule

/-- The second table backs all entries of the first one. -/
def Covered (g : Grammar) (m m' : Memo) : Prop :=
  ∀ pos q s, m.find? pos q = some (.settled s) → Backed g m' pos q

variable {g : Grammar} {i : Input} {m m' m₁ m₂ memo memo' : Memo} {pos : Nat} {q : String}

theorem Backed.mono (h : Backed g m pos q) (hretains : m.Retains m') : Backed g m' pos q := by
  rcases h with h | h | ⟨s, h⟩
  · exact .inl h
  · exact .inr (.inl h)
  · exact .inr (.inr ⟨s, hretains _ _ _ h⟩)

theorem Covered.mono (h : Covered g m₁ m) (hretains : m.Retains m') : Covered g m₁ m' :=
  fun pos q s hs => (h pos q s hs).mono hretains

/-- A table backs what it holds after a seed was planted. -/
theorem Covered.plant (h : Covered g m m₂) (hpos : pos < m.slots.size) (seed? : Option Tree)
    (read : Bool) : Covered g (m.put pos q (.growing seed? none read)) m₂ := by
  intro p r s hs
  rw [Memo.find?_put hpos] at hs
  split at hs
  · cases hs
  · exact h p r s hs

theorem Covered.settle (h : Covered g m m₂) (hpos : pos < m.slots.size) {e : Entry}
    (hq : Backed g m₂ pos q) : Covered g (m.put pos q e) m₂ := by
  intro p r s hs
  rw [Memo.find?_put hpos] at hs
  split at hs
  · rename_i heq
    rw [Prod.mk.injEq] at heq
    rwa [heq.1, heq.2]
  · exact h p r s hs

theorem Closed.plant (h : Closed g i m) (hpos : pos < m.slots.size)
    (hopen : ∀ s, m.find? pos q ≠ some (.settled s)) (seed? : Option Tree) (read : Bool) :
    Closed g i (m.put pos q (.growing seed? none read)) := by
  intro p r s cs hs hleft c hc hne
  rw [Memo.find?_put hpos] at hs
  split at hs
  · cases hs
  · exact (h p r s cs hs hleft c hc hne).mono (Memo.retains_put hpos hopen)

theorem closed_blank (g : Grammar) (i : Input) (size : Nat) : Closed g i (.blank size) := by
  intro pos q s cs hs
  simp at hs

/-- An application under the frames has no rule, an entry, or is to be worked out. -/
theorem Table.cases_of_under {frames : List Frame} {cs : List Char}
    (h : Table g i frames memo) (hunder : g.Under frames (pos, q)) (hleft : i.LeftAt pos cs) :
    g.rule? q = none ∨ memo.find? pos q = some (g.meaning q cs).entry ∨
      ∃ rule, rule.name = q ∧ g.rule? q = some rule ∧ memo.find? pos q = none := by
  cases hrule : g.rule? q with
  | none => exact .inl rfl
  | some rule =>
      rcases h.find?_of_under hunder (Grammar.hasRule_of_rule? hrule) with hnew | ⟨cs', hleft', he⟩
      · exact .inr (.inr ⟨rule, Grammar.rule?_name hrule, rfl, hnew⟩)
      · rw [hleft.unique hleft']
        exact .inr (.inl he)

variable {set : Setting} {depth : Nat} {frames : List Frame} {cs : List Char}

theorem touch_zero {rule : Rule} (hrule : set.grammar.rule? rule.name = some rule)
    (hnew : memo.find? pos rule.name = none) : touch set 0 frames pos rule.name memo = none := by
  rw [touch, ofRule_zero hrule ⟨pos, []⟩ hnew]
  rfl

/-- What holds of an application that finds an entry, or no rule, and of one that is worked out if
it holds of those that this one needs, holds of all. -/
theorem touch_induction (hg : set.grammar.LoopsOnly) (hset : set.tracing = false)
    {P : Nat → String → Memo → Memo → Prop}
    (found : ∀ pos q cs memo, set.grammar.rule? q = none ∨
      memo.find? pos q = some (set.grammar.meaning q cs).entry → P pos q memo memo)
    (worked : ∀ depth frames pos rule cs memo memo', Evaluating set depth frames pos rule cs →
      Table set.grammar set.input frames memo → memo.find? pos rule.name = none →
      (∀ c m m', c ∈ (set.grammar.meaning rule.name cs).calls →
        set.grammar.Under ((pos, rule.name) :: frames) (pos + c.offset, c.rule) →
        Open set.grammar set.input frames (pos, rule.name) m →
        touch set depth ((pos, rule.name) :: frames) (pos + c.offset) c.rule m = some m' →
        P (pos + c.offset) c.rule m m') →
      touch set (depth + 1) frames pos rule.name memo = some memo' → P pos rule.name memo memo')
    (hleft : set.input.LeftAt pos cs) (htable : Table set.grammar set.input frames memo)
    (hunder : set.grammar.Under frames (pos, q))
    (htouch : touch set depth frames pos q memo = some memo') : P pos q memo memo' := by
  induction depth using Nat.strong_induction_on generalizing frames pos q cs memo memo' with
  | _ depth ih =>
      rcases htable.cases_of_under hunder hleft with hnone | he | ⟨rule, rfl, hrule, hnew⟩
      · rw [touch_of_entry (a := .nothing) _ frames hset (.inl hnone)] at htouch
        exact Option.some.inj htouch ▸ found pos q cs memo (.inl hnone)
      · rw [touch_of_entry _ frames hset (.inr he)] at htouch
        exact Option.some.inj htouch ▸ found pos q cs memo (.inr he)
      · cases depth with
        | zero =>
            rw [touch_zero hrule hnew] at htouch
            cases htouch
        | succ depth =>
            have hsound := hg.meaning_sound hrule cs
            exact worked depth frames pos rule cs memo memo'
              ⟨hg, hset, truthful hg hset depth, hrule, hleft, hunder⟩ htable hnew
              (fun c m m' hc hunder hm => ih depth (Nat.lt_succ_self depth)
                (hleft.drop (hsound.calls c hc).1) hm.table hunder) htouch

/-! ## Closed tables -/

/-- Applications keep the table closed, and leave behind what backs them. -/
theorem touch_closed (hg : set.grammar.LoopsOnly) (hset : set.tracing = false)
    (hleft : set.input.LeftAt pos cs) (htable : Table set.grammar set.input frames memo)
    (hunder : set.grammar.Under frames (pos, q)) (hclosed : Closed set.grammar set.input memo)
    (htouch : touch set depth frames pos q memo = some memo') :
    Closed set.grammar set.input memo' ∧ Backed set.grammar memo' pos q := by
  refine touch_induction hg hset (P := fun pos q memo memo' =>
    Closed set.grammar set.input memo →
      Closed set.grammar set.input memo' ∧ Backed set.grammar memo' pos q)
    ?_ ?_ hleft htable hunder htouch hclosed
  · rintro pos q cs memo (hnone | he) hclosed
    · exact ⟨hclosed, .inl hnone⟩
    · exact ⟨hclosed, .inr (.inr ⟨_, he⟩)⟩
  · intro depth frames pos rule cs memo memo' h htable hnew ih htouch hclosed
    obtain ⟨memo₁, rfl, hopen, hclosed₁, -, hmade⟩ := h.work_induction
      (J := Closed set.grammar set.input) htable hnew
      (fun m seed? read hpos hm hclosed => hclosed.plant hpos hm seed? read)
      (fun c m m' hc _ hunder hm _ hclosed htouch => (ih c m m' hc hunder hm htouch hclosed).1)
      hclosed htouch
    have hpos := hopen.table.lt_size h.left
    have hsettled := Memo.retains_put (e := (set.grammar.meaning rule.name cs).entry) hpos
      hopen.not_settled
    -- an entry as old as before keeps its backing, the new one has what was applied for it
    refine ⟨?_, .inr (.inr ⟨_, Memo.find?_put_self hpos⟩)⟩
    intro p r s cs' hs hleft' c hc hne
    rw [Memo.find?_put hpos] at hs
    split at hs
    · rename_i heq
      rw [Prod.mk.injEq] at heq
      obtain ⟨rfl, rfl⟩ := heq
      obtain rfl := h.left.unique hleft'
      obtain ⟨hunder', m, m', hm, hclosed', htouch', hretains⟩ := hmade c hc hne
      exact ((ih c m m' hc hunder' hm htouch' hclosed').2.mono hretains).mono hsettled
    · exact (hclosed₁ p r s cs' hs hleft' c hc hne).mono hsettled

/-- Applications that a closed table backs add nothing that it does not back. -/
theorem touch_covered (hg : set.grammar.LoopsOnly) (hset : set.tracing = false)
    (hclosed : Closed set.grammar set.input m₂)
    (hleft : set.input.LeftAt pos cs) (htable : Table set.grammar set.input frames memo)
    (hunder : set.grammar.Under frames (pos, q)) (hcovered : Covered set.grammar memo m₂)
    (hq : Backed set.grammar m₂ pos q)
    (htouch : touch set depth frames pos q memo = some memo') :
    Covered set.grammar memo' m₂ := by
  refine touch_induction hg hset (P := fun pos q memo memo' => Covered set.grammar memo m₂ →
    Backed set.grammar m₂ pos q → Covered set.grammar memo' m₂)
    ?_ ?_ hleft htable hunder htouch hcovered hq
  · exact fun _ _ _ _ _ hcovered _ => hcovered
  · intro depth frames pos rule cs memo memo' h htable hnew ih htouch hcovered hq
    have hcalls : ∀ c ∈ (set.grammar.meaning rule.name cs).calls, c ≠ ⟨0, rule.name⟩ →
        Backed set.grammar m₂ (pos + c.offset) c.rule := by
      intro c hc hne
      rcases hq with hnone | hblind | ⟨s, hs⟩
      · rw [h.found] at hnone
        cases hnone
      · rcases (hblind.call hg hc hne).2 with hnone | hblind'
        · exact .inl hnone
        · exact .inr (.inl hblind')
      · exact hclosed pos rule.name s cs hs h.left c hc hne
    obtain ⟨memo₁, rfl, hopen, hcovered₁, -⟩ := h.work_induction
      (J := fun m => Covered set.grammar m m₂) htable hnew
      (fun m seed? read hpos _ hm => hm.plant hpos seed? read)
      (fun c m m' hc hne hunder hm _ hcovered htouch =>
        ih c m m' hc hunder hm htouch hcovered (hcalls c hc hne)) hcovered htouch
    exact hcovered₁.settle (hopen.table.lt_size h.left) hq

/-! ## Blind rules -/

/-- Moves come to something if each call but that of the rule itself does. -/
theorem Evaluating.moves_succeed {rule : Rule} (h : Evaluating set depth frames pos rule cs)
    {moves : List Move}
    (hmoves : ∀ c, .call c ∈ moves → Cuts cs c.offset ∧
      set.grammar.Inner frames (pos, rule.name) (pos + c.offset, c.rule))
    (call : ∀ c m, .call c ∈ moves → c ≠ ⟨0, rule.name⟩ →
      set.grammar.Under ((pos, rule.name) :: frames) (pos + c.offset, c.rule) →
      Open set.grammar set.input frames (pos, rule.name) m →
      ∃ m', touch set depth ((pos, rule.name) :: frames) (pos + c.offset) c.rule m = some m')
    (hopen : Open set.grammar set.input frames (pos, rule.name) memo) :
    ∃ memo', runMoves (touch set depth ((pos, rule.name) :: frames)) pos rule.name moves memo =
      some memo' := by
  induction moves generalizing memo with
  | nil => exact ⟨memo, rfl⟩
  | cons move moves ih =>
      have hpos := hopen.table.lt_size h.left
      have ih := fun {memo : Memo} => @ih memo
        (fun c hc => hmoves c (List.mem_cons_of_mem _ hc))
        (fun c m hc => call c m (List.mem_cons_of_mem _ hc))
      cases move with
      | seed t? => exact ih (Open.plant hopen.table hpos t? t?.isSome)
      | call c =>
          obtain ⟨hcut, hinner⟩ := hmoves c List.mem_cons_self
          obtain ⟨seed?, read, hown⟩ := hopen.growing
          rw [runMoves]
          by_cases hc : c = ⟨0, rule.name⟩
          · subst hc
            have htouch := touch_own h.untraced h.found depth frames hown
            rw [Nat.add_zero, htouch]
            exact ih (Open.plant hopen.table hpos seed? true)
          · have hunder := hinner.resolve_left fun heq => hc (by
              rw [Prod.mk.injEq] at heq
              obtain ⟨offset, q⟩ := c
              rw [show offset = 0 from Nat.add_eq_left.mp heq.1, show q = rule.name from heq.2])
            obtain ⟨m', htouch⟩ := call c memo List.mem_cons_self hc hunder hopen
            rcases h.touch_cases hcut hinner hopen.table hown htouch with
              ⟨heq, -⟩ | ⟨-, -, htable', hextends⟩
            · exact absurd heq hc
            · rw [htouch]
              exact ih ⟨htable', seed?, read, hextends _ _ _ hown⟩

/-- Working out a blind rule takes no more applications, one in the other, than there are blind
rules below it. -/
theorem touch_blind (depth : Nat) (hg : set.grammar.LoopsOnly) (hset : set.tracing = false)
    (hleft : set.input.LeftAt pos cs) (htable : Table set.grammar set.input frames memo)
    (hunder : set.grammar.Under frames (pos, q))
    (hq : set.grammar.rule? q = none ∨
      set.grammar.Blind q ∧ set.grammar.blindBelow q ≤ depth) :
    ∃ memo', touch set depth frames pos q memo = some memo' := by
  induction depth generalizing frames pos q cs memo with
  | zero =>
      rcases hq with hnone | ⟨hblind, hle⟩
      · exact ⟨memo, touch_of_entry (a := .nothing) 0 frames hset (.inl hnone)⟩
      · have := Grammar.blindBelow_pos hblind
        omega
  | succ depth ih =>
      rcases htable.cases_of_under hunder hleft with hnone | he | ⟨rule, rfl, hrule, hnew⟩
      · exact ⟨memo, touch_of_entry (a := .nothing) _ frames hset (.inl hnone)⟩
      · exact ⟨memo, touch_of_entry _ frames hset (.inr he)⟩
      · obtain ⟨hblind, hle⟩ := hq.resolve_left (by simp [hrule])
        have h : Evaluating set depth frames pos rule cs :=
          ⟨hg, hset, truthful hg hset depth, hrule, hleft, hunder⟩
        have hpos := htable.lt_size hleft
        -- what a blind rule needs is blind, and has fewer blind rules below it
        have hcall : ∀ c ∈ (set.grammar.meaning rule.name cs).calls, c ≠ ⟨0, rule.name⟩ →
            set.grammar.rule? c.rule = none ∨
              set.grammar.Blind c.rule ∧ set.grammar.blindBelow c.rule ≤ depth := by
          intro c hc hne
          obtain ⟨h0, hcall⟩ := hblind.call hg hc hne
          refine hcall.imp_right fun hblind' => ⟨hblind', ?_⟩
          have hleftcall := (hg.meaning_sound hrule cs).left c hc h0
          have hrank := hg.rank_lt ⟨rule, hrule, hleftcall⟩ fun hname =>
            hne (by rw [← hname, ← h0])
          have := Grammar.blindBelow_lt hblind hrank
          omega
        obtain ⟨memo₁, hrun⟩ := h.moves_succeed (fun c hc => (h.call_of_tail hc).2)
          (fun c m hc hne hunder hm =>
            have ⟨hc, hcut, _⟩ := h.call_of_tail hc
            ih (hleft.drop hcut) hm.table hunder (hcall c hc hne))
          (Open.plant (htable.cons _) hpos none false)
        exact ⟨_, by rw [touch_work h htable hnew, hrun]; rfl⟩

/-! ## A blank table and a closed one -/

/-- Moves made in a table go through in a closed one that covers it, if each call but that of the
rule itself does. -/
theorem Evaluating.moves_follow {rule : Rule} {depth₂ : Nat}
    (h : Evaluating set depth frames pos rule cs) (h₂ : Evaluating set depth₂ frames pos rule cs)
    {moves : List Move}
    (hmoves : ∀ c, .call c ∈ moves → Cuts cs c.offset ∧
      set.grammar.Inner frames (pos, rule.name) (pos + c.offset, c.rule))
    (call : ∀ c m m₂ m', .call c ∈ moves →
      set.grammar.Under ((pos, rule.name) :: frames) (pos + c.offset, c.rule) →
      Open set.grammar set.input frames (pos, rule.name) m →
      Open set.grammar set.input frames (pos, rule.name) m₂ →
      Closed set.grammar set.input m₂ → Covered set.grammar m m₂ →
      touch set depth ((pos, rule.name) :: frames) (pos + c.offset) c.rule m = some m' →
      ∃ m₂', touch set depth₂ ((pos, rule.name) :: frames) (pos + c.offset) c.rule m₂ = some m₂' ∧
        Covered set.grammar m' m₂')
    (hopen : Open set.grammar set.input frames (pos, rule.name) memo)
    (hopen₂ : Open set.grammar set.input frames (pos, rule.name) m₂)
    (hclosed : Closed set.grammar set.input m₂) (hcovered : Covered set.grammar memo m₂)
    (hrun : runMoves (touch set depth ((pos, rule.name) :: frames)) pos rule.name moves memo =
      some memo') :
    Open set.grammar set.input frames (pos, rule.name) memo' ∧
      ∃ m₂', runMoves (touch set depth₂ ((pos, rule.name) :: frames)) pos rule.name moves m₂ =
        some m₂' ∧ Open set.grammar set.input frames (pos, rule.name) m₂' ∧
          Covered set.grammar memo' m₂' := by
  induction moves generalizing memo m₂ with
  | nil =>
      obtain rfl : memo = memo' := Option.some.inj hrun
      exact ⟨hopen, m₂, rfl, hopen₂, hcovered⟩
  | cons move moves ih =>
      have hpos := hopen.table.lt_size h.left
      have hpos₂ := hopen₂.table.lt_size h.left
      have ih := fun {memo m₂ : Memo} => @ih memo m₂
        (fun c hc => hmoves c (List.mem_cons_of_mem _ hc))
        (fun c m m₂ m' hc => call c m m₂ m' (List.mem_cons_of_mem _ hc))
      -- a seed is no entry that would have to be backed
      have planted : ∀ seed? seed₂? read read₂,
          Covered set.grammar (memo.put pos rule.name (.growing seed? none read))
            (m₂.put pos rule.name (.growing seed₂? none read₂)) :=
        fun seed? seed₂? read read₂ => (hcovered.plant hpos seed? read).mono
          (Memo.retains_put hpos₂ hopen₂.not_settled)
      cases move with
      | seed t? =>
          exact ih (Open.plant hopen.table hpos t? t?.isSome)
            (Open.plant hopen₂.table hpos₂ t? t?.isSome)
            (hclosed.plant hpos₂ hopen₂.not_settled t? t?.isSome) (planted _ _ _ _) hrun
      | call c =>
          obtain ⟨hcut, hinner⟩ := hmoves c List.mem_cons_self
          obtain ⟨memo₁, htouch, hrun⟩ := Option.bind_eq_some_iff.mp hrun
          obtain ⟨seed?, read, hown⟩ := hopen.growing
          obtain ⟨seed₂?, read₂, hown₂⟩ := hopen₂.growing
          rw [runMoves]
          rcases h.touch_cases hcut hinner hopen.table hown htouch with
            ⟨rfl, rfl⟩ | ⟨hne, hunder, htable₁, hextends⟩
          · have htouch₂ := touch_own h₂.untraced h₂.found depth₂ frames hown₂
            rw [Nat.add_zero, htouch₂]
            exact ih (Open.plant hopen.table hpos seed? true)
              (Open.plant hopen₂.table hpos₂ seed₂? true)
              (hclosed.plant hpos₂ hopen₂.not_settled seed₂? true) (planted _ _ _ _) hrun
          · obtain ⟨m₂', htouch₂, hcovered'⟩ :=
              call c memo m₂ memo₁ List.mem_cons_self hunder hopen hopen₂ hclosed hcovered htouch
            obtain ⟨-, -, htable₂, hextends₂⟩ :=
              (h₂.touch_cases hcut hinner hopen₂.table hown₂ htouch₂).resolve_left
                fun heq => hne heq.1
            rw [htouch₂]
            exact ih ⟨htable₁, seed?, read, hextends _ _ _ hown⟩
              ⟨htable₂, seed₂?, read₂, hextends₂ _ _ _ hown₂⟩
              (touch_closed h₂.loopsOnly h₂.untraced (h₂.left.drop hcut) hopen₂.table hunder hclosed
                htouch₂).1 hcovered' hrun

/-- An application made in a table goes through in a closed one that covers it, if it may nest as
deep again as there are blind rules. -/
theorem touch_follow {depth₂ : Nat} (hdepth : depth + set.grammar.blindCount ≤ depth₂)
    (hg : set.grammar.LoopsOnly) (hset : set.tracing = false)
    (hleft : set.input.LeftAt pos cs) (htable : Table set.grammar set.input frames memo)
    (htable₂ : Table set.grammar set.input frames m₂)
    (hunder : set.grammar.Under frames (pos, q)) (hclosed : Closed set.grammar set.input m₂)
    (hcovered : Covered set.grammar memo m₂)
    (htouch : touch set depth frames pos q memo = some memo') :
    ∃ m₂', touch set depth₂ frames pos q m₂ = some m₂' ∧ Covered set.grammar memo' m₂' := by
  induction depth using Nat.strong_induction_on
    generalizing depth₂ frames pos q cs memo m₂ memo' with
  | _ depth ih =>
      rcases htable₂.cases_of_under hunder hleft with hnone | he | ⟨rule, rfl, hrule, hnew₂⟩
      · rw [touch_of_entry (a := .nothing) _ frames hset (.inl hnone)] at htouch
        exact ⟨m₂, touch_of_entry (a := .nothing) _ frames hset (.inl hnone),
          Option.some.inj htouch ▸ hcovered⟩
      · exact ⟨m₂, touch_of_entry _ frames hset (.inr he), touch_covered hg hset hclosed hleft htable
          hunder hcovered (.inr (.inr ⟨_, he⟩)) htouch⟩
      rcases htable.cases_of_under hunder hleft with hnone | he | ⟨-, -, -, hnew⟩
      · rw [hrule] at hnone
        cases hnone
      · -- found in the first table and not in the second one: the rule is blind
        rw [touch_of_entry _ frames hset (.inr he)] at htouch
        have hblind : set.grammar.Blind rule.name := by
          rcases hcovered _ _ _ he with hnone | hblind | ⟨s, hs⟩
          · rw [hrule] at hnone
            cases hnone
          · exact hblind
          · rw [hnew₂] at hs
            cases hs
        have hle := Grammar.blindBelow_le set.grammar rule.name
        obtain ⟨m₂', htouch₂⟩ :=
          touch_blind depth₂ hg hset hleft htable₂ hunder (.inr ⟨hblind, by omega⟩)
        have hkeeps := (truthful hg hset _).keeps _ _ _ _ _ _ hleft htable₂ hunder htouch₂
        exact ⟨m₂', htouch₂, Option.some.inj htouch ▸ hcovered.mono hkeeps.retains⟩
      · cases depth with
        | zero =>
            rw [touch_zero hrule hnew] at htouch
            cases htouch
        | succ depth =>
            obtain ⟨depth₂, rfl⟩ : ∃ n, depth₂ = n + 1 := ⟨depth₂ - 1, by omega⟩
            have h : Evaluating set depth frames pos rule cs :=
              ⟨hg, hset, truthful hg hset depth, hrule, hleft, hunder⟩
            have h₂ : Evaluating set depth₂ frames pos rule cs :=
              ⟨hg, hset, truthful hg hset depth₂, hrule, hleft, hunder⟩
            have hpos := htable.lt_size hleft
            have hpos₂ := htable₂.lt_size hleft
            have hopen₂ : ∀ s, m₂.find? pos rule.name ≠ some (.settled s) := by simp [hnew₂]
            rw [touch_work h htable hnew] at htouch
            obtain ⟨memo₁, hrun, rfl⟩ := Option.map_eq_some_iff.mp htouch
            obtain ⟨hopen', m₂', hrun₂, hopen₂', hcovered'⟩ := h.moves_follow h₂
              (fun c hc => (h.call_of_tail hc).2)
              (fun c m m₂ m' hc hunder hm hm₂ hclosed hcovered htouch =>
                ih depth (Nat.lt_succ_self _) (by omega) (hleft.drop (h.call_of_tail hc).2.1) hm.table
                  hm₂.table hunder hclosed hcovered htouch)
              (Open.plant (htable.cons _) hpos none false)
              (Open.plant (htable₂.cons _) hpos₂ none false)
              (hclosed.plant hpos₂ hopen₂ none false)
              ((hcovered.plant hpos none false).mono (Memo.retains_put hpos₂ hopen₂)) hrun
            have hsize := hopen'.table.lt_size hleft
            have hsize₂ := hopen₂'.table.lt_size hleft
            refine ⟨m₂'.put pos rule.name (set.grammar.meaning rule.name cs).entry, ?_, ?_⟩
            · rw [touch_work h₂ htable₂ hnew₂, hrun₂]
              rfl
            · exact (hcovered'.mono (Memo.retains_put hsize₂ hopen₂'.not_settled)).settle hsize
                (.inr (.inr ⟨_, Memo.find?_put_self hsize₂⟩))

/-! ## Matches of a whole text -/

/-- What the matches of a text keep for one another: a closed table that holds the truth. -/
structure Kept (g : Grammar) (i : Input) (memo : Memo) : Prop where
  table : Table g i [] memo
  closed : Closed g i memo

theorem kept_blank (g : Grammar) (i : Input) : Kept g i (.blank i.size) :=
  ⟨.blank g i, closed_blank g i i.size⟩

theorem Kept.touch {limit : Nat} (h : Kept set.grammar set.input memo)
    (hg : set.grammar.LoopsOnly) (hset : set.tracing = false) (hleft : set.input.LeftAt pos cs)
    (htouch : touch set limit [] pos q memo = some memo') : Kept set.grammar set.input memo' :=
  have hunder := Grammar.Under.nil (pos, q)
  ⟨(truthful hg hset limit).table hleft h.table hunder htouch,
    (touch_closed hg hset hleft h.table hunder h.closed htouch).1⟩

/-- The calls of a match keep the table. -/
theorem calls_kept {limit : Nat} (hg : set.grammar.LoopsOnly) (hset : set.tracing = false)
    {calls : List Call} (hcalls : ∀ c ∈ calls, Cuts set.input.text.toList c.offset)
    (h : Kept set.grammar set.input memo)
    (hrun : runCalls (touch set limit []) 0 calls memo = some memo') :
    Kept set.grammar set.input memo' := by
  induction calls generalizing memo with
  | nil => exact Option.some.inj hrun ▸ h
  | cons c calls ih =>
      obtain ⟨memo₁, htouch, hrun⟩ := Option.bind_eq_some_iff.mp hrun
      have hleft := (Input.LeftAt.start set.input).drop (hcalls c List.mem_cons_self)
      exact ih (fun c hc => hcalls c (List.mem_cons_of_mem _ hc)) (h.touch hg hset hleft htouch)
        hrun

/-- The calls of a match in some table go through in one that is kept and covers it. -/
theorem calls_follow {limit limit₂ : Nat} (hlimit : limit + set.grammar.blindCount ≤ limit₂)
    (hg : set.grammar.LoopsOnly) (hset : set.tracing = false)
    {calls : List Call} (hcalls : ∀ c ∈ calls, Cuts set.input.text.toList c.offset)
    (htable : Table set.grammar set.input [] memo) (h₂ : Kept set.grammar set.input m₂)
    (hcovered : Covered set.grammar memo m₂)
    (hrun : runCalls (touch set limit []) 0 calls memo = some memo') :
    ∃ m₂', runCalls (touch set limit₂ []) 0 calls m₂ = some m₂' := by
  induction calls generalizing memo m₂ with
  | nil => exact ⟨m₂, rfl⟩
  | cons c calls ih =>
      obtain ⟨memo₁, htouch, hrun⟩ := Option.bind_eq_some_iff.mp hrun
      have hleft := (Input.LeftAt.start set.input).drop (hcalls c List.mem_cons_self)
      have hunder := Grammar.Under.nil (g := set.grammar) (0 + c.offset, c.rule)
      obtain ⟨m₂', htouch₂, hcovered'⟩ := touch_follow hlimit hg hset hleft htable h₂.table hunder
        h₂.closed hcovered htouch
      rw [runCalls, htouch₂]
      exact ih (fun c hc => hcalls c (List.mem_cons_of_mem _ hc))
        ((truthful hg hset limit).table hleft htable hunder htouch) (h₂.touch hg hset hleft htouch₂)
        hcovered' hrun

section

variable {limit : Nat} {start : String} {a : Answer}

theorem whole_calls (g : Grammar) (start : String) (cs : List Char) :
    ∀ c ∈ ((Expr.whole start).read g.meaning (isSyntactic start) cs).calls, Cuts cs c.offset :=
  fun c hc => ((Expr.read_fits g.meaning_fits _ (.whole start) cs).calls c hc).1

/-- A match in a table that is kept comes to the reading of its text, and keeps the table. -/
theorem run_kept (hg : g.LoopsOnly) (h : Kept g i memo)
    (hrun : run ⟨g, i, false⟩ limit start memo = some (a, memo')) :
    let r := (Expr.whole start).read g.meaning (isSyntactic start) i.text.toList
    a.tree? = r.tree? ∧ a.failures = .ofList r.missed ∧ Kept g i memo' := by
  rcases run_cases ⟨g, i, false⟩ hg rfl h.table limit start with
    ⟨-, hnone⟩ | ⟨memo₁, a₁, hcalls, -, hsome, htree, hfailures⟩
  · rw [hrun] at hnone
    cases hnone
  · obtain ⟨rfl, rfl⟩ : a = a₁ ∧ memo' = memo₁ := by
      rw [hrun] at hsome
      simpa using hsome
    have hset : (⟨g, i, false⟩ : Setting).tracing = false := rfl
    exact ⟨htree, hfailures, calls_kept hg hset (whole_calls g start _) h hcalls⟩

/-- A match that nests within the limit when it begins with a blank table does so with a table that
is kept, if it may nest as deep again as there are blind rules. -/
theorem run_of_blank {limit₂ : Nat} (hlimit : limit + g.blindCount ≤ limit₂) (hg : g.LoopsOnly)
    (h : Kept g i memo) (hblank : run ⟨g, i, false⟩ limit start (.blank i.size) ≠ none) :
    ∃ a memo', run ⟨g, i, false⟩ limit₂ start memo = some (a, memo') := by
  have hkept := kept_blank g i
  have hset : (⟨g, i, false⟩ : Setting).tracing = false := rfl
  rcases run_cases ⟨g, i, false⟩ hg hset hkept.table limit start with
    ⟨-, hnone⟩ | ⟨_, _, hcalls, -⟩
  · exact absurd hnone hblank
  · -- a blank table has no entries that the other one would have to cover
    have hcovered : Covered g (.blank i.size) memo := by
      intro pos q s hs
      simp at hs
    obtain ⟨m₂', hcalls₂⟩ := calls_follow hlimit hg hset (whole_calls g start _) hkept.table h
      hcovered hcalls
    rcases run_cases ⟨g, i, false⟩ hg hset h.table limit₂ start with
      ⟨hnone, -⟩ | ⟨memo', a, -, -, hsome, -⟩
    · rw [hcalls₂] at hnone
      cases hnone
    · exact ⟨a, memo', hsome⟩

end

end Match

end Pegboard
