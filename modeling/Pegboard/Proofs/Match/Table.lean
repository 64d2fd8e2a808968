import Pegboard.Match.Eval
import Pegboard.Proofs.Match.Memo
import Pegboard.Proofs.Meaning

/-!
# What a memo table holds

Between applications the table holds nothing but the truth: a settled entry is what the meaning of
the grammar says of its rule and its place, and an entry still growing belongs to one of the rules
being evaluated. `Table` is that invariant. Entries of names without a rule are never looked up, so
that nothing has to be known of them.

The rules being evaluated stand above one another: an application lies further on in the text, or
at the same place, with no left calls back to the rules that are being evaluated there. Where left
calls have no cycles but loops, no application therefore comes upon a rule being evaluated but the
innermost one (`Under.not_mem`).
-/

namespace Pegboard

open Relation Text Match.Evaluation

/-- The entry that an application leaves in the table. No trace is kept. -/
def Application.entry (a : Application) : Match.Entry :=
  .settled ⟨a.tree?, a.examined, .ofList a.missed, none⟩

theorem Application.examined_of_entry {a : Application} {s : Match.Settled}
    (h : .settled s = a.entry) : s.examined = a.examined := by
  rw [entry, Match.Entry.settled.injEq] at h
  rw [h]

/-- An application that may occur while another one is being worked out. -/
def Grammar.Above (g : Grammar) (a b : Frame) : Prop :=
  b.1 < a.1 ∨ b.1 = a.1 ∧ ¬ ReflTransGen g.LeftCalls a.2 b.2

/-- An application that may occur while all of these are being worked out. -/
def Grammar.Under (g : Grammar) (frames : List Frame) (a : Frame) : Prop :=
  ∀ f ∈ frames, g.hasRule f.2 → g.Above a f

/-- An application that may occur in the body of a rule that is evaluated under the frames: that of
the rule itself again, or one above it. -/
def Grammar.Inner (g : Grammar) (frames : List Frame) (own a : Frame) : Prop :=
  a = own ∨ g.Under (own :: frames) a

namespace Grammar

variable {g : Grammar} {a : Frame} {frames : List Frame}

theorem Above.irrefl (a : Frame) : ¬ g.Above a a := by
  rintro (h | ⟨-, hcalls⟩)
  · exact Nat.lt_irrefl _ h
  · exact hcalls .refl

theorem Under.nil (a : Frame) : g.Under [] a := by
  simp [Under]

theorem Under.not_mem (h : g.Under frames a) (hrule : g.hasRule a.2) : a ∉ frames :=
  fun hmem => Above.irrefl a (h a hmem hrule)

/-- What an application needs is under it, itself left aside. -/
theorem under_of_call (hg : g.LoopsOnly) {rule : Rule} {m : Meaning} {cs : List Char}
    {app : Application} (hrule : g.rule? rule.name = some rule) {pos : Nat}
    (hunder : g.Under frames (pos, rule.name)) (happ : app.Sound g rule m cs) {call : Call}
    (hc : call ∈ app.calls) (hne : call ≠ ⟨0, rule.name⟩) :
    g.Under ((pos, rule.name) :: frames) (pos + call.offset, call.rule) := by
  rcases Nat.eq_zero_or_pos call.offset with h0 | hpos
  · have hcalls : g.LeftCalls rule.name call.rule := ⟨rule, hrule, happ.left call hc h0⟩
    have hname : rule.name ≠ call.rule := by
      intro hname
      exact hne (by rw [hname, ← h0])
    have hback : ¬ ReflTransGen g.LeftCalls call.rule rule.name := by
      intro hback
      rcases reflTransGen_iff_eq_or_transGen.mp hback with heq | hback
      · exact hname heq
      · exact hg _ _ hname (.single hcalls) hback
    intro f hf hrule'
    rw [h0, Nat.add_zero]
    rcases List.mem_cons.mp hf with rfl | hf
    · exact .inr ⟨rfl, hback⟩
    · exact (hunder f hf hrule').imp_right fun ⟨hpos, hcalls'⟩ =>
        ⟨hpos, fun hback' => hcalls' (.head hcalls hback')⟩
  · intro f hf hrule'
    rcases List.mem_cons.mp hf with rfl | hf
    · exact .inl (Nat.lt_add_of_pos_right hpos)
    · have hle : f.1 ≤ pos := (hunder f hf hrule').elim Nat.le_of_lt fun h => Nat.le_of_eq h.1
      exact .inl (Nat.lt_of_le_of_lt hle (Nat.lt_add_of_pos_right hpos))

/-- What a round of the rule applies may be applied in its body. -/
theorem inner_of_call (hg : g.LoopsOnly) {rule : Rule} {m : Meaning} {cs : List Char}
    {app : Application} (hrule : g.rule? rule.name = some rule) {pos : Nat}
    (hunder : g.Under frames (pos, rule.name)) (happ : app.Sound g rule m cs) {call : Call}
    (hc : call ∈ app.calls) :
    g.Inner frames (pos, rule.name) (pos + call.offset, call.rule) := by
  by_cases hown : call = ⟨0, rule.name⟩
  · exact .inl (by rw [hown]; rfl)
  · exact .inr (under_of_call hg hrule hunder happ hc hown)

end Grammar

namespace Match

/-- What the table holds while the frames are being evaluated. -/
structure Table (g : Grammar) (i : Input) (frames : List Frame) (memo : Memo) : Prop where
  size : memo.slots.size = i.size + 1
  keyed : memo.Keyed
  settled : ∀ pos q s, g.hasRule q → memo.find? pos q = some (.settled s) →
    ∃ cs, i.LeftAt pos cs ∧ .settled s = (g.meaning q cs).entry
  growing : ∀ pos q seed? trace? read, g.hasRule q →
    memo.find? pos q = some (.growing seed? trace? read) → (pos, q) ∈ frames

/-- The entries of the first table but one are found in the second one. -/
def Memo.ExtendsBut (key : Frame) (m m' : Memo) : Prop :=
  ∀ pos rule e, (pos, rule) ≠ key → m.find? pos rule = some e → m'.find? pos rule = some e

/-- The settled entries of the first table are found in the second one. -/
def Memo.Retains (m m' : Memo) : Prop :=
  ∀ pos rule s, m.find? pos rule = some (.settled s) → m'.find? pos rule = some (.settled s)

namespace Memo

variable {m m' m'' : Memo} {key : Frame}

theorem Retains.refl (m : Memo) : m.Retains m :=
  fun _ _ _ h => h

theorem Retains.trans (h : m.Retains m') (h' : m'.Retains m'') : m.Retains m'' :=
  fun pos rule s hs => h' pos rule s (h pos rule s hs)

theorem Extends.retains (h : m.Extends m') : m.Retains m' :=
  fun pos rule _ hs => h pos rule _ hs

theorem retains_put {pos : Nat} {rule : String} {e : Entry} (hpos : pos < m.slots.size)
    (hopen : ∀ s, m.find? pos rule ≠ some (.settled s)) : m.Retains (m.put pos rule e) := by
  intro p q s hs
  rw [find?_put_of_ne hpos]
  · exact hs
  · intro heq
    rw [Prod.mk.injEq] at heq
    rw [heq.1, heq.2] at hs
    exact hopen s hs

theorem ExtendsBut.refl (key : Frame) (m : Memo) : m.ExtendsBut key m :=
  fun _ _ _ _ h => h

theorem ExtendsBut.trans (h : m.ExtendsBut key m') (h' : m'.ExtendsBut key m'') :
    m.ExtendsBut key m'' :=
  fun pos rule e hne he => h' pos rule e hne (h pos rule e hne he)

theorem Extends.but (h : m.Extends m') : m.ExtendsBut key m' :=
  fun pos rule e _ he => h pos rule e he

theorem extendsBut_put {pos : Nat} {rule : String} {e : Entry} (hpos : pos < m.slots.size) :
    m.ExtendsBut (pos, rule) (m.put pos rule e) := by
  intro p q e' hne he
  rwa [find?_put_of_ne hpos hne]

/-- To put the entry left aside, where there was none, is to extend the table. -/
theorem ExtendsBut.put {pos : Nat} {rule : String} {e : Entry} (h : m.ExtendsBut (pos, rule) m')
    (hnew : m.find? pos rule = none) (hpos : pos < m'.slots.size) :
    m.Extends (m'.put pos rule e) := by
  intro p q e' he
  have hne : (p, q) ≠ (pos, rule) := by
    intro heq
    rw [Prod.mk.injEq] at heq
    rw [heq.1, heq.2, hnew] at he
    cases he
  rw [find?_put_of_ne hpos hne]
  exact h p q e' hne he

end Memo

namespace Table

variable {g : Grammar} {i : Input} {frames : List Frame} {memo : Memo} {pos : Nat} {q : String}

theorem blank (g : Grammar) (i : Input) : Table g i [] (.blank i.size) where
  size := by simp [Memo.blank]
  keyed := Memo.keyed_blank _
  settled := by simp
  growing := by simp

/-- Frames of rules that are not in the grammar make no difference, nor do more of them. -/
theorem mono {frames' : List Frame} (h : Table g i frames memo)
    (hframes : ∀ f ∈ frames, g.hasRule f.2 → f ∈ frames') : Table g i frames' memo where
  size := h.size
  keyed := h.keyed
  settled := h.settled
  growing := fun pos q seed? trace? read hrule he =>
    hframes (pos, q) (h.growing pos q seed? trace? read hrule he) hrule

theorem cons (h : Table g i frames memo) (f : Frame) : Table g i (f :: frames) memo :=
  h.mono fun _ hx _ => List.mem_cons_of_mem _ hx

/-- An application under the frames has a settled entry or none. -/
theorem find?_of_under (h : Table g i frames memo) (hunder : g.Under frames (pos, q))
    (hrule : g.hasRule q) :
    memo.find? pos q = none ∨
      ∃ cs, i.LeftAt pos cs ∧ memo.find? pos q = some (g.meaning q cs).entry := by
  cases he : memo.find? pos q with
  | none => exact .inl rfl
  | some e =>
      cases e with
      | growing seed? trace? read =>
          exact absurd (h.growing pos q seed? trace? read hrule he) (hunder.not_mem hrule)
      | settled s =>
          obtain ⟨cs, hleft, heq⟩ := h.settled pos q s hrule he
          exact .inr ⟨cs, hleft, by rw [heq]⟩

theorem lt_size (h : Table g i frames memo) {cs : List Char} (hleft : i.LeftAt pos cs) :
    pos < memo.slots.size := by
  have := hleft.size_eq
  rw [h.size]
  omega

/-- Plants a seed for one of the rules being evaluated. -/
theorem plant (h : Table g i frames memo) (hpos : pos < memo.slots.size)
    (hmem : (pos, q) ∈ frames) (seed? : Option Tree) (trace? : Option Trace.Node) (read : Bool) :
    Table g i frames (memo.put pos q (.growing seed? trace? read)) where
  size := by simp [h.size]
  keyed := h.keyed.put
  settled := by
    intro p r s hrule he
    rw [Memo.find?_put hpos] at he
    split at he
    · cases he
    · exact h.settled p r s hrule he
  growing := by
    intro p r seed? trace? read hrule he
    rw [Memo.find?_put hpos] at he
    split at he
    · rename_i heq
      rwa [heq]
    · exact h.growing p r seed? trace? read hrule he

/-- Settles the innermost of the rules being evaluated. -/
theorem settle (h : Table g i ((pos, q) :: frames) memo) {cs : List Char}
    (hleft : i.LeftAt pos cs) : Table g i frames (memo.put pos q (g.meaning q cs).entry) where
  size := by simp [h.size]
  keyed := h.keyed.put
  settled := by
    intro p r s hrule he
    rw [Memo.find?_put (h.lt_size hleft)] at he
    split at he
    · rename_i heq
      rw [Prod.mk.injEq] at heq
      rw [heq.1, heq.2]
      exact ⟨cs, hleft, (Option.some.inj he).symm⟩
    · exact h.settled p r s hrule he
  growing := by
    intro p r seed? trace? read hrule he
    rw [Memo.find?_put (h.lt_size hleft)] at he
    split at he
    · cases he
    · rename_i hne
      exact (List.mem_cons.mp (h.growing p r seed? trace? read hrule he)).resolve_left hne

end Table

/-- The table while a rule is being evaluated under the frames. -/
structure Open (g : Grammar) (i : Input) (frames : List Frame) (own : Frame) (memo : Memo) :
    Prop where
  table : Table g i (own :: frames) memo
  growing : ∃ seed? read, memo.find? own.1 own.2 = some (.growing seed? none read)

namespace Open

variable {g : Grammar} {i : Input} {frames : List Frame} {memo : Memo} {pos : Nat} {q : String}

theorem not_settled (h : Open g i frames (pos, q) memo) (s : Settled) :
    memo.find? pos q ≠ some (.settled s) := by
  obtain ⟨seed?, read, hown⟩ := h.growing
  rw [hown]
  simp

/-- To plant a seed is to begin to evaluate a rule, or to go on. -/
theorem plant (h : Table g i ((pos, q) :: frames) memo) (hpos : pos < memo.slots.size)
    (seed? : Option Tree) (read : Bool) :
    Open g i frames (pos, q) (memo.put pos q (.growing seed? none read)) where
  table := h.plant hpos List.mem_cons_self seed? none read
  growing := ⟨seed?, read, Memo.find?_put_self hpos⟩

end Open

end Match

end Pegboard
