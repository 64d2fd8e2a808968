import Pegboard.Grammar.Match
import Pegboard.Proofs.LeftCalls
import Pegboard.Proofs.Match.Memo
import Pegboard.Proofs.Text.Cut
import Mathlib.Data.List.ProdSigma
import Mathlib.Data.List.Nodup

/-!
# The rules being evaluated

While a match goes on some rules are being evaluated, one below the other, each at a place and with
a seed in the table. `Stack` holds them, and this module says what is true of the table, the cursor
and the log while an evaluation runs below them, whatever the grammar.

Positions lie on boundaries of the text and no further than it was looked, with one exception: the
seed of a left-recursive rule is read without looking at the text again. `Stack.Seen` therefore
admits the ends of those seeds that an outcome depends on. Where the outcome is kept in the table it
depends on no seed of a rule further out, and on its own one only as far as an earlier round of the
same evaluation has looked.

`Stack.Ready` says what is true before an evaluation, `Stack.Done` what is true after it, and
`Stack.Sound` that an evaluation leads from the one to the other, or to nothing at all for a reason.
-/

namespace Pegboard

open Text

namespace Text.Input

/-- A place between two characters of the text, or at one of its ends. -/
def Boundary (i : Input) (pos : Nat) : Prop :=
  Cuts i.text.toList pos

variable {i : Input} {pos n : Nat}

theorem boundary_zero (i : Input) : i.Boundary 0 :=
  .zero _

theorem Boundary.le (h : i.Boundary pos) : pos ≤ i.size := by
  rw [i.size_eq_byteSize]
  exact Cuts.le h

theorem Boundary.exists_left (h : i.Boundary pos) : ∃ cs, i.LeftAt pos cs := by
  obtain ⟨front, cs, htext, hpos⟩ := h
  exact ⟨cs, front, htext, hpos⟩

theorem LeftAt.boundary {cs : List Char} (h : i.LeftAt pos cs) : i.Boundary pos := by
  obtain ⟨front, htext, hpos⟩ := h
  exact ⟨front, cs, htext, hpos⟩

theorem LeftAt.boundary_add {cs : List Char} (h : i.LeftAt pos cs) (hn : Cuts cs n) :
    i.Boundary (pos + n) :=
  (h.drop hn).boundary

end Text.Input

namespace Failures

variable {f g : Failures} {p q : Nat} {e : Expectation}

/-- A failure recorded stands where the others stood, or at its own place. -/
theorem pos?_record (h : (f.record p e).pos? = some q) : f.pos? = some q ∨ q = p := by
  cases f with
  | empty => exact .inr (Option.some.inj h).symm
  | furthest reached es =>
      rw [record] at h
      split at h
      · exact .inl h
      · split at h
        · split at h <;> exact .inl h
        · exact .inr (Option.some.inj h).symm

theorem pos?_merge (h : (f.merge g).pos? = some q) : f.pos? = some q ∨ g.pos? = some q := by
  cases g with
  | empty => exact .inl h
  | furthest p es =>
      rw [merge] at h
      induction es generalizing f with
      | nil => exact .inl h
      | cons e es ih =>
          rcases ih h with h | h
          · exact (pos?_record h).imp_right fun h => by rw [h, pos?]
          · exact .inr h

theorem pos?_relativeTo (h : (f.relativeTo p).pos? = some q) :
    ∃ r, f.pos? = some r ∧ q = r - p := by
  cases f with
  | empty => cases h
  | furthest r es => exact ⟨r, rfl, (Option.some.inj h).symm⟩

theorem pos?_absoluteFrom (h : (f.absoluteFrom p).pos? = some q) :
    ∃ r, f.pos? = some r ∧ q = r + p := by
  cases f with
  | empty => cases h
  | furthest r es => exact ⟨r, rfl, (Option.some.inj h).symm⟩

end Failures

namespace Match

open Evaluation

/-- The bytes that an application took. -/
def Settled.length (s : Settled) : Nat :=
  (s.tree?.map (·.length)).getD 0

/-- An entry at a place stays in the text and took and reports nothing but what it looked at. -/
structure Settled.Within (i : Input) (pos : Nat) (s : Settled) : Prop where
  start : i.Boundary pos
  stop : i.Boundary (pos + s.length)
  length_le : s.length ≤ s.examined
  examined_le : pos + s.examined ≤ i.size + 1
  failures : ∀ q, s.failures.pos? = some q → q ≤ s.examined ∧ i.Boundary (pos + q)

namespace Memo

variable {m : Memo} {pos : Nat} {rule : String}

theorem find?_drop (hm : m.Keyed) (p : Nat) (q : String) :
    (m.drop pos rule).find? p q = if (p, q) = (pos, rule) then none else m.find? p q := by
  have lookup_drop : ∀ slot : Slot, (slot.map Prod.fst).Nodup →
      List.lookup q (Slot.drop rule slot) = if q = rule then none else List.lookup q slot := by
    intro slot hslot
    induction slot with
    | nil => simp [Slot.drop]
    | cons entry rest ih =>
        obtain ⟨r, e⟩ := entry
        rw [List.map_cons, List.nodup_cons] at hslot
        by_cases hr : r = rule
        · subst hr
          by_cases hq : q = r
          · -- no second entry of the rule hides behind the one dropped
            subst hq
            simp only [Slot.drop, beq_self_eq_true, if_true]
            rw [List.lookup_eq_none_iff]
            intro entry hmem
            rw [bne_iff_ne]
            exact fun heq => hslot.1 (List.mem_map.mpr ⟨entry, hmem, heq.symm⟩)
          · simp [Slot.drop, hq, List.lookup_cons, beq_eq_false_iff_ne.mpr hq]
        · by_cases hq : q = r
          · simp [Slot.drop, hr, hq, beq_eq_false_iff_ne.mpr hr]
          · simp [Slot.drop, beq_eq_false_iff_ne.mpr hr, List.lookup_cons,
              beq_eq_false_iff_ne.mpr hq, ih hslot.2]
  simp only [find?, entriesAt, drop, Array.getD_eq_getD_getElem?, Array.getElem?_modify,
    Prod.mk.injEq]
  by_cases hp : pos = p
  · subst hp
    have hplace := hm pos
    rw [entriesAt, Array.getD_eq_getD_getElem?] at hplace
    cases hget : m.slots[pos]? with
    | none => simp [Place.blank]
    | some place =>
        rw [hget] at hplace
        simpa [Place.drop] using lookup_drop place.entries hplace
  · simp [hp, Ne.symm hp]

theorem Keyed.drop (h : m.Keyed) : (m.drop pos rule).Keyed := by
  intro p
  have hp := h p
  simp only [entriesAt, Memo.drop, Array.getD_eq_getD_getElem?, Array.getElem?_modify] at hp ⊢
  by_cases heq : pos = p
  · subst heq
    cases hslot : m.slots[pos]? with
    | none => simp [Place.blank]
    | some place =>
        rw [hslot] at hp
        simpa [Place.drop] using
          ((Slot.drop_sublist rule place.entries).map Prod.fst).nodup hp
  · simpa [heq] using hp

@[simp] theorem size_drop : (m.drop pos rule).slots.size = m.slots.size := by
  simp [drop]

/-- Whatever entry is found has the property. -/
structure Each (P : Nat → String → Entry → Prop) (m : Memo) : Prop where
  keyed : m.Keyed
  entry : ∀ pos rule e, m.find? pos rule = some e → P pos rule e

namespace Each

variable {P : Nat → String → Entry → Prop}

theorem put {e : Entry} (h : m.Each P) (he : P pos rule e) : (m.put pos rule e).Each P := by
  refine ⟨h.keyed.put, fun p q e' hfind => ?_⟩
  rcases Memo.of_find?_put hfind with ⟨heq, rfl⟩ | hfind
  · obtain ⟨rfl, rfl⟩ := Prod.mk.inj heq
    exact he
  · exact h.entry p q e' hfind

theorem drop (h : m.Each P) : (m.drop pos rule).Each P := by
  refine ⟨h.keyed.drop, fun p q e hfind => ?_⟩
  rw [Memo.find?_drop h.keyed] at hfind
  split at hfind
  · cases hfind
  · exact h.entry p q e hfind

theorem blank (size : Nat) : (Memo.blank size).Each P :=
  ⟨Memo.keyed_blank size, fun pos rule e h => by simp at h⟩

end Each

end Memo

namespace Log

variable (log : Log)

@[simp] theorem failures_note (tracing : Bool) (n : Trace.Node) :
    (log.note tracing n).failures = log.failures := by
  cases tracing <;> rfl

@[simp] theorem reach_note (tracing : Bool) (n : Trace.Node) :
    (log.note tracing n).reach = log.reach := by
  cases tracing <;> rfl

@[simp] theorem heads_note (tracing : Bool) (n : Trace.Node) :
    (log.note tracing n).heads = log.heads := by
  cases tracing <;> rfl

@[simp] theorem failures_markSpaces : log.markSpaces.failures = log.failures := by
  rw [markSpaces]
  split <;> rfl

@[simp] theorem reach_markSpaces : log.markSpaces.reach = log.reach := by
  rw [markSpaces]
  split <;> rfl

@[simp] theorem heads_markSpaces : log.markSpaces.heads = log.heads := by
  rw [markSpaces]
  split <;> rfl

end Log

/-- What holds of what something came to, unless it came to nothing for a reason. -/
def Yields {α : Type} (reason : Prop) (P : α → Prop) : Option α → Prop
  | none => reason
  | some a => P a

/-! ## The rules being evaluated -/

/-- The rules being evaluated, the innermost one first, and where the seed of each of them ends. -/
structure Stack where
  set : Setting
  frames : List Frame
  ends : Frame → Nat

namespace Stack

variable (σ : Stack)

/-- Where the innermost rule began. -/
def origin : Nat :=
  (σ.frames.head?.map Prod.fst).getD 0

/-- One more rule, with a seed that ends at `stop`. -/
def push (f : Frame) (stop : Nat) : Stack :=
  { σ with frames := f :: σ.frames, ends := Function.update σ.ends f stop }

/-- An evaluation that looked as far as `reach`, and read seeds of no rules further out than the
first `heads` ones, knows of the place. -/
def Seen (reach heads pos : Nat) : Prop :=
  pos ≤ reach ∨ ∃ f ∈ σ.frames.take heads, pos ≤ σ.ends f

/-- The rules are declared, and no two of them are the same one at the same place. -/
structure Placed : Prop where
  nodup : σ.frames.Nodup
  boundary : ∀ f ∈ σ.frames, σ.set.input.Boundary f.1
  rule : ∀ f ∈ σ.frames, f.2 ∈ σ.set.grammar.ruleNames

/-- The table has a slot for each place, entries that stay in the text, and a seed for exactly the
rules being evaluated. -/
structure Intact (memo : Memo) : Prop where
  size : memo.slots.size = σ.set.input.size + 1
  keyed : memo.Keyed
  settled : ∀ pos q s, memo.find? pos q = some (.settled s) → s.Within σ.set.input pos
  growing : ∀ pos q seed? trace? read, memo.find? pos q = some (.growing seed? trace? read) →
    (pos, q) ∈ σ.frames ∧ σ.ends (pos, q) = pos + (seed?.map (·.length)).getD 0 ∧
      σ.set.input.Boundary (σ.ends (pos, q))
  active : ∀ f ∈ σ.frames, ∃ seed? trace? read,
    memo.find? f.1 f.2 = some (.growing seed? trace? read)

/-- What is true before an evaluation begins, where the innermost rule or iteration began at
`base`. -/
structure Ready (base : Nat) (c : Cursor) (log : Log) (memo : Memo) : Prop where
  placed : σ.Placed
  intact : σ.Intact memo
  boundary : σ.set.input.Boundary c.pos
  seen : σ.Seen log.reach log.heads c.pos
  origin_le : σ.origin ≤ base
  base_le : base ≤ c.pos
  found : ∀ x ∈ c.found, base ≤ x.1
  reach_le : log.reach ≤ σ.set.input.size + 1
  origin_le_reach : σ.origin ≤ log.reach
  failures : ∀ q, log.failures.pos? = some q →
    σ.origin ≤ q ∧ σ.set.input.Boundary q ∧ σ.Seen log.reach log.heads q

/-- What is true after an evaluation: it went forwards, if at all, and the next one can begin. -/
structure Done (base : Nat) (c : Cursor) (log : Log) (out : Outcome) : Prop where
  reach_le : log.reach ≤ out.log.reach
  heads_le : log.heads ≤ out.log.heads
  moved : ∀ c', out.cursor? = some c' → c.pos ≤ c'.pos
  ready : σ.Ready base (out.cursor?.getD c) out.log out.memo


/-- An evaluation that begins ready ends done, or comes to nothing for a reason. -/
def Sound (reason : Prop) (e : Evaluation) : Prop :=
  ∀ base c log memo, σ.Ready base c log memo → Yields reason (σ.Done base c log) (e c log memo)

/-- How many pairs of a place and a rule there are. -/
def capacity : Nat :=
  (σ.set.input.size + 1) * σ.set.grammar.rules.length

variable {σ} {τ : Stack} {base stop reach heads reach' heads' pos : Nat} {c c' : Cursor}
variable {log log' : Log} {memo memo' : Memo} {out out' : Outcome} {f : Frame} {reason : Prop}
variable {e e₁ e₂ : Evaluation}

theorem Seen.mono (h : σ.Seen reach heads pos) (hreach : reach ≤ reach') (hheads : heads ≤ heads') :
    σ.Seen reach' heads' pos := by
  rcases h with h | ⟨f, hf, h⟩
  · exact .inl (h.trans hreach)
  · exact .inr ⟨f, List.take_subset_take_left σ.frames hheads hf, h⟩

theorem Placed.length_le (h : σ.Placed) : σ.frames.length ≤ σ.capacity := by
  have hsub : σ.frames ⊆ List.range (σ.set.input.size + 1) ×ˢ σ.set.grammar.ruleNames := by
    intro f hf
    have hle := (h.boundary f hf).le
    exact List.pair_mem_product.mpr ⟨List.mem_range.mpr (by omega), h.rule f hf⟩
  have := (h.nodup.subperm hsub).length_le
  rwa [List.length_product, List.length_range, Grammar.ruleNames, List.length_map] at this

/-! ### Frames -/

theorem push_ends_self : (σ.push f stop).ends f = stop :=
  by simp [push]

theorem push_ends_of_ne {x : Frame} (h : x ≠ f) : (σ.push f stop).ends x = σ.ends x :=
  by simp [push, h]

/-- What is known below one more rule is known without its seed, if the end of the seed is. -/
theorem Seen.pop (hf : f ∉ σ.frames) (h : (σ.push f stop).Seen reach heads pos)
    (hstop : pos ≤ stop → σ.Seen reach (heads - 1) pos) : σ.Seen reach (heads - 1) pos := by
  rcases h with h | ⟨x, hx, h⟩
  · exact .inl h
  · cases heads with
    | zero => simp at hx
    | succ heads =>
        rcases List.mem_cons.mp hx with rfl | hx
        · rw [push_ends_self] at h
          exact hstop h
        · have hne : x ≠ f := fun heq => hf (heq ▸ List.mem_of_mem_take hx)
          rw [push_ends_of_ne hne] at h
          exact .inr ⟨x, hx, h⟩

theorem Seen.push (hf : f ∉ σ.frames) (h : σ.Seen reach (heads - 1) pos) :
    (σ.push f stop).Seen reach heads pos := by
  rcases h with h | ⟨x, hx, h⟩
  · exact .inl h
  · cases heads with
    | zero => simp at hx
    | succ heads =>
        have hne : x ≠ f := fun heq => hf (heq ▸ List.mem_of_mem_take hx)
        exact .inr ⟨x, List.mem_cons_of_mem _ hx, by rwa [push_ends_of_ne hne]⟩

theorem Placed.push (h : σ.Placed) (hf : f ∉ σ.frames) (hb : σ.set.input.Boundary f.1)
    (hrule : f.2 ∈ σ.set.grammar.ruleNames) : (σ.push f stop).Placed where
  nodup := List.nodup_cons.mpr ⟨hf, h.nodup⟩
  boundary := List.forall_mem_cons.mpr ⟨hb, h.boundary⟩
  rule := List.forall_mem_cons.mpr ⟨hrule, h.rule⟩

/-! ### Entries -/

theorem Intact.lt_size (h : σ.Intact memo) (hpos : σ.set.input.Boundary pos) :
    pos < memo.slots.size := by
  have := hpos.le
  rw [h.size]
  omega

/-- A seed put in place of another one, or as that of one more rule. -/
theorem Intact.plant (h : σ.Intact memo) (hset : τ.set = σ.set)
    (hframes : ∀ x, x ∈ τ.frames ↔ x = f ∨ x ∈ σ.frames)
    (hends : ∀ x, x ≠ f → τ.ends x = σ.ends x) (hf : σ.set.input.Boundary f.1)
    {seed? : Option Tree} {trace? : Option Trace.Node} {read : Bool}
    (hend : τ.ends f = f.1 + (seed?.map (·.length)).getD 0)
    (hb : σ.set.input.Boundary (τ.ends f)) :
    τ.Intact (memo.put f.1 f.2 (.growing seed? trace? read)) where
  size := by rw [Memo.size_put, h.size, hset]
  keyed := h.keyed.put
  settled := by
    intro pos q s hs
    rw [Memo.find?_put (h.lt_size hf)] at hs
    split at hs
    · cases hs
    · exact hset ▸ h.settled pos q s hs
  growing := by
    intro pos q seed'? trace'? read' hs
    rw [Memo.find?_put (h.lt_size hf)] at hs
    split at hs
    · rename_i heq
      obtain ⟨rfl, rfl, rfl⟩ : seed? = seed'? ∧ trace? = trace'? ∧ read = read' := by simpa using hs
      have heq : (pos, q) = f := heq
      subst heq
      exact ⟨(hframes _).mpr (.inl rfl), hend, hset ▸ hb⟩
    · rename_i hne
      have hne : (pos, q) ≠ f := hne
      obtain ⟨hmem, hlen, hb'⟩ := h.growing pos q _ _ _ hs
      rw [hends _ hne]
      exact ⟨(hframes _).mpr (.inr hmem), hlen, hset ▸ hb'⟩
  active := by
    intro x hx
    rw [Memo.find?_put (h.lt_size hf)]
    split
    · exact ⟨_, _, _, rfl⟩
    · rename_i hne
      exact h.active x (((hframes x).mp hx).resolve_left hne)

/-- A rule begins without a seed. -/
theorem Intact.enter (h : σ.Intact memo) (hf : σ.set.input.Boundary f.1) :
    (σ.push f f.1).Intact (memo.put f.1 f.2 (.growing none none false)) :=
  h.plant (τ := σ.push f f.1) rfl (fun _ => List.mem_cons) (fun _ hne => push_ends_of_ne hne) hf
    (by rw [push_ends_self]; rfl) (by rwa [push_ends_self])

/-- The seed of the innermost rule gives way to another one. -/
theorem Intact.reseed (h : (σ.push f stop).Intact memo) (hf : σ.set.input.Boundary f.1) {t : Tree}
    (ht : σ.set.input.Boundary (f.1 + t.length)) (trace? : Option Trace.Node) (read : Bool) :
    (σ.push f (f.1 + t.length)).Intact (memo.put f.1 f.2 (.growing (some t) trace? read)) :=
  h.plant (τ := σ.push f (f.1 + t.length)) rfl (fun _ => by simp [push])
    (fun _ hne => by rw [push_ends_of_ne hne, push_ends_of_ne hne]) hf
    (by rw [push_ends_self]; rfl) (by rwa [push_ends_self])

/-- The entry of the innermost rule is dropped. -/
theorem Intact.drop (h : (σ.push f stop).Intact memo) (hf : f ∉ σ.frames) :
    σ.Intact (memo.drop f.1 f.2) where
  size := by rw [Memo.size_drop, h.size]; rfl
  keyed := h.keyed.drop
  settled := by
    intro pos q s hs
    rw [Memo.find?_drop h.keyed] at hs
    split at hs
    · cases hs
    · exact h.settled pos q s hs
  growing := by
    intro pos q seed? trace? read hs
    rw [Memo.find?_drop h.keyed] at hs
    split at hs
    · cases hs
    · rename_i hne
      have hne : (pos, q) ≠ f := hne
      obtain ⟨hmem, hlen, hb⟩ := h.growing pos q _ _ _ hs
      rw [push_ends_of_ne hne] at hlen hb
      exact ⟨(List.mem_cons.mp hmem).resolve_left hne, hlen, hb⟩
  active := by
    intro x hx
    have hne : x ≠ f := fun heq => hf (heq ▸ hx)
    rw [Memo.find?_drop h.keyed, if_neg hne]
    exact h.active x (List.mem_cons_of_mem _ hx)

/-- The entry of the innermost rule gives way to what the rule came to. -/
theorem Intact.settle (h : (σ.push f stop).Intact memo) (hf : f ∉ σ.frames)
    (hb : σ.set.input.Boundary f.1) {s : Settled} (hs : s.Within σ.set.input f.1) :
    σ.Intact (memo.put f.1 f.2 (.settled s)) where
  size := by rw [Memo.size_put, h.size]; rfl
  keyed := h.keyed.put
  settled := by
    intro pos q s' hs'
    rw [Memo.find?_put (h.lt_size hb)] at hs'
    split at hs'
    · rename_i heq
      obtain ⟨rfl, rfl⟩ : pos = f.1 ∧ q = f.2 := Prod.mk.inj heq
      cases hs'
      exact hs
    · exact h.settled pos q s' hs'
  growing := by
    intro pos q seed? trace? read hs'
    rw [Memo.find?_put (h.lt_size hb)] at hs'
    split at hs'
    · cases hs'
    · rename_i hne
      have hne : (pos, q) ≠ f := hne
      obtain ⟨hmem, hlen, hb'⟩ := h.growing pos q _ _ _ hs'
      rw [push_ends_of_ne hne] at hlen hb'
      exact ⟨(List.mem_cons.mp hmem).resolve_left hne, hlen, hb'⟩
  active := by
    intro x hx
    have hne : x ≠ f := fun heq => hf (heq ▸ hx)
    rw [Memo.find?_put (h.lt_size hb), if_neg hne]
    exact h.active x (List.mem_cons_of_mem _ hx)

/-! ### Going on -/

/-- Only the failures, the reach and the heads of the log count. -/
theorem Ready.congr (h : σ.Ready base c log memo) (hfailures : log'.failures = log.failures)
    (hreach : log'.reach = log.reach) (hheads : log'.heads = log.heads) :
    σ.Ready base c log' memo where
  placed := h.placed
  intact := h.intact
  boundary := h.boundary
  seen := by rw [hreach, hheads]; exact h.seen
  origin_le := h.origin_le
  base_le := h.base_le
  found := h.found
  reach_le := hreach ▸ h.reach_le
  origin_le_reach := hreach ▸ h.origin_le_reach
  failures := by rw [hfailures, hreach, hheads]; exact h.failures

theorem Done.congr (h : σ.Done base c log out) (hcursor : out'.cursor? = out.cursor?)
    (hmemo : out'.memo = out.memo) (hfailures : out'.log.failures = out.log.failures)
    (hreach : out'.log.reach = out.log.reach) (hheads : out'.log.heads = out.log.heads) :
    σ.Done base c log out' where
  reach_le := hreach ▸ h.reach_le
  heads_le := hheads ▸ h.heads_le
  moved := hcursor ▸ h.moved
  ready := by rw [hcursor, hmemo]; exact h.ready.congr hfailures hreach hheads

/-- With other failures of which the same is known. -/
theorem Ready.withFailures (h : σ.Ready base c log memo) {failures : Failures}
    (hf : ∀ q, failures.pos? = some q →
      σ.origin ≤ q ∧ σ.set.input.Boundary q ∧ σ.Seen log.reach log.heads q) :
    σ.Ready base c { log with failures := failures } memo :=
  { h with failures := hf }

theorem Ready.withoutFailures (h : σ.Ready base c log memo) :
    σ.Ready base c { log with failures := ∅ } memo :=
  h.withFailures fun _ hq => nomatch hq

/-- What was known before an evaluation is known after it. -/
theorem Done.seen (h : σ.Done base c log out) (hpos : σ.Seen log.reach log.heads pos) :
    σ.Seen out.log.reach out.log.heads pos :=
  hpos.mono h.reach_le h.heads_le

/-- After an evaluation another one can begin where that one did. -/
theorem Done.back {base' : Nat} {c₀ : Cursor} (h : σ.Done base' c₀ log out)
    (hr : σ.Ready base c log memo) : σ.Ready base c out.log out.memo where
  placed := hr.placed
  intact := h.ready.intact
  boundary := hr.boundary
  seen := h.seen hr.seen
  origin_le := hr.origin_le
  base_le := hr.base_le
  found := hr.found
  reach_le := h.ready.reach_le
  origin_le_reach := h.ready.origin_le_reach
  failures := h.ready.failures

/-- What was evaluated with one log was evaluated after a shorter one. -/
theorem Done.relog (h : σ.Done base c log' out) (hreach : log.reach ≤ log'.reach)
    (hheads : log.heads ≤ log'.heads) : σ.Done base c log out :=
  { h with
    reach_le := hreach.trans h.reach_le
    heads_le := hheads.trans h.heads_le }

/-- What begins with the log of an earlier evaluation, though elsewhere. -/
theorem Done.since {base' : Nat} {c₀ : Cursor} {out₀ : Outcome} (h₀ : σ.Done base' c₀ log out₀)
    (h : σ.Done base c out₀.log out) : σ.Done base c log out :=
  h.relog h₀.reach_le h₀.heads_le

/-- An evaluation that leaves everything as it was. -/
theorem Ready.done (h : σ.Ready base c log memo) (c? : Option Cursor) (hc : c?.getD c = c) :
    σ.Done base c log ⟨c?, log, memo⟩ where
  reach_le := Nat.le_refl _
  heads_le := Nat.le_refl _
  moved := by
    rintro c' rfl
    rw [← hc]
    exact Nat.le_refl _
  ready := by rw [hc]; exact h

/-- Two evaluations, one after the other. -/
theorem Done.trans (hr : σ.Ready base c log memo) (h : σ.Done base c log ⟨some c', log', memo'⟩)
    (h' : σ.Done base c' log' out) : σ.Done base c log out where
  reach_le := h.reach_le.trans h'.reach_le
  heads_le := h.heads_le.trans h'.heads_le
  moved := fun c'' hc'' => (h.moved c' rfl).trans (h'.moved c'' hc'')
  ready := by
    cases hout : out.cursor? with
    | none => exact h'.back (h.back hr)
    | some c'' =>
        have := h'.ready
        rw [hout] at this
        exact this

end Stack

end Match

end Pegboard
