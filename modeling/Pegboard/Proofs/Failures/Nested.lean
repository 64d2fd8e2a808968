import Pegboard.Proofs.Recording

/-!
# Nested sets of failures

Every application of a rule has a set of failures of its own, which is stored with its places counted
from that of the application and becomes part of the set of whoever applied the rule. So the sets of a
match are nested as its applications are. What comes out does not depend on that: it is the set that
all the failures leave when they are recorded one by one (`Nested.into_eq`), which is the furthest
place and what was expected there, each expectation where it was first met (`ofList_eq`).

Main statement: `Nested.set_ofList`.
-/

namespace Pegboard.Failures

/-! ## What is left of a list of failures -/

/-- All that was expected at a place, in the order met. -/
def expectedAt (fs : List Failure) (pos : Nat) : List Expectation :=
  (fs.filter (·.offset = pos)).map (·.expected)

/-- The furthest place of a list of failures. -/
def furthest? (fs : List Failure) : Option Nat :=
  (fs.map (·.offset)).max?

variable {fs : List Failure} {x : Failure} {pos reached : Nat} {f : Failures}

theorem expectedAt_concat (fs : List Failure) (x : Failure) (pos : Nat) :
    expectedAt (fs ++ [x]) pos =
      expectedAt fs pos ++ if x.offset = pos then [x.expected] else [] := by
  by_cases h : x.offset = pos <;> simp [expectedAt, h]

theorem le_of_furthest (h : furthest? fs = some pos) : ∀ x ∈ fs, x.offset ≤ pos := by
  intro x hx
  exact (List.max?_eq_some_iff.mp h).2 _ (List.mem_map_of_mem hx)

theorem furthest?_concat (h : furthest? fs = some reached) (x : Failure) :
    furthest? (fs ++ [x]) = some (max reached x.offset) := by
  cases fs with
  | nil => cases h
  | cons y fs =>
      obtain rfl := Option.some.inj h
      show (y.offset :: (fs ++ [x]).map (·.offset)).max? = _
      rw [List.max?_cons', List.map_append, List.foldl_append]
      rfl

theorem expectedAt_of_lt (h : furthest? fs = some reached) (hlt : reached < pos) :
    expectedAt fs pos = [] := by
  have hnone : fs.filter (·.offset = pos) = [] := by
    refine List.filter_eq_nil_iff.mpr fun x hx => ?_
    have hle := le_of_furthest h x hx
    simp only [decide_eq_true_eq]
    omega
  rw [expectedAt, hnone, List.map_nil]

theorem eraseDups_concat (es : List Expectation) (e : Expectation) :
    (es ++ [e]).eraseDups = if e ∈ es.eraseDups then es.eraseDups else es.eraseDups ++ [e] := by
  by_cases h : e ∈ es <;> simp [List.eraseDups_append, List.eraseDups_cons, List.removeAll, h]

/-- A list of failures leaves its furthest place, with what was expected there. -/
theorem ofList_eq (fs : List Failure) :
    ofList fs = match furthest? fs with
      | none => ∅
      | some pos => furthest pos (expectedAt fs pos).eraseDups := by
  induction fs using List.reverseRecOn with
  | nil => rfl
  | append_singleton fs x ih =>
      rw [ofList_concat, ih]
      cases hfs : furthest? fs with
      | none =>
          obtain rfl : fs = [] := List.map_eq_nil_iff.mp (List.max?_eq_none_iff.mp hfs)
          simp [furthest?, expectedAt, record, single]
          rfl
      | some reached =>
          rw [furthest?_concat hfs]
          dsimp only
          rcases Nat.lt_trichotomy x.offset reached with hx | hx | hx
          · rw [record_of_lt rfl hx, Nat.max_eq_left hx.le, expectedAt_concat, if_neg hx.ne,
              List.append_nil]
          · rw [hx, Nat.max_self, expectedAt_concat, if_pos hx, eraseDups_concat]
            simp only [record, Nat.lt_irrefl, if_false, if_true]
            split <;> rfl
          · rw [Nat.max_eq_right hx.le, expectedAt_concat, if_pos rfl, expectedAt_of_lt hfs hx]
            simp only [record, if_neg hx.not_gt, if_neg hx.ne']
            rfl

theorem pos?_ofList (fs : List Failure) : (ofList fs).pos? = furthest? fs := by
  rw [ofList_eq]
  cases furthest? fs <;> rfl

theorem expected_ofList (h : furthest? fs = some pos) :
    (ofList fs).expected = (expectedAt fs pos).eraseDups := by
  rw [ofList_eq, h]
  rfl

/-- A set comes back from where it was stored, unless it was counted from behind its place. -/
theorem absoluteFrom_relativeTo {base : Nat} (h : ∀ pos, f.pos? = some pos → base ≤ pos) :
    (f.relativeTo base).absoluteFrom base = f := by
  cases f with
  | empty => rfl
  | furthest pos es => simp [relativeTo, absoluteFrom, h pos rfl]

/-! ## Nested sets -/

/-- How a set of failures comes about. -/
inductive Nested
  | record (x : Failure)
  /-- A set of its own, which the parts go into in order. -/
  | merged (parts : List Nested)
  /-- The set of the part is stored with its place counted from `base` on, and brought back. -/
  | stored (base : Nat) (part : Nested)

namespace Nested

mutual

/-- What becomes of a set that the node goes into. A failure is recorded in it; any other node has a
set of its own, which is merged into it. -/
def into (f : Failures) : Nested → Failures
  | record x => f.record x.offset x.expected
  | merged parts => f.merge (intoAll ∅ parts)
  | stored base part => f.merge (((into ∅ part).relativeTo base).absoluteFrom base)

def intoAll (f : Failures) : List Nested → Failures
  | [] => f
  | part :: parts => intoAll (part.into f) parts

end

/-- The set that a node comes to by itself. -/
def set (t : Nested) : Failures :=
  t.into ∅

mutual

/-- The failures that are recorded, in order. -/
def leaves : Nested → List Failure
  | record x => [x]
  | merged parts => leavesAll parts
  | stored _ part => part.leaves

def leavesAll : List Nested → List Failure
  | [] => []
  | part :: parts => part.leaves ++ leavesAll parts

end

mutual

/-- No set is stored with its place counted from behind that place, as it is not from anywhere before
all that was recorded in it. -/
def Based : Nested → Prop
  | record _ => True
  | merged parts => AllBased parts
  | stored base part => (∀ pos, part.set.pos? = some pos → base ≤ pos) ∧ part.Based

def AllBased : List Nested → Prop
  | [] => True
  | part :: parts => part.Based ∧ AllBased parts

end

mutual

/-- A node does what its failures do when they are recorded one by one. -/
theorem into_eq : ∀ (t : Nested) (f : Failures), t.Based → t.into f = f.recordAll t.leaves
  | record x, f, _ => by
      rw [into, leaves]
      rfl
  | merged parts, f, h => by
      rw [Based] at h
      have hparts : intoAll ∅ parts = ofList (leavesAll parts) := intoAll_eq parts ∅ h
      rw [into, leaves, hparts, merge_ofList]
  | stored base part, f, h => by
      rw [Based] at h
      have hback : (part.set.relativeTo base).absoluteFrom base = part.set :=
        absoluteFrom_relativeTo h.1
      have hpart : part.set = ofList part.leaves := into_eq part ∅ h.2
      rw [into, leaves, ← set, hback, hpart, merge_ofList]

theorem intoAll_eq :
    ∀ (parts : List Nested) (f : Failures), AllBased parts →
      intoAll f parts = f.recordAll (leavesAll parts)
  | [], f, _ => by
      rw [intoAll, leavesAll]
      rfl
  | part :: parts, f, h => by
      rw [AllBased] at h
      rw [intoAll, leavesAll, into_eq part f h.1, intoAll_eq parts _ h.2, recordAll_append]

end

/-- However sets are merged into each other, and wherever they are counted from while they are stored,
what comes out is what all the failures leave when they are recorded one by one: their furthest place,
and the distinct expectations there in the order in which they were first met. -/
theorem set_ofList (t : Nested) (h : t.Based) :
    t.set = ofList t.leaves ∧ t.set.pos? = furthest? t.leaves ∧
      ∀ pos, furthest? t.leaves = some pos →
        t.set.expected = (expectedAt t.leaves pos).eraseDups := by
  have hset : t.set = ofList t.leaves := into_eq t ∅ h
  rw [hset]
  refine ⟨rfl, pos?_ofList t.leaves, fun pos hpos => ?_⟩
  exact expected_ofList hpos

/-- The set within is stored twice, from two places, and repeats what was expected before it. -/
theorem set_ofList_stored :
    let t : Nested := .merged [.record ⟨5, .any⟩,
      .stored 2 (.merged [.record ⟨3, .endOfInput⟩, .stored 5 (.record ⟨5, .description "a"⟩),
        .record ⟨5, .any⟩]), .record ⟨4, .any⟩]
    t.Based ∧ t.set = .furthest 5 [.any, .description "a"] := by
  intro t
  have h : t.Based := by
    refine ⟨trivial, ⟨?_, trivial, ⟨?_, trivial⟩, trivial, trivial⟩, trivial, trivial⟩
    · rintro pos ⟨⟩
      decide
    · rintro pos ⟨⟩
      decide
  refine ⟨h, ?_⟩
  rw [(set_ofList t h).1]
  rfl

end Nested

end Pegboard.Failures
