import Pegboard.Proofs.LeftCalls
import Pegboard.Proofs.Reading.Locality

/-!
# Applying a rule

What applying a rule comes to is worked out in rounds. In each the body of the rule is read, and an
application of the rule to itself at its own place comes to a seed: nothing in the first round, then
the match of the round before, for as long as that covers more of the text. A rule that does not
apply itself there takes one round.

Main statements: an application takes a part of the text, and what it applies at its own place are
left calls (`Rule.applied_sound`); it depends on what it looked at and on the applications that it
needs, itself left aside (`Rule.applied_same`).
-/

namespace Pegboard

open Text

/-! ## Rounds -/

/-- A rule that comes to a seed where it is applied to itself. -/
def Application.seed (seed? : Option Tree) : Application :=
  ⟨seed?, [], (seed?.map (·.length)).getD 0, []⟩

/-- The meaning in which the rule comes to a seed at the beginning of `cs`. -/
def Meaning.seeded (m : Meaning) (rule : String) (cs : List Char) (seed? : Option Tree) : Meaning :=
  fun q cs' => if q = rule ∧ cs' = cs then .seed seed? else m q cs'

/-- Two rounds, one after the other, that come to the tree. -/
def Application.followed (a b : Application) (tree? : Option Tree) : Application where
  tree? := tree?
  missed := a.missed ++ b.missed
  examined := max a.examined b.examined
  moves := a.moves ++ b.moves

namespace Rule

variable (rule : Rule) (m : Meaning) (cs : List Char)

/-- The body of the rule, read with a seed. -/
def round (seed? : Option Tree) : Application :=
  let r := rule.body.read (m.seeded rule.name cs seed?) (isSyntactic rule.name) cs
  { tree? := r.taken?.map fun t => .rule rule.name t.size t.trees
    missed := r.missed
    examined := r.examined
    moves := .seed seed? :: r.calls.map .call }

/-- The rounds from a match on that the rounds so far came to. -/
def grown (sofar : Application) (best : Tree) : Application :=
  match (rule.round m cs (some best)).tree? with
  | none => sofar.followed (rule.round m cs (some best)) (some best)
  | some t =>
    if _ : best.length < t.length ∧ t.length ≤ byteSize cs then
      grown (sofar.followed (rule.round m cs (some best)) (some t)) t
    else sofar.followed (rule.round m cs (some best)) (some best)
termination_by byteSize cs - best.length

/-- All rounds of an application. -/
def settled : Application :=
  match (rule.round m cs none).tree? with
  | none => rule.round m cs none
  | some t =>
    if ⟨0, rule.name⟩ ∈ (rule.round m cs none).calls then rule.grown m cs (rule.round m cs none) t
    else rule.round m cs none

/-- A described rule reports its description in place of all that its body missed. -/
def described (a : Application) : Application :=
  match rule.description with
  | none => a
  | some d => { a with missed := if a.tree?.isSome then [] else [⟨0, .description d⟩] }

/-- What applying the rule comes to, if the rules that it applies come to what `m` says. -/
def applied : Application :=
  rule.described (rule.settled m cs)

end Rule

namespace Application

@[simp] theorem calls_followed (a b : Application) (tree? : Option Tree) :
    (a.followed b tree?).calls = a.calls ++ b.calls := by
  simp [calls, followed]

@[simp] theorem nothing_followed (a : Application) : nothing.followed a a.tree? = a := by
  simp [nothing, followed]

end Application

namespace Rule

variable {rule : Rule} {m m' : Meaning} {cs cs' : List Char} {seed? : Option Tree}

@[simp] theorem round_calls :
    (rule.round m cs seed?).calls =
      (rule.body.read (m.seeded rule.name cs seed?) (isSyntactic rule.name) cs).calls := by
  simp [round, Application.calls, List.filterMap_map]

@[simp] theorem described_tree? (a : Application) : (rule.described a).tree? = a.tree? := by
  rw [described]
  split <;> rfl

@[simp] theorem described_examined (a : Application) :
    (rule.described a).examined = a.examined := by
  rw [described]
  split <;> rfl

@[simp] theorem described_moves (a : Application) : (rule.described a).moves = a.moves := by
  rw [described]
  split <;> rfl

@[simp] theorem described_calls (a : Application) : (rule.described a).calls = a.calls := by
  simp [Application.calls]

section

variable {sofar : Application} {best t : Tree}

theorem grown_more (h : (rule.round m cs (some best)).tree? = some t)
    (hmore : best.length < t.length ∧ t.length ≤ byteSize cs) :
    rule.grown m cs sofar best =
      rule.grown m cs (sofar.followed (rule.round m cs (some best)) (some t)) t := by
  rw [grown, h]
  exact dif_pos hmore

theorem grown_last
    (hlast : ¬ ∃ t, (rule.round m cs (some best)).tree? = some t ∧
      best.length < t.length ∧ t.length ≤ byteSize cs) :
    rule.grown m cs sofar best = sofar.followed (rule.round m cs (some best)) (some best) := by
  rw [grown]
  cases ht : (rule.round m cs (some best)).tree? with
  | none => rfl
  | some t => exact dif_neg fun hmore => hlast ⟨t, ht, hmore⟩

/-- What holds of the rounds so far holds of all, if it is kept by another round from a seed. -/
theorem grown_induction (rule : Rule) (m : Meaning) (cs : List Char) (sofar : Application)
    (best : Tree) {P : Application → Tree → Prop}
    (more : ∀ sofar best t, P sofar best → (rule.round m cs (some best)).tree? = some t →
      P (sofar.followed (rule.round m cs (some best)) (some t)) t)
    (last : ∀ sofar best, P sofar best →
      P (sofar.followed (rule.round m cs (some best)) (some best)) best)
    (h : P sofar best) : ∃ t, P (rule.grown m cs sofar best) t := by
  induction hk : byteSize cs - best.length using Nat.strong_induction_on
      generalizing sofar best with
  | _ k ih =>
      subst hk
      by_cases hmore : ∃ t, (rule.round m cs (some best)).tree? = some t ∧
          best.length < t.length ∧ t.length ≤ byteSize cs
      · obtain ⟨t, ht, hmore⟩ := hmore
        rw [grown_more ht hmore]
        exact ih _ (by omega) _ t (more _ _ _ h ht) rfl
      · exact ⟨best, grown_last hmore ▸ last _ _ h⟩

/-- All rounds begin with those so far. -/
theorem grown_moves (m : Meaning) (cs : List Char) (sofar : Application) (best : Tree) :
    ∃ more, (rule.grown m cs sofar best).moves = sofar.moves ++ more := by
  have grows : ∀ {a b : Application} {tree? : Option Tree},
      (∃ more, a.moves = sofar.moves ++ more) →
        ∃ more, (a.followed b tree?).moves = sofar.moves ++ more := by
    rintro a b tree? ⟨more, h⟩
    exact ⟨more ++ b.moves, by rw [Application.followed, h, List.append_assoc]⟩
  obtain ⟨-, h⟩ := grown_induction rule m cs sofar best
    (P := fun a _ => ∃ more, a.moves = sofar.moves ++ more)
    (fun _ _ _ h _ => grows h) (fun _ _ h => grows h)
    ⟨[], (List.append_nil sofar.moves).symm⟩
  exact h

end

/-- An application is one round, or one round and those that grow its match. -/
theorem settled_cases (rule : Rule) (m : Meaning) (cs : List Char) :
    rule.settled m cs = rule.round m cs none ∨
      ∃ t, (rule.round m cs none).tree? = some t ∧
        rule.settled m cs = rule.grown m cs (rule.round m cs none) t := by
  rw [settled]
  split
  · exact .inl rfl
  · rename_i t ht
    split
    · exact .inr ⟨t, ht, rfl⟩
    · exact .inl rfl

/-- The first round has no seed. -/
theorem applied_moves (rule : Rule) (m : Meaning) (cs : List Char) :
    ∃ more, (rule.applied m cs).moves = .seed none :: more := by
  rw [applied, described_moves]
  rcases settled_cases rule m cs with heq | ⟨t, -, heq⟩
  · exact ⟨_, by rw [heq]; rfl⟩
  · obtain ⟨more, h⟩ := rule.grown_moves m cs (rule.round m cs none) t
    exact ⟨_, by rw [heq, h]; rfl⟩

/-- A rule that does not apply itself at its own place takes one round. -/
theorem settled_of_not_mem (h : ⟨0, rule.name⟩ ∉ (rule.round m cs none).calls) :
    rule.settled m cs = rule.round m cs none := by
  rw [settled]
  split
  · rfl
  · rw [if_neg h]

end Rule

/-! ## Bounds -/

/-- What rounds of a rule come to: a part of the text that was looked at, by applications that
stand in the text. Where the rule applies itself nothing but its seed is looked at. -/
structure Application.Sound (g : Grammar) (rule : Rule) (m : Meaning) (cs : List Char)
    (a : Application) : Prop where
  fits : a.Fits cs
  stays : ∀ t, a.tree? = some t → t.length = 0 → g.MayStay rule.body
  calls : ∀ c ∈ a.calls, Cuts cs c.offset ∧
    (c = ⟨0, rule.name⟩ ∨ c.offset + (m c.rule (dropBytes cs c.offset)).examined ≤ a.examined)
  left : ∀ c ∈ a.calls, c.offset = 0 →
    g.LeftApplies (isSyntactic rule.name) rule.body c.rule

/-- A match that a rule can be evaluated again with. -/
def Rule.Seeds (g : Grammar) (rule : Rule) (cs : List Char) (t : Tree) : Prop :=
  Cuts cs t.length ∧ (t.length = 0 → g.MayStay rule.body)

namespace Meaning

variable {g : Grammar} {rule : Rule} {m : Meaning} {cs : List Char} {seed? : Option Tree}

theorem seeded_own (m : Meaning) (rule : String) (cs : List Char) (seed? : Option Tree) :
    m.seeded rule cs seed? rule cs = .seed seed? :=
  if_pos ⟨rfl, rfl⟩

/-- Only the rule itself at its own place is seeded. -/
theorem seeded_of_ne (m : Meaning) (rule : String) (seed? : Option Tree) {c : Call}
    (hc : Cuts cs c.offset) (hne : c ≠ ⟨0, rule⟩) :
    m.seeded rule cs seed? c.rule (dropBytes cs c.offset) = m c.rule (dropBytes cs c.offset) := by
  refine if_neg fun ⟨hrule, hdrop⟩ => hne ?_
  rw [← hrule, ← hc.eq_zero_of_drop_eq hdrop]

theorem Fits.seeded (hm : m.Fits) (rule : String) (cs : List Char)
    (hseed : ∀ t, seed? = some t → Cuts cs t.length) : (m.seeded rule cs seed?).Fits := by
  intro q cs'
  rw [Meaning.seeded]
  split
  · rename_i h
    rw [h.2]
    rintro t rfl
    exact ⟨hseed t rfl, Nat.le_refl _⟩
  · exact hm q cs'

theorem Stays.seeded (hm : m.Stays g) (hrule : g.rule? rule.name = some rule) (cs : List Char)
    (hseed : ∀ t, seed? = some t → t.length = 0 → g.MayStay rule.body) :
    (m.seeded rule.name cs seed?).Stays g := by
  intro q cs' t ht h0
  rw [Meaning.seeded] at ht
  split at ht
  · rename_i h
    rw [h.1]
    exact .apply hrule (hseed t ht h0)
  · exact hm q cs' t ht h0

end Meaning

namespace Application.Sound

variable {g : Grammar} {rule : Rule} {m : Meaning} {cs : List Char}

theorem followed {a b : Application} {tree? : Option Tree}
    (ha : a.Sound g rule m cs) (hb : b.Sound g rule m cs)
    (htree : tree? = a.tree? ∨ tree? = b.tree?) :
    (a.followed b tree?).Sound g rule m cs := by
  refine ⟨?_, ?_, ?_, ?_⟩
  · intro t ht
    rcases htree with rfl | rfl
    · obtain ⟨hcut, hle⟩ := ha.fits t ht
      exact ⟨hcut, hle.trans (Nat.le_max_left _ _)⟩
    · obtain ⟨hcut, hle⟩ := hb.fits t ht
      exact ⟨hcut, hle.trans (Nat.le_max_right _ _)⟩
  · intro t ht
    rcases htree with rfl | rfl
    · exact ha.stays t ht
    · exact hb.stays t ht
  · intro c hc
    rw [Application.calls_followed, List.mem_append] at hc
    rcases hc with hc | hc
    · obtain ⟨hcut, h⟩ := ha.calls c hc
      exact ⟨hcut, h.imp_right fun h => h.trans (Nat.le_max_left _ _)⟩
    · obtain ⟨hcut, h⟩ := hb.calls c hc
      exact ⟨hcut, h.imp_right fun h => h.trans (Nat.le_max_right _ _)⟩
  · intro c hc
    rw [Application.calls_followed, List.mem_append] at hc
    exact hc.elim (ha.left c) (hb.left c)

theorem seeds {a : Application} {t : Tree} (ha : a.Sound g rule m cs)
    (ht : a.tree? = some t) : rule.Seeds g cs t :=
  ⟨(ha.fits t ht).1, ha.stays t ht⟩

end Application.Sound

namespace Rule

variable {g : Grammar} {rule : Rule} {m m' : Meaning} {cs cs' : List Char} {seed? : Option Tree}
variable {n : Nat}

theorem round_sound (hm : m.Fits) (hs : m.Stays g) (hrule : g.rule? rule.name = some rule)
    (cs : List Char) (seed? : Option Tree) (hseed : ∀ t, seed? = some t → rule.Seeds g cs t) :
    (rule.round m cs seed?).Sound g rule m cs := by
  have hfits := hm.seeded rule.name cs fun t ht => (hseed t ht).1
  have hstays := hs.seeded hrule cs fun t ht => (hseed t ht).2
  have hread := Expr.read_fits hfits (isSyntactic rule.name) rule.body cs
  refine ⟨?_, ?_, ?_, ?_⟩
  · intro t ht
    obtain ⟨u, hu, rfl⟩ := Option.map_eq_some_iff.mp ht
    exact hread.taken u hu
  · intro t ht h0
    obtain ⟨u, hu, rfl⟩ := Option.map_eq_some_iff.mp ht
    exact Expr.read_stays hstays _ rule.body cs u hu h0
  · intro c hc
    rw [round_calls] at hc
    obtain ⟨hcut, hle⟩ := hread.calls c hc
    refine ⟨hcut, ?_⟩
    by_cases hown : c = ⟨0, rule.name⟩
    · exact .inl hown
    · rw [m.seeded_of_ne rule.name seed? hcut hown] at hle
      exact .inr hle
  · rintro ⟨offset, q⟩ hc rfl
    rw [round_calls] at hc
    exact Expr.read_left hstays _ rule.body cs q hc

theorem settled_sound (hm : m.Fits) (hs : m.Stays g) (hrule : g.rule? rule.name = some rule)
    (cs : List Char) :
    (rule.settled m cs).Sound g rule m cs := by
  have hfirst : (rule.round m cs none).Sound g rule m cs :=
    round_sound hm hs hrule cs none (by simp)
  rcases settled_cases rule m cs with heq | ⟨t, ht, heq⟩
  · rwa [heq]
  · rw [heq]
    have hround : ∀ {sofar : Application} {best : Tree}, sofar.Sound g rule m cs →
        sofar.tree? = some best → (rule.round m cs (some best)).Sound g rule m cs :=
      fun hsofar hbest => round_sound hm hs hrule cs _ fun u hu =>
        Option.some.inj hu ▸ hsofar.seeds hbest
    -- the match so far is a seed, so that another round is sound
    obtain ⟨-, hgrown, -⟩ := grown_induction rule m cs _ t
      (P := fun sofar best => sofar.Sound g rule m cs ∧ sofar.tree? = some best)
      (fun sofar best t ⟨hsofar, hbest⟩ ht =>
        ⟨hsofar.followed (hround hsofar hbest) (.inr ht.symm), rfl⟩)
      (fun sofar best ⟨hsofar, hbest⟩ =>
        ⟨hsofar.followed (hround hsofar hbest) (.inl hbest.symm), rfl⟩)
      ⟨hfirst, ht⟩
    exact hgrown

theorem applied_sound (hm : m.Fits) (hs : m.Stays g) (hrule : g.rule? rule.name = some rule)
    (cs : List Char) :
    (rule.applied m cs).Sound g rule m cs := by
  have h := settled_sound hm hs hrule cs
  refine ⟨?_, ?_, ?_, ?_⟩
  · simpa [applied, Application.Fits] using h.fits
  · simpa [applied] using h.stays
  · simpa [applied] using h.calls
  · simpa [applied] using h.left

/-! ## Locality -/

/-- Rounds of a rule on `cs` that look at `n` bytes at most, and apply only rules that come to the
same for `m'` at the same places of `cs'`. -/
structure Known (rule : Rule) (m m' : Meaning) (n : Nat) (cs cs' : List Char)
    (a : Application) : Prop where
  examined : a.examined ≤ n
  calls : ∀ c ∈ a.calls, c ≠ ⟨0, rule.name⟩ →
    m' c.rule (dropBytes cs' c.offset) = m c.rule (dropBytes cs c.offset)

theorem Known.of_followed {a b : Application} {tree? : Option Tree}
    (h : rule.Known m m' n cs cs' (a.followed b tree?)) :
    rule.Known m m' n cs cs' a ∧ rule.Known m m' n cs cs' b := by
  have hmax : max a.examined b.examined ≤ n := h.examined
  refine ⟨⟨by omega, fun c hc => h.calls c ?_⟩, by omega, fun c hc => h.calls c ?_⟩
  · rw [Application.calls_followed]
    exact List.mem_append_left _ hc
  · rw [Application.calls_followed]
    exact List.mem_append_right _ hc

theorem round_same (hm : m.Fits) (hsame : SameFor n cs cs')
    (hseed : ∀ t, seed? = some t → Cuts cs t.length)
    (h : rule.Known m m' n cs cs' (rule.round m cs seed?)) :
    rule.round m' cs' seed? = rule.round m cs seed? := by
  have hfits := hm.seeded rule.name cs hseed
  have hread : rule.body.read (m'.seeded rule.name cs' seed?) (isSyntactic rule.name) cs' =
      rule.body.read (m.seeded rule.name cs seed?) (isSyntactic rule.name) cs := by
    refine Expr.read_same hfits _ _ rule.body n cs cs' hsame ⟨h.examined, ?_⟩
    intro c hc
    obtain ⟨hcut, hle⟩ := (Expr.read_fits hfits _ rule.body cs).calls c hc
    -- the rule itself reads its seed on both texts
    by_cases hown : c = ⟨0, rule.name⟩
    · rw [hown]
      simp [Meaning.seeded]
    · have hexamined : (rule.body.read (m.seeded rule.name cs seed?)
          (isSyntactic rule.name) cs).examined ≤ n := h.examined
      have hcut' : Cuts cs' c.offset := (hsame.drop hcut (by omega)).1
      rw [m.seeded_of_ne _ _ hcut hown, m'.seeded_of_ne _ _ hcut' hown]
      exact h.calls c (by rwa [round_calls]) hown
  rw [round, round, hread]

/-- The rounds so far are part of all. -/
theorem Known.of_grown {sofar : Application} {best : Tree}
    (h : rule.Known m m' n cs cs' (rule.grown m cs sofar best)) :
    rule.Known m m' n cs cs' sofar := by
  obtain ⟨-, hsofar⟩ := grown_induction rule m cs sofar best
    (P := fun a _ => rule.Known m m' n cs cs' a → rule.Known m m' n cs cs' sofar)
    (fun _ _ _ ih _ h => ih h.of_followed.1) (fun _ _ ih h => ih h.of_followed.1) id
  exact hsofar h

theorem grown_same (hm : m.Fits) (hs : m.Stays g) (hrule : g.rule? rule.name = some rule)
    (hsame : SameFor n cs cs') {sofar : Application} {best : Tree}
    (hbest : rule.Seeds g cs best) (hle : best.length ≤ n)
    (h : rule.Known m m' n cs cs' (rule.grown m cs sofar best)) :
    rule.grown m' cs' sofar best = rule.grown m cs sofar best := by
  induction hk : byteSize cs - best.length using Nat.strong_induction_on
      generalizing sofar best with
  | _ k ih =>
      subst hk
      have hseed : ∀ t, some best = some t → rule.Seeds g cs t :=
        fun t ht => Option.some.inj ht ▸ hbest
      have hsound := round_sound hm hs hrule cs _ hseed
      by_cases hmore : ∃ t, (rule.round m cs (some best)).tree? = some t ∧
          best.length < t.length ∧ t.length ≤ byteSize cs
      · obtain ⟨t, ht, hmore⟩ := hmore
        obtain ⟨hcut, hexamined⟩ := hsound.fits t ht
        rw [grown_more ht hmore] at h ⊢
        have hround := h.of_grown.of_followed.2
        have heq := round_same hm hsame (fun t ht => (hseed t ht).1) hround
        have htn := hexamined.trans hround.examined
        have hcut' := (hsame.drop hcut htn).1
        rw [grown_more (by rw [heq, ht]) ⟨hmore.1, hcut'.le⟩, heq]
        exact ih _ (by omega) (hsound.seeds ht) htn h rfl
      · rw [grown_last hmore] at h ⊢
        have heq := round_same hm hsame (fun t ht => (hseed t ht).1) h.of_followed.2
        rw [grown_last, heq]
        rintro ⟨t, ht, hlt, -⟩
        rw [heq] at ht
        exact hmore ⟨t, ht, hlt, (hsound.fits t ht).1.le⟩

theorem settled_same (hm : m.Fits) (hs : m.Stays g) (hrule : g.rule? rule.name = some rule)
    (hsame : SameFor n cs cs') (h : rule.Known m m' n cs cs' (rule.settled m cs)) :
    rule.settled m' cs' = rule.settled m cs := by
  have hsound : (rule.round m cs none).Sound g rule m cs := round_sound hm hs hrule cs none (by simp)
  have first : rule.Known m m' n cs cs' (rule.round m cs none) →
      rule.round m' cs' none = rule.round m cs none :=
    round_same hm hsame (by simp)
  rw [settled] at h ⊢
  rw [settled]
  cases ht : (rule.round m cs none).tree? with
  | none =>
      rw [ht] at h
      rw [first h, ht]
  | some t =>
      rw [ht] at h
      by_cases hown : ⟨0, rule.name⟩ ∈ (rule.round m cs none).calls
      · simp only [hown, if_true] at h ⊢
        rw [first h.of_grown, ht]
        simp only [hown, if_true]
        exact grown_same hm hs hrule hsame (hsound.seeds ht)
          ((hsound.fits t ht).2.trans h.of_grown.examined) h
      · simp only [hown, if_false] at h ⊢
        rw [first h, ht]
        simp only [hown, if_false]

theorem applied_same (hm : m.Fits) (hs : m.Stays g) (hrule : g.rule? rule.name = some rule)
    (hsame : SameFor n cs cs') (h : rule.Known m m' n cs cs' (rule.applied m cs)) :
    rule.applied m' cs' = rule.applied m cs := by
  rw [applied, applied, settled_same hm hs hrule hsame]
  exact ⟨by simpa [applied] using h.examined, by simpa [applied] using h.calls⟩

end Rule

end Pegboard
