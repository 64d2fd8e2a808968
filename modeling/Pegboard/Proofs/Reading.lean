import Pegboard.Grammar
import Pegboard.Proofs.Recording
import Pegboard.Proofs.Text.Cut

/-!
# Reading without a memo table

What a parsing expression comes to on a text is a function of that text alone, once it is known
what the rules that it applies come to. `Expr.read` is that function: it is given the remaining
text as a list of characters, and a `Meaning`, which answers for the rules. It keeps no position,
no log and no table; offsets count from where the reading began.

Beside its outcome a reading tells how far it looked and which rules it applied where. These two
are what a memo table has to know: `Reading.Fits` bounds both.
-/

namespace Pegboard

open Text

/-- A rule application, so many bytes from where the reading began. -/
structure Call where
  offset : Nat
  rule : String
  deriving DecidableEq, Repr

def Call.shift (base : Nat) (c : Call) : Call :=
  ⟨base + c.offset, c.rule⟩

/-- What a successful reading takes from the text: some bytes, and trees at their offsets. -/
structure Taken where
  size : Nat
  trees : List (Nat × Tree)

namespace Taken

def nothing : Taken := ⟨0, []⟩

def ofTree (t : Tree) : Taken := ⟨t.length, [(0, t)]⟩

/-- The second part, read where the first one ended. -/
def append (a b : Taken) : Taken :=
  ⟨a.size + b.size, a.trees ++ b.trees.map fun (o, t) => (a.size + o, t)⟩

end Taken

/-- What reading an expression comes to. -/
structure Reading where
  /-- What was taken, if the expression matched. -/
  taken? : Option Taken
  /-- The failures met, in order. -/
  missed : List Failure
  /-- How many bytes were looked at, the end of the text counting as one more. -/
  examined : Nat
  /-- The rules applied, in order. -/
  calls : List Call

namespace Reading

/-- Nothing was tried. -/
def blank (taken? : Option Taken) : Reading := ⟨taken?, [], 0, []⟩

/-- A character or a literal that was found. -/
def token (size : Nat) : Reading := ⟨some (.ofTree (.terminal size)), [], size, []⟩

/-- Something that was not found where it was expected. -/
def miss (examined : Nat) (e : Expectation) : Reading := ⟨none, [⟨0, e⟩], examined, []⟩

/-- The reading `b` where `a` took `t`. -/
def followed (a : Reading) (t : Taken) (b : Reading) : Reading where
  taken? := b.taken?.map t.append
  missed := a.missed ++ b.missed.map (Failure.shift t.size)
  examined := max a.examined (t.size + b.examined)
  calls := a.calls ++ b.calls.map (Call.shift t.size)

def andThen (a : Reading) (next : Taken → Reading) : Reading :=
  match a.taken? with
  | none => a
  | some t => a.followed t (next t)

def orElse (a b : Reading) : Reading :=
  match a.taken? with
  | none => a.followed .nothing b
  | some _ => a

/-- The reading of `~e` from that of `e`: its failures do not count. -/
def negated (r : Reading) (text : String) : Reading :=
  match r.taken? with
  | none => { r with taken? := some .nothing, missed := [] }
  | some _ => { r with taken? := none, missed := [⟨0, .not text⟩] }

/-- The reading of `&e` from that of `e`. -/
def restored (r : Reading) : Reading :=
  { r with taken? := r.taken?.map fun _ => .nothing }

/-- The reading as one tree. -/
def asTree (r : Reading) (tree : Taken → Tree) : Reading :=
  { r with taken? := r.taken?.map fun t => .ofTree (tree t) }

theorem andThen_of_none {a : Reading} (h : a.taken? = none) (next : Taken → Reading) :
    a.andThen next = a := by
  simp [andThen, h]

theorem andThen_of_some {a : Reading} {t : Taken} (h : a.taken? = some t)
    (next : Taken → Reading) : a.andThen next = a.followed t (next t) := by
  simp [andThen, h]

theorem orElse_of_none {a : Reading} (h : a.taken? = none) (b : Reading) :
    a.orElse b = a.followed .nothing b := by
  simp [orElse, h]

theorem orElse_of_some {a : Reading} {t : Taken} (h : a.taken? = some t) (b : Reading) :
    a.orElse b = a := by
  simp [orElse, h]

end Reading

/-! ## What applications come to -/

/-- What working out an application does to a memo table: it plants a seed for the rule itself, or
applies a rule. -/
inductive Move
  | seed (tree? : Option Tree)
  | call (c : Call)

/-- What applying a rule comes to. -/
structure Application where
  tree? : Option Tree
  missed : List Failure
  examined : Nat
  moves : List Move

/-- What applying the rule of a name at the beginning of a text comes to. -/
abbrev Meaning := String → List Char → Application

namespace Application

/-- The application of a name without a rule. -/
def nothing : Application := ⟨none, [], 0, []⟩

/-- The applications that this one needs. -/
def calls (a : Application) : List Call :=
  a.moves.filterMap fun
    | .seed _ => none
    | .call c => some c

theorem mem_calls {a : Application} {c : Call} : c ∈ a.calls ↔ .call c ∈ a.moves := by
  rw [calls, List.mem_filterMap]
  constructor
  · rintro ⟨move, hmove, heq⟩
    cases move with
    | seed t? => cases heq
    | call d => exact Option.some.inj heq ▸ hmove
  · exact fun h => ⟨_, h, rfl⟩

/-- The application as whoever applies the rule sees it. -/
def reading (a : Application) (rule : String) : Reading :=
  ⟨a.tree?.map .ofTree, a.missed, a.examined, [⟨0, rule⟩]⟩

end Application

/-! ## Reading expressions -/

namespace Reading

def any : List Char → Reading
  | [] => miss 1 .any
  | c :: _ => token c.utf8Size

def range (lo hi : Char) : List Char → Reading
  | [] => miss 1 (.range lo hi)
  | c :: _ => if lo ≤ c ∧ c ≤ hi then token c.utf8Size else miss c.utf8Size (.range lo hi)

def terminal (s : String) (cs : List Char) : Reading :=
  let examined := if byteSize cs < s.utf8ByteSize then byteSize cs + 1 else s.utf8ByteSize
  if s.toList.isPrefixOf cs then { token s.utf8ByteSize with examined := examined }
  else miss examined (.terminal s)

def endOfInput : List Char → Reading
  | [] => ⟨some .nothing, [], 1, []⟩
  | _ :: _ => miss 1 .endOfInput

section

variable (m : Meaning)

/-- Skips spaces, if there are any, and forgets what was read. -/
def spaces (cs : List Char) : Reading :=
  let r := (m "spaces" cs).reading "spaces"
  { r with taken? := some ⟨(r.taken?.map (·.size)).getD 0, []⟩, missed := [] }

/-- The reading behind spaces, where they are to be skipped. -/
def spaced (skip : Bool) (read : List Char → Reading) (cs : List Char) : Reading :=
  if skip then (spaces m cs).andThen fun t => read (dropBytes cs t.size) else read cs

/-- The steps of an iteration: they go on as long as each takes something. -/
def rounds (op : Repeat) (read : List Char → Reading) (matched : Bool) (cs : List Char) : Reading :=
  match (read cs).taken? with
  | none => if matched then { read cs with taken? := some .nothing } else read cs
  | some t =>
    if _ : op ≠ .opt ∧ 0 < t.size ∧ cs ≠ [] then
      (read cs).followed t (rounds op read true (dropBytes cs t.size))
    else read cs
termination_by cs.length
decreasing_by
  exact dropBytes_length_lt (by tauto) (by tauto)

section

variable {op : Repeat} {read : List Char → Reading} {matched : Bool} {cs : List Char} {t : Taken}

theorem rounds_of_none (h : (read cs).taken? = none) :
    rounds op read matched cs =
      if matched then { read cs with taken? := some .nothing } else read cs := by
  rw [rounds, h]

theorem rounds_more (h : (read cs).taken? = some t)
    (hmore : op ≠ .opt ∧ 0 < t.size ∧ cs ≠ []) :
    rounds op read matched cs =
      (read cs).followed t (rounds op read true (dropBytes cs t.size)) := by
  rw [rounds, h]
  exact dif_pos hmore

theorem rounds_last (h : (read cs).taken? = some t)
    (hlast : ¬ (op ≠ .opt ∧ 0 < t.size ∧ cs ≠ [])) :
    rounds op read matched cs = read cs := by
  rw [rounds, h]
  exact dif_neg hlast

end

def iterated (op : Repeat) (read : List Char → Reading) (cs : List Char) : Reading :=
  (rounds op read (op != .plus) cs).asTree fun t => .iter (op == .opt) t.size t.trees

end

end Reading

open Reading in
mutual

/-- What an expression comes to at the beginning of a text. -/
def Expr.read (m : Meaning) (syntactic : Bool) : Expr → List Char → Reading
  | .any, cs => spaced m syntactic Reading.any cs
  | .endOfInput, cs => spaced m syntactic Reading.endOfInput cs
  | .terminal s, cs => spaced m syntactic (Reading.terminal s) cs
  | .range lo hi, cs => spaced m syntactic (Reading.range lo hi) cs
  | .apply rule, cs =>
    spaced m (syntactic && rule != "spaces") (fun cs => (m rule cs).reading rule) cs
  | .alt es, cs => Expr.readFirst m syntactic es cs
  | .seq es, cs => Expr.readEach m syntactic es cs
  | .iter op e, cs => iterated op (e.read m syntactic) cs
  | .not e, cs => (e.read m syntactic cs).negated e.text
  | .look e, cs => (e.read m syntactic cs).restored
  | .lex e, cs => e.read m false cs

/-- The first choice that matches. -/
def Expr.readFirst (m : Meaning) (syntactic : Bool) : List Expr → List Char → Reading
  | [], _ => .blank none
  | e :: es, cs => (e.read m syntactic cs).orElse (Expr.readFirst m syntactic es cs)

/-- One part after the other. -/
def Expr.readEach (m : Meaning) (syntactic : Bool) : List Expr → List Char → Reading
  | [], _ => .blank (some .nothing)
  | e :: es, cs =>
    (e.read m syntactic cs).andThen fun t => Expr.readEach m syntactic es (dropBytes cs t.size)

end

/-! ## Bounds -/

/-- An application takes a part of the text, and looked at what it took. -/
def Application.Fits (cs : List Char) (a : Application) : Prop :=
  ∀ t, a.tree? = some t → Cuts cs t.length ∧ t.length ≤ a.examined

/-- What is true of the applications in general. -/
def Meaning.Fits (m : Meaning) : Prop :=
  ∀ rule cs, (m rule cs).Fits cs

/-- A reading takes a part of the text and looked at what it took; the rules that it applied stand
in the text, and looked no further than the reading itself. -/
structure Reading.Fits (m : Meaning) (cs : List Char) (r : Reading) : Prop where
  taken : ∀ t, r.taken? = some t → Cuts cs t.size ∧ t.size ≤ r.examined
  calls : ∀ c ∈ r.calls, Cuts cs c.offset ∧
    c.offset + (m c.rule (dropBytes cs c.offset)).examined ≤ r.examined

namespace Reading

variable {m : Meaning} {cs : List Char} {a b r : Reading} {t : Taken}

namespace Fits

theorem blank (taken? : Option Taken) (h : ∀ t, taken? = some t → t = .nothing) :
    (Reading.blank taken?).Fits m cs where
  taken := by
    intro t ht
    rw [h t ht]
    exact ⟨.zero cs, Nat.zero_le _⟩
  calls := by simp [Reading.blank]

theorem token {n k : Nat} (h : Cuts cs n) (hk : n ≤ k) :
    ({ Reading.token n with examined := k }).Fits m cs where
  taken := by
    intro t ht
    cases ht
    exact ⟨h, hk⟩
  calls := by simp [Reading.token]

theorem miss (n : Nat) (e : Expectation) : (Reading.miss n e).Fits m cs where
  taken := by simp [Reading.miss]
  calls := by simp [Reading.miss]

theorem followed (ha : a.Fits m cs) (ht : a.taken? = some t ∨ t = .nothing)
    (hb : b.Fits m (dropBytes cs t.size)) : (a.followed t b).Fits m cs := by
  have hcut : Cuts cs t.size := by
    rcases ht with ht | rfl
    · exact (ha.taken t ht).1
    · exact .zero cs
  constructor
  · intro u hu
    obtain ⟨v, hv, rfl⟩ := Option.map_eq_some_iff.mp hu
    obtain ⟨hcut', hle⟩ := hb.taken v hv
    exact ⟨(hcut.add hcut').1, (Nat.add_le_add_left hle _).trans (Nat.le_max_right _ _)⟩
  · intro c hc
    rcases List.mem_append.mp hc with hc | hc
    · obtain ⟨hcut', hle⟩ := ha.calls c hc
      exact ⟨hcut', hle.trans (Nat.le_max_left _ _)⟩
    · obtain ⟨d, hd, rfl⟩ := List.mem_map.mp hc
      obtain ⟨hcut', hle⟩ := hb.calls d hd
      obtain ⟨hadd, hdrop⟩ := hcut.add hcut'
      refine ⟨hadd, ?_⟩
      simp only [Call.shift, Reading.followed]
      rw [hdrop]
      omega

theorem andThen {next : Taken → Reading} (ha : a.Fits m cs)
    (hb : ∀ t, a.taken? = some t → (next t).Fits m (dropBytes cs t.size)) :
    (a.andThen next).Fits m cs := by
  cases ht : a.taken? with
  | none => rwa [andThen_of_none ht]
  | some t =>
      rw [andThen_of_some ht]
      exact ha.followed (.inl ht) (hb t ht)

theorem orElse (ha : a.Fits m cs) (hb : b.Fits m cs) : (a.orElse b).Fits m cs := by
  cases ht : a.taken? with
  | none =>
      rw [orElse_of_none ht]
      exact ha.followed (.inr rfl) (by simpa [Taken.nothing] using hb)
  | some t => rwa [orElse_of_some ht]

/-- To give back what was taken does no harm. -/
theorem retake {r' : Reading} (h : r.Fits m cs) (hcalls : r'.calls = r.calls)
    (hexamined : r'.examined = r.examined)
    (htaken : ∀ t, r'.taken? = some t → t.size = 0 ∨ ∃ u, r.taken? = some u ∧ t.size = u.size) :
    r'.Fits m cs where
  taken := by
    intro t ht
    rw [hexamined]
    rcases htaken t ht with h0 | ⟨u, hu, hsize⟩
    · rw [h0]
      exact ⟨.zero cs, Nat.zero_le _⟩
    · rw [hsize]
      exact h.taken u hu
  calls := by
    rw [hcalls, hexamined]
    exact h.calls

end Fits

theorem fits_application (hm : m.Fits) (rule : String) (cs : List Char) :
    ((m rule cs).reading rule).Fits m cs where
  taken := by
    intro t ht
    obtain ⟨tree, htree, rfl⟩ := Option.map_eq_some_iff.mp ht
    exact hm rule cs tree htree
  calls := by
    intro c hc
    obtain rfl := List.mem_singleton.mp hc
    exact ⟨.zero cs, by simp [Application.reading]⟩

theorem fits_any (cs : List Char) : (any cs).Fits m cs := by
  cases cs with
  | nil => exact .miss _ _
  | cons c cs => exact .token (.head c cs) (Nat.le_refl _)

theorem fits_range (lo hi : Char) (cs : List Char) : (range lo hi cs).Fits m cs := by
  cases cs with
  | nil => exact .miss _ _
  | cons c cs =>
      rw [range]
      split
      · exact .token (.head c cs) (Nat.le_refl _)
      · exact .miss _ _

theorem fits_terminal (s : String) (cs : List Char) : (terminal s cs).Fits m cs := by
  rw [terminal]
  split
  · rename_i hprefix
    obtain ⟨rest, rfl⟩ := List.isPrefixOf_iff_prefix.mp hprefix
    refine .token ⟨s.toList, rest, rfl, byteSize_toList s⟩ ?_
    -- the text is no shorter than what was found in it
    rw [byteSize_append, byteSize_toList, if_neg (by omega)]
  · exact .miss _ _

theorem fits_endOfInput (cs : List Char) : (endOfInput cs).Fits m cs := by
  cases cs with
  | nil =>
      refine ⟨?_, by simp [endOfInput]⟩
      intro t ht
      cases ht
      exact ⟨.zero [], Nat.zero_le _⟩
  | cons c cs => exact .miss _ _

theorem fits_spaces (hm : m.Fits) (cs : List Char) : (spaces m cs).Fits m cs := by
  refine (fits_application hm "spaces" cs).retake rfl rfl ?_
  intro t ht
  cases ht
  cases h : ((m "spaces" cs).reading "spaces").taken? with
  | none => exact .inl (by simp)
  | some u => exact .inr ⟨u, rfl, by simp⟩

theorem fits_spaced (hm : m.Fits) (skip : Bool) {read : List Char → Reading}
    (hread : ∀ cs, (read cs).Fits m cs) (cs : List Char) : (spaced m skip read cs).Fits m cs := by
  rw [spaced]
  split
  · exact (fits_spaces hm cs).andThen fun t _ => hread _
  · exact hread cs

theorem fits_rounds {read : List Char → Reading} (hread : ∀ cs, (read cs).Fits m cs)
    (op : Repeat) (matched : Bool) (cs : List Char) :
    (rounds op read matched cs).Fits m cs := by
  induction h : cs.length using Nat.strong_induction_on generalizing matched cs with
  | _ n ih =>
      subst h
      cases ht : (read cs).taken? with
      | none =>
          rw [rounds_of_none ht]
          split
          · exact (hread cs).retake rfl rfl (by simp [Taken.nothing])
          · exact hread cs
      | some t =>
          by_cases hmore : op ≠ .opt ∧ 0 < t.size ∧ cs ≠ []
          · rw [rounds_more ht hmore]
            -- the rounds left are rounds on a shorter text
            exact (hread cs).followed (.inl ht)
              (ih _ (dropBytes_length_lt hmore.2.2 hmore.2.1) _ _ rfl)
          · rw [rounds_last ht hmore]
            exact hread cs

theorem fits_iterated {read : List Char → Reading} (hread : ∀ cs, (read cs).Fits m cs)
    (op : Repeat) (cs : List Char) : (iterated op read cs).Fits m cs := by
  refine (fits_rounds hread op (op != .plus) cs).retake rfl rfl ?_
  intro t ht
  obtain ⟨u, hu, rfl⟩ := Option.map_eq_some_iff.mp ht
  exact .inr ⟨u, hu, rfl⟩

end Reading

open Reading in
mutual

theorem Expr.read_fits {m : Meaning} (hm : m.Fits) (syntactic : Bool) :
    ∀ (e : Expr) (cs : List Char), (e.read m syntactic cs).Fits m cs
  | .any, cs => by rw [Expr.read]; exact fits_spaced hm _ fits_any cs
  | .endOfInput, cs => by rw [Expr.read]; exact fits_spaced hm _ fits_endOfInput cs
  | .terminal s, cs => by rw [Expr.read]; exact fits_spaced hm _ (fits_terminal s) cs
  | .range lo hi, cs => by rw [Expr.read]; exact fits_spaced hm _ (fits_range lo hi) cs
  | .apply rule, cs => by rw [Expr.read]; exact fits_spaced hm _ (fits_application hm rule) cs
  | .alt es, cs => by rw [Expr.read]; exact Expr.readFirst_fits hm syntactic es cs
  | .seq es, cs => by rw [Expr.read]; exact Expr.readEach_fits hm syntactic es cs
  | .iter op e, cs => by rw [Expr.read]; exact fits_iterated (Expr.read_fits hm syntactic e) op cs
  | .not e, cs => by
      rw [Expr.read, negated]
      have h := Expr.read_fits hm syntactic e cs
      split
      · exact h.retake rfl rfl (by simp [Taken.nothing])
      · exact h.retake rfl rfl (by simp)
  | .look e, cs => by
      rw [Expr.read]
      refine (Expr.read_fits hm syntactic e cs).retake rfl rfl ?_
      intro t ht
      obtain ⟨u, -, rfl⟩ := Option.map_eq_some_iff.mp ht
      exact .inl rfl
  | .lex e, cs => by rw [Expr.read]; exact Expr.read_fits hm false e cs

theorem Expr.readFirst_fits {m : Meaning} (hm : m.Fits) (syntactic : Bool) :
    ∀ (es : List Expr) (cs : List Char), (Expr.readFirst m syntactic es cs).Fits m cs
  | [], cs => by rw [Expr.readFirst]; exact .blank none (by simp)
  | e :: es, cs => by
      rw [Expr.readFirst]
      exact (Expr.read_fits hm syntactic e cs).orElse (Expr.readFirst_fits hm syntactic es cs)

theorem Expr.readEach_fits {m : Meaning} (hm : m.Fits) (syntactic : Bool) :
    ∀ (es : List Expr) (cs : List Char), (Expr.readEach m syntactic es cs).Fits m cs
  | [], cs => by rw [Expr.readEach]; exact .blank (some .nothing) (by simp)
  | e :: es, cs => by
      rw [Expr.readEach]
      exact (Expr.read_fits hm syntactic e cs).andThen
        fun t _ => Expr.readEach_fits hm syntactic es (dropBytes cs t.size)

end

end Pegboard
