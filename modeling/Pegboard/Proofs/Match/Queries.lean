import Pegboard.Proofs.Match.Answered
import Pegboard.Proofs.Match.Beside.Rule

/-!
# Queries of one text

Matches that are asked of a session one after the other find what the earlier ones have left. Where
left calls run in a cycle through several rules, an entry depends on which of them was entered first,
and a match from another one of them reads it as if it did not. This is the only way in which an
earlier match can be felt: as long as no such cycle is reached from two different start rules, each
match comes to what it would come to on its own.

Of the rules that a match applies, some are applied by matches from other start rules as well, and
these are tame; the others have no entries yet, or the match was asked for before and the table
answers it.

Main statement: `Session.matchRule_unaffected`.
-/

namespace Pegboard

open Relation Text Match Match.Evaluation

namespace Grammar

variable {g : Grammar} {start r q : String}

/-- A match from the start rule may apply the rule: the start rule or the spaces around it lead to
it. -/
def Reaches (g : Grammar) (start q : String) : Prop :=
  ReflTransGen g.Calls start q ∨ isSyntactic start = true ∧ ReflTransGen g.Calls "spaces" q

/-- No cycle of left calls through two rules is reached from both start rules. -/
def Apart (g : Grammar) (start start' : String) : Prop :=
  ∀ r q, g.Reaches start r → g.Reaches start' r → r ≠ q → TransGen g.LeftCalls r q →
    ¬ TransGen g.LeftCalls q r

theorem selfContained_reaches (g : Grammar) (start : String) : g.SelfContained (g.Reaches start) :=
  fun _ _ hr hcalls => hr.imp (·.tail hcalls) fun ⟨hsyntactic, hr⟩ => ⟨hsyntactic, hr.tail hcalls⟩

/-- The rules that matches from the start rule share with matches from others, all of them apart from
it. -/
def Shared (g : Grammar) (start : String) (others : String → Prop) (q : String) : Prop :=
  g.Reaches start q ∧ ∃ start', others start' ∧ g.Reaches start' q

theorem tame_shared {others : String → Prop} (h : ∀ start', others start' → g.Apart start start') :
    g.Tame (g.Shared start others) where
  closed := fun r q ⟨hr, start', hother, hr'⟩ hcalls =>
    ⟨g.selfContained_reaches start r q hr hcalls, start', hother,
      g.selfContained_reaches start' r q hr' hcalls⟩
  loops := fun r q ⟨hr, start', hother, hr'⟩ => h start' hother r q hr hr'

/-! ### Checking start rules -/

/-- The rules in the list apply none but themselves and those before them. -/
def Graded (g : Grammar) (names : List String) : Prop :=
  ∀ rule ∈ g.rules, rule.name ∈ names → ∀ q ∈ rule.body.applied (isSyntactic rule.name),
    q = rule.name ∨ names.idxOf q < names.idxOf rule.name

instance (g : Grammar) (names : List String) : Decidable (g.Graded names) :=
  inferInstanceAs (Decidable (∀ rule ∈ g.rules, _))

namespace Graded

variable {names : List String} (h : g.Graded names)

include h

theorem calls (hr : r ∈ names) (hcalls : g.Calls r q) :
    q ∈ names ∧ (q = r ∨ names.idxOf q < names.idxOf r) := by
  obtain ⟨rule, hrule, happlied⟩ := hcalls
  obtain rfl := rule?_name hrule
  rcases h rule (rule?_mem hrule) hr q happlied with rfl | hlt
  · exact ⟨hr, .inl rfl⟩
  · exact ⟨List.idxOf_lt_length_iff.mp (hlt.trans (List.idxOf_lt_length_iff.mpr hr)), .inr hlt⟩

theorem mem_of_calls (hr : r ∈ names) (hcalls : ReflTransGen g.Calls r q) : q ∈ names := by
  induction hcalls with
  | refl => exact hr
  | tail _ hcall ih => exact (h.calls ih hcall).1

theorem leftCalls (hr : r ∈ names) (hcalls : TransGen g.LeftCalls r q) :
    q ∈ names ∧ (q = r ∨ names.idxOf q < names.idxOf r) := by
  induction hcalls with
  | single hcall => exact h.calls hr hcall.calls
  | tail _ hcall ih =>
      obtain ⟨hmem, hle⟩ := ih
      obtain ⟨hmem', hle'⟩ := h.calls hmem hcall.calls
      refine ⟨hmem', ?_⟩
      rcases hle with rfl | hlt <;> rcases hle' with rfl | hlt'
      · exact .inl rfl
      · exact .inr hlt'
      · exact .inr hlt
      · exact .inr (hlt'.trans hlt)

/-- A start rule in the list is apart from every other one. -/
theorem apart (hstart : start ∈ names) (hspaces : isSyntactic start = true → "spaces" ∈ names)
    (start' : String) : g.Apart start' start := by
  intro r q _ hr hne hrq hqr
  have hmem : r ∈ names := by
    rcases hr with hr | ⟨hsyntactic, hr⟩
    · exact h.mem_of_calls hstart hr
    · exact h.mem_of_calls (hspaces hsyntactic) hr
  obtain ⟨hmem', hle⟩ := h.leftCalls hmem hrq
  have hlt := hle.resolve_left hne.symm
  have hlt' := (h.leftCalls hmem' hqr).2.resolve_left hne
  exact Nat.lt_asymm hlt hlt'

end Graded

end Grammar

namespace Match

variable {g : Grammar} {i : Input} {R S : String → Prop}

/-- Rules that keep to themselves apply none but themselves, anywhere. -/
theorem admitting_selfContained (hS : g.SelfContained S) : Admitting g True fun _ _ => S where
  body := fun _ _ rule hrule hfound =>
    ⟨fun _ hq => hS rule.name _ hrule ⟨rule, hfound, hq.mem_applied⟩,
      fun _ _ _ hq => hS rule.name _ hrule ⟨rule, hfound, hq⟩⟩
  free := fun _ _ _ _ _ hq => hq

theorem starts_reaches (g : Grammar) (start : String) :
    Lasting.Starts (fun _ _ => g.Reaches start) start where
  rule := fun _ => .inl .refl
  spaces := fun hsyntactic _ => .inr ⟨hsyntactic, .refl⟩

/-! ## A match with two tables -/

/-- One text with two tables. Of the rules that may be applied, those of a tame part have entries that
tell the truth; of the others both tables hold the same entries. -/
def Twin.ofTables (g : Grammar) (i : Input) (R S : String → Prop) (hR : g.SelfContained R) : Twin where
  grammar := g
  left := i
  right := i
  a := 0
  b := 0
  n := i.size + 1
  alike _ _ := rfl
  locked q := R q ∧ ¬ S q
  aside := S
  closed r q hr hcalls :=
    (Classical.em (S q)).elim .inr fun hq => .inl ⟨hR r q hr.1 hcalls, hq⟩
  known memo memo' := Table (g.only S) i [] memo ∧ Table (g.only S) i [] memo'
  known_put _ _ _ _ _ e h hq hpos hpos' :=
    have hrule := fun hrule => hq.2 (Grammar.mem_of_hasRule hrule)
    ⟨(h.1.cons (_, _)).put_other hpos hrule e, (h.2.cons (_, _)).put_other hpos' hrule e⟩
  known_drop _ _ _ _ _ h hq _ _ :=
    have hrule := fun hrule => hq.2 (Grammar.mem_of_hasRule hrule)
    ⟨(h.1.cons (_, _)).drop_other hrule, (h.2.cons (_, _)).drop_other hrule⟩

namespace Twin

variable {frames : List Frame}

/-- An application of a rule of the tame part comes to what the part means, and leaves the entries of
all other rules as they are. -/
theorem ofRule_aside {σ : Stack} {base depth : Nat} {c : Cursor} {log : Log} {memo : Memo}
    {out : Outcome} {rule : Rule} {cs : List Char} (hset : σ.set.tracing = false)
    (hS : σ.set.grammar.Tame S) (hr : σ.Ready base c log memo) (hq : S rule.name)
    (hframes : ∀ f ∈ σ.frames, ¬ S f.2) (hrule : σ.set.grammar.rule? rule.name = some rule)
    (hleft : σ.set.input.LeftAt c.pos cs)
    (htable : Table (σ.set.grammar.only S) σ.set.input [] memo)
    (h : ofRule σ.set depth σ.frames rule.name c log memo = some out) :
    let a := (σ.set.grammar.only S).meaning rule.name cs
    out.cursor? = a.tree?.map c.push ∧ out.log = log.tell c.pos a ∧
      Table (σ.set.grammar.only S) σ.set.input [] out.memo ∧
      ∀ p r, ¬ S r → out.memo.find? p r = memo.find? p r := by
  have hother : ∀ f ∈ σ.frames, ¬ (σ.set.grammar.only S).hasRule f.2 = true :=
    fun f hf hrule => hframes f hf (Grammar.mem_of_hasRule hrule)
  obtain ⟨hcursor, hlog, htable'⟩ := ofRule_tame hset hS hq hrule hleft
    (htable.mono fun _ hf => nomatch hf) (fun f hf hrule => absurd hrule (hother f hf)) h
  have hkept := ((keptBut_lasts σ.set (fun _ => S) memo).ofRule_keeps
    (admitting_selfContained hS.closed) depth σ rule.name rfl base c log memo out hr hq
    ⟨.refl _ memo, Memo.rests_of_free _ _⟩ h).1.1
  exact ⟨hcursor, hlog, htable'.mono fun f hf hrule => absurd hrule (hother f hf), hkept.others⟩

/-- Applications of rules of the tame part come to the same with both tables. -/
theorem ofTables_aside (hR : g.SelfContained R) (hS : g.Tame S) {q : String} (hq : S q) (depth : Nat)
    (hframes : ∀ f ∈ frames, ¬ S f.2) :
    (ofTables g i R S hR).Follows frames True
      (ofRule (ofTables g i R S hR).leftSet depth (frames.map (shiftFrame 0)) q)
      (ofRule (ofTables g i R S hR).rightSet depth (frames.map (shiftFrame 0)) q) where
  left := sound_left (T := ofTables g i R S hR) frames depth q
  right := sound_right (T := ofTables g i R S hR) frames depth q
  beside := by
    intro c log memo memo' out hr he _
    generalize he' : ofRule (ofTables g i R S hR).rightSet depth (frames.map (shiftFrame 0)) q _ _ _ =
      result
    cases result with
    | none => trivial
    | some out' =>
        obtain ⟨⟨ends, base, hleft⟩, ⟨ends', base', hright⟩, hsame, htable, htable'⟩ := hr
        -- with either table the rule comes to what the tame part means
        obtain ⟨cs, hcs⟩ := hleft.boundary.exists_left
        cases hrule : g.rule? q with
        | none =>
            have hnone : (ofTables g i R S hR).leftSet.grammar.rule? q = none := hrule
            cases (ofRule_of_none hnone _).symm.trans he
            cases (ofRule_of_none hnone _).symm.trans he'
            exact .intro none log ⟨hsame, htable, htable'⟩
        | some rule =>
            obtain rfl := Grammar.rule?_name hrule
            have hmapped : ∀ f ∈ frames.map (shiftFrame 0), ¬ S f.2 :=
              List.forall_mem_map.mpr hframes
            obtain ⟨hcursor, hlog, htable₁, hkept⟩ :=
              ofRule_aside (σ := (ofTables g i R S hR).leftStack frames ends) rfl hS hleft hq hmapped
                hrule hcs htable he
            obtain ⟨hcursor', hlog', htable₁', hkept'⟩ :=
              ofRule_aside (σ := (ofTables g i R S hR).rightStack frames ends') rfl hS hright hq
                hmapped hrule hcs htable' he'
            have hnear : (ofTables g i R S hR).Near out.memo out'.memo :=
              ⟨fun k r hr => (hkept _ r hr.2).trans ((hsame k r hr).trans (hkept' _ r hr.2).symm),
                htable₁, htable₁'⟩
            have hbeside := Beside.intro
              (((g.only S).meaning rule.name cs).tree?.map c.push)
              (log.tell c.pos ((g.only S).meaning rule.name cs)) hnear
            rw [← Cursor.map_shift_push, ← Cursor.map_shift_push, ← Log.shift_tell,
              ← Log.shift_tell] at hbeside
            obtain ⟨cursor?, log₁, memo₁⟩ := out
            obtain ⟨cursor?', log₁', memo₁'⟩ := out'
            obtain rfl := hcursor
            obtain rfl := hlog
            obtain rfl := hcursor'
            obtain rfl := hlog'
            exact hbeside

end Twin

variable {limit : Nat} {start : String} {memo memo' m m' : Memo} {a a' : Answer}

/-- A match as one evaluation: the spaces before the start rule, the rule and the end. -/
def whole (set : Setting) (limit : Nat) (start : String) : Evaluation :=
  (spaced (ofRule set limit []) (isSyntactic start) fun c log memo => some ⟨some c, log, memo⟩).andThen
    ((ofRule set limit [] start).andThen
      (ofExpr set (ofRule set limit []) (isSyntactic start) .endOfInput))

theorem whole_of_run {set : Setting} (h : run set limit start memo = some (a, m)) :
    ∃ out, whole set limit start ⟨0, []⟩ (.start 0) memo = some out ∧
      a.tree? = out.cursor?.bind (·.found.head?) ∧ a.failures = out.log.failures := by
  obtain ⟨pos, log₁, memo₁, out, hspaces, hrest, rfl, -⟩ := run_eq_some h
  refine ⟨out, ?_, rfl, rfl⟩
  rw [whole, andThen, hspaces]
  exact hrest

/-- Matches with two tables come to the same. -/
theorem run_near (hR : g.SelfContained R) (hS : g.Tame S) (hstarts : Lasting.Starts (fun _ _ => R) start)
    (hmemo : (Stack.bottom ⟨g, i, false⟩).Intact memo)
    (hmemo' : (Stack.bottom ⟨g, i, false⟩).Intact memo')
    (hnear : (Twin.ofTables g i R S hR).Near memo memo')
    (h : run ⟨g, i, false⟩ limit start memo = some (a, m))
    (h' : run ⟨g, i, false⟩ limit start memo' = some (a', m')) :
    a'.tree? = a.tree? ∧ a'.failures = a.failures := by
  let T := Twin.ofTables g i R S hR
  have happly : ∀ q, R q → T.Follows [] True (ofRule T.leftSet limit [] q)
      (ofRule T.rightSet limit [] q) := fun q hq =>
    Twin.ofRule_follows
      (fun depth _ _ hS' hframes => Twin.ofTables_aside hR hS hS' depth fun f hf => (hframes f hf).2)
      limit [] q ((Classical.em (S q)).elim .inr fun hS' => .inl ⟨hq, hS'⟩) (List.forall_mem_nil _)
  have hleft := fun q => Twin.sound_left (T := T) [] limit q
  have hright := fun q => Twin.sound_right (T := T) [] limit q
  have hbefore := Twin.spaced_follows hleft hright (isSyntactic start)
    (fun hsyntactic => happly _ (hstarts.spaces hsyntactic 0)) Twin.here_follows
  have hend := Twin.ofExpr_follows hleft hright (isSyntactic start) .endOfInput
    fun q hq => happly q (hstarts.atEnd hq 0)
  have hwhole := Twin.andThen_follows hbefore
    (Twin.andThen_follows (happly start (hstarts.rule 0)) hend)
  obtain ⟨out, hout, htree, hfailures⟩ := whole_of_run h
  obtain ⟨out', hout', htree', hfailures'⟩ := whole_of_run h'
  have hready : T.Ready [] ⟨0, []⟩ (.start 0) memo memo' :=
    ⟨⟨fun _ => 0, 0, Stack.ready_bottom hmemo⟩, ⟨fun _ => 0, 0, Stack.ready_bottom hmemo'⟩, hnear⟩
  obtain ⟨ends, base, hdone⟩ := hwhole.ahead hready hout
  have hreach : out.log.reach ≤ T.a + T.n := hdone.ready.reach_le.trans (Nat.le_add_left _ _)
  rcases hwhole.step hready hout hreach with ⟨hnone, -⟩ | ⟨c?, log, memo₁, memo₁', rfl, hsome, -⟩
  · cases hnone.symm.trans hout'
  · cases hsome.symm.trans hout'
    exact ⟨htree'.trans htree.symm, hfailures'.trans hfailures.symm⟩

/-! ## What earlier matches leave -/

/-- The table has no entries of the start rule's own rules, or it answers a match from the start rule
in the same way as the table without entries does. -/
inductive Undisturbed (set : Setting) (own : String → Prop) (start : String) (fresh : Answer)
    (memo : Memo) : Prop
  | untouched (none : ∀ p q, own q → memo.find? p q = none)
  | answered {before after : Memo} {a : Answer} (intact : (Stack.bottom set).Intact before)
      (asked : run set nestingLimit start before = some (a, after)) (retains : after.Retains memo)
      (tree : a.tree? = fresh.tree?) (failures : a.failures = fresh.failures)

variable {set : Setting} {own T : String → Prop} {fresh : Answer} {start' : String}

theorem Undisturbed.blank (set : Setting) (own : String → Prop) (start : String) (fresh : Answer)
    (size : Nat) : Undisturbed set own start fresh (.blank size) :=
  .untouched fun _ _ _ => by simp

/-- A match from another start rule leaves it so, unless it applies some of the rules. -/
theorem Undisturbed.other (h : Undisturbed set own start fresh memo)
    (hT : set.grammar.SelfContained T) (hstarts : Lasting.Starts (fun _ _ => T) start')
    (hown : ∀ q, own q → ¬ T q) (hmemo : (Stack.bottom set).Intact memo)
    (hrun : run set limit start' memo = some (a, memo')) :
    Undisturbed set own start fresh memo' := by
  obtain ⟨heads, hkept, -⟩ := (keptBut_lasts set (fun _ => T) memo).run_keeps
    (admitting_selfContained hT) hstarts hmemo ⟨.refl _ memo, Memo.rests_of_free _ _⟩ hrun
  cases h with
  | untouched hnone => exact .untouched fun p q hq => (hkept.others p q (hown q hq)).trans (hnone p q hq)
  | answered hintact hasked hretains htree hfailures =>
      exact .answered hintact hasked (hretains.trans hkept.retains) htree hfailures

/-- A match from the start rule comes to what it comes to with a table without entries, and leaves it
so. -/
theorem Undisturbed.same (hR : g.SelfContained R) (hS : g.Tame S)
    (h : Undisturbed ⟨g, i, false⟩ (fun q => R q ∧ ¬ S q) start fresh memo)
    (hstarts : Lasting.Starts (fun _ _ => R) start)
    (hfresh : run ⟨g, i, false⟩ nestingLimit start (.blank i.size) = some (fresh, m))
    (hmemo : (Stack.bottom ⟨g, i, false⟩).Intact memo) (htable : Table (g.only S) i [] memo)
    (hrun : run ⟨g, i, false⟩ nestingLimit start memo = some (a, memo')) :
    (a.tree? = fresh.tree? ∧ a.failures = fresh.failures) ∧
      Undisturbed ⟨g, i, false⟩ (fun q => R q ∧ ¬ S q) start fresh memo' := by
  cases h with
  | untouched hnone =>
      have hnear : (Twin.ofTables g i R S hR).Near (.blank i.size) memo :=
        ⟨fun k q hq => by rw [hnone _ q hq, Memo.find?_blank], .blank _ i, htable⟩
      obtain ⟨htree, hfailures⟩ := run_near hR hS hstarts (Stack.intact_blank _) hmemo hnear hfresh hrun
      exact ⟨⟨htree, hfailures⟩, .answered hmemo hrun (.refl memo') htree hfailures⟩
  | answered hintact hasked hretains htree hfailures =>
      obtain ⟨pos, c?, out, hanswered, rfl⟩ := answered_of_run rfl hintact hasked hretains
      obtain ⟨a₁, hagain, htree₁, hfailures₁⟩ := hanswered.run_eq nestingLimit
      obtain ⟨rfl, rfl⟩ := Prod.mk.inj (Option.some.inj (hrun.symm.trans hagain))
      exact ⟨⟨htree₁.trans htree, hfailures₁.trans hfailures⟩,
        .answered hintact hasked hretains htree hfailures⟩

/-! ## Sessions -/

namespace Session

variable {s : Session} {text : String} {start? : Option String} {rule : Rule}

/-- What is known of a session on the text while matches from several start rules are asked for. The
rules in `S` are applied by matches from the start rule and from others. -/
structure Calm (g : Grammar) (text : String) (S : String → Prop) (start : String) (fresh : Answer)
    (s : Session) : Prop where
  tells : Tells g S s
  input : s.input = .ofString text
  undisturbed : Undisturbed ⟨g, .ofString text, false⟩ (fun q => g.Reaches start q ∧ ¬ S q) start fresh
    s.memo

/-- A match from the start rule comes to what it comes to on its own. -/
theorem Calm.same (h : Calm g text S start fresh s) (hS : g.Tame S)
    (hfresh : run ⟨g, .ofString text, false⟩ nestingLimit start
      (.blank (Input.ofString text).size) = some (fresh, m))
    (hrun : run ⟨g, .ofString text, false⟩ nestingLimit start s.memo = some (a, memo')) :
    (a.tree? = fresh.tree? ∧ a.failures = fresh.failures) ∧
      Undisturbed ⟨g, .ofString text, false⟩ (fun q => g.Reaches start q ∧ ¬ S q) start fresh
        memo' := by
  obtain ⟨⟨⟨-, hintact⟩, htable, -⟩, hinput, hundisturbed⟩ := h
  rw [hinput] at hintact htable
  exact hundisturbed.same (g.selfContained_reaches start) hS (starts_reaches g start) hfresh hintact
    htable hrun

theorem Calm.matchRule (h : Calm g text S start fresh s) (hS : g.Tame S)
    (hfresh : run ⟨g, .ofString text, false⟩ nestingLimit start
      (.blank (Input.ofString text).size) = some (fresh, m))
    (hother : ∀ rule, g.startRule start? = .ok rule → rule.name ≠ start →
      ∀ q, g.Reaches start q → g.Reaches rule.name q → S q) :
    Calm g text S start fresh (s.matchRule start?).2 := by
  have htells := h.tells.step hS (.matchRule start?)
  rw [Session.step] at htells
  refine ⟨htells, ?_, ?_⟩
  · rw [Session.matchRule]
    cases s.grammar.startRule start? with
    | error e => exact h.input
    | ok rule =>
        dsimp only
        split <;> exact h.input
  rw [Session.matchRule, h.tells.fits.grammar, h.input]
  cases hstart : g.startRule start? with
  | error e => exact h.undisturbed
  | ok rule =>
      dsimp only
      cases hrun : run ⟨g, .ofString text, false⟩ nestingLimit rule.name s.memo with
      | none => exact .blank _ _ start fresh _
      | some out =>
          by_cases hname : rule.name = start
          · subst hname
            exact (h.same hS hfresh hrun).2
          · have hintact := h.tells.fits.intact
            rw [h.input] at hintact
            exact h.undisturbed.other (g.selfContained_reaches rule.name) (starts_reaches g rule.name)
              (fun q hq hreached => hq.2 (hother rule hstart hname q hq.1 hreached)) hintact hrun

theorem calm_after (hS : g.Tame S)
    (hfresh : run ⟨g, .ofString text, false⟩ nestingLimit start
      (.blank (Input.ofString text).size) = some (fresh, m))
    (ops : List Operation) (starts : List (Option String))
    (hother : ∀ start? ∈ starts, ∀ rule, g.startRule start? = .ok rule → rule.name ≠ start →
      ∀ q, g.Reaches start q → g.Reaches rule.name q → S q) :
    Calm g text S start fresh (after g (ops ++ .setText text :: starts.map .matchRule)) := by
  have run : ∀ s, Calm g text S start fresh s →
      Calm g text S start fresh ((starts.map Operation.matchRule).foldl Session.step s) := by
    induction starts with
    | nil => exact fun s h => h
    | cons start? starts ih =>
        rw [List.forall_mem_cons] at hother
        exact fun s h => ih hother.2 _ (h.matchRule hS hfresh hother.1)
  rw [after, List.foldl_append]
  exact run _ ⟨(tells_after hS ops).step hS (.setText text), rfl, .blank _ _ start fresh _⟩

/-- Matches asked of a session on one text do not influence each other where no cycle of left calls
through two rules is reached from two different start rules: whatever was matched before, a match
comes to what it comes to on its own, unless one of the two nests too deep. -/
theorem matchRule_unaffected (g : Grammar) (ops : List Operation) (text : String)
    (starts : List (Option String)) (start? : Option String)
    (hapart : ∀ start?' ∈ starts, ∀ rule rule', g.startRule start? = .ok rule →
      g.startRule start?' = .ok rule' → rule.name = rule'.name ∨ g.Apart rule.name rule'.name) :
    let s := after g (ops ++ .setText text :: starts.map .matchRule)
    (∀ name rule, (s.matchRule start?).1 ≠ .error (.tooDeep name rule)) →
      (∀ name rule, g.matchText text start? ≠ .error (.tooDeep name rule)) →
        (s.matchRule start?).1 = g.matchText text start? := by
  intro s hshallow hshallow'
  have hgrammar : s.grammar = g := (fits_after g _).grammar
  rw [Grammar.matchText, Grammar.answer] at hshallow' ⊢
  rw [Session.matchRule, hgrammar] at hshallow ⊢
  cases hstart : g.startRule start? with
  | error e => rfl
  | ok rule =>
      simp only [hstart, bind, Except.bind] at hshallow hshallow' ⊢
      cases hfresh : run ⟨g, .ofString text, false⟩ nestingLimit rule.name
          (.blank (Input.ofString text).size) with
      | none =>
          rw [hfresh] at hshallow'
          exact absurd rfl (hshallow' g.name rule.name)
      | some out =>
          -- what the match shares with matches from other start rules is tame
          let others start' := ∃ start?' ∈ starts, ∃ rule', g.startRule start?' = .ok rule' ∧
            rule'.name = start' ∧ rule.name ≠ start'
          have hS : g.Tame (g.Shared rule.name others) := by
            refine Grammar.tame_shared ?_
            rintro _ ⟨start?', hmem, rule', hstart', rfl, hne⟩
            exact (hapart start?' hmem rule rule' hstart hstart').resolve_left hne
          have hcalm : Calm g text (g.Shared rule.name others) rule.name out.1 s :=
            calm_after hS hfresh ops starts fun start?' hmem rule' hstart' hne q hq hq' =>
              ⟨hq, rule'.name, ⟨start?', hmem, rule', hstart', rfl, hne.symm⟩, hq'⟩
          rw [hcalm.input] at hshallow ⊢
          cases hrun : run ⟨g, .ofString text, false⟩ nestingLimit rule.name s.memo with
          | none =>
              rw [hrun] at hshallow
              exact absurd rfl (hshallow g.name rule.name)
          | some out' =>
              obtain ⟨⟨htree, hfailures⟩, -⟩ := hcalm.same hS hfresh hrun
              simp only [Except.map, htree, hfailures]

/-- `x` and `y` call each other from their left. `z` leads to neither of them, and shares a letter
with both. -/
def knots : Grammar where
  name := "Knots"
  super := none
  start := some "y"
  rules :=
    [⟨"y", .alt [.seq [.apply "x", .terminal "b"], .apply "letter"], none, none, "Knots"⟩,
     ⟨"x", .alt [.apply "y", .apply "letter"], none, none, "Knots"⟩,
     ⟨"z", .seq [.apply "letter", .terminal "b"], none, none, "Knots"⟩,
     ⟨"letter", .terminal "c", none, none, "Knots"⟩]

theorem matchRule_unaffected_knots :
    (∀ start? ∈ [some "z", none, some "letter"], ∀ rule rule', knots.startRule (some "y") = .ok rule →
      knots.startRule start? = .ok rule' → rule.name = rule'.name ∨
        knots.Apart rule.name rule'.name) ∧
    ∃ r, knots.matchText "cb" (some "y") = .ok r ∧ r.succeeded = true ∧
      ((after knots ([.setText "bc"] ++ .setText "cb" ::
        [some "z", none, some "letter"].map .matchRule)).matchRule (some "y")).1 = .ok r := by
  have hgraded : knots.Graded ["letter", "z"] := by decide +kernel
  have hlexical : ∀ q ∈ ["letter", "z"], isSyntactic q = false := by decide +kernel
  have hstarts : ∀ start? ∈ [some "z", none, some "letter"],
      ∀ name ∈ (knots.startRule start?).toOption.map (·.name), name = "y" ∨ name ∈ ["letter", "z"] := by
    decide +kernel
  have hown : ∀ name ∈ (knots.startRule (some "y")).toOption.map (·.name), name = "y" := by
    decide +kernel
  have hapart : ∀ start? ∈ [some "z", none, some "letter"], ∀ rule rule',
      knots.startRule (some "y") = .ok rule → knots.startRule start? = .ok rule' →
        rule.name = rule'.name ∨ knots.Apart rule.name rule'.name := by
    intro start? hstart? rule rule' hrule hrule'
    have hname : rule.name = "y" := hown rule.name (by rw [hrule]; rfl)
    rcases hstarts start? hstart? rule'.name (by rw [hrule']; rfl) with hname' | hname'
    · exact .inl (hname.trans hname'.symm)
    · refine .inr (hgraded.apart hname' (fun hsyntactic => ?_) rule.name)
      cases (hlexical _ hname').symm.trans hsyntactic
  have hmatch : (knots.matchText "cb" (some "y")).toOption.map (·.succeeded) = some true := by
    decide +kernel
  have hshallow : ((after knots ([.setText "bc"] ++ .setText "cb" ::
      [some "z", none, some "letter"].map .matchRule)).matchRule (some "y")).1.toOption.map
        (·.succeeded) = some true := by
    decide +kernel
  obtain ⟨r, hr, hsucceeded⟩ := toOption_map_eq_some hmatch
  obtain ⟨r', hr', -⟩ := toOption_map_eq_some hshallow
  refine ⟨hapart, r, hr, hsucceeded, ?_⟩
  rw [← hr]
  exact matchRule_unaffected knots [.setText "bc"] "cb" _ (some "y") hapart
    (fun name rule herror => nomatch hr'.symm.trans herror)
    fun name rule herror => nomatch hr.symm.trans herror

/-- From `x` the text is one of `y` as a whole, and from `y` it is not any more. -/
example : ((after knots [.setText "cb", .matchRule (some "x")]).matchRule (some "y")).1.toOption.map
      (·.succeeded) = some false ∧
    (knots.matchText "cb" (some "y")).toOption.map (·.succeeded) = some true := by
  decide +kernel

end Session

end Match

end Pegboard
