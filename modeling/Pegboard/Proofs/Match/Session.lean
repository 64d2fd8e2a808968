import Pegboard.Match.Session
import Pegboard.Proofs.Document
import Pegboard.Proofs.LeftCalls.Check
import Pegboard.Proofs.Match.Splice

/-!
# Sessions and matches from scratch

A session keeps its table through edits and matches, and a match in that table finds what a match
of the same text with a blank table finds: the same tree, and the same failures in the same order.

Only how deep applications nest may differ, and only where the grammar has blind rules. An edit
drops their entries if they lie exactly where it begins, and working them out again takes as many
applications, one in the other, as there are blind rules at most. A match that nests too deep for
that reason is answered with an error, and asked once more comes to its result, for the error has
cleared the table.

Main statement: `Session.matchRule_after`.
-/

namespace Pegboard.Match

open Text

namespace Session

/-- What can be asked of a session. -/
inductive Operation
  | setText (text : String)
  | replaceRange (start stop : Nat) (new : String)
  | matchRule (start? : Option String)

/-- The session after an operation. An edit that is refused changes nothing. -/
def step (s : Session) : Operation → Session
  | .setText text => s.setText text
  | .replaceRange start stop new =>
    match s.replaceRange start stop new with
    | .ok s' => s'
    | .error _ => s
  | .matchRule start? => (s.matchRule start?).2

/-- A session that began on the empty text, after some operations. -/
def after (g : Grammar) (ops : List Operation) : Session :=
  ops.foldl step (.new g)

/-- What is true of a session between its operations. -/
structure Holds (g : Grammar) (s : Session) : Prop where
  grammar : s.grammar = g
  kept : Kept g s.input s.memo

variable {g : Grammar} {s s' : Session} {start? : Option String} {r : Result}

theorem holds_new (g : Grammar) : Holds g (.new g) :=
  ⟨rfl, kept_blank g (.ofString "")⟩

theorem Holds.setText (h : Holds g s) (text : String) : Holds g (s.setText text) :=
  ⟨h.grammar, kept_blank g (.ofString text)⟩

theorem replaceRange_eq_ok {start stop : Nat} {new : String}
    (h : s.replaceRange start stop new = .ok s') :
    ∃ text, Text.replaceRange s.text start stop new = .ok text ∧
      s' = { s with
        input := .ofString text
        memo := s.memo.splice start stop new.utf8ByteSize } := by
  unfold replaceRange at h
  obtain ⟨text, htext, h⟩ := bind_eq_ok.mp h
  exact ⟨text, htext, (Except.ok.inj h).symm⟩

theorem Holds.replaceRange (hg : g.LoopsOnly) (h : Holds g s) {start stop : Nat} {new : String}
    (hs : s.replaceRange start stop new = .ok s') : Holds g s' := by
  obtain ⟨text, htext, rfl⟩ := replaceRange_eq_ok hs
  obtain ⟨front, old, back, hold, hnew, rfl, rfl⟩ := Text.replaceRange_eq_ok htext
  refine ⟨h.grammar, ?_⟩
  rw [← byteSize_toList]
  exact h.kept.splice hg hold (by rw [Input.text_ofString]; exact hnew)

/-- What a match in a session comes to: an error that no start rule was found, or else the error
that it nested too deep and a blank table, or the reading of the text. -/
theorem Holds.matchRule_cases (hg : g.LoopsOnly) (h : Holds g s) (start? : Option String) :
    (∃ e, g.startRule start? = .error e ∧ s.matchRule start? = (.error e, s)) ∨
      ∃ rule, g.startRule start? = .ok rule ∧
        (run ⟨g, s.input, false⟩ nestingLimit rule.name s.memo = none ∧
            s.matchRule start? =
              (.error (.tooDeep g.name rule.name), { s with memo := .blank s.input.size }) ∨
          ∃ memo,
            let reading :=
              (Expr.whole rule.name).read g.meaning (isSyntactic rule.name) s.text.toList
            Kept g s.input memo ∧ s.matchRule start? =
              (.ok ⟨s.input, rule.name, reading.tree?, .ofList reading.missed⟩,
                { s with memo := memo })) := by
  rw [matchRule, h.grammar]
  cases hrule : g.startRule start? with
  | error e => exact .inl ⟨e, rfl, rfl⟩
  | ok rule =>
      refine .inr ⟨rule, rfl, ?_⟩
      dsimp only
      cases hrun : run ⟨g, s.input, false⟩ nestingLimit rule.name s.memo with
      | none => exact .inl ⟨rfl, rfl⟩
      | some out =>
          obtain ⟨a, memo⟩ := out
          obtain ⟨htree, hfailures, hkept⟩ := run_kept hg h.kept hrun
          refine .inr ⟨memo, hkept, ?_⟩
          dsimp only
          rw [htree, hfailures]
          rfl

theorem Holds.matchRule (hg : g.LoopsOnly) (h : Holds g s) (start? : Option String) :
    Holds g (s.matchRule start?).2 := by
  rcases h.matchRule_cases hg start? with
    ⟨e, -, heq⟩ | ⟨rule, -, ⟨-, heq⟩ | ⟨memo, hkept, heq⟩⟩
  · rwa [heq]
  · rw [heq]
    exact ⟨h.grammar, kept_blank g s.input⟩
  · rw [heq]
    exact ⟨h.grammar, hkept⟩

theorem Holds.step (hg : g.LoopsOnly) (h : Holds g s) (op : Operation) : Holds g (s.step op) := by
  cases op with
  | setText text => exact h.setText text
  | replaceRange start stop new =>
      rw [Session.step]
      split
      · exact h.replaceRange hg ‹_›
      · exact h
  | matchRule start? => exact h.matchRule hg start?

theorem holds_after (hg : g.LoopsOnly) (ops : List Operation) : Holds g (after g ops) := by
  have run : ∀ s, Holds g s → Holds g (ops.foldl Session.step s) := by
    induction ops with
    | nil => exact fun s h => h
    | cons op ops ih => exact fun s h => ih _ (h.step hg op)
  exact run _ (holds_new g)

/-! ## Sessions that follow a document -/

@[simp] theorem setText_text (s : Session) (text : String) : (s.setText text).text = text :=
  Input.text_ofString text

theorem replaceRange_text {start stop : Nat} {new : String}
    (h : s.replaceRange start stop new = .ok s') :
    Text.replaceRange s.text start stop new = .ok s'.text := by
  obtain ⟨text, htext, rfl⟩ := replaceRange_eq_ok h
  have hafter : (Input.ofString text).text = text := Input.text_ofString text
  exact htext.trans (congrArg Except.ok hafter.symm)

theorem matchRule_text (s : Session) (start? : Option String) :
    (s.matchRule start?).2.text = s.text := by
  unfold matchRule
  split
  · rfl
  · split <;> rfl

/-- To follow a change is to take the text anew, if the change is one of the whole text, and else to
make the same edit. -/
theorem follow_eq_ok {d : Document} {c : Change} {e : Edit} (h : s.follow d c = .ok (e, s')) :
    d.resolve c = .ok e ∧
      (e.start = 0 ∧ e.stop = d.size ∧ s' = s.setText e.text ∨
        s.replaceRange e.start e.stop e.text = .ok s') := by
  unfold follow at h
  obtain ⟨e', hresolve, h⟩ := bind_eq_ok.mp h
  split at h
  · rename_i hwhole
    obtain ⟨rfl, rfl⟩ := Prod.mk.inj (Except.ok.inj h)
    exact ⟨hresolve, .inl ⟨hwhole.1, hwhole.2, rfl⟩⟩
  · obtain ⟨s'', hreplace, h⟩ := bind_eq_ok.mp h
    obtain ⟨rfl, rfl⟩ := Prod.mk.inj (Except.ok.inj h)
    exact ⟨hresolve, .inr hreplace⟩

theorem Holds.follow (hg : g.LoopsOnly) (h : Holds g s) {d : Document} {c : Change} {e : Edit}
    (hs : s.follow d c = .ok (e, s')) : Holds g s' := by
  obtain ⟨-, ⟨-, -, rfl⟩ | hreplace⟩ := follow_eq_ok hs
  · exact h.setText e.text
  · exact h.replaceRange hg hreplace

/-- A session with the text of a document has it after the change as well. -/
theorem follow_text {d d' : Document} {c : Change} {e e' : Edit} (hs : s.text = d.text)
    (h : s.follow d c = .ok (e, s')) (hd : d.apply c = .ok (e', d')) : s'.text = d'.text := by
  obtain ⟨hresolve, hcases⟩ := follow_eq_ok h
  obtain ⟨hresolve', hreplace⟩ := Document.apply_eq_ok hd
  obtain rfl : e = e' := Except.ok.inj (hresolve.symm.trans hresolve')
  have hd' := (Document.replaceRange_eq_ok hreplace).1
  rcases hcases with ⟨hstart, hstop, rfl⟩ | hsession
  · rw [hstart, hstop, Document.size] at hd'
    rw [setText_text, replaceRange_whole hd']
  · have hs' := replaceRange_text hsession
    rw [hs, hd'] at hs'
    exact (Except.ok.inj hs').symm

/-! ## Matches from scratch -/

/-- Applications nest within a limit when the text is matched from a rule. -/
def NestsWithin (s : Session) (limit : Nat) (start : String) : Prop :=
  run ⟨s.grammar, s.input, false⟩ limit start s.memo ≠ none

/-- A match of some text nests within a limit if it does so from scratch, and the limit leaves room
for the blind rules. -/
theorem Holds.nestsWithin (hg : g.LoopsOnly) (h : Holds g s) {limit limit₂ : Nat} {start : String}
    (hlimit : limit + g.blindCount ≤ limit₂) (hscratch : (s.setText s.text).NestsWithin limit start) :
    s.NestsWithin limit₂ start := by
  obtain ⟨rfl, hkept⟩ := h
  rw [NestsWithin, Session.setText, Session.text, Input.ofString_text] at hscratch
  obtain ⟨a, memo, hrun⟩ := run_of_blank hlimit hg hkept hscratch
  rw [NestsWithin, hrun]
  exact Option.some_ne_none _

/-- A match in a session that nests within the limit comes to what a match from scratch comes to. -/
theorem Holds.matchRule_eq_ok (hg : g.LoopsOnly) (h : Holds g s)
    (hr : g.matchText s.text start? = .ok r) (hnests : s.NestsWithin nestingLimit r.start) :
    (s.matchRule start?).1 = .ok r := by
  obtain ⟨rule, hrule, rfl⟩ := hg.matchText_eq_reading hr
  rcases h.matchRule_cases hg start? with
    ⟨e, herror, -⟩ | ⟨rule', hrule', hcases⟩
  · rw [hrule] at herror
    cases herror
  · obtain rfl : rule = rule' := Except.ok.inj (hrule.symm.trans hrule')
    rcases hcases with ⟨hnone, -⟩ | ⟨memo, -, heq⟩
    · exact absurd (h.grammar ▸ hnone) hnests
    · rw [heq, Session.text, Input.ofString_text]

/-- A match in a session that does not nest within the limit is an error, and clears the table. -/
theorem Holds.matchRule_eq_tooDeep (hg : g.LoopsOnly) (h : Holds g s)
    (hr : g.matchText s.text start? = .ok r) (hnests : ¬ s.NestsWithin nestingLimit r.start) :
    s.matchRule start? = (.error (.tooDeep g.name r.start), s.setText s.text) := by
  obtain ⟨rule, a, memo, hrule, -, rfl⟩ := Grammar.matchText_eq_ok.mp hr
  obtain ⟨rfl, -⟩ := h
  rw [NestsWithin, ne_eq, not_not] at hnests
  dsimp only at hnests ⊢
  rw [Session.matchRule, hrule, Session.setText, Session.text, Input.ofString_text]
  simp only [hnests]

theorem nestsWithin_of_matchText (hs : s.grammar = g) (hr : g.matchText s.text start? = .ok r) :
    (s.setText s.text).NestsWithin nestingLimit r.start := by
  obtain ⟨rule, a, memo, -, hrun, rfl⟩ := Grammar.matchText_eq_ok.mp hr
  rw [NestsWithin, Session.setText, hs, hrun]
  exact Option.some_ne_none _

/-- Without blind rules a session answers what a match from scratch answers. -/
theorem Holds.matchRule_eq (hg : g.LoopsOnly) (hblind : g.blindCount = 0) (h : Holds g s)
    (hr : g.matchText s.text start? = .ok r) : (s.matchRule start?).1 = .ok r :=
  h.matchRule_eq_ok hg hr
    (h.nestsWithin hg (by rw [hblind, Nat.add_zero]) (nestsWithin_of_matchText h.grammar hr))

/-- After whatever was asked of a session, a match of its text that comes to a result from scratch
comes to the same in the session exactly if it nests within the limit there. It does so if the match
from scratch leaves room for the blind rules within the limit; and where it does not, it is answered
with the error for that, and asked once more comes to the result. -/
theorem matchRule_after (hg : g.LoopsOnly) (ops : List Operation)
    (hr : g.matchText (after g ops).text start? = .ok r) :
    let s := after g ops
    ((s.matchRule start?).1 = .ok r ↔ s.NestsWithin nestingLimit r.start) ∧
      (∀ limit, limit + g.blindCount ≤ nestingLimit →
        (s.setText s.text).NestsWithin limit r.start → (s.matchRule start?).1 = .ok r) ∧
      (¬ s.NestsWithin nestingLimit r.start →
        (s.matchRule start?).1 = .error (.tooDeep g.name r.start) ∧
          ((s.matchRule start?).2.matchRule start?).1 = .ok r) := by
  intro s
  have h : Holds g s := holds_after hg ops
  refine ⟨⟨fun hok => ?_, h.matchRule_eq_ok hg hr⟩, fun limit hlimit hscratch => ?_,
    fun hnests => ?_⟩
  · by_contra hnests
    rw [h.matchRule_eq_tooDeep hg hr hnests] at hok
    cases hok
  · exact h.matchRule_eq_ok hg hr (h.nestsWithin hg hlimit hscratch)
  · have heq := h.matchRule_eq_tooDeep hg hr hnests
    refine ⟨by rw [heq], ?_⟩
    rw [heq]
    exact (h.setText s.text).matchRule_eq_ok hg hr (nestsWithin_of_matchText h.grammar hr)

/-- Sums of digits. The sum calls itself from its left, and the mark behind a digit looks at nothing
at all. -/
def sums : Grammar where
  name := "Sums"
  super := none
  start := some "sum"
  rules :=
    [⟨"sum", .alt [.seq [.apply "sum", .terminal "+", .apply "digit"], .apply "digit"], none, none,
       "Sums"⟩,
     ⟨"digit", .seq [.range '0' '9', .apply "mark"], none, none, "Sums"⟩,
     ⟨"mark", .terminal "", none, none, "Sums"⟩]

/-- From `1+2` to `1+x+2` and `1+3+2`, with an edit on the way that is refused. -/
def sumEdits : List Operation :=
  [.setText "1+2", .matchRule none, .replaceRange 1 1 "+x", .matchRule none, .replaceRange 7 9 "",
   .replaceRange 2 3 "3"]

theorem matchRule_after_sums :
    ∃ r, sums.matchText (after sums sumEdits).text none = .ok r ∧ r.succeeded = true ∧
      ((after sums sumEdits).matchRule none).1 = .ok r := by
  have hranked : sums.RankedBy ["mark"] ["mark", "digit", "sum"].idxOf := by decide +kernel
  have hmatch : (sums.matchText (after sums sumEdits).text none).toOption.map
      (fun r => (r.succeeded, r.start)) = some (true, "sum") := by decide +kernel
  have hnests : run ⟨(after sums sumEdits).grammar, (after sums sumEdits).input, false⟩ nestingLimit
      "sum" (after sums sumEdits).memo ≠ none := by decide +kernel
  obtain ⟨r, hr, heq⟩ := toOption_map_eq_some hmatch
  obtain ⟨hsucceeded, hstart⟩ := Prod.mk.inj heq
  rw [← hstart] at hnests
  exact ⟨r, hr, hsucceeded, (matchRule_after hranked.loopsOnly sumEdits hr).1.mpr hnests⟩

end Session

end Pegboard.Match
