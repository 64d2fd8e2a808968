import Pegboard.Proofs.Document
import Pegboard.Proofs.Tree
import Mathlib.Data.List.TakeWhile

/-!
# Positions and offsets

An offset of a text has a position, a line and a character in it, and a position has an offset, with
what lies past the end of a line counting as its end. The two go together as a Galois connection
(`endOf_le_iff`): a boundary lies at or before the offset of a position exactly if its own position
comes no later. That the offsets of positions keep their order, and that a position comes back from
its offset exactly if the text has it, are read off from there.

The connection is proved along the text. A character in front of a text moves its positions on:
those of the first line by one character, or all of them by one line if it is a line feed
(`Position.behind`). Only positions before that character are none of these (`Position.Before`).

Main statement: `positionOf_offsetOf`.
-/

namespace Pegboard

namespace Position

/-- Positions come line by line, and in a line character by character. -/
protected def le (p q : Position) : Prop :=
  p.line < q.line ∨ p.line = q.line ∧ p.ch ≤ q.ch

instance : LE Position := ⟨Position.le⟩

variable {p q r : Position} {c : Char}

theorem le_iff : p ≤ q ↔ p.line < q.line ∨ p.line = q.line ∧ p.ch ≤ q.ch :=
  Iff.rfl

instance (p q : Position) : Decidable (p ≤ q) :=
  decidable_of_iff _ le_iff.symm

protected theorem le_of_eq (h : p = q) : p ≤ q := by
  subst h
  exact .inr ⟨rfl, Nat.le_refl _⟩

protected theorem le_trans (h : p ≤ q) (h' : q ≤ r) : p ≤ r := by
  rw [le_iff] at *
  omega

protected theorem le_antisymm (h : p ≤ q) (h' : q ≤ p) : p = q := by
  rw [le_iff] at *
  obtain ⟨line, ch⟩ := p
  obtain ⟨line', ch'⟩ := q
  simp only [Position.mk.injEq] at *
  omega

/-- Where a position of a text is when a character is put in front of the text. -/
def behind (c : Char) (p : Position) : Position :=
  if c = '\n' then ⟨p.line + 1, p.ch⟩
  else if p.line = 0 then ⟨0, p.ch + 1⟩
  else p

/-- The position means a place before the first character, if that is `c`. -/
def Before (c : Char) (p : Position) : Prop :=
  p.line = 0 ∧ (p.ch = 0 ∨ c = '\n')

theorem before_or_behind (c : Char) (p : Position) : p.Before c ∨ ∃ q : Position, p = q.behind c := by
  obtain ⟨line, ch⟩ := p
  by_cases hc : c = '\n'
  · cases line with
    | zero => exact .inl ⟨rfl, .inr hc⟩
    | succ line => exact .inr ⟨⟨line, ch⟩, (if_pos hc).symm⟩
  · cases line with
    | zero =>
        cases ch with
        | zero => exact .inl ⟨rfl, .inl rfl⟩
        | succ ch => exact .inr ⟨⟨0, ch⟩, by simp [behind, hc]⟩
    | succ line => exact .inr ⟨⟨line + 1, ch⟩, by simp [behind, hc]⟩

theorem behind_le_behind_iff : p.behind c ≤ q.behind c ↔ p ≤ q := by
  rw [le_iff, le_iff, behind, behind]
  split
  · simp
  · split <;> split <;> simp_all
    omega

theorem behind_inj (h : p.behind c = q.behind c) : p = q :=
  Position.le_antisymm (behind_le_behind_iff.mp (Position.le_of_eq h))
    (behind_le_behind_iff.mp (Position.le_of_eq h.symm))

theorem before_start (c : Char) : Before c ⟨0, 0⟩ :=
  ⟨rfl, .inl rfl⟩

theorem Before.not_behind_le (h : p.Before c) : ¬ q.behind c ≤ p := by
  obtain ⟨hline, hch⟩ := h
  rw [le_iff, behind]
  split
  · simp [hline]
  · have hch : p.ch = 0 := hch.resolve_right ‹_›
    split <;> simp_all

theorem Before.ne_behind (h : p.Before c) (q : Position) : p ≠ q.behind c :=
  fun heq => h.not_behind_le (Position.le_of_eq heq.symm)

end Position

namespace Text

open Document

variable {c : Char} {cs front back : List Char} {p q : Position}

/-! ## Lines -/

theorem lines_feed (cs : List Char) : lines ('\n' :: cs) = [] :: lines cs :=
  rfl

theorem lines_ne_nil (cs : List Char) : lines cs ≠ [] := by
  cases cs with
  | nil => exact List.cons_ne_nil _ _
  | cons c cs =>
      rw [lines, List.foldr_cons]
      split
      · exact List.cons_ne_nil _ _
      · unfold consLine
        split <;> exact List.cons_ne_nil _ _

/-- Any other character goes to the front of the first line. -/
theorem lines_cons (hc : c ≠ '\n') (cs : List Char) :
    ∃ l ls, lines cs = l :: ls ∧ lines (c :: cs) = (c :: l) :: ls := by
  obtain ⟨l, ls, hlines⟩ := List.exists_cons_of_ne_nil (lines_ne_nil cs)
  refine ⟨l, ls, hlines, ?_⟩
  rw [lines, List.foldr_cons, if_neg hc]
  exact congrArg (consLine c) hlines

theorem lastLine_of_not_mem (h : '\n' ∉ cs) : lastLine cs = cs := by
  have hall : ∀ d ∈ cs.reverse, decide (d ≠ '\n') = true := fun d hd =>
    decide_eq_true fun heq => h (heq ▸ List.mem_reverse.mp hd)
  have htake : cs.reverse.takeWhile (· ≠ '\n') = cs.reverse := List.takeWhile_eq_self_iff.mpr hall
  rw [lastLine, htake, List.reverse_reverse]

/-- The last line begins behind the last line feed, whatever there is before it. -/
theorem lastLine_cons_of_mem (c : Char) (h : '\n' ∈ cs) : lastLine (c :: cs) = lastLine cs := by
  have hshort : (cs.reverse.takeWhile (· ≠ '\n')).length ≠ cs.reverse.length := by
    intro hlength
    have hall := List.all_takeWhile (p := fun d : Char => decide (d ≠ '\n')) (l := cs.reverse)
    rw [(List.takeWhile_prefix _).eq_of_length hlength, List.all_eq_true] at hall
    exact of_decide_eq_true (hall '\n' (List.mem_reverse.mpr h)) rfl
  rw [lastLine, List.reverse_cons, List.takeWhile_append, if_neg hshort, lastLine]

theorem lastLine_feed (cs : List Char) : lastLine ('\n' :: cs) = lastLine cs := by
  by_cases h : '\n' ∈ cs
  · exact lastLine_cons_of_mem _ h
  · have hall : ∀ d ∈ cs.reverse, decide (d ≠ '\n') = true := fun d hd =>
      decide_eq_true fun heq => h (heq ▸ List.mem_reverse.mp hd)
    rw [lastLine_of_not_mem h, lastLine, List.reverse_cons, List.takeWhile_append_of_pos hall]
    simp

/-! ## The end of a front -/

/-- The position that a front of a text ends at. -/
def endOf (front : List Char) : Position :=
  ⟨front.count '\n', (lastLine front).length⟩

theorem endOf_nil : endOf [] = ⟨0, 0⟩ :=
  rfl

theorem endOf_cons (c : Char) (front : List Char) :
    endOf (c :: front) = (endOf front).behind c := by
  unfold Position.behind endOf
  by_cases hc : c = '\n'
  · subst hc
    rw [if_pos rfl, List.count_cons_self, lastLine_feed]
  rw [if_neg hc, List.count_cons_of_ne hc]
  by_cases hfeed : '\n' ∈ front
  · have hpos : 0 < front.count '\n' := List.count_pos_iff.mpr hfeed
    rw [if_neg (Nat.ne_of_gt hpos), lastLine_cons_of_mem c hfeed]
  · have hzero : front.count '\n' = 0 := List.count_eq_zero_of_not_mem hfeed
    have hfeed' : '\n' ∉ c :: front := by simp [hfeed, Ne.symm hc]
    rw [if_pos hzero, hzero, lastLine_of_not_mem hfeed, lastLine_of_not_mem hfeed',
      List.length_cons]

/-- The text has the position: it has the line, and the line is at least as long. -/
def Names (cs : List Char) (p : Position) : Prop :=
  ∃ l, (lines cs)[p.line]? = some l ∧ p.ch ≤ l.length

theorem names_behind_iff : Names (c :: cs) (q.behind c) ↔ Names cs q := by
  obtain ⟨line, ch⟩ := q
  by_cases hc : c = '\n'
  · subst hc
    rw [Names, lines_feed]
    rfl
  · obtain ⟨l, ls, hcs, hccs⟩ := lines_cons hc cs
    rw [Names, Names, hcs, hccs, Position.behind, if_neg hc]
    cases line with
    | zero => simp
    | succ line => simp

theorem names_before_iff (h : p.Before c) : Names (c :: cs) p ↔ p = ⟨0, 0⟩ := by
  obtain ⟨line, ch⟩ := p
  obtain ⟨rfl, hch⟩ : line = 0 ∧ (ch = 0 ∨ c = '\n') := h
  by_cases hc : c = '\n'
  · subst hc
    simp [Names, lines_feed]
  · obtain rfl := hch.resolve_right hc
    obtain ⟨l, ls, -, hccs⟩ := lines_cons hc cs
    simp [Names, hccs]

/-- The positions of a text are those at the ends of its fronts. -/
theorem names_iff : Names cs p ↔ ∃ front back, cs = front ++ back ∧ endOf front = p := by
  induction cs generalizing p with
  | nil =>
      obtain ⟨line, ch⟩ := p
      constructor
      · rintro ⟨l, hl, hch⟩
        cases line with
        | zero =>
            obtain rfl : [] = l := Option.some.inj hl
            obtain rfl : ch = 0 := Nat.le_zero.mp hch
            exact ⟨[], [], rfl, rfl⟩
        | succ line => cases hl
      · rintro ⟨front, back, hnil, hend⟩
        obtain ⟨rfl, rfl⟩ := List.append_eq_nil_iff.mp hnil.symm
        exact hend ▸ ⟨[], rfl, Nat.le_refl _⟩
  | cons c cs ih =>
      rcases Position.before_or_behind c p with hp | ⟨q, rfl⟩
      · rw [names_before_iff hp]
        constructor
        · rintro rfl
          exact ⟨[], c :: cs, rfl, rfl⟩
        · rintro ⟨_ | ⟨d, front⟩, back, hcs, rfl⟩
          · rfl
          · obtain ⟨rfl, -⟩ := List.cons.inj hcs
            exact absurd (endOf_cons c front) (hp.ne_behind _)
      · rw [names_behind_iff, ih]
        constructor
        · rintro ⟨front, back, rfl, rfl⟩
          exact ⟨c :: front, back, rfl, endOf_cons c front⟩
        · rintro ⟨_ | ⟨d, front⟩, back, hcs, hend⟩
          · exact absurd hend ((Position.before_start c).ne_behind q)
          · obtain ⟨rfl, rfl⟩ := List.cons.inj hcs
            rw [endOf_cons] at hend
            exact ⟨front, back, rfl, Position.behind_inj hend⟩

/-! ## The offset of a position -/

/-- The byte offset of a position in a text. -/
def offsetAt (cs : List Char) (p : Position) : Nat :=
  offsetIn (lines cs) p.line p.ch

theorem offsetAt_nil (p : Position) : offsetAt [] p = 0 := by
  obtain ⟨_ | line, ch⟩ := p
  · show byteSize (List.take ch []) = 0
    rw [List.take_nil, byteSize_nil]
  · rfl

theorem offsetAt_before (h : p.Before c) (cs : List Char) : offsetAt (c :: cs) p = 0 := by
  obtain ⟨line, ch⟩ := p
  obtain ⟨rfl, hch⟩ : line = 0 ∧ (ch = 0 ∨ c = '\n') := h
  by_cases hc : c = '\n'
  · subst hc
    show byteSize (List.take ch []) = 0
    rw [List.take_nil, byteSize_nil]
  · obtain rfl := hch.resolve_right hc
    obtain ⟨l, ls, -, hccs⟩ := lines_cons hc cs
    rw [offsetAt, hccs]
    rfl

theorem offsetAt_behind (c : Char) (cs : List Char) (q : Position) :
    offsetAt (c :: cs) (q.behind c) = c.utf8Size + offsetAt cs q := by
  obtain ⟨line, ch⟩ := q
  by_cases hc : c = '\n'
  · subst hc
    obtain ⟨l, ls, hcs⟩ := List.exists_cons_of_ne_nil (lines_ne_nil cs)
    rw [offsetAt, offsetAt, lines_feed, hcs]
    rfl
  · obtain ⟨l, ls, hcs, hccs⟩ := lines_cons hc cs
    rw [offsetAt, offsetAt, hcs, hccs, Position.behind, if_neg hc]
    cases line with
    | zero => exact byteSize_cons c (l.take ch)
    | succ line =>
        cases ls with
        | nil => exact byteSize_cons c l
        | cons l' ls =>
            show byteSize (c :: l) + 1 + offsetIn (l' :: ls) line ch =
              c.utf8Size + (byteSize l + 1 + offsetIn (l' :: ls) line ch)
            rw [byteSize_cons]
            omega

/-- The offset of a position is a boundary. -/
theorem cuts_offsetAt (cs : List Char) (p : Position) : Cuts cs (offsetAt cs p) := by
  induction cs generalizing p with
  | nil =>
      rw [offsetAt_nil]
      exact .zero _
  | cons c cs ih =>
      rcases Position.before_or_behind c p with hp | ⟨q, rfl⟩
      · rw [offsetAt_before hp]
        exact .zero _
      · obtain ⟨front, back, rfl, hsize⟩ := ih q
        rw [offsetAt_behind, ← hsize]
        exact ⟨c :: front, back, rfl, byteSize_cons c front⟩

/-- A front is as long as the offset of its end. -/
theorem offsetAt_endOf (front back : List Char) :
    offsetAt (front ++ back) (endOf front) = byteSize front := by
  induction front with
  | nil =>
      cases back with
      | nil => exact offsetAt_nil _
      | cons c back => exact offsetAt_before (Position.before_start c) back
  | cons c front ih => rw [List.cons_append, endOf_cons, offsetAt_behind, ih, byteSize_cons]

/-- A front ends at or before a position exactly if it has no more bytes than come before the
position. -/
theorem endOf_le_iff (front back : List Char) (p : Position) :
    endOf front ≤ p ↔ byteSize front ≤ offsetAt (front ++ back) p := by
  induction front generalizing p with
  | nil =>
      have hstart : endOf [] ≤ p := by
        rw [endOf_nil, Position.le_iff]
        dsimp only
        omega
      exact iff_of_true hstart (Nat.zero_le _)
  | cons c front ih =>
      rw [endOf_cons, List.cons_append, byteSize_cons]
      rcases Position.before_or_behind c p with hp | ⟨q, rfl⟩
      · have hpos := c.utf8Size_pos
        rw [offsetAt_before hp]
        exact iff_of_false hp.not_behind_le (by omega)
      · rw [Position.behind_le_behind_iff, ih, offsetAt_behind]
        omega

end Text

namespace Document

open Text

variable {d : Document} {p q : Position} {o : Nat}

theorem positionOf_of_cut {front back : List Char} (h : d.text.toList = front ++ back) :
    d.positionOf (byteSize front) = endOf front := by
  rw [positionOf, h, takeBytes_append]
  rfl

theorem place_of_cut {front back : List Char} (h : d.text.toList = front ++ back) :
    place d.text (byteSize front) = ⟨(endOf front).line + 1, (endOf front).ch + 1⟩ := by
  have hbefore : before d.text.toList (byteSize front) = front := by
    have hsplit : splitAt? d.text.toList (byteSize front) = some (front, back) :=
      splitAt?_eq_some_iff.mpr ⟨h, rfl⟩
    have hmin : min (byteSize front) (byteSize d.text.toList) = byteSize front := by
      rw [h, byteSize_append]
      omega
    rw [before, hmin, hsplit]
  rw [place, placeOf, hbefore]
  rfl

theorem positionOf_le_iff (h : isBoundary d.text o = true) :
    d.positionOf o ≤ p ↔ o ≤ d.offsetOf p := by
  obtain ⟨front, back, htext, rfl⟩ := isBoundary_iff.mp h
  rw [positionOf_of_cut htext, endOf_le_iff front back p, ← htext]
  rfl

theorem isBoundary_offsetOf (d : Document) (p : Position) :
    isBoundary d.text (d.offsetOf p) = true :=
  isBoundary_iff.mpr (cuts_offsetAt d.text.toList p)

theorem offsetOf_le_size (d : Document) (p : Position) : d.offsetOf p ≤ d.size := by
  rw [size, ← byteSize_toList]
  exact (cuts_offsetAt d.text.toList p).le

theorem positionOf_offsetOf_le (d : Document) (p : Position) : d.positionOf (d.offsetOf p) ≤ p :=
  (positionOf_le_iff (isBoundary_offsetOf d p)).mpr (Nat.le_refl _)

theorem offsetOf_mono (h : p ≤ q) : d.offsetOf p ≤ d.offsetOf q :=
  (positionOf_le_iff (isBoundary_offsetOf d p)).mp
    (Position.le_trans (positionOf_offsetOf_le d p) h)

theorem offsetOf_positionOf (h : isBoundary d.text o = true) : d.offsetOf (d.positionOf o) = o := by
  obtain ⟨front, back, htext, rfl⟩ := isBoundary_iff.mp h
  have hoffset := offsetAt_endOf front back
  rw [← htext] at hoffset
  rw [positionOf_of_cut htext]
  exact hoffset

/-- The text of the document has the position. -/
def Has (d : Document) (p : Position) : Prop :=
  Names d.text.toList p

theorem has_iff : d.Has p ↔ d.positionOf (d.offsetOf p) = p := by
  rw [Has, names_iff]
  constructor
  · rintro ⟨front, back, htext, rfl⟩
    have hboundary : isBoundary d.text (byteSize front) = true :=
      isBoundary_iff.mpr ⟨front, back, htext, rfl⟩
    rw [← positionOf_of_cut htext, offsetOf_positionOf hboundary]
  · intro h
    obtain ⟨front, back, htext, hsize⟩ := isBoundary_iff.mp (isBoundary_offsetOf d p)
    exact ⟨front, back, htext, by rw [← positionOf_of_cut htext, hsize, h]⟩

/-- A change is refused only if its positions are the wrong way round in the text. -/
theorem resolve_eq (d : Document) (c : Change) : d.resolve c =
    if d.offsetOf c.stop < d.offsetOf c.start then
      .error (.invertedRange (d.offsetOf c.start) (d.offsetOf c.stop))
    else .ok ⟨d.offsetOf c.start, d.offsetOf c.stop, c.text⟩ := by
  have hsize : ¬ d.text.utf8ByteSize < d.offsetOf c.stop :=
    Nat.not_lt.mpr (offsetOf_le_size d c.stop)
  unfold resolve
  simp only [checkRange, isBoundary_offsetOf, if_neg hsize]
  split <;> rfl

/-- Offsets and positions answer each other. A boundary comes back from its position, which is one
less than its place. The offset of any position is a boundary, in the order of the positions; its own
position comes no later than the one it was made from, and is the same one exactly if the text has it.
So a change whose positions are in order comes to an edit, and of the others only those do not whose
offsets are out of order. -/
theorem positionOf_offsetOf (d : Document) :
    (∀ o, isBoundary d.text o = true →
      d.offsetOf (d.positionOf o) = o ∧
        place d.text o = ⟨(d.positionOf o).line + 1, (d.positionOf o).ch + 1⟩) ∧
    (∀ p, isBoundary d.text (d.offsetOf p) = true ∧ d.offsetOf p ≤ d.size ∧
      d.positionOf (d.offsetOf p) ≤ p ∧ (d.positionOf (d.offsetOf p) = p ↔ d.Has p)) ∧
    (∀ p q, p ≤ q → d.offsetOf p ≤ d.offsetOf q) ∧
    (∀ c : Change, c.start ≤ c.stop →
      d.resolve c = .ok ⟨d.offsetOf c.start, d.offsetOf c.stop, c.text⟩) ∧
    (∀ c error, d.resolve c = .error error ↔ d.offsetOf c.stop < d.offsetOf c.start ∧
      error = .invertedRange (d.offsetOf c.start) (d.offsetOf c.stop)) := by
  refine ⟨fun o ho => ⟨offsetOf_positionOf ho, ?_⟩, fun p => ?_, fun p q => offsetOf_mono,
    fun c hc => ?_, fun c error => ?_⟩
  · obtain ⟨front, back, htext, rfl⟩ := isBoundary_iff.mp ho
    rw [place_of_cut htext, positionOf_of_cut htext]
  · exact ⟨isBoundary_offsetOf d p, offsetOf_le_size d p, positionOf_offsetOf_le d p, has_iff.symm⟩
  · rw [resolve_eq, if_neg (Nat.not_lt.mpr (offsetOf_mono hc))]
  · rw [resolve_eq]
    by_cases hlt : d.offsetOf c.stop < d.offsetOf c.start
    · simp [hlt, eq_comm]
    · simp [hlt]

/-- A character of two bytes, a position past its line, and one past the text. -/
theorem positionOf_offsetOf_accent : let d := Document.ofText "ab
céd
"
    isBoundary d.text 6 = true ∧ d.positionOf 6 = ⟨1, 2⟩ ∧ d.offsetOf (d.positionOf 6) = 6 ∧
      (⟨0, 99⟩ : Position) ≤ ⟨9, 0⟩ ∧ d.offsetOf ⟨0, 99⟩ ≤ d.offsetOf ⟨9, 0⟩ ∧
      d.resolve ⟨⟨0, 99⟩, ⟨9, 0⟩, []⟩ = .ok ⟨2, 8, ""⟩ := by
  intro d
  obtain ⟨hback, -, hmono, hresolve, -⟩ := positionOf_offsetOf d
  have hboundary : isBoundary d.text 6 = true := by decide +kernel
  have hle : (⟨0, 99⟩ : Position) ≤ ⟨9, 0⟩ := by decide
  have hoffsets : d.offsetOf ⟨0, 99⟩ = 2 ∧ d.offsetOf ⟨9, 0⟩ = 8 := by decide +kernel
  refine ⟨hboundary, by decide +kernel, (hback 6 hboundary).1, hle, hmono _ _ hle, ?_⟩
  rw [hresolve ⟨⟨0, 99⟩, ⟨9, 0⟩, []⟩ hle, hoffsets.1, hoffsets.2]
  rfl

end Document

end Pegboard
