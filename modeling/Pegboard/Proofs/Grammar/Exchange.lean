import Pegboard.Proofs.Grammar.Courses
import Pegboard.Proofs.Grammar.Levels

/-!
# A place in a text that is written anew

In an `Exchange` a piece of a text gives way to another piece, perhaps with blanks around it. What
stands before the piece and what stands behind it are the same as before, so that most places in the
one text have a counterpart in the other. Where spaces are skipped in both, they are skipped from
counterparts to counterparts (`Alike.skip`), unless they reach over the piece: `Clear` says that they
do not.
-/

namespace Pegboard

open Text Grammar

/-- The text `here`, between `before` and `after`, is replaced by `there`, with `gap` on both
sides. -/
structure Exchange where
  before : List Char
  here : List Char
  after : List Char
  gap : List Char
  there : List Char
  here_begins : Begins ['(', '"', '~', '&', '#', '|'] here
  there_opens : Opens there
  gap_blank : Blank gap
  /-- What closes a comment now did so before. -/
  closed : seek ['*', '/'] (here ++ after) = [] →
    seek ['*', '/'] (gap ++ (there ++ (gap ++ after))) = []
  /-- No name that ends before the piece goes on in what is there now. -/
  apart : ∀ c ∈ before.getLast?, isNameRest c = true →
    ∀ d ∈ (gap ++ (there ++ (gap ++ after))).head?, isNameRest d = false

namespace Exchange

variable (x : Exchange)

/-- What stood behind `before`. -/
def back : List Char :=
  x.here ++ x.after

/-- What stands behind `before` now. -/
def back' : List Char :=
  x.gap ++ (x.there ++ (x.gap ++ x.after))

/-- A place in the one text and its counterpart in the other. -/
inductive Alike : List Char → List Char → Prop
  | before {f : List Char} (hf : f <:+ x.before) : Alike (f ++ x.back) (f ++ x.back')
  | hole : Alike x.back (x.there ++ (x.gap ++ x.after))
  | edge : Alike x.after (x.gap ++ x.after)
  | behind {cs : List Char} (h : cs <:+ x.after) : Alike cs cs

/-- A place where a token may begin in the one text, and its counterpart. -/
inductive Twin : List Char → List Char → Prop
  | before {f : List Char} (hf : f <:+ x.before) (hne : f ≠ []) :
      Twin (f ++ x.back) (f ++ x.back')
  | hole : Twin x.back (x.there ++ (x.gap ++ x.after))
  | behind {cs : List Char} (h : cs <:+ x.after) : Twin cs cs

/-- The spaces at the place do not reach over the piece, nor end in it. -/
def Clear (cs : List Char) : Prop :=
  x.back.length ≤ (skip cs).length ∨ cs.length ≤ x.after.length

variable {x} {cs cs' ds : List Char}

theorem Twin.alike (h : x.Twin cs cs') : x.Alike cs cs' := by
  cases h with
  | before hf _ => exact .before hf
  | hole => exact .hole
  | behind h => exact .behind h

/-! ## Lengths -/

theorem here_ne (x : Exchange) : x.here ≠ [] := by
  obtain ⟨c, rest, h, -⟩ := x.here_begins
  rw [h]
  exact List.cons_ne_nil c rest

theorem after_lt_back (x : Exchange) : x.after.length < x.back.length := by
  have := List.length_pos_iff.mpr x.here_ne
  rw [back, List.length_append]
  omega

theorem back_ne (x : Exchange) : x.back ≠ [] := by
  intro h
  have := x.after_lt_back
  rw [h, List.length_nil] at this
  omega

/-! ## Skipping spaces -/

theorem begins_back (x : Exchange) : Begins ['(', '"', '~', '&', '#', '|'] x.back :=
  x.here_begins.append x.after

theorem skip_back (x : Exchange) : skip x.back = x.back :=
  skip_of_solid (x.begins_back.solid (by simp))

theorem skip_there (x : Exchange) (rest : List Char) : skip (x.there ++ rest) = x.there ++ rest :=
  skip_of_solid x.there_opens.solid

theorem head_back (x : Exchange) : ∀ c ∈ x.back.head?, c ≠ '/' ∧ c ≠ '*' := by
  obtain ⟨c, rest, hcs, hc⟩ := x.begins_back
  rw [hcs]
  rintro _ ⟨⟩
  exact ⟨ne_of_first hc (by decide) (by decide), ne_of_first hc (by decide) (by decide)⟩

theorem head_back' (x : Exchange) : ∀ c ∈ x.back'.head?, c ≠ '/' ∧ c ≠ '*' := by
  intro c hc
  rw [back'] at hc
  cases hgap : x.gap with
  | nil =>
      obtain ⟨d, rest, hcs, hd⟩ := x.there_opens.append (x.gap ++ x.after)
      rw [hgap, List.nil_append, ← hgap, hcs] at hc
      obtain rfl : d = c := by simpa using hc
      exact ⟨ne_of_first hd (by decide) (by decide), ne_of_first hd (by decide) (by decide)⟩
  | cons b gap =>
      rw [hgap] at hc
      obtain rfl : b = c := by simpa using hc
      have hle : b ≤ ' ' := x.gap_blank b (hgap ▸ List.mem_cons_self)
      constructor
      all_goals
        rintro rfl
        exact absurd hle (by decide)

/-- From a place and its counterpart, spaces are skipped to a place and its counterpart. -/
theorem Alike.skip (h : x.Alike cs cs') (hclear : x.Clear cs) :
    x.Twin (Text.skip cs) (Text.skip cs') := by
  cases h with
  | @before f hf =>
      have hlength : x.back.length ≤ (Text.skip (f ++ x.back)).length := by
        refine hclear.resolve_right fun hle => ?_
        have := x.after_lt_back
        rw [List.length_append] at hle
        omega
      obtain ⟨rest, hskip, hskip'⟩ :=
        skip_append x.skip_back x.back_ne x.head_back x.head_back' x.closed f hlength
      rw [hskip, hskip']
      by_cases hrest : rest = []
      · subst hrest
        rw [if_pos rfl, back', skip_blank x.gap_blank, x.skip_there]
        exact .hole
      · rw [if_neg hrest]
        refine .before (List.IsSuffix.trans ?_ hf) hrest
        obtain ⟨passed, hpassed⟩ := skip_suffix (f ++ x.back)
        rw [hskip, ← List.append_assoc] at hpassed
        exact ⟨passed, List.append_cancel_right hpassed⟩
  | hole =>
      rw [x.skip_back, x.skip_there]
      exact .hole
  | edge =>
      rw [skip_blank x.gap_blank]
      exact .behind (skip_suffix _)
  | behind h => exact .behind ((skip_suffix _).trans h)

/-! ## Steps -/

/-- What is taken before the piece, or behind it, stands in both texts. -/
theorem Twin.take {s : List Char} (h : x.Twin (s ++ ds) cs') (hs : s ≠ [])
    (hds : x.back.length ≤ ds.length ∨ (s ++ ds).length ≤ x.after.length) :
    ∃ ds', cs' = s ++ ds' ∧
      ((∃ f, s ++ f <:+ x.before ∧ ds = f ++ x.back ∧ ds' = f ++ x.back') ∨
        ds <:+ x.after ∧ ds' = ds) := by
  generalize hcs : s ++ ds = cs at h hds
  have hpos := List.length_pos_iff.mpr hs
  have hlt := x.after_lt_back
  have hlength := congrArg List.length hcs
  rw [List.length_append] at hlength
  cases h with
  | @before f hf _ =>
      have hle : x.back.length ≤ ds.length := by
        refine hds.resolve_right fun hle => ?_
        rw [List.length_append] at hle
        omega
      obtain ⟨f', rfl⟩ : s <+: f := by
        refine List.prefix_of_prefix_length_le ⟨ds, hcs⟩ (List.prefix_append f x.back) ?_
        rw [List.length_append] at hlength
        omega
      rw [List.append_assoc] at hcs
      exact ⟨f' ++ x.back', List.append_assoc _ _ _, .inl ⟨f', hf,
        List.append_cancel_left hcs, rfl⟩⟩
  | hole => omega
  | behind h => exact ⟨ds, hcs.symm, .inr ⟨(hcs ▸ List.suffix_append s ds).trans h, rfl⟩⟩

theorem Twin.of_nil (h : x.Twin cs cs') (hcs : cs = []) : cs' = [] := by
  cases h with
  | before => exact absurd (List.append_eq_nil_iff.mp hcs).2 x.back_ne
  | hole => exact absurd hcs x.back_ne
  | behind => exact hcs

/-- The counterpart of the piece. -/
theorem Twin.of_back (h : x.Twin x.back cs') : cs' = x.there ++ (x.gap ++ x.after) := by
  generalize hcs : x.back = cs at h
  cases h with
  | before hf hne => exact absurd (List.self_eq_append_left.mp hcs) hne
  | hole => rfl
  | behind hsuffix =>
      have := hsuffix.length_le
      have := x.after_lt_back
      have := congrArg List.length hcs
      omega

theorem Twin.take_alike {s : List Char} (h : x.Twin (s ++ ds) cs') (hs : s ≠ [])
    (hds : x.back.length ≤ ds.length ∨ (s ++ ds).length ≤ x.after.length) :
    ∃ ds', cs' = s ++ ds' ∧ x.Alike ds ds' := by
  obtain ⟨ds', hcs', ⟨f, hf, rfl, rfl⟩ | ⟨hsuffix, rfl⟩⟩ := h.take hs hds
  · exact ⟨_, hcs', .before ((List.suffix_append s f).trans hf)⟩
  · exact ⟨_, hcs', .behind hsuffix⟩

end Exchange

end Pegboard
