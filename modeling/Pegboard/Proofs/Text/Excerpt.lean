import Pegboard.Proofs.Document.Positions
import Mathlib.Data.List.DropRight

/-!
# Where a caret stands

An excerpt is made of rows, each with the text of a line behind a marker and the number of the line.
The numbers are set right in a field as wide as the widest of them, which is the last one
(`length_toString_mono`), so that all texts begin in one column. The row with the caret has as many
blanks as there are characters before the place: those of that column, and those of its line.

Main statement: `excerpt_caret`.
-/

namespace Pegboard.Text

variable {s : String} {cs front back text row : List Char} {marker : Char}
  {m n number width margin offset column : Nat}

/-! ## Lines -/

theorem lines_eq_splitOn (cs : List Char) : lines cs = cs.splitOn '\n' := by
  induction cs with
  | nil => rfl
  | cons c cs ih =>
      rw [List.splitOn_cons_eq_if_modifyHead, ← ih]
      by_cases hc : c = '\n'
      · subst hc
        rfl
      · obtain ⟨l, ls, hcs, hccs⟩ := lines_cons hc cs
        rw [if_neg (by simpa using hc), hcs, hccs, List.modifyHead_cons]

theorem feed_not_mem_lines : ∀ l ∈ lines cs, '\n' ∉ l := by
  induction cs with
  | nil => simp [lines]
  | cons c cs ih =>
      by_cases hc : c = '\n'
      · subst hc
        rw [lines_feed]
        exact List.forall_mem_cons.mpr ⟨List.not_mem_nil, ih⟩
      · obtain ⟨l, ls, hcs, hccs⟩ := lines_cons hc cs
        rw [hcs, List.forall_mem_cons] at ih
        rw [hccs, List.forall_mem_cons]
        exact ⟨by simp [Ne.symm hc, ih.1], ih.2⟩

theorem lines_head (cs : List Char) : (lines cs)[0]? = some (cs.takeWhile (· ≠ '\n')) := by
  induction cs with
  | nil => rfl
  | cons c cs ih =>
      by_cases hc : c = '\n'
      · subst hc
        rfl
      · obtain ⟨l, ls, hcs, hccs⟩ := lines_cons hc cs
        rw [hcs] at ih
        rw [hccs, List.takeWhile_cons_of_pos (by simpa using hc)]
        exact congrArg _ (congrArg _ (Option.some.inj ih))

/-- The line that is cut in two where its text is. -/
theorem lines_of_cut (front back : List Char) :
    (lines (front ++ back))[front.count '\n']? =
      some (lastLine front ++ back.takeWhile (· ≠ '\n')) := by
  induction front with
  | nil => exact lines_head back
  | cons c front ih =>
      by_cases hc : c = '\n'
      · subst hc
        rw [List.cons_append, lines_feed, List.count_cons_self, lastLine_feed]
        exact ih
      · obtain ⟨l, ls, hcs, hccs⟩ := lines_cons hc (front ++ back)
        rw [hcs] at ih
        rw [List.cons_append, hccs, List.count_cons_of_ne hc]
        by_cases hfeed : '\n' ∈ front
        · obtain ⟨k, hk⟩ := Nat.exists_eq_succ_of_ne_zero (List.count_pos_iff.mpr hfeed).ne'
          rw [hk] at ih ⊢
          rw [lastLine_cons_of_mem c hfeed]
          exact ih
        · have hfeed' : '\n' ∉ c :: front := by simp [hfeed, Ne.symm hc]
          rw [List.count_eq_zero_of_not_mem hfeed] at ih ⊢
          rw [lastLine_of_not_mem hfeed] at ih
          rw [lastLine_of_not_mem hfeed']
          exact congrArg _ (congrArg _ (Option.some.inj ih))

/-- Rows that end at line feeds of their own are the lines of what they make, with an empty one. -/
theorem splitOn_rows {rows : List (List Char)} (h : ∀ row ∈ rows, '\n' ∉ row) :
    (rows.flatMap (· ++ ['\n'])).splitOn '\n' = rows ++ [[]] := by
  induction rows with
  | nil => rfl
  | cons row rows ih =>
      obtain ⟨hrow, hrows⟩ := List.forall_mem_cons.mp h
      rw [List.flatMap_cons, List.append_assoc, List.singleton_append,
        List.splitOn_append_cons_self_of_not_mem hrow, ih hrows, List.cons_append]

/-! ## Numbers -/

theorem length_toString_mono (h : m ≤ n) : (toString m).length ≤ (toString n).length := by
  have hlength (k : Nat) : (toString k).length = (Nat.toDigits 10 k).length := by
    rw [Nat.toString_eq_ofList_toDigits, String.length_ofList]
  have hpos : 0 < (Nat.toDigits 10 n).length := Nat.length_toDigits_pos
  rw [hlength, hlength, Nat.length_toDigits_le_iff (by decide) hpos]
  exact h.trans_lt ((Nat.length_toDigits_le_iff (by decide) hpos).mp (Nat.le_refl _))

theorem feed_not_mem_toString (n : Nat) : '\n' ∉ (toString n).toList := by
  rw [Nat.toString_eq_ofList_toDigits, String.toList_ofList]
  intro h
  exact absurd (Nat.isDigit_of_mem_toDigits (by decide) (by decide) h) (by decide)

/-! ## Rows -/

/-- The row shows a line: a marker, the number of the line set right, and behind the first `margin`
characters its text. -/
def Shows (marker : Char) (margin number : Nat) (text row : List Char) : Prop :=
  ∃ blanks, row = [marker, ' '] ++ List.replicate blanks ' ' ++ (toString number).toList ++
    [' ', '|', ' '] ++ text ∧ 2 + blanks + (toString number).length + 3 = margin

theorem Shows.feed_not_mem (h : Shows marker margin number text row) (hmarker : marker ≠ '\n')
    (htext : '\n' ∉ text) : '\n' ∉ row := by
  obtain ⟨blanks, rfl, -⟩ := h
  simp only [List.mem_append, not_or]
  exact ⟨⟨⟨⟨by simp [Ne.symm hmarker], by simp⟩, feed_not_mem_toString number⟩, by decide⟩, htext⟩

/-- The text of the line begins in the column of the margin. -/
theorem Shows.head (h : Shows marker margin number text row) :
    ∃ head, row = head ++ text ∧ head.length = margin := by
  obtain ⟨blanks, rfl, hmargin⟩ := h
  refine ⟨_, rfl, ?_⟩
  simp only [List.length_append, List.length_cons, List.length_nil, List.length_replicate,
    String.length_toList]
  omega

theorem Shows.length (h : Shows marker margin number text row) :
    row.length = margin + text.length := by
  obtain ⟨head, rfl, rfl⟩ := h.head
  exact List.length_append

theorem Shows.under {left right : List Char}
    (h : Shows marker margin number (left ++ right) row) :
    row[margin + left.length]? = right.head? := by
  obtain ⟨head, rfl, rfl⟩ := h.head
  rw [← List.append_assoc, ← List.length_append, List.getElem?_append_right (Nat.le_refl _),
    Nat.sub_self, List.head?_eq_getElem?]

theorem numbered_shows (mark : String) (hmark : mark.toList = [marker, ' '])
    (hwidth : (toString number).length ≤ width) (text : List Char) :
    ∃ row, (numbered mark width number text).toList = row ++ ['\n'] ∧
      Shows marker (width + 5) number text row := by
  refine ⟨_, ?_, width - (toString number).length, rfl, ?_⟩
  · simp [numbered, padLeft, hmark]
  · omega

/-! ## Excerpts -/

/-- The line of a text with a number, counted from one. -/
def line? (s : String) : Nat → Option (List Char)
  | 0 => none
  | n + 1 => (s.toList.splitOn '\n')[n]?

theorem line?_eq (s : String) (n : Nat) : line? s (n + 1) = (lines s.toList)[n]? := by
  rw [lines_eq_splitOn]
  rfl

theorem feed_not_mem_line {l : List Char} (h : line? s n = some l) : '\n' ∉ l := by
  cases n with
  | zero => cases h
  | succ n =>
      rw [line?_eq] at h
      exact feed_not_mem_lines l (List.mem_of_getElem? h)

/-- A line beside that of the place has a row if there is such a line. -/
theorem around_shows (s : String) (n width : Nat)
    (hwidth : (line? s n).isSome → (toString n).length ≤ width) :
    ∃ row : Option (List Char),
      (match line? s n with
        | some l => numbered "  " width n l
        | none => "").toList = row.toList.flatMap (· ++ ['\n']) ∧
      Option.Rel (Shows ' ' (width + 5) n) (line? s n) row ∧ ∀ r ∈ row.toList, '\n' ∉ r := by
  cases hline : line? s n with
  | none => exact ⟨none, rfl, .none, nofun⟩
  | some l =>
      obtain ⟨row, hrow, hshows⟩ :=
        numbered_shows "  " rfl (hwidth (by rw [hline]; rfl)) l
      refine ⟨some row, by simpa using hrow, .some hshows, ?_⟩
      simpa using hshows.feed_not_mem (by decide) (feed_not_mem_line hline)

theorem place_eq (h : s.toList = front ++ back) :
    place s (byteSize front) =
      ⟨front.count '\n' + 1, (front.rtakeWhile (· ≠ '\n')).length + 1⟩ :=
  Document.place_of_cut (d := .ofText s) h

/-- The line before another one. -/
theorem line?_before (s : String) (n : Nat) :
    (if n + 1 < 2 then none else (lines s.toList)[n + 1 - 2]?) = line? s n := by
  cases n with
  | zero => rfl
  | succ n =>
      rw [if_neg (by omega), line?_eq]
      rfl

/-- The width of the widest number shown around a line. -/
def widest (s : String) (n : Nat) : Nat :=
  (toString (if (line? s (n + 1)).isSome then n + 1 else n)).length

theorem length_le_widest (h : m ≤ n) : (toString m).length ≤ widest s n := by
  refine length_toString_mono ?_
  split <;> omega

theorem excerpt_eq (h : place s offset = ⟨n + 1, column⟩) :
    let width := widest s (n + 1)
    excerpt s offset =
      (match line? s n with
        | some l => numbered "  " width n l
        | none => "") ++ numbered "> " width (n + 1) ((line? s (n + 1)).getD []) ++
      String.ofList (List.replicate (2 + width + 3 + (column - 1)) ' ') ++ "^\n" ++
      (match line? s (n + 2) with
        | some l => numbered "  " width (n + 2) l
        | none => "") := by
  rw [excerpt, ← place, h, widest, ← line?_before s n, line?_eq, line?_eq]
  rfl

/-- The rows of an excerpt. -/
theorem excerpt_rows (h : place s offset = ⟨n + 1, column⟩)
    (hline : line? s (n + 1) = some text) :
    let margin := widest s (n + 1) + 5
    ∃ (previous next : Option (List Char)) (marked : List Char),
      (excerpt s offset).toList.splitOn '\n' = previous.toList ++
        [marked, List.replicate (margin + (column - 1)) ' ' ++ ['^']] ++ next.toList ++ [[]] ∧
      Option.Rel (Shows ' ' margin n) (line? s n) previous ∧ Shows '>' margin (n + 1) text marked ∧
      Option.Rel (Shows ' ' margin (n + 2)) (line? s (n + 2)) next := by
  intro margin
  obtain ⟨previous, hprevious, hpreviousShows, hpreviousFeed⟩ :=
    around_shows s n (widest s (n + 1)) fun _ => length_le_widest (Nat.le_succ n)
  obtain ⟨marked, hmarked, hmarkedShows⟩ :=
    numbered_shows "> " rfl (length_le_widest (s := s) (Nat.le_refl _)) text
  obtain ⟨next, hnext, hnextShows, hnextFeed⟩ :=
    around_shows s (n + 2) (widest s (n + 1)) fun hsome => by rw [widest, if_pos hsome]
  refine ⟨previous, next, marked, ?_, hpreviousShows, hmarkedShows, hnextShows⟩
  have hblanks : 2 + widest s (n + 1) + 3 + (column - 1) = margin + (column - 1) := by omega
  have htext : (excerpt s offset).toList = (previous.toList ++
      [marked, List.replicate (margin + (column - 1)) ' ' ++ ['^']] ++
      next.toList).flatMap (· ++ ['\n']) := by
    rw [excerpt_eq h, hline]
    simp only [String.toList_append, Option.getD_some, hprevious, hmarked, hnext, hblanks,
      List.flatMap_append]
    simp
  rw [htext, splitOn_rows]
  refine List.forall_mem_append.mpr ⟨List.forall_mem_append.mpr ⟨hpreviousFeed, ?_⟩, hnextFeed⟩
  refine List.forall_mem_cons.mpr ⟨?_, by simp⟩
  exact hmarkedShows.feed_not_mem (by decide) (feed_not_mem_line hline)

/-- The place of a boundary is shown by rows. Two of these are its line, with its number behind a `>`,
and the caret; the line before and the line after it, where there are such lines, stand around them with
their own numbers. The texts of all lines begin in one column, behind as many characters as the widest of
the numbers asks for. The caret stands under the character at the boundary, or one past the last one of
the line if the line ends there. -/
theorem excerpt_caret (h : isBoundary s offset = true) :
    ∃ front back : List Char, s.toList = front ++ back ∧ byteSize front = offset ∧
      let p := place s offset
      let left := front.rtakeWhile (· ≠ '\n')
      let right := back.takeWhile (· ≠ '\n')
      let margin := widest s p.line + 5
      p = ⟨front.count '\n' + 1, left.length + 1⟩ ∧ line? s p.line = some (left ++ right) ∧
      ∃ (previous next : Option (List Char)) (marked : List Char),
        (excerpt s offset).toList.splitOn '\n' = previous.toList ++
          [marked, List.replicate (margin + (p.column - 1)) ' ' ++ ['^']] ++ next.toList ++ [[]] ∧
        Option.Rel (Shows ' ' margin (p.line - 1)) (line? s (p.line - 1)) previous ∧
        Shows '>' margin p.line (left ++ right) marked ∧
        Option.Rel (Shows ' ' margin (p.line + 1)) (line? s (p.line + 1)) next ∧
        (∀ c, back.head? = some c → c ≠ '\n' → marked[margin + (p.column - 1)]? = some c) ∧
        (back = [] ∨ back.head? = some '\n' → marked.length = margin + (p.column - 1)) := by
  obtain ⟨front, back, htext, rfl⟩ := isBoundary_iff.mp h
  have hplace := place_eq htext
  have hline : line? s (front.count '\n' + 1) =
      some (front.rtakeWhile (· ≠ '\n') ++ back.takeWhile (· ≠ '\n')) := by
    rw [line?_eq, htext]
    exact lines_of_cut front back
  obtain ⟨previous, next, marked, hrows, hprevious, hmarked, hnext⟩ :=
    excerpt_rows hplace hline
  refine ⟨front, back, htext, rfl, ?_⟩
  rw [hplace]
  refine ⟨rfl, hline, previous, next, marked, hrows, hprevious, hmarked, hnext, ?_, ?_⟩
  · intro c hc hne
    obtain ⟨rest, rfl⟩ := List.head?_eq_some_iff.mp hc
    refine hmarked.under.trans ?_
    rw [List.takeWhile_cons_of_pos (by simpa using hne)]
    rfl
  · intro hend
    have hright : back.takeWhile (· ≠ '\n') = [] := by
      rcases hend with rfl | hfeed
      · rfl
      · obtain ⟨rest, rfl⟩ := List.head?_eq_some_iff.mp hfeed
        rfl
    have hlength := hmarked.length
    rw [hright, List.append_nil] at hlength
    exact hlength

/-- The numbers around are of one digit and of two, and a character before the place has two bytes. -/
theorem excerpt_caret_accent :
    let s := "1\n2\n3\n4\n5\n6\n7\n8\néi\n10"
    isBoundary s 18 = true ∧ ∃ marked, Shows '>' 7 9 ['é', 'i'] marked ∧
      [marked, List.replicate 8 ' ' ++ ['^']] <:+: (excerpt s 18).toList.splitOn '\n' := by
  intro s
  have hboundary : isBoundary s 18 = true := by decide +kernel
  have hplace : place s 18 = ⟨9, 2⟩ := by decide +kernel
  have hline : line? s 9 = some ['é', 'i'] := by decide +kernel
  have hwidest : widest s 9 = 2 := by decide +kernel
  obtain ⟨front, back, -, -, -, hhere, previous, next, marked, hrows, -, hmarked, -⟩ :=
    excerpt_caret hboundary
  simp only [hplace, hwidest] at hrows hhere hmarked
  rw [Option.some.inj (hhere.symm.trans hline)] at hmarked
  refine ⟨hboundary, marked, hmarked, previous.toList, next.toList ++ [[]], ?_⟩
  rw [hrows]
  exact (List.append_assoc _ _ _).symm

end Pegboard.Text
