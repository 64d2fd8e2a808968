import Pegboard.Proofs.Grammar.Tokens
import Pegboard.Proofs.Taken

/-!
# Space between tokens

Blanks and comments may stand before every token of a grammar source. `skip` says what is left
behind them, as a function of the text alone: a line comment goes up to the end of its line, and
`/*` begins a comment only if there is a `*/` further on.

Main statements: `ParsedBy.skips_skip`, the rule for spaces takes all that is skipped; `skip_append`, where
the end of a text gives way to another, the same is skipped before it.
-/

namespace Pegboard

namespace Text

/-- What is left from the first place on where `s` stands, which is nothing if it stands nowhere. -/
def seek (s : List Char) : List Char → List Char
  | [] => []
  | c :: cs => if s.isPrefixOf (c :: cs) then c :: cs else seek s cs

variable {s cs rest : List Char} {c : Char}

theorem seek_suffix (s cs : List Char) : seek s cs <:+ cs := by
  induction cs with
  | nil => exact List.suffix_rfl
  | cons c cs ih =>
      rw [seek]
      split
      · exact List.suffix_rfl
      · exact ih.trans (List.suffix_cons c cs)

theorem length_seek_le (s cs : List Char) : (seek s cs).length ≤ cs.length :=
  (seek_suffix s cs).length_le

theorem prefix_seek (h : seek s cs ≠ []) : s <+: seek s cs := by
  induction cs with
  | nil => exact absurd rfl h
  | cons c cs ih =>
      rw [seek] at h ⊢
      split
      · rename_i hprefix
        exact List.isPrefixOf_iff_prefix.mp hprefix
      · rename_i hprefix
        rw [if_neg hprefix] at h
        exact ih h

/-- What is found in a text is found in it whatever stands behind it. -/
theorem seek_append (h : seek s cs ≠ []) (rest : List Char) :
    seek s (cs ++ rest) = seek s cs ++ rest := by
  induction cs with
  | nil => exact absurd rfl h
  | cons c cs ih =>
      by_cases hprefix : s <+: c :: cs
      · have hmore : s <+: c :: (cs ++ rest) := hprefix.trans (List.prefix_append (c :: cs) rest)
        rw [List.cons_append, seek, if_pos (List.isPrefixOf_iff_prefix.mpr hmore), seek,
          if_pos (List.isPrefixOf_iff_prefix.mpr hprefix)]
        rfl
      · have hnot : ¬ s.isPrefixOf (c :: cs) = true := fun hp =>
          hprefix (List.isPrefixOf_iff_prefix.mp hp)
        rw [seek, if_neg hnot] at h
        have hlength : s.length ≤ (c :: cs).length :=
          (prefix_seek h).length_le.trans ((length_seek_le s cs).trans (Nat.le_succ _))
        have hnot' : ¬ s.isPrefixOf (c :: (cs ++ rest)) = true := fun hp =>
          hprefix (List.prefix_of_prefix_length_le (List.isPrefixOf_iff_prefix.mp hp)
            (List.prefix_append (c :: cs) rest) hlength)
        rw [List.cons_append, seek, if_neg hnot', ih h, seek, if_neg hnot]

/-- What is not found in a text is found further on, unless it begins in the text and ends behind
it. -/
theorem seek_append_of_nil (h : seek s cs = [])
    (hapart : ∀ t, t <:+ s → t ≠ [] → t ≠ s → ¬ t <+: rest) :
    seek s (cs ++ rest) = seek s rest := by
  induction cs with
  | nil => rfl
  | cons c cs ih =>
      rw [seek] at h
      split at h
      · cases h
      · rename_i hprefix
        have hnot : ¬ s.isPrefixOf (c :: (cs ++ rest)) = true := by
          intro hp
          have hp := List.isPrefixOf_iff_prefix.mp hp
          rw [← List.cons_append] at hp
          rcases Nat.le_total s.length (c :: cs).length with hle | hle
          · exact hprefix (List.isPrefixOf_iff_prefix.mpr
              (List.prefix_of_prefix_length_le hp (List.prefix_append _ _) hle))
          · obtain ⟨t, rfl⟩ :=
              List.prefix_of_prefix_length_le (List.prefix_append _ rest) hp hle
            have ht : t <+: rest := (List.prefix_append_right_inj _).mp hp
            by_cases hnil : t = []
            · subst hnil
              rw [List.append_nil] at hprefix
              exact hprefix (List.isPrefixOf_iff_prefix.mpr List.prefix_rfl)
            · refine hapart t (List.suffix_append _ t) hnil (fun heq => ?_) ht
              have := congrArg List.length heq
              simp only [List.length_append, List.length_cons] at this
              omega
        rw [List.cons_append, seek, if_neg hnot, ih h]

theorem seek_singleton_append (h : seek [c] cs = []) (rest : List Char) :
    seek [c] (cs ++ rest) = seek [c] rest := by
  refine seek_append_of_nil h fun t ht hnil hne => ?_
  rcases List.suffix_cons_iff.mp ht with rfl | ht
  · exact absurd rfl hne
  · exact absurd (List.suffix_nil.mp ht) hnil

/-- Two characters that are not found in a text begin in it only if the second one follows it. -/
theorem seek_pair_append {d : Char} (h : seek [c, d] cs = []) (hrest : rest.head? ≠ some d) :
    seek [c, d] (cs ++ rest) = seek [c, d] rest := by
  refine seek_append_of_nil h fun t ht hnil hne => ?_
  rcases List.suffix_cons_iff.mp ht with rfl | ht
  · exact absurd rfl hne
  · rcases List.suffix_cons_iff.mp ht with rfl | ht
    · rintro ⟨back, rfl⟩
      exact hrest rfl
    · exact absurd (List.suffix_nil.mp ht) hnil

/-- What is found may be passed, whatever stands behind the text. -/
theorem drop_seek_append {n : Nat} (h : seek s cs ≠ []) (hn : n ≤ s.length) (rest : List Char) :
    (seek s cs ++ rest).drop n = (seek s cs).drop n ++ rest :=
  List.drop_append_of_le_length (hn.trans (prefix_seek h).length_le)

theorem first_seek {d : Char} (h : seek (d :: s) cs = c :: rest) : c = d := by
  obtain ⟨back, hback⟩ := prefix_seek (h ▸ List.cons_ne_nil c rest)
  rw [h] at hback
  exact (List.cons.inj hback).1.symm

/-- What begins with a character that the text has not begins behind the text. -/
theorem seek_append_of_notMem {d : Char} (s rest : List Char) (h : d ∉ cs) :
    seek (d :: s) (cs ++ rest) = seek (d :: s) rest := by
  induction cs with
  | nil => rfl
  | cons c cs ih =>
      obtain ⟨hc, hcs⟩ := not_or.mp (List.mem_cons.not.mp h)
      rw [List.cons_append, seek, if_neg, ih hcs]
      rw [List.isPrefixOf, beq_eq_false_iff_ne.mpr hc]
      exact Bool.false_ne_true

/-- What is left behind blanks and comments. -/
def skip : List Char → List Char
  | [] => []
  | '/' :: '/' :: cs => skip (seek ['\n'] cs)
  | '/' :: '*' :: cs =>
    if seek ['*', '/'] cs = [] then '/' :: '*' :: cs else skip ((seek ['*', '/'] cs).drop 2)
  | c :: cs => if c ≤ ' ' then skip cs else c :: cs
termination_by cs => cs.length
decreasing_by
  · have := length_seek_le ['\n'] cs
    simp only [List.length_cons]
    omega
  · have := length_seek_le ['*', '/'] cs
    simp only [List.length_cons, List.length_drop]
    omega
  · exact Nat.lt_succ_self _

theorem skip_suffix (cs : List Char) : skip cs <:+ cs := by
  fun_induction skip cs with
  | case1 => exact List.suffix_rfl
  | case2 cs ih =>
      exact ih.trans ((seek_suffix _ cs).trans (List.suffix_append ['/', '/'] cs))
  | case3 => exact List.suffix_rfl
  | case4 cs _ ih =>
      refine ih.trans ((List.drop_suffix 2 _).trans ((seek_suffix _ cs).trans ?_))
      exact List.suffix_append ['/', '*'] cs
  | case5 c cs _ _ _ ih => exact ih.trans (List.suffix_cons c cs)
  | case6 => exact List.suffix_rfl

theorem length_skip_le (cs : List Char) : (skip cs).length ≤ cs.length :=
  (skip_suffix cs).length_le

theorem skip_of_solid (h : Solid cs) : skip cs = cs := by
  fun_cases skip cs with
  | case1 => rfl
  | case2 | case3 | case4 => exact absurd rfl (h '/' rfl).2
  | case5 c cs _ _ hc => exact absurd hc (Char.not_le.mpr (h c rfl).1)
  | case6 => rfl

theorem skip_cons_blank (hc : c ≤ ' ') (cs : List Char) : skip (c :: cs) = skip cs := by
  have hne : c ≠ '/' := by
    rintro rfl
    exact absurd hc (by decide)
  rw [skip, if_pos hc]
  · rintro rest rfl
    exact absurd rfl hne
  · rintro rest rfl
    exact absurd rfl hne

theorem skip_blank {blank : List Char} (h : Blank blank) (cs : List Char) :
    skip (blank ++ cs) = skip cs := by
  induction blank with
  | nil => rfl
  | cons c blank ih =>
      obtain ⟨hc, h⟩ := List.forall_mem_cons.mp h
      rw [List.cons_append, skip_cons_blank hc, ih h]

theorem skip_cons (hc : ¬ c ≤ ' ') (h : c = '/' → ∀ d ∈ cs.head?, d ≠ '/' ∧ d ≠ '*') :
    skip (c :: cs) = c :: cs := by
  rw [skip, if_neg hc]
  · rintro rest rfl rfl
    exact (h rfl '/' rfl).1 rfl
  · rintro rest rfl rfl
    exact (h rfl '*' rfl).2 rfl

/-- Where `here` gives way to `there`, what is skipped before it stays the same. What was skipped is
no part of `here`, so no comment goes on into it, and none is closed by what is there now. -/
theorem skip_append {here there : List Char} (hhere : skip here = here) (hne : here ≠ [])
    (hslash : ∀ c ∈ here.head?, c ≠ '/' ∧ c ≠ '*') (hslash' : ∀ c ∈ there.head?, c ≠ '/' ∧ c ≠ '*')
    (hclosed : seek ['*', '/'] here = [] → seek ['*', '/'] there = []) (front : List Char)
    (h : here.length ≤ (skip (front ++ here)).length) :
    ∃ rest, skip (front ++ here) = rest ++ here ∧
      skip (front ++ there) = if rest = [] then skip there else rest ++ there := by
  fun_induction skip front with
  | case1 => exact ⟨[], hhere, rfl⟩
  | case2 cs ih =>
      simp only [List.cons_append, skip] at h ⊢
      by_cases hline : seek ['\n'] cs = []
      · -- the comment would go on into `here`
        rw [seek_singleton_append hline] at h
        refine absurd (h.trans (length_skip_le _)) (Nat.not_le.mpr (lt_of_le_of_ne
          (length_seek_le _ _) fun heq => ?_))
        have hfound := (seek_suffix ['\n'] here).eq_of_length heq
        obtain ⟨rest, hrest⟩ := prefix_seek (hfound.symm ▸ hne)
        rw [← hfound, ← hrest, List.singleton_append, skip_cons_blank (by decide)] at hhere
        have := congrArg List.length hhere
        have := length_skip_le rest
        simp only [List.length_cons] at *
        omega
      · rw [seek_append hline] at h ⊢
        rw [seek_append hline]
        exact ih h
  | case3 cs hnil =>
      have hseek {rest : List Char} (hrest : ∀ c ∈ rest.head?, c ≠ '/' ∧ c ≠ '*') :
          seek ['*', '/'] (cs ++ rest) = seek ['*', '/'] rest :=
        seek_pair_append hnil fun hhead => (hrest '/' hhead).1 rfl
      simp only [List.cons_append, skip, hseek hslash, hseek hslash'] at h ⊢
      by_cases hend : seek ['*', '/'] here = []
      · refine ⟨'/' :: '*' :: cs, ?_, ?_⟩
        · rw [if_pos hend]
          rfl
        · rw [if_pos (hclosed hend), if_neg (List.cons_ne_nil _ _)]
          rfl
      · -- the comment would end in `here`
        rw [if_neg hend] at h
        have := length_skip_le ((seek ['*', '/'] here).drop 2)
        have := length_seek_le ['*', '/'] here
        have : 0 < here.length := List.length_pos_iff.mpr hne
        simp only [List.length_drop] at *
        omega
  | case4 cs hne ih =>
      have happ (rest : List Char) : seek ['*', '/'] cs ++ rest ≠ [] := by simp [hne]
      simp only [List.cons_append, skip, seek_append hne, if_neg (happ _),
        drop_seek_append hne (Nat.le_refl 2)] at h ⊢
      exact ih h
  | case5 c cs hline hblock hc ih =>
      simp only [List.cons_append, skip_cons_blank hc] at h ⊢
      exact ih h
  | case6 c cs hline hblock hc =>
      have hsolid {rest : List Char} (hrest : ∀ c ∈ rest.head?, c ≠ '/' ∧ c ≠ '*') :
          skip (c :: cs ++ rest) = c :: cs ++ rest := by
        refine skip_cons hc ?_
        rintro rfl d hd
        cases cs with
        | nil => exact hrest d hd
        | cons d' cs =>
            obtain rfl : d' = d := Option.some.inj hd
            exact ⟨fun heq => hline cs rfl (heq ▸ rfl), fun heq => hblock cs rfl (heq ▸ rfl)⟩
      exact ⟨c :: cs, hsolid hslash, by rw [if_neg (List.cons_ne_nil c cs), hsolid hslash']⟩

example : skip " /* a */ // b\n /* c".toList = "/* c".toList := by decide +kernel

end Text

open Text Reading

/-- Everything up to a text is read, whether the text is there or not. -/
theorem Reads.upTo (m : Meaning) {s : String} (hs : s.toList ≠ []) (cs : List Char) : ∃ front,
    cs = front ++ seek s.toList cs ∧
      Reads m false (Grammar.Source.upTo s) front (seek s.toList cs) [] := by
  have hnot {cs : List Char} (h : s.toList.isPrefixOf cs = false) :
      Reads m false (.not (.terminal s)) [] cs [] := .not (.terminal h)
  induction cs with
  | nil =>
      have hmiss : s.toList.isPrefixOf [] = false := by simpa [Bool.eq_false_iff] using hs
      exact ⟨[], rfl, .star_end ((hnot hmiss).tail (.head (.any m)))⟩
  | cons c cs ih =>
      rw [seek]
      split
      · rename_i hprefix
        obtain ⟨rest, hrest⟩ := List.isPrefixOf_iff_prefix.mp hprefix
        have hread : Reads m false (.terminal s) s.toList rest [] := .terminal rfl rest
        exact ⟨[], rfl, .star_end (hrest ▸ (Misses.not hread).head)⟩
      · rename_i hprefix
        obtain ⟨front, hcs, hread⟩ := ih
        have hstep : Reads m false (.seq [.not (.terminal s), .any]) [c]
            (front ++ seek s.toList cs) [] :=
          (hnot (by rw [← hcs]; exact Bool.eq_false_iff.mpr hprefix)).cons (.last (.any c _))
        exact ⟨c :: front, congrArg (c :: ·) hcs,
          .star_more (List.cons_ne_nil c []) hstep hread⟩

namespace Grammar.ParsedBy

variable {p : Parser} {q : String} {cs ds : List Char} (hp : ofGrammars.ParsedBy p)

include hp

/-! ## The rule for spaces -/

/-- A comment that ends with its line, or with the text. -/
theorem space_parses_line (cs : List Char) : ∃ front,
    '/' :: '/' :: cs = front ++ seek ['\n'] cs ∧ front ≠ [] ∧
      p.Parses "space" front (seek ['\n'] cs) fun _ => True := by
  obtain ⟨line, hcs, hline⟩ := Reads.upTo p.meaning (s := "\n") (by decide) cs
  have hend : Reads p.meaning false (.look (.alt [.terminal "\n", .endOfInput])) []
      (seek ['\n'] cs) [] := by
    by_cases hnil : seek ['\n'] cs = []
    · rw [hnil]
      exact Reads.look (.later (.terminal rfl) (.first .endOfInput))
    · obtain ⟨rest, hrest⟩ := prefix_seek hnil
      have hfeed : Reads p.meaning false (.terminal "\n") ['\n'] rest [] := .terminal rfl rest
      rw [← hrest]
      exact Reads.look (.first hfeed)
  have hrest := hline.cons hend.last
  have hopen : Reads p.meaning false (.terminal "//") ['/', '/']
      (line ++ [] ++ seek ['\n'] cs) [] := .terminal rfl _
  have hsingle : p.Parses "comment_singleLine" (['/', '/'] ++ (line ++ [])) (seek ['\n'] cs)
      fun _ => True :=
    hp.parses comment_singleLine_body (hopen.cons hrest) fun _ _ _ _ => trivial
  have hcomment : p.Parses "comment" (['/', '/'] ++ (line ++ [])) (seek ['\n'] cs) fun _ => True :=
    hp.parses comment_body (.first hsingle.reads) fun _ _ _ _ => trivial
  refine ⟨['/', '/'] ++ (line ++ []), ?_, List.cons_ne_nil _ _,
    hp.parses space_body (.first hcomment.reads) fun _ _ _ _ => trivial⟩
  simpa using hcs

/-- A comment with its end. -/
theorem space_parses_block (h : seek ['*', '/'] cs ≠ []) : ∃ front,
    '/' :: '*' :: cs = front ++ (seek ['*', '/'] cs).drop 2 ∧ front ≠ [] ∧
      p.Parses "space" front ((seek ['*', '/'] cs).drop 2) fun _ => True := by
  obtain ⟨inner, hcs, hinner⟩ := Reads.upTo p.meaning (s := "*/") (by decide) cs
  obtain ⟨rest, hrest⟩ := prefix_seek h
  rw [show "*/".toList = ['*', '/'] from rfl, ← hrest] at hcs hinner
  rw [← hrest]
  have hclose : Reads p.meaning false (.terminal "*/") ['*', '/'] rest [] := .terminal rfl rest
  have hrest := hinner.cons hclose.last
  have hopen : Reads p.meaning false (.terminal "/*") ['/', '*']
      (inner ++ ['*', '/'] ++ rest) [] := .terminal rfl _
  have hsingle : p.Fails "comment_singleLine" (['/', '*'] ++ (inner ++ ['*', '/']) ++ rest) :=
    hp.fails comment_singleLine_body (.head (.terminal rfl))
  have hmulti : p.Parses "comment_multiLine" (['/', '*'] ++ (inner ++ ['*', '/'])) rest
      fun _ => True :=
    hp.parses comment_multiLine_body (hopen.cons hrest) fun _ _ _ _ => trivial
  have hcomment : p.Parses "comment" (['/', '*'] ++ (inner ++ ['*', '/'])) rest fun _ => True :=
    hp.parses comment_body (.later hsingle.misses (.first hmulti.reads)) fun _ _ _ _ => trivial
  refine ⟨_, ?_, List.cons_ne_nil _ _,
    hp.parses space_body (.first hcomment.reads) fun _ _ _ _ => trivial⟩
  simpa using hcs

/-- There is no space where there is no comment. -/
theorem space_fails_of_comment {c : Char} (hc : ¬ c ≤ ' ')
    (hsingle : p.Fails "comment_singleLine" (c :: cs))
    (hmulti : p.Fails "comment_multiLine" (c :: cs)) : p.Fails "space" (c :: cs) := by
  have hcomment : p.Fails "comment" (c :: cs) := by
    refine hp.fails comment_body (.alt fun e he => ?_)
    rcases List.mem_pair.mp he with rfl | rfl
    · exact hsingle.misses
    · exact hmulti.misses
  refine hp.fails space_body (.alt fun e he => ?_)
  rcases List.mem_pair.mp he with rfl | rfl
  · exact hcomment.misses
  · refine .range ?_
    rintro _ ⟨⟩ hle
    exact hc hle.2

/-- A comment has to be closed. -/
theorem space_fails_unclosed (h : seek ['*', '/'] cs = []) : p.Fails "space" ('/' :: '*' :: cs) := by
  obtain ⟨inner, hcs, hinner⟩ := Reads.upTo p.meaning (s := "*/") (by decide) cs
  rw [show "*/".toList = ['*', '/'] from rfl, h] at hcs hinner
  have hopen : Reads p.meaning false (.terminal "/*") ['/', '*'] (inner ++ []) [] :=
    .terminal rfl _
  have hsingle : p.Fails "comment_singleLine" ('/' :: '*' :: cs) :=
    hp.fails comment_singleLine_body (.head (.terminal rfl))
  have hmulti : p.Fails "comment_multiLine" ('/' :: '*' :: cs) := by
    have hclose : Misses p.meaning false (.seq [.terminal "*/"]) [] := .head (.terminal rfl)
    have hmiss := hopen.tail (hinner.tail hclose)
    rw [← hcs] at hmiss
    exact hp.fails comment_multiLine_body hmiss
  exact hp.space_fails_of_comment (by decide) hsingle hmulti

/-- Where no comment begins, a character that is not blank is no space. -/
theorem space_fails_of_plain {c : Char} (hc : ¬ c ≤ ' ')
    (hline : ∀ rest, c = '/' → cs = '/' :: rest → False)
    (hblock : ∀ rest, c = '/' → cs = '*' :: rest → False) : p.Fails "space" (c :: cs) := by
  by_cases hslash : c = '/'
  · subst hslash
    have hmark (d : Char) (hd : cs.head? ≠ some d) :
        ['/', d].isPrefixOf ('/' :: cs) = false := by
      refine Bool.eq_false_iff.mpr fun h => ?_
      obtain ⟨rest, hrest⟩ := List.isPrefixOf_iff_prefix.mp h
      obtain rfl := List.tail_eq_of_cons_eq hrest
      exact hd rfl
    have hsingle : p.Fails "comment_singleLine" ('/' :: cs) := by
      refine hp.fails comment_singleLine_body (.head (.terminal (hmark '/' fun h => ?_)))
      obtain ⟨rest, rfl⟩ := List.head?_eq_some_iff.mp h
      exact hline rest rfl rfl
    have hmulti : p.Fails "comment_multiLine" ('/' :: cs) := by
      refine hp.fails comment_multiLine_body (.head (.terminal (hmark '*' fun h => ?_)))
      obtain ⟨rest, rfl⟩ := List.head?_eq_some_iff.mp h
      exact hblock rest rfl rfl
    exact hp.space_fails_of_comment (by decide) hsingle hmulti
  · refine hp.space_fails ?_
    rintro _ ⟨⟩
    exact ⟨Char.not_le.mp hc, hslash⟩

theorem reads_spaces (cs : List Char) : ∃ blank Ps, cs = blank ++ skip cs ∧
    Reads p.meaning false (.iter .star (.apply "space")) blank (skip cs) Ps := by
  fun_induction skip cs with
  | case1 => exact ⟨[], [], rfl, .star_end (hp.space_fails solid_nil).misses⟩
  | case2 cs ih =>
      obtain ⟨blank, Ps, hcs, hread⟩ := ih
      obtain ⟨front, hfront, hne, hspace⟩ := hp.space_parses_line cs
      rw [hcs] at hspace
      refine ⟨front ++ blank, _, ?_, .star_more hne hspace.reads hread⟩
      rw [hfront, List.append_assoc, ← hcs]
  | case3 cs hnil => exact ⟨[], [], rfl, .star_end (hp.space_fails_unclosed hnil).misses⟩
  | case4 cs hne ih =>
      obtain ⟨blank, Ps, hcs, hread⟩ := ih
      obtain ⟨front, hfront, hne, hspace⟩ := hp.space_parses_block hne
      rw [hcs] at hspace
      refine ⟨front ++ blank, _, ?_, .star_more hne hspace.reads hread⟩
      rw [hfront, List.append_assoc, ← hcs]
  | case5 c cs hline hblock hc ih =>
      obtain ⟨blank, Ps, hcs, hread⟩ := ih
      have hspace := hp.space_parses hc (blank ++ skip cs)
      exact ⟨[c] ++ blank, _, by rw [List.append_assoc, ← hcs]; rfl,
        .star_more (List.cons_ne_nil c []) hspace.reads hread⟩
  | case6 c cs hline hblock hc =>
      exact ⟨[], [], rfl, .star_end (hp.space_fails_of_plain hc hline hblock).misses⟩

/-- All that can be skipped is skipped. -/
theorem skips_skip (cs : List Char) : ∃ blank, cs = blank ++ skip cs ∧
    Skips p.meaning blank (skip cs) := by
  obtain ⟨blank, Ps, hcs, hread⟩ := hp.reads_spaces cs
  let rule := builtInRules.rule "spaces" none (.iter .star (.apply "space"))
  exact ⟨blank, hcs, hp.skips
    (rule?_builtIn (r := rule) (by simp [builtInRules, rule]) (by decide)) hread⟩

end Grammar.ParsedBy

end Pegboard
