import Pegboard.Proofs.Grammar.Courses

/-!
# Names of cases

Behind `--` the name of a case stands on the same line, up to the end of the line or of the rules.
`skipLine` says what is left behind the spaces of a line, as a function of the text alone.

Main statements: `ParsedBy.caseName_yields` and `ParsedBy.caseName_spans`, which together say what
the name of a case is.
-/

namespace Pegboard

open Text Reading

namespace Text

/-- What is left of a line behind blanks and comments. A comment may go on into other lines. -/
def skipLine : List Char → List Char
  | [] => []
  | '/' :: '/' :: cs => seek ['\n'] cs
  | '/' :: '*' :: cs =>
    if seek ['*', '/'] cs = [] then '/' :: '*' :: cs else skipLine ((seek ['*', '/'] cs).drop 2)
  | c :: cs => if c ≤ ' ' ∧ c ≠ '\n' then skipLine cs else c :: cs
termination_by cs => cs.length
decreasing_by
  · have := length_seek_le ['*', '/'] cs
    simp only [List.length_cons, List.length_drop]
    omega
  · exact Nat.lt_succ_self _

variable {c : Char} {cs rest : List Char}

theorem skipLine_suffix (cs : List Char) : skipLine cs <:+ cs := by
  fun_induction skipLine cs with
  | case1 => exact List.suffix_rfl
  | case2 cs => exact (seek_suffix _ cs).trans (List.suffix_append ['/', '/'] cs)
  | case3 => exact List.suffix_rfl
  | case4 cs _ ih =>
      refine ih.trans ((List.drop_suffix 2 _).trans ((seek_suffix _ cs).trans ?_))
      exact List.suffix_append ['/', '*'] cs
  | case5 c cs _ _ _ ih => exact ih.trans (List.suffix_cons c cs)
  | case6 => exact List.suffix_rfl

theorem skipLine_cons_blank (hc : c ≤ ' ') (hline : c ≠ '\n') (cs : List Char) :
    skipLine (c :: cs) = skipLine cs := by
  have hslash : c ≠ '/' := by
    rintro rfl
    exact absurd hc (by decide)
  rw [skipLine, if_pos ⟨hc, hline⟩]
  · exact fun _ h _ => hslash h
  · exact fun _ h _ => hslash h

theorem skipLine_cons (hc : ¬ (c ≤ ' ' ∧ c ≠ '\n')) (h : c ≠ '/') (cs : List Char) :
    skipLine (c :: cs) = c :: cs := by
  rw [skipLine, if_neg hc]
  · exact fun _ heq _ => h heq
  · exact fun _ heq _ => h heq

/-- Where `here` gives way to `there`, the same is skipped of a line that goes on before it. -/
theorem skipLine_append {here : List Char} (hhere : skipLine here = here)
    (hslash : ∀ c ∈ here.head?, c ≠ '/' ∧ c ≠ '*') (hc : c ≠ '/') (front : List Char)
    (h : skipLine (front ++ here) = c :: rest ++ here) (there : List Char) :
    skipLine (front ++ there) = c :: rest ++ there := by
  have hlong {ds : List Char} (hds : ds.length ≤ here.length) : ds ≠ c :: rest ++ here := by
    rintro rfl
    simp only [List.length_append, List.length_cons] at hds
    omega
  have hskipped {ds : List Char} (hds : ds.length ≤ here.length) :
      skipLine ds ≠ c :: rest ++ here :=
    hlong ((skipLine_suffix ds).length_le.trans hds)
  have hcons {d : Char} (hd : ¬ (d ≤ ' ' ∧ d ≠ '\n')) (cs : List Char)
      (hd' : d ≠ '/') (h : skipLine (d :: cs ++ here) = c :: rest ++ here) :
      skipLine (d :: cs ++ there) = c :: rest ++ there := by
    rw [List.cons_append, skipLine_cons hd hd'] at h ⊢
    have heq : d :: cs = c :: rest := List.append_cancel_right h
    rw [← heq, List.cons_append]
  fun_induction skipLine front with
  | case1 => exact absurd (hhere.symm.trans h) (hlong (Nat.le_refl _))
  | case2 cs =>
      simp only [List.cons_append, skipLine] at h ⊢
      by_cases hline : seek ['\n'] cs = []
      · exact absurd (seek_singleton_append hline here ▸ h) (hlong (length_seek_le _ _))
      · rw [seek_append hline, ← List.cons_append] at h ⊢
        rw [List.append_cancel_right h]
  | case3 cs hnil =>
      have hseek : seek ['*', '/'] (cs ++ here) = seek ['*', '/'] here :=
        seek_pair_append hnil fun hhead => (hslash '/' hhead).1 rfl
      simp only [List.cons_append, skipLine, hseek] at h
      split at h
      · exact absurd (List.cons.inj h).1.symm hc
      · refine absurd h (hskipped ?_)
        have := length_seek_le ['*', '/'] here
        rw [List.length_drop]
        omega
  | case4 cs hne ih =>
      have happ (rest : List Char) : seek ['*', '/'] cs ++ rest ≠ [] := by simp [hne]
      simp only [List.cons_append, skipLine, seek_append hne, if_neg (happ _),
        drop_seek_append hne (Nat.le_refl 2)] at h ⊢
      exact ih h
  | case5 d cs _ _ hd ih =>
      rw [List.cons_append, skipLine_cons_blank hd.1 hd.2] at h ⊢
      exact ih h
  | case6 d cs hline hblock hd =>
      by_cases hd' : d = '/'
      · -- a slash that begins no comment
        subst hd'
        have hstays : skipLine ('/' :: cs ++ here) = '/' :: cs ++ here := by
          rw [List.cons_append, skipLine, if_neg hd]
          all_goals
            rintro tail - htail
            cases cs with
            | nil =>
                have hhead := hslash _ (by rw [List.nil_append] at htail; rw [htail]; rfl)
                exact absurd rfl (by first | exact hhead.1 | exact hhead.2)
            | cons d cs =>
                obtain ⟨rfl, -⟩ := List.cons.inj htail
                first | exact hline cs rfl rfl | exact hblock cs rfl rfl
        rw [hstays] at h
        exact absurd (List.cons.inj h).1.symm hc
      · exact hcons hd cs hd' h

end Text

namespace Grammar

/-- Between `cs` and `ds` there is the name of a case, and the end of its line or of the rules. -/
def CaseNamed (name cs ds : List Char) : Prop :=
  ∃ line rest, cs = '-' :: '-' :: line ∧ isName name = true ∧ skipLine line = name ++ rest ∧
    (∀ c ∈ rest.head?, isNameRest c = false) ∧
    (skipLine rest = '\n' :: ds ∨ skipLine rest = ds ∧ ds.head? = some '\x7d')

/-- The first application of a rule stands behind those of another one. -/
theorem first?_of_each {q r : String} {n : Nat} {P : Tree.Property} {Ps : List Tree.Property}
    {ss : List Tree.Located} (hne : q ≠ r) (hP : ∀ s : Tree.Located, P s → s.tree.rule? = some r)
    (h : Tree.Each ss (List.replicate n (fun s => s.tree.rule? = some q) ++ P :: Ps)) :
    ∃ s, ss.find? (·.tree.rule? = some r) = some s ∧ P s := by
  induction n generalizing ss with
  | zero =>
      obtain ⟨s, rest, hs, -, rfl⟩ := List.forall₂_cons_right_iff.mp h
      exact ⟨s, List.find?_cons_of_pos (decide_eq_true (hP s hs)), hs⟩
  | succ n ih =>
      obtain ⟨s, rest, hs, hrest, rfl⟩ := List.forall₂_cons_right_iff.mp h
      rw [List.find?_cons_of_neg (by simpa [hs] using hne)]
      exact ih hrest

namespace ParsedBy

variable {p : Parser} {cs ds rest name : List Char} {s : Tree.Located} (hp : ofGrammars.ParsedBy p)

include hp

theorem leads_line (cs : List Char) : ∃ n, Leads p false Source.lineSpaces cs (skipLine cs)
    (List.replicate n fun s => s.tree.rule? = some "space") := by
  have hmore {front ds stop : List Char} (hne : front ≠ []) (hhead : (front ++ ds).head? ≠ some '\n')
      (h : p.Parses "space" front ds fun _ => True)
      (hs : ∃ n, Leads p false Source.lineSpaces ds (stop)
        (List.replicate n fun s => s.tree.rule? = some "space")) :
      ∃ n, Leads p false Source.lineSpaces (front ++ ds) (stop)
        (List.replicate n fun s => s.tree.rule? = some "space") := by
    obtain ⟨n, hrest⟩ := hs
    have hround : Leads p false (.seq [.not (.terminal "\n"), .apply "space"]) (front ++ ds) ds
        [fun s => s.tree.rule? = some "space"] :=
      (Leads.not (.terminal_of_head rfl hhead)).cons (Leads.last ⟨front, rfl, h.rule?.reads⟩)
    exact ⟨n + 1, .star_more hround (fun heq => hne (List.self_eq_append_left.mp heq)) hrest⟩
  have hfeed (rest : List Char) : Misses p.meaning false (.not (.terminal "\n")) ('\n' :: rest) :=
    Leads.misses_not (show Leads p false (.terminal "\n") ('\n' :: rest) rest [] from .terminal rfl)
  have hstop {cs : List Char} (h : p.Fails "space" cs) :
      Misses p.meaning false (.seq [.not (.terminal "\n"), .apply "space"]) cs := by
    by_cases hhead : cs.head? = some '\n'
    · obtain ⟨rest, rfl⟩ := List.head?_eq_some_iff.mp hhead
      exact .head (hfeed rest)
    · exact (Leads.not (.terminal_of_head rfl hhead)).misses_tail h.misses.head
  have hline (rest : List Char) :
      Misses p.meaning false (.seq [.not (.terminal "\n"), .apply "space"]) ('\n' :: rest) :=
    .head (hfeed rest)
  fun_induction skipLine cs with
  | case1 => exact ⟨0, .star_end (hstop (hp.space_fails solid_nil))⟩
  | case2 cs =>
      obtain ⟨front, hcs, hne, hspace⟩ := hp.space_parses_line cs
      have hend : Misses p.meaning false (.seq [.not (.terminal "\n"), .apply "space"])
          (seek ['\n'] cs) := by
        by_cases hnil : seek ['\n'] cs = []
        · rw [hnil]
          exact hstop (hp.space_fails solid_nil)
        · obtain ⟨rest, hrest⟩ := prefix_seek hnil
          rw [← hrest]
          exact hline rest
      rw [hcs]
      exact hmore hne (by rw [← hcs]; simp) hspace ⟨0, .star_end hend⟩
  | case3 cs hnil => exact ⟨0, .star_end (hstop (hp.space_fails_unclosed hnil))⟩
  | case4 cs hne ih =>
      obtain ⟨front, hcs, hne, hspace⟩ := hp.space_parses_block hne
      rw [hcs]
      exact hmore hne (by rw [← hcs]; simp) hspace ih
  | case5 c cs hline hblock hc ih =>
      exact hmore (List.cons_ne_nil c []) (by simpa using hc.2) (hp.space_parses hc.1 cs) ih
  | case6 c cs hcomment hblock hc =>
      refine ⟨0, .star_end ?_⟩
      by_cases hfeed : c = '\n'
      · subst hfeed
        exact hline cs
      · exact hstop (hp.space_fails_of_plain (fun hle => hc ⟨hle, hfeed⟩) hcomment hblock)

theorem caseName_yields (h : CaseNamed name cs ds) : p.Yields "caseName" cs ds fun s =>
    s.tree.rule? = some "caseName" ∧ (s.first? "name").map (·.text) = some (.ofList name) := by
  obtain ⟨line, rest, rfl, hname, hline, hrest, hend⟩ := h
  have hopen : Leads p false (.terminal "--") ('-' :: '-' :: line) line [] := .terminal rfl
  obtain ⟨n, hbefore⟩ := hp.leads_line line
  rw [hline] at hbefore
  have hnamed : Leads p false (.apply "name") (name ++ rest) rest [Tree.Spells "name" name] :=
    ⟨name, rfl, (hp.name_parses hname hrest).reads⟩
  obtain ⟨m, hbehind⟩ := hp.leads_line rest
  have hlast : Leads p false (.alt [.terminal "\n", .look (.terminal "\x7d")]) (skipLine rest) ds
      [] := by
    rcases hend with hfeed | ⟨rfl, hbrace⟩
    · exact .first (.terminal hfeed)
    · obtain ⟨tail, htail⟩ := List.head?_eq_some_iff.mp hbrace
      have hclose : Leads p false (.terminal "\x7d") ('\x7d' :: tail) tail [] := .terminal rfl
      rw [htail]
      exact .later (.terminal_of_head (d := '\n') rfl (by simp)) (.first (.look hclose))
  refine hp.yields caseName_body (hopen.cons (hbefore.cons (hnamed.cons (hbehind.cons hlast.last))))
    fun s hrule happs => ⟨hrule, ?_⟩
  obtain ⟨t, ht, -, htext⟩ := first?_of_each (by simp) (fun _ h => h.1) happs
  rw [Tree.Located.first?, ht, Option.map_some, htext]

/-- What is parsed as the name of a case is one. -/
theorem caseName_spans (h : p.Spans "caseName" cs ds s) : ∃ name, CaseNamed name cs ds := by
  have htidy := hp.tidy acyclic_ofGrammars
  obtain ⟨line, _, _, hopen, h, -⟩ := (hp.took caseName_body h).cons htidy
  obtain ⟨cs₁, _, _, hbefore, h, -⟩ := h.cons htidy
  obtain ⟨rest, _, _, hname, h, -⟩ := h.cons htidy
  obtain ⟨cs₂, _, _, hbehind, hlast, -⟩ := h.cons htidy
  obtain ⟨rfl, -⟩ := hopen.terminal
  obtain ⟨n, hline⟩ := hp.leads_line line
  obtain ⟨rfl, -⟩ := hbefore.of_leads hline
  obtain ⟨m, hrest⟩ := hp.leads_line rest
  obtain ⟨rfl, -⟩ := hbehind.of_leads hrest
  rcases name_cases (skipLine line) with hnone | ⟨name, rest', hisName, hback, hcs⟩
  · exact absurd (hp.name_fails hnone).misses hname.not_misses
  · have hleads : Leads p false (.apply "name") (skipLine line) rest' [Tree.Spells "name" name] :=
      ⟨name, hcs, (hp.name_parses hisName hback).reads⟩
    obtain ⟨rfl, -⟩ := hname.of_leads hleads
    refine ⟨name, line, rest, rfl, hisName, hcs, hback, ?_⟩
    rcases (hlast.last htidy).alt_cons with hfeed | ⟨-, hlast⟩
    · exact .inl hfeed.terminal.1
    · rcases hlast.alt_cons with hbrace | ⟨-, hlast⟩
      · obtain ⟨rfl, -, ds', _, hmark⟩ := hbrace.look htidy
        exact .inr ⟨rfl, by rw [hmark.terminal.1]; rfl⟩
      · exact absurd hlast Took.not_alt_nil

end ParsedBy

end Grammar

end Pegboard
