import Pegboard.Proofs.Grammar.Carried
import Pegboard.Proofs.Grammar.CaseNames
import Pegboard.Proofs.Grammar.Literals

/-!
# Carrying tokens over to another text

A token that stands before the piece of a text that is exchanged, or behind it, is the same token in
the other text: what decides where it ends stands with it on one side. A name could go on in the
piece, which `Exchange.apart` rules out.

Main statement: `ParsedBy.carried_text` and `ParsedBy.carried_caseName`.
-/

namespace Pegboard

open Text

namespace Exchange

variable {x : Exchange} {hole : Tree.Located} {cs cs' ds ds' : List Char} {t : Tree.Located}

/-- Places behind something that stands on one side of the piece. -/
def Beside (x : Exchange) (ds ds' : List Char) : Prop :=
  (∃ f, f <:+ x.before ∧ ds = f ++ x.back ∧ ds' = f ++ x.back') ∨ ds <:+ x.after ∧ ds' = ds

theorem Beside.alike (h : x.Beside ds ds') : x.Alike ds ds' := by
  obtain ⟨f, hf, rfl, rfl⟩ | ⟨hsuffix, rfl⟩ := h
  · exact .before hf
  · exact .behind hsuffix

/-- What the piece does not belong to ends before it, or begins behind it. -/
theorem Keeps.outside (h : x.Keeps hole cs ds [t]) (hnot : ¬ t.Reaches hole)
    (htwin : x.Twin cs cs') : x.back.length ≤ ds.length ∨ cs.length ≤ x.after.length := by
  refine htwin.alike.whole.imp_left fun hcs => h.clear.whole.resolve_right fun hds => ?_
  obtain ⟨s, hs, hreach⟩ := h.around hcs hds
  exact hnot (List.mem_singleton.mp hs ▸ hreach)

end Exchange

/-- What ends a text and does not begin in the piece begins before it. -/
theorem Exchange.suffix_back {x : Exchange} {f ds : List Char} (h : ds <:+ f ++ x.back)
    (hle : x.back.length ≤ ds.length) : ∃ g, g <:+ f ∧ ds = g ++ x.back := by
  obtain ⟨g, rfl⟩ := List.suffix_of_suffix_length_le (List.suffix_append f x.back) h hle
  obtain ⟨front, hfront⟩ := h
  rw [← List.append_assoc] at hfront
  exact ⟨g, ⟨front, List.append_cancel_right hfront⟩, rfl⟩

theorem Exchange.skipLine_back (x : Exchange) : skipLine x.back = x.back := by
  obtain ⟨c, rest, hcs, hc⟩ := x.begins_back
  have hsolid := x.begins_back.solid (by simp)
  rw [hcs] at hsolid ⊢
  exact skipLine_cons (fun hblank => absurd hblank.1 (Char.not_le.mpr (hsolid c rfl).1))
    (hsolid c rfl).2 rest

/-- The name of a case stands on one side of the piece. -/
theorem Grammar.CaseNamed.carried {x : Exchange} {name cs cs' ds : List Char}
    (h : CaseNamed name cs ds) (htwin : x.Twin cs cs')
    (hout : x.back.length ≤ ds.length ∨ cs.length ≤ x.after.length) :
    ∃ ds', CaseNamed name cs' ds' ∧ x.Beside ds ds' := by
  obtain ⟨line, rest, hcs, hname, hline, hrest, hend⟩ := id h
  have htail : ds <:+ rest := by
    refine List.IsSuffix.trans ?_ (skipLine_suffix rest)
    rcases hend with hfeed | ⟨hds, -⟩
    · rw [hfeed]
      exact List.suffix_cons _ ds
    · rw [hds]
  have hbehind : rest <:+ line := by
    refine List.IsSuffix.trans ?_ (skipLine_suffix line)
    rw [hline]
    exact List.suffix_append name rest
  have hopen : line <:+ cs := hcs ▸ List.suffix_append ['-', '-'] line
  cases htwin with
  | behind hsuffix => exact ⟨ds, h, .inr ⟨((htail.trans hbehind).trans hopen).trans hsuffix, rfl⟩⟩
  | hole =>
      obtain ⟨c, tail, htail, hc⟩ := x.begins_back
      rw [htail] at hcs
      exact absurd (List.cons.inj hcs).1 (ne_of_first hc (by decide) (by decide))
  | @before f hf hne =>
      have hle : x.back.length ≤ ds.length := by
        refine hout.resolve_right fun hle => ?_
        have := x.after_lt_back
        rw [List.length_append] at hle
        omega
      have hle' := hle.trans htail.length_le
      obtain ⟨g, hg, rfl⟩ := Exchange.suffix_back ((htail.trans hbehind).trans hopen) hle
      obtain ⟨r, -, rfl⟩ := Exchange.suffix_back (hbehind.trans hopen) hle'
      obtain ⟨l, -, rfl⟩ := Exchange.suffix_back hopen (hle'.trans hbehind.length_le)
      obtain rfl : f = '-' :: '-' :: l := List.append_cancel_right hcs
      have hmore {c : Char} {front rest : List Char} (hc : c ≠ '/')
          (hskip : skipLine (front ++ x.back) = c :: rest ++ x.back) :
          skipLine (front ++ x.back') = c :: rest ++ x.back' :=
        skipLine_append x.skipLine_back x.head_back hc front hskip x.back'
      have hnot : x.back.head? ≠ some '\x7d' := by
        simpa using x.begins_back.head_ne (d := '\x7d') (by decide) (by decide) []
      refine ⟨g ++ x.back', ⟨l ++ x.back', r ++ x.back', rfl, hname, ?_, ?_, ?_⟩,
        .inl ⟨g, hg.trans hf, rfl, rfl⟩⟩
      · obtain ⟨c, name', rfl, hc⟩ : Begins [] name := .of_isName hname
        rw [← List.append_assoc] at hline ⊢
        exact hmore (ne_of_first hc (by decide) (by decide)) hline
      · cases r with
        | nil =>
            -- the name would reach the piece
            rw [List.nil_append, x.skipLine_back] at hend
            rcases hend with hfeed | ⟨hstop, hbrace⟩
            · have := congrArg List.length hfeed
              rw [List.length_cons] at this
              omega
            · exact absurd (hstop ▸ hbrace) hnot
        | cons c r => exact hrest
      · rcases hend with hfeed | ⟨hstop, hbrace⟩
        · exact .inl (hmore (by decide) hfeed)
        · cases g with
          | nil => exact absurd hbrace hnot
          | cons c g =>
              refine .inr ⟨hmore ?_ hstop, hbrace⟩
              obtain rfl : c = '\x7d' := by simpa using hbrace
              decide

namespace Grammar.ParsedBy

variable {p : Parser} {x : Exchange} {hole t : Tree.Located} {H : Tree.Property} {q : String}
  {cs cs' ds : List Char} (hp : ofGrammars.ParsedBy p)

/-- A text is carried over that the rule reads whatever stands behind it now. -/
theorem carried_of_reads (htidy : p.Tidy) {s : List Char} (hq : q ∈ texts)
    (h : p.Spans q (s ++ ds) ds t)
    (hs : s ≠ []) (htwin : x.Twin (s ++ ds) cs')
    (hout : x.back.length ≤ ds.length ∨ (s ++ ds).length ≤ x.after.length)
    (hread : ∀ ds', (∃ f, s ++ f <:+ x.before ∧ ds = f ++ x.back ∧ ds' = f ++ x.back') ∨
      ds <:+ x.after ∧ ds' = ds → p.Yields q (s ++ ds') ds' (Tree.Spells q s)) :
    ∃ ds', p.Yields q cs' ds' (Tree.Twins hole H t) ∧ x.Beside ds ds' := by
  obtain ⟨ds', rfl, hds'⟩ := htwin.take hs hout
  refine ⟨ds', (hread ds' hds').mono fun u hu => ?_, hds'.imp_left fun ⟨f, hf, heq⟩ =>
    ⟨f, (List.suffix_append s f).trans hf, heq⟩⟩
  exact .text hq (h.rule? htidy) hu.1 (hu.2.trans h.text.symm)

include hp

theorem carried_ident (h : p.Spans "ident" cs ds t) (htwin : x.Twin cs cs')
    (hout : x.back.length ≤ ds.length ∨ cs.length ≤ x.after.length) :
    ∃ ds', p.Yields "ident" cs' ds' (Tree.Twins hole H t) ∧ x.Beside ds ds' := by
  rcases name_cases cs with hnone | ⟨name, rest, hname, hrest, rfl⟩
  · exact absurd (hp.ident_fails hnone) h.not_fails
  · obtain ⟨rfl, -⟩ := h.of_parses (hp.ident_parses hname hrest)
    have hne : name ≠ [] := by
      rintro rfl
      cases hname
    refine carried_of_reads (hp.tidy acyclic_ofGrammars) (by decide) h hne htwin hout
      fun ds' hds' => ⟨name, rfl, ?_⟩
    refine hp.ident_parses hname fun c hc => ?_
    obtain ⟨f, hf, rfl, rfl⟩ | ⟨-, rfl⟩ := hds'
    · cases f with
      | nil =>
          obtain ⟨d, hd⟩ := List.getLast?_isSome.mpr hne |> Option.isSome_iff_exists.mp
          obtain ⟨front, hfront⟩ := hf
          refine x.apart d ?_ ?_ c hc
          · rw [← hfront, List.append_nil, List.getLast?_append, hd]
            rfl
          · exact isNameRest_of_mem hname (List.mem_of_getLast? hd)
      | cons d f => exact hrest c hc
    · exact hrest c hc

theorem carried_terminal (h : p.Spans "terminal" cs ds t) (htwin : x.Twin cs cs')
    (hout : x.back.length ≤ ds.length ∨ cs.length ≤ x.after.length) :
    ∃ ds', p.Yields "terminal" cs' ds' (Tree.Twins hole H t) ∧ x.Beside ds ds' := by
  have htidy := hp.tidy acyclic_ofGrammars
  obtain ⟨us, hus, rfl, -⟩ := hp.terminal_spans htidy h
  exact carried_of_reads htidy (by decide) h (List.cons_ne_nil _ _) htwin hout
    fun ds' _ => ⟨_, rfl, hp.terminal_parses_pieces hus ds'⟩

theorem carried_oneCharTerminal (h : p.Spans "oneCharTerminal" cs ds t) (htwin : x.Twin cs cs')
    (hout : x.back.length ≤ ds.length ∨ cs.length ≤ x.after.length) :
    ∃ ds', p.Yields "oneCharTerminal" cs' ds' (Tree.Twins hole H t) ∧ x.Beside ds ds' := by
  have htidy := hp.tidy acyclic_ofGrammars
  obtain ⟨u, hu, rfl, -⟩ := hp.oneCharTerminal_spans htidy h
  exact carried_of_reads htidy (by decide) h (List.cons_ne_nil _ _) htwin hout
    fun ds' _ => ⟨_, rfl, hp.oneCharTerminal_parses_piece hu ds'⟩

/-- Where a description ends is decided before the piece, or behind it. -/
theorem carried_ruleDescrText (h : p.Spans "ruleDescrText" cs ds t) (htwin : x.Twin cs cs')
    (hout : x.back.length ≤ ds.length ∨ cs.length ≤ x.after.length) :
    ∃ ds', p.Yields "ruleDescrText" cs' ds' (Tree.Twins hole H t) ∧ x.Beside ds ds' := by
  have htidy := hp.tidy acyclic_ofGrammars
  obtain ⟨rfl, hrule, htext⟩ := (hp.ruleDescrText_yields cs).of_spans h
  have htwins (front ds' : List Char) (hcs : cs = front ++ seek [')'] cs)
      (hcs' : cs' = front ++ ds') (hds' : seek [')'] cs' = ds') :
      p.Yields "ruleDescrText" cs' ds' (Tree.Twins hole H t) := by
    subst hds'
    refine (hp.ruleDescrText_yields cs').mono fun u ⟨hu, hutext⟩ => ?_
    exact .text (by decide) hrule hu ((hutext front hcs').trans (htext front hcs).symm)
  have hback : seek [')'] x.back ≠ x.back := by
    intro heq
    obtain ⟨rest, hrest⟩ := prefix_seek (heq.symm ▸ x.back_ne)
    rw [heq] at hrest
    obtain ⟨c, rest', hcs, hc⟩ := x.begins_back
    rw [hcs] at hrest
    exact ne_of_first hc (by decide) (by decide) (List.cons.inj hrest).1.symm
  have hlt := x.after_lt_back
  cases htwin with
  | @before f hf _ =>
      have hle : x.back.length ≤ (seek [')'] (f ++ x.back)).length := by
        refine hout.resolve_right fun hle => ?_
        rw [List.length_append] at hle
        omega
      have hfound : seek [')'] f ≠ [] := by
        intro hnil
        rw [seek_singleton_append hnil] at hle
        exact hback ((seek_suffix [')'] x.back).eq_of_length
          (Nat.le_antisymm (length_seek_le _ _) hle))
      obtain ⟨front, hfront⟩ := seek_suffix [')'] f
      refine ⟨seek [')'] f ++ x.back', htwins front _ ?_ ?_ (seek_append hfound _),
        .inl ⟨_, (seek_suffix _ f).trans hf, seek_append hfound _, rfl⟩⟩
      · rw [seek_append hfound, ← List.append_assoc, hfront]
      · rw [← List.append_assoc, hfront]
  | hole =>
      have hle := hout.resolve_right (by omega)
      exact absurd ((seek_suffix [')'] x.back).eq_of_length
        (Nat.le_antisymm (length_seek_le _ _) hle)) hback
  | behind hsuffix =>
      obtain ⟨front, hfront⟩ := seek_suffix [')'] cs
      exact ⟨_, htwins front _ hfront.symm hfront.symm rfl,
        .inr ⟨(seek_suffix _ cs).trans hsuffix, rfl⟩⟩

theorem carried_text (hq : q ∈ texts) (h : p.Spans q cs ds t) (htwin : x.Twin cs cs')
    (hout : x.back.length ≤ ds.length ∨ cs.length ≤ x.after.length) :
    ∃ ds', p.Yields q cs' ds' (Tree.Twins hole H t) ∧ x.Beside ds ds' := by
  simp only [texts, List.mem_cons, List.not_mem_nil, or_false] at hq
  rcases hq with rfl | rfl | rfl | rfl
  · exact hp.carried_ident h htwin hout
  · exact hp.carried_terminal h htwin hout
  · exact hp.carried_oneCharTerminal h htwin hout
  · exact hp.carried_ruleDescrText h htwin hout

/-! ## Names of cases -/

theorem carried_caseName (h : p.Spans "caseName" cs ds t) (htwin : x.Twin cs cs')
    (hout : x.back.length ≤ ds.length ∨ cs.length ≤ x.after.length) :
    ∃ ds', p.Yields "caseName" cs' ds' (Tree.Twins hole H t) ∧ x.Beside ds ds' := by
  obtain ⟨name, hnamed⟩ := hp.caseName_spans h
  obtain ⟨ds', hnamed', hbeside⟩ := hnamed.carried htwin hout
  obtain ⟨-, hrule, hname⟩ := (hp.caseName_yields hnamed).of_spans h
  exact ⟨ds', (hp.caseName_yields hnamed').mono fun u hu =>
    .caseName hrule hu.1 (hu.2.trans hname.symm), hbeside⟩

end Grammar.ParsedBy

end Pegboard
