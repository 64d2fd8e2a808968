import Pegboard.Proofs.Grammar.Printed
import Pegboard.Proofs.Grammar.Sourced

/-!
# Bodies printed again

A source goes on to compile where the body of a rule that it defines gives way to what is printed of
the body, as long as that is legible: the grammars are the same, but that each choice in a choice and
each sequence in a sequence of the body is taken apart.

Main statement: `compile_reprinted`.
-/

namespace Pegboard

open Text Grammar Grammar.Build

namespace Text

/-- What is skipped in front of something ends with a blank or with a comment. -/
theorem last_skipped (cs : List Char) : ∃ front, cs = front ++ skip cs ∧
    (skip cs ≠ [] → ∀ c ∈ front.getLast?, c ≤ ' ' ∨ c = '/') := by
  have behind {front' : List Char} (h : ∀ c ∈ front'.getLast?, c ≤ ' ' ∨ c = '/')
      (front : List Char) (hlast : front' = [] → ∀ c ∈ front.getLast?, c ≤ ' ' ∨ c = '/') :
      ∀ c ∈ (front ++ front').getLast?, c ≤ ' ' ∨ c = '/' := by
    cases front' with
    | nil => simpa using hlast rfl
    | cons d front' => rwa [List.getLast?_append_of_ne_nil _ (List.cons_ne_nil d front')]
  fun_induction skip cs with
  | case1 => exact ⟨[], rfl, by simp⟩
  | case2 cs ih =>
      obtain ⟨front', hfront', hlast⟩ := ih
      obtain ⟨passed, hpassed⟩ := seek_suffix ['\n'] cs
      refine ⟨'/' :: '/' :: passed ++ front', ?_, fun hne => behind (hlast hne) _ ?_⟩
      · rw [List.append_assoc, ← hfront', List.cons_append, List.cons_append, hpassed]
      · -- the line feed behind the comment is skipped as well
        rintro rfl
        have hseek : seek ['\n'] cs ≠ [] := fun hnil => hne (by rw [hnil, skip])
        obtain ⟨rest, hrest⟩ := prefix_seek hseek
        have hle := length_skip_le rest
        have hskip := skip_cons_blank (c := '\n') (by decide) rest
        rw [List.nil_append, ← hrest, List.singleton_append, hskip] at hfront'
        have := congrArg List.length hfront'
        rw [List.length_cons] at this
        omega
  | case3 cs h => exact ⟨[], rfl, by simp⟩
  | case4 cs h ih =>
      obtain ⟨front', hfront', hlast⟩ := ih
      obtain ⟨passed, hpassed⟩ := seek_suffix ['*', '/'] cs
      obtain ⟨rest, hrest⟩ := prefix_seek h
      have hdrop : seek ['*', '/'] cs = '*' :: '/' :: (seek ['*', '/'] cs).drop 2 := by
        rw [← hrest]
        rfl
      refine ⟨'/' :: '*' :: (passed ++ ['*', '/']) ++ front', ?_, fun hne => behind (hlast hne) _ ?_⟩
      · rw [List.append_assoc, ← hfront', List.cons_append, List.cons_append, List.append_assoc,
          List.cons_append, List.cons_append, List.nil_append, ← hdrop, hpassed]
      · rintro - c hc
        refine .inr ?_
        rw [← List.cons_append, ← List.cons_append,
          List.getLast?_append_of_ne_nil _ (List.cons_ne_nil _ _)] at hc
        exact (Option.some.inj hc).symm
  | case5 c cs hline hblock hc ih =>
      obtain ⟨front', hfront', hlast⟩ := ih
      refine ⟨[c] ++ front', ?_, fun hne => behind (hlast hne) _ ?_⟩
      · rw [List.append_assoc, ← hfront']
        rfl
      · rintro - d hd
        obtain rfl : c = d := by simpa using hd
        exact .inl hc
  | case6 c cs hline hblock hc => exact ⟨[], rfl, by simp⟩

end Text

/-! ## Bodies up to nesting -/

/-- The expressions are the same but for choices in choices and sequences in sequences. -/
def Expr.FlatAlike (e e' : Expr) : Prop :=
  e'.flat = e.flat

theorem Expr.FlatAlike.congruent : Congruent Expr.FlatAlike where
  refl _ := rfl
  alt {e e' f f'} h h' := by
    rw [FlatAlike] at *
    rw [flat, flat, flatChoices_eq, flatChoices_eq]
    simp only [List.flatMap_cons, List.flatMap_nil, h, h']

theorem Grammar.Build.Replaces.of_isBody {s s' : Tree.Located} {terms : List Expr}
    (hfull : (Expr.choice terms).full = true) (h : IsBody terms s)
    (h' : IsBody (Expr.choice terms).flat.choices s') : Replaces Expr.FlatAlike s s' := by
  have hflat := Expr.isFlat_flat _ hfull
  refine .body h.1 h'.1 fun st st' rule _ => ?_
  obtain ⟨apps, heq, happs⟩ := readBody_eq st rule h
  obtain ⟨apps', heq', happs'⟩ := readBody_eq st' rule h'
  rw [heq, heq']
  refine .ok ⟨?_, .nil, ?_⟩
  · show (Expr.choice _).flat = _
    rw [hflat.choice_eq, hflat.flat_eq]
  · show apps'.map _ = apps.map _
    rw [happs', hflat.choice_eq, Expr.applications_flat, happs]

namespace Grammar

/-! ## Where a body stands -/

namespace ParsedBy

variable {p : Parser} {d body : Tree.Located} {cs ds : List Char} (hp : ofGrammars.ParsedBy p)

include hp

theorem ruleBody_begins (h : p.Spans "RuleBody" (skip cs) ds body) :
    Begins ['(', '"', '~', '&', '#', '|'] (skip cs) := by
  obtain ⟨w, hw, hrow⟩ := hp.took_row (e := Expr.seq _) rfl (hp.took ruleBody_body h)
  obtain ⟨a, ha, _, ⟨_, rfl, _, -, rfl⟩, rfl⟩ := hw
  generalize body.applications = ss at hrow
  rcases ha with rfl | rfl
  · cases hrow with
    | rule _ hterm _ =>
        rw [skip_skip] at hterm
        exact (hp.topLevelTerm_begins hterm.not_fails).mono (by simp)
  · cases hrow with
    | mark hbar _ =>
        rw [skip_skip] at hbar
        exact ⟨'|', _, hbar, .inl (by decide)⟩

/-- The body of a definition stands behind an equals sign. -/
theorem body_of_define (h : p.Spans "Rule_define" cs ds d) (hbody : d.first? "RuleBody" = some body) :
    ∃ rest, '=' :: rest <:+ cs ∧ p.Spans "RuleBody" (skip rest) ds body := by
  have htidy := hp.tidy acyclic_ofGrammars
  have hlast {cs₁ : List Char} {ss : List Tree.Located}
      (hrow : Row p d.input [.mark "=", .rule "RuleBody"] cs₁ ds ss) :
      ∃ rest t, '=' :: rest <:+ cs₁ ∧ ss = [t] ∧ p.Spans "RuleBody" (skip rest) ds t := by
    cases hrow with
    | @mark _ _ _ rest _ _ hequals hrow =>
        cases hrow with
        | rule _ hspans hrow =>
            cases hrow
            exact ⟨rest, _, (show "=".toList ++ rest <:+ cs₁ from hequals ▸ skip_suffix cs₁), rfl,
              hspans⟩
  obtain ⟨w, hw, hrow⟩ := hp.took_row (e := Expr.seq _) rfl (hp.took rule_define_body h)
  obtain ⟨_, rfl, _, ⟨b, hb, _, ⟨_, rfl, _, ⟨_, rfl, _, rfl, rfl⟩, rfl⟩, rfl⟩, rfl⟩ := hw
  have hfirst (ss : List Tree.Located) {t : Tree.Located} (happs : d.applications = ss ++ [t])
      (hss : ∀ s ∈ ss, s.tree.rule? ≠ some "RuleBody") (ht : t.tree.rule? = some "RuleBody") :
      t = body := by
    rw [Tree.Located.first?, happs, List.find?_append, List.find?_eq_none.mpr (by simpa using hss)]
      at hbody
    simpa [ht] using hbody
  generalize happs : d.applications = ss at hrow
  rcases hb with rfl | rfl
  · cases hrow with
    | @rule _ _ _ cs₁ _ ident _ _ hident hrow =>
        obtain ⟨rest, t, hsuffix, rfl, hspans⟩ := hlast hrow
        obtain rfl := hfirst [ident] happs
          (List.forall_mem_singleton.mpr (by simp [hident.rule? htidy])) (hspans.rule? htidy)
        exact ⟨rest, hsuffix.trans (hident.suffix.trans (skip_suffix cs)), hspans⟩
  · cases hrow with
    | @rule _ _ _ cs₁ _ ident _ _ hident hrow =>
        cases hrow with
        | @rule _ _ _ cs₂ _ descr _ _ hdescr hrow =>
            obtain ⟨rest, t, hsuffix, rfl, hspans⟩ := hlast hrow
            obtain rfl := hfirst [ident, descr] happs
              (by simp [hident.rule? htidy, hdescr.rule? htidy]) (hspans.rule? htidy)
            exact ⟨rest, hsuffix.trans (hdescr.suffix.trans ((skip_suffix cs₁).trans
              (hident.suffix.trans (skip_suffix cs)))), hspans⟩

/-- A tree of a rule that never matches nothing covers something. -/
theorem spans_ne {q : String} {t : Tree.Located} (hq : q ∉ Source.staying) (h : p.Spans q cs ds t) :
    ds ≠ cs := by
  have hspaces : q ≠ "spaces" := by
    rintro rfl
    exact hq (by decide)
  obtain ⟨ds', hyields⟩ | hfails := (hp.tidy acyclic_ofGrammars).yields_or_fails hspaces cs
  · obtain ⟨rfl, -⟩ := hyields.of_spans h
    exact hp.yields_ne hq hyields
  · exact absurd hfails h.not_fails

/-- The body of a definition begins as expressions do, right behind the equals sign or behind what
is skipped. -/
theorem bounds_of_define {before here after : List Char}
    (hsource : d.input.text.toList = before ++ (here ++ after)) (hd : p.Found "Rule_define" d)
    (hbody : d.first? "RuleBody" = some body)
    (hspans : p.Spans "RuleBody" (here ++ after) after body) :
    Begins ['(', '"', '~', '&', '#', '|'] here ∧ ∀ c ∈ before.getLast?, isNameRest c = false := by
  obtain ⟨cs, ds, hd⟩ := spans_of_found (hp.tidy acyclic_ofGrammars) hd
  obtain ⟨rest, ⟨f, rfl⟩, hrest⟩ := hp.body_of_define hd hbody
  have hhere : skip rest = here ++ after := hrest.left.unique hspans.left
  have hne : here ≠ [] := by
    rintro rfl
    exact hp.spans_ne (by decide) hspans rfl
  obtain ⟨front, hfront, hlast⟩ := last_skipped rest
  rw [hhere] at hrest hfront hlast
  constructor
  · obtain ⟨c, tail, hcs, hc⟩ := hhere ▸ hp.ruleBody_begins (hhere.symm ▸ hrest)
    obtain ⟨c', here, rfl⟩ := List.exists_cons_of_ne_nil hne
    obtain ⟨rfl, -⟩ := List.cons.inj hcs
    exact ⟨c', here, rfl, hc⟩
  · obtain ⟨front', hfront', -⟩ := hd.left
    obtain rfl : before = front' ++ f ++ '=' :: front := by
      have htext : before ++ (here ++ after) = front' ++ f ++ '=' :: front ++ (here ++ after) := by
        rw [← hsource, hfront', hfront]
        simp
      exact List.append_cancel_right htext
    intro c hc
    rw [List.getLast?_append_of_ne_nil _ (List.cons_ne_nil _ _)] at hc
    cases front with
    | nil =>
        obtain rfl : '=' = c := by simpa using hc
        decide
    | cons e front =>
        rw [List.getLast?_cons_cons] at hc
        obtain hle | rfl := hlast (by simp [hne]) c hc
        · exact Bool.eq_false_iff.mpr fun hname => Char.not_le.mpr (lt_of_isNameRest hname) hle
        · decide

end ParsedBy

end Grammar

/-! ## Sources with a body printed again -/

/-- The exchange of the body of a definition for what is printed of it. -/
def Exchange.reprinted {before here : List Char} (after : List Char) {there : List Char}
    (hhere : Begins ['(', '"', '~', '&', '#', '|'] here)
    (hbefore : ∀ c ∈ before.getLast?, isNameRest c = false) (hthere : Opens there)
    (hclosed : seek ['*', '/'] (here ++ after) = [] → seek ['*', '/'] (there ++ after) = []) :
    Exchange where
  before := before
  here := here
  after := after
  gap := []
  there := there
  here_begins := hhere
  there_opens := hthere
  gap_blank := nofun
  closed := hclosed
  apart c hc hname := absurd hname (Bool.eq_false_iff.mp (hbefore c hc))

namespace Grammar

/-- A source compiles to the same grammars, up to the nesting of choices and of sequences, where what
is printed of a rule that it defines without case names stands for the body of the rule. The body has
to be legible, and may neither make a rule's head of an identifier that is applied in front of it nor
close a comment that was not closed. -/
theorem compile_reprinted {before here after : String} {ns : Namespace} {root d body : Tree.Located}
    {g : Grammar} {r : Rule} (hns : compile (before ++ here ++ after) = .ok ns)
    (hroot : sourceTree? (before ++ here ++ after) = some root)
    (hreach : root.Reaches d) (hd : d.tree.rule? = some "Rule_define")
    (hbody : d.first? "RuleBody" = some body)
    (hplace : body.interval = ⟨before.utf8ByteSize, (before ++ here).utf8ByteSize⟩)
    (hcases : ∀ s, body.Reaches s → s.tree.rule? ≠ some "TopLevelTerm_inline")
    (hg : g ∈ ns) (hr : r ∈ g.rules) (hsource : r.source = some d.interval)
    (hlegible : r.body.legible after.toList = true)
    (hplain : root.Unheaded before.utf8ByteSize (before ++ r.body.text ++ after))
    (hclosed : seek ['*', '/'] (here ++ after).toList = [] →
      seek ['*', '/'] (r.body.text ++ after).toList = [])
    (hdeep : ofGrammars.matchText (before ++ r.body.text ++ after) none ≠
      .error (.tooDeep "Ohm" "Grammars")) :
    ∃ ns', compile (before ++ r.body.text ++ after) = .ok ns' ∧
      List.Forall₂ (Grammar.Alike Expr.FlatAlike) ns ns' := by
  obtain ⟨r', hr'⟩ := matchText_of_shallow hdeep
  have hp := acyclic_ofGrammars.parsedBy
  have htidy := hp.tidy acyclic_ofGrammars
  obtain ⟨terms, hterms, hchoice, hexpressible⟩ :=
    isBody_of_source hns hroot hreach hd hbody hcases hg hr hsource
  rw [String.toList_append, String.toList_append] at hclosed
  -- the node of the body, from where it stands
  have hbodyreach : root.Reaches body := hreach.tail (List.mem_of_find?_eq_some hbody)
  have htext : (before ++ here ++ after).toList =
      before.toList ++ (here.toList ++ after.toList) := by simp
  have hplace' : body.interval =
      ⟨byteSize before.toList, byteSize (before.toList ++ here.toList)⟩ := by
    rw [← String.toList_append, byteSize_toList, byteSize_toList, hplace]
  have hspans := hp.spans_of_sourceTree htext hroot hbodyreach hterms.1 hplace'
  obtain ⟨hinput, hfound⟩ := htidy.found_root (hp.sourceTree_eq hroot).2
  obtain ⟨hhere, hbefore⟩ := hp.bounds_of_define
    (by rw [hreach.input_eq, hinput, ← htext]; rfl) (hp.found_of_reaches hfound hreach hd) hbody
    hspans
  -- what is printed stands there now
  have hprinted := hp.printed true r.body hexpressible.full (hexpressible.applicable true)
  let x := Exchange.reprinted after.toList hhere hbefore hprinted.opens hclosed
  have hsource' : (before ++ r.body.text ++ after).toList = x.before ++ x.back' := by
    simp [x, Exchange.reprinted, Exchange.back']
  refine compile_exchange Expr.FlatAlike.congruent
    (fun s' hs' => .of_isBody (hchoice ▸ hexpressible.full) hterms (hchoice ▸ hs')) htext hsource' hns
    hroot hbodyreach hterms.1 (by decide) (by decide) hplace' (fun p hp _ hds => ?_) ?_ hr'
  · exact hp.ruleBody_yields hexpressible hlegible hds
  · rwa [show byteSize x.before = before.utf8ByteSize from byteSize_toList before]

theorem compile_reprinted_choices :
    ∃ ns ns', compile "G\x7ba=(\"b\"|any)|~(any)\x7d" = .ok ns ∧
      compile "G\x7ba=\"b\" | any | ~any\x7d" = .ok ns' ∧
        List.Forall₂ (Grammar.Alike Expr.FlatAlike) ns ns' := by
  have hbuilt : (compile "G\x7ba=(\"b\"|any)|~(any)\x7d").toOption.map (fun ns =>
      ns.any fun g => g.rules.any fun r => decide (r.source = some ⟨2, 20⟩ ∧
        r.body.text = "\"b\" | any | ~any" ∧ r.body.legible ['}'] = true)) = some true := by
    decide +kernel
  have hmatched : (ofGrammars.matchText "G\x7ba=\"b\" | any | ~any\x7d" none).toOption.isSome =
      true := by
    decide +kernel
  have htree : (sourceTree? "G\x7ba=(\"b\"|any)|~(any)\x7d").any (fun root =>
      !(root.everywhere fun d => decide ¬(d.tree.rule? = some "Rule_define" ∧
          d.interval = ⟨2, 20⟩ ∧ (d.first? "RuleBody").any (fun body =>
            decide (body.interval = ⟨4, 20⟩) && body.everywhere fun s =>
              decide (s.tree.rule? ≠ some "TopLevelTerm_inline")) = true)) &&
        decide (root.Unheaded 4 "G\x7ba=\"b\" | any | ~any\x7d")) = true := by
    decide +kernel
  obtain ⟨ns, hns, hrule⟩ := toOption_map_eq_some hbuilt
  obtain ⟨g, hg, hrule⟩ := List.any_eq_true.mp hrule
  obtain ⟨r, hr, hrule⟩ := List.any_eq_true.mp hrule
  obtain ⟨hsource, htext, hlegible⟩ := of_decide_eq_true hrule
  obtain ⟨root, hroot, hnode⟩ := (Option.any_eq_true _ _).mp htree
  obtain ⟨hnode, hplain⟩ := (Bool.and_eq_true _ _).mp hnode
  obtain ⟨d, hreach, hd, hat, hnode⟩ :=
    Tree.Located.exists_of_everywhere ((Bool.not_eq_true' _).mp hnode)
  obtain ⟨body, hbody, hnode⟩ := (Option.any_eq_true _ _).mp hnode
  obtain ⟨hplace, hcases⟩ := (Bool.and_eq_true _ _).mp hnode
  obtain ⟨ns', hns', halike⟩ := @compile_reprinted "G\x7ba=" "(\"b\"|any)|~(any)" "\x7d" ns root d
    body g r hns hroot hreach hd hbody (of_decide_eq_true hplace)
    (fun s hs => of_decide_eq_true (Tree.Located.everywhere_iff.mp hcases s hs)) hg hr
    (hsource.trans (congrArg some hat.symm)) hlegible
    (by rw [htext]; exact of_decide_eq_true hplain) (by rw [htext]; decide +kernel)
    (fun hdeep => by
      rw [htext, show "G\x7ba=" ++ "\"b\" | any | ~any" ++ "\x7d" =
        "G\x7ba=\"b\" | any | ~any\x7d" from rfl] at hdeep
      rw [hdeep] at hmatched
      cases hmatched)
  rw [htext] at hns'
  exact ⟨ns, ns', hns, hns', halike⟩

end Grammar

end Pegboard
