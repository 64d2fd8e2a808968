import Pegboard.Proofs.Grammar.Around
import Pegboard.Proofs.Grammar.Assembled

/-!
# Carrying a tree over to another text

Where a node of the tree of a source is exchanged, and what is there now is parsed by the same rule,
the tree has a twin in the other text. Only an identifier in front of the node may be taken for the
head of a rule now, which has to be ruled out.

Main statement: `ParsedBy.carried`.
-/

namespace Pegboard

open Text

/-- No identifier that was applied in front of the piece is followed by the rest of a head now. -/
def Exchange.Guarded (x : Exchange) (p : Parser) (t : Tree.Located) : Prop :=
  ∀ s, t.Reaches s → ∀ cs f, p.Spans "Base_application" cs (f ++ x.back) s → f <:+ x.before →
    headed (f ++ x.back') = false

/-- What leads through a whole text is the result for the text. -/
theorem Leads.root {p : Parser} (hp : p.Tidy) {q text : String} {ds : List Char}
    {P : Tree.Property} (h : Leads p (isSyntactic q) (.whole q) text.toList ds [P]) :
    ∃ s, (p.result q text).root? = some s ∧ P s := by
  obtain ⟨front, htext, hread⟩ := h
  rw [Reads, ← htext] at hread
  obtain ⟨trees, htaken, hP⟩ := hread
  obtain ⟨offset, tree, htrees, cs, hcs⟩ := Expr.read_whole_trees _ _ _ _ htaken
  obtain rfl : trees = [(offset, tree)] := htrees
  have hlocated := Tree.located_rule (hp q cs tree hcs).1 (.ofString text) 0 offset
  rw [Nat.zero_add] at hlocated
  have hleft : (Input.ofString text).LeftAt 0 (front ++ ds) := htext ▸ .start _
  obtain ⟨s, hs, hPs⟩ := Tree.each_singleton (hP _ 0 hleft)
  obtain rfl : ⟨tree, offset, .ofString text⟩ = s := by simpa [hlocated] using hs
  refine ⟨_, ?_, hPs⟩
  rw [Parser.result, Match.Result.root?, Reading.tree?, htaken]
  rfl

namespace Grammar.ParsedBy

variable {p : Parser} {x : Exchange} {hole t : Tree.Located} {H : Tree.Property} {q r : String}
  {cs cs' ds : List Char} (hp : ofGrammars.ParsedBy p)
  (hhole : p.Spans r x.back x.after hole) (hr : isSyntactic r = true)

include hp hhole

/-- What is there now is parsed where the node was. -/
theorem carried_hole (hnew : Follows r (x.gap ++ x.after) →
      p.Yields r (x.there ++ (x.gap ++ x.after)) (x.gap ++ x.after) H)
    (h : p.Spans q cs ds hole) (htwin : x.Twin cs cs')
    (hend : ∀ ds', x.Alike ds ds' → Follows q ds') :
    ∃ ds', p.Yields q cs' ds' (Tree.Twins hole H hole) ∧ x.Alike ds ds' := by
  have htidy := hp.tidy acyclic_ofGrammars
  obtain rfl : q = r := Option.some.inj ((h.rule? htidy).symm.trans (hhole.rule? htidy))
  obtain rfl := h.left.unique hhole.left
  obtain ⟨front, hfront, hsize⟩ := h.split
  obtain ⟨front', hfront', hsize'⟩ := hhole.split
  obtain ⟨-, rfl⟩ := append_inj_of_byteSize (hfront.symm.trans hfront') (hsize.trans hsize'.symm)
  obtain rfl := htwin.of_back
  exact ⟨_, (hnew (hend _ .edge)).mono fun _ hs => .hole hs, .edge⟩

include hr

/-- A rule that is put together from its steps is carried over if what it applies is. -/
theorem carried_node (hq : isSyntactic q = true) (hne : q ≠ "Base_application")
    (happs : ∀ s ∈ t.applications, x.Carried p hole H Follows stepRules s)
    (h : p.Spans q cs ds t) (hcs : x.Alike cs cs') (hkeeps : x.Keeps hole cs ds t.applications)
    (hend : ∀ ds', x.Alike ds ds' → Follows q ds') :
    ∃ ds', p.Yields q cs' ds' (Tree.Twins hole H t) ∧ x.Alike ds ds' := by
  have hrule : q ∈ ofGrammars.ruleNames := by
    obtain ⟨rule, n, trees, hrule, -, -⟩ := hp.body_took h.tree
    rw [← hasRule_iff, hasRule, hrule]
    rfl
  obtain ⟨e, hbody, hstepwise, hrows⟩ := hp.assembled hq hrule hne
  obtain ⟨w, hw, hrow⟩ := hp.took_row hstepwise (hp.took hbody h)
  obtain ⟨hfits, hleads⟩ := hrows w hw
  obtain ⟨ds', hcourse, halike⟩ :=
    hrow.carried (fun hreach hs => hp.around hhole hr hreach hs) happs hfits hkeeps hend hcs
  exact ⟨ds', hp.yields hbody (hleads _ _ _ hcourse (hend ds' halike)) fun s hs heach =>
    .of_each hq (h.rule? (hp.tidy acyclic_ofGrammars)) hs heach, halike⟩

/-- An identifier that was applied still is. -/
theorem carried_application (hguard : x.Guarded p t) (hne : t ≠ hole)
    (h : p.Spans "Base_application" cs ds t) (htwin : x.Twin cs cs')
    (hkeeps : x.Keeps hole cs ds [t]) :
    ∃ ds', p.Yields "Base_application" cs' ds' (Tree.Twins hole H t) ∧ x.Alike ds ds' := by
  have htidy := hp.tidy acyclic_ofGrammars
  obtain ⟨ds', ss₁, ss₂, hident, hrest, happs⟩ := (hp.took base_application_body h).cons htidy
  obtain ⟨hmiss, rfl, rfl⟩ := (hrest.last htidy).not
  obtain ⟨u, rfl, -, hspans⟩ := (hp.took_skip rfl (by simp) hident).apply htidy
  rw [List.append_nil] at happs
  have hnot : ¬ t.Reaches hole := by
    intro hreach
    rcases hreach.cases_head with rfl | ⟨s, hs, hreach⟩
    · exact hne rfl
    · obtain rfl : s = u := by simpa [happs] using hs
      exact hp.not_reaches ⟨_, hspans.left, hspans.tree⟩ (by decide) (hhole.rule? htidy) hr hreach
  have hout := hkeeps.outside hnot htwin
  have hlength := hspans.suffix.length_le
  have hclear : x.Clear cs := hout.imp_left fun hle => hle.trans hlength
  obtain ⟨ds', hyields, hbeside⟩ :
      ∃ ds', p.Yields "ident" (skip cs') ds' (Tree.Twins hole H u) ∧ x.Beside _ ds' :=
    hp.carried_ident hspans (htwin.alike.skip hclear)
      (hout.imp_right fun hle => (length_skip_le cs).trans hle)
  have hplain : headed ds' = false := by
    obtain ⟨f, hf, rfl, rfl⟩ | ⟨-, rfl⟩ := hbeside
    · exact hguard t .refl cs f h hf
    · refine Bool.eq_false_iff.mpr fun hheaded => ?_
      obtain ⟨ds, Ps, hleads⟩ := hp.leads_definition hheaded
      exact hleads.not_misses hmiss
  refine ⟨ds', hp.yields base_application_body ((hp.leads_rule hyields).cons
    (Leads.not (hp.misses_definition hplain)).last) fun s hs heach => ?_, hbeside.alike⟩
  exact .of_each rfl (h.rule? htidy) hs (by rw [happs]; exact heach)

/-- The tree has a twin wherever what stands behind it now may follow its rule. -/
theorem carried (hnew : Follows r (x.gap ++ x.after) →
      p.Yields r (x.there ++ (x.gap ++ x.after)) (x.gap ++ x.after) H)
    (t : Tree.Located) (hguard : x.Guarded p t) : x.Carried p hole H Follows stepRules t := by
  have htidy := hp.tidy acyclic_ofGrammars
  induction t using Tree.Located.induction with
  | step t ih =>
      intro q hq cs ds cs' h htwin hkeeps hend
      have happs : ∀ s ∈ t.applications, x.Carried p hole H Follows stepRules s := fun s hs =>
        ih s hs fun u hu => hguard u (Relation.ReflTransGen.head hs hu)
      by_cases heq : t = hole
      · subst heq
        exact hp.carried_hole hhole hnew h htwin hend
      · cases hsyntactic : isSyntactic q with
        | false =>
            have hout := hkeeps.outside (hp.not_reaches ⟨cs, h.left, h.tree⟩ hsyntactic
              (hhole.rule? htidy) hr) htwin
            have htokens : ∀ q ∈ stepRules, isSyntactic q = false →
                q ∈ texts ∨ q = "caseName" := by decide
            obtain ⟨ds', hyields, hbeside⟩ :
                ∃ ds', p.Yields q cs' ds' (Tree.Twins hole H t) ∧ x.Beside ds ds' := by
              rcases htokens q hq hsyntactic with htext | rfl
              · exact hp.carried_text htext h htwin hout
              · exact hp.carried_caseName h htwin hout
            exact ⟨ds', hyields, hbeside.alike⟩
        | true =>
            by_cases happlied : q = "Base_application"
            · subst happlied
              exact hp.carried_application hhole hr hguard heq h htwin hkeeps
            · refine hp.carried_node hhole hr hsyntactic happlied happs h htwin.alike
                ⟨hkeeps.clear, fun hbegin hstop => ?_⟩ hend
              obtain ⟨s, hs, hreach⟩ := hkeeps.around hbegin hstop
              obtain rfl := List.mem_singleton.mp hs
              rcases hreach.cases_head with hself | ⟨u, hu, hreach⟩
              · exact absurd hself heq
              · exact ⟨u, hu, hreach⟩

omit hhole hr in
/-- A node of the tree of a source, from where it stands. -/
theorem spans_of_reaches {source : String} {root : Tree.Located} {before here after : List Char}
    (hsource : source.toList = before ++ (here ++ after))
    (hroot : (p.result "Grammars" source).root? = some root) (hreach : root.Reaches hole)
    (hrule : hole.tree.rule? = some r) (hplace : hole.offset = byteSize before)
    (hsize : hole.tree.length = byteSize here) : p.Spans r (here ++ after) after hole := by
  obtain ⟨hinput, hfound⟩ := (hp.tidy acyclic_ofGrammars).found_root hroot
  obtain ⟨cs, hleft, htree⟩ := hp.found_of_reaches hfound hreach hrule
  obtain ⟨front, hfront, hoffset⟩ := id hleft
  have htext : front ++ cs = before ++ (here ++ after) := by
    rw [← hfront, hreach.input_eq, hinput, ← hsource]
    simp
  obtain ⟨-, rfl⟩ := append_inj_of_byteSize htext (hoffset.trans hplace)
  exact ⟨hleft, htree, here, rfl, hsize.symm⟩

omit hr in
/-- The root of a source has a twin where a node of it is exchanged. -/
theorem exchange {source source' : String} {root : Tree.Located}
    (hsource : source.toList = x.before ++ x.back)
    (hsource' : source'.toList = x.before ++ x.back')
    (hroot : (p.result "Grammars" source).root? = some root) (hreach : root.Reaches hole)
    (hr : r ∈ stepRules) (hsyntactic : isSyntactic r = true)
    (hnew : Follows r (x.gap ++ x.after) →
      p.Yields r (x.there ++ (x.gap ++ x.after)) (x.gap ++ x.after) H)
    (hguard : x.Guarded p root) :
    ∃ root', (p.result "Grammars" source').root? = some root' ∧ Tree.Twins hole H root root' := by
  have htidy := hp.tidy acyclic_ofGrammars
  obtain ⟨hinput, ds, htook⟩ := htidy.took_root hroot
  obtain ⟨ds, ss₁, ss₂, hgrammars, hlast, happs⟩ := htook.cons htidy
  obtain ⟨s, rfl, -, hspans⟩ := (hp.took_skip rfl (by simp) hgrammars).apply htidy
  obtain ⟨hend, rfl, rfl⟩ := (hp.took_skip rfl (by simp) (hlast.last htidy)).endOfInput
  obtain rfl : root = s := by simpa using happs
  rw [hsource] at hspans
  obtain ⟨hbegin, hstop⟩ := hp.around hhole hsyntactic hreach hspans
  have htwin : x.Twin (skip (x.before ++ x.back)) (skip (x.before ++ x.back')) :=
    (Exchange.Alike.before List.suffix_rfl).skip (.inl hbegin)
  have hkeeps : x.Keeps hole (skip (x.before ++ x.back)) ds root.applications := by
    refine ⟨.inr hstop, fun _ _ => ?_⟩
    rcases hreach.cases_head with rfl | ⟨s, hs, hreach⟩
    · obtain rfl : r = "Grammars" :=
        Option.some.inj ((hhole.rule? htidy).symm.trans (hspans.rule? htidy))
      exact absurd hr (by decide)
    · exact ⟨s, hs, hreach⟩
  have hfollows (ds' : List Char) (h : x.Alike ds ds') : Follows "Grammars" ds' := by
    exact follows_grammars.mpr ((h.skip (.inr hstop)).of_nil hend)
  obtain ⟨ds', hyields, halike⟩ := hp.carried_node hhole hsyntactic rfl (by decide)
    (fun s hs => hp.carried hhole hsyntactic hnew s fun u hu => hguard u (.head hs hu)) hspans
    htwin.alike hkeeps hfollows
  have hleads : Leads p true (.whole "Grammars") source'.toList [] [Tree.Twins hole H root] := by
    rw [hsource']
    refine (hp.leads_rule hyields).cons (Leads.last (hp.leads_skip rfl (by simp) ?_))
    rw [follows_grammars.mp (hfollows ds' halike)]
    exact ⟨[], rfl, .endOfInput⟩
  exact Leads.root htidy (q := "Grammars") hleads

end Grammar.ParsedBy

end Pegboard
