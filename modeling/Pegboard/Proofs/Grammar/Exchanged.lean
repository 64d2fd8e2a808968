import Pegboard.Proofs.Grammar.CarriedTree
import Pegboard.Proofs.Grammar.Rebuilt
import Pegboard.Proofs.Grammar.Closed

/-!
# Sources with an expression exchanged

A source in which one expression is written in another way compiles as it did, if the other way is
built into the same. What stands around the expression is read as before, unless an identifier in
front of it is taken for the head of a rule now.

Main statement: `compile_exchange`.
-/

namespace Pegboard

open Text

namespace Tree.Located

/-- Whether the trees from here down are all as asked for. -/
def everywhere (f : Located → Bool) (t : Located) : Bool :=
  t.tree.attributed (fun _ offset tree parts =>
    f ⟨tree, offset, t.input⟩ && parts.all fun part => part.2.2) t.offset

theorem everywhere_eq (f : Located → Bool) (t : Located) :
    t.everywhere f = (f t && t.applications.all (everywhere f)) := by
  rw [everywhere, Tree.attributed_eq fun _ => rfl, applications, List.all_map, List.all_map]
  rfl

theorem everywhere_iff {f : Located → Bool} {t : Located} :
    t.everywhere f = true ↔ ∀ s, t.Reaches s → f s = true := by
  induction t using Located.induction with
  | step t ih =>
      rw [everywhere_eq, Bool.and_eq_true, List.all_eq_true]
      constructor
      · rintro ⟨hself, hbelow⟩ s hs
        rcases hs.cases_head with rfl | ⟨u, hu, hs⟩
        · exact hself
        · exact (ih u hu).mp (hbelow u hu) s hs
      · exact fun h => ⟨h t .refl, fun u hu => (ih u hu).mpr fun s hs => h s (.head hu hs)⟩

/-- A tree that is as asked for, if not all are otherwise. -/
theorem exists_of_everywhere {P : Located → Prop} [DecidablePred P] {t : Located}
    (h : t.everywhere (fun s => decide (¬ P s)) = false) : ∃ s, t.Reaches s ∧ P s := by
  by_contra hnone
  refine Bool.false_ne_true (h.symm.trans (everywhere_iff.mpr fun s hs => ?_))
  exact decide_eq_true fun hP => hnone ⟨s, hs, hP⟩

/-- Behind no identifier that is applied in front of the byte does the source go on with the rest of
a head. -/
def Unheaded (root : Located) (stop : Nat) (source : String) : Prop :=
  ∀ s, root.Reaches s → s.tree.rule? = some "Base_application" → s.interval.stop ≤ stop →
    headed (dropBytes source.toList s.interval.stop) = false

instance (root : Located) (stop : Nat) (source : String) :
    Decidable (root.Unheaded stop source) :=
  decidable_of_iff (root.everywhere fun s =>
      decide (s.tree.rule? = some "Base_application" → s.interval.stop ≤ stop →
        headed (dropBytes source.toList s.interval.stop) = false) = true) <| by
    rw [everywhere_iff]
    simp only [decide_eq_true_eq, Unheaded]

end Tree.Located

section

variable {x : Exchange} {source source' : String} {root hole : Tree.Located} {q : String}

theorem Exchange.Guarded.of_unheaded {p : Parser} (hinput : root.input = .ofString source)
    (hsource : source.toList = x.before ++ x.back)
    (hsource' : source'.toList = x.before ++ x.back')
    (h : root.Unheaded (byteSize x.before) source') (hp : p.Tidy) : x.Guarded p root := by
  intro s hreach cs f hspans hf
  obtain ⟨front, hfront, hoffset⟩ := hspans.left
  obtain ⟨passed, rfl, hsize⟩ := hspans.split
  have hbefore : x.before = front ++ passed ++ f := by
    have htext : x.before ++ x.back = front ++ passed ++ f ++ x.back := by
      rw [← hsource, List.append_assoc, List.append_assoc, ← hfront, hreach.input_eq, hinput]
      rfl
    exact List.append_cancel_right htext
  have hstop : s.interval.stop = byteSize (front ++ passed) := by
    rw [Tree.Located.interval, ← hoffset, ← hsize, byteSize_append]
  have hheaded := h s hreach (hspans.rule? hp)
    (by rw [hstop, hbefore, byteSize_append _ f]; omega)
  rwa [hstop, hsource', hbefore, List.append_assoc, dropBytes_append] at hheaded

namespace Grammar

open Build

/-- A match comes to something if it does not nest too deep. -/
theorem matchText_of_shallow (h : ofGrammars.matchText source none ≠
    .error (.tooDeep "Ohm" "Grammars")) : ∃ r, ofGrammars.matchText source none = .ok r := by
  obtain ⟨rule, hrule, hname⟩ := startRule_ofGrammars
  rw [← hname] at h
  exact (matchText_cases hrule source).resolve_right h

/-- The tree of a source that matches. -/
def sourceTree? (source : String) : Option Tree.Located :=
  (ofGrammars.matchText source none).toOption.bind Match.Result.root?

theorem ParsedBy.sourceTree_eq {p : Parser} (hp : ofGrammars.ParsedBy p)
    (h : sourceTree? source = some root) :
    ofGrammars.matchText source none = .ok (p.result "Grammars" source) ∧
      (p.result "Grammars" source).root? = some root := by
  rw [sourceTree?] at h
  cases hr : ofGrammars.matchText source none with
  | error e =>
      rw [hr] at h
      cases h
  | ok r =>
      obtain rfl := hp.eq_result hr
      rw [hr] at h
      exact ⟨rfl, h⟩

/-- A node of the tree of a source, from where it stands. -/
theorem ParsedBy.spans_of_sourceTree {p : Parser} {before here after : List Char}
    (hp : ofGrammars.ParsedBy p) (hsource : source.toList = before ++ (here ++ after))
    (hroot : sourceTree? source = some root) (hreach : root.Reaches hole)
    (hrule : hole.tree.rule? = some q)
    (hplace : hole.interval = ⟨byteSize before, byteSize (before ++ here)⟩) :
    p.Spans q (here ++ after) after hole := by
  have hoffset : hole.offset = byteSize before := congrArg Interval.start hplace
  have hsize : hole.tree.length = byteSize here := by
    have hstop := congrArg Interval.stop hplace
    rw [Tree.Located.interval, hoffset, byteSize_append] at hstop
    exact Nat.add_left_cancel hstop
  exact hp.spans_of_reaches hsource (hp.sourceTree_eq hroot).2 hreach hrule hoffset hsize

/-- A source compiles as before where a piece is exchanged for one that is built into the same as
the node that stood there. -/
theorem compile_exchange {E : Expr → Expr → Prop} {H : Tree.Property} {ns : Namespace}
    {r' : Match.Result} (hE : Congruent E) (hH : ∀ s', H s' → Replaces E hole s')
    (hsource : source.toList = x.before ++ x.back)
    (hsource' : source'.toList = x.before ++ x.back')
    (hns : compile source = .ok ns) (hroot : sourceTree? source = some root)
    (hreach : root.Reaches hole) (hrule : hole.tree.rule? = some q) (hq : q ∈ stepRules)
    (hsyntactic : isSyntactic q = true)
    (hplace : hole.interval = ⟨byteSize x.before, byteSize (x.before ++ x.here)⟩)
    (hnew : ∀ p : Parser, ofGrammars.ParsedBy p → p.Spans q x.back x.after hole →
      Follows q (x.gap ++ x.after) →
      p.Yields q (x.there ++ (x.gap ++ x.after)) (x.gap ++ x.after) H)
    (hplain : root.Unheaded (byteSize x.before) source')
    (hr' : ofGrammars.matchText source' none = .ok r') :
    ∃ ns', compile source' = .ok ns' ∧ List.Forall₂ (Grammar.Alike E) ns ns' := by
  have hp := acyclic_ofGrammars.parsedBy
  have htidy := hp.tidy acyclic_ofGrammars
  have hspans := hp.spans_of_sourceTree hsource hroot hreach hrule hplace
  obtain ⟨hr, hroot⟩ := hp.sourceTree_eq hroot
  obtain rfl := hp.eq_result hr'
  obtain ⟨hinput, cs, -, htree⟩ := htidy.found_root hroot
  obtain ⟨root', hroot', htwins⟩ := hp.exchange hspans hsource hsource' hroot hreach hq hsyntactic
    (hnew _ hp hspans) (.of_unheaded hinput hsource hsource' hplain htidy)
  have hbuilt : ofResult (Parser.result _ "Grammars" source) = .ok ns :=
    compileResult_eq_ok ((compile_eq hr).symm.trans hns)
  obtain ⟨ns', hns', halike⟩ := ofResult_also hE hH hroot hroot'
    (htidy "Grammars" cs _ htree).1 htwins ns hbuilt
  refine ⟨ns', ?_, halike⟩
  rw [compile_eq hr', compileResult, if_pos, hns']
  · rfl
  · rw [Match.Result.root?, Option.map_eq_some_iff] at hroot'
    obtain ⟨found, htree, -⟩ := hroot'
    rw [Match.Result.succeeded, htree, Option.isSome_some]

end Grammar

end

end Pegboard
