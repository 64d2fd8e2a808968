import Pegboard.Proofs.Grammar.Exchanged

/-!
# Parentheses around a name

A name in parentheses is the application that the name alone is, so that nothing changes where the
parentheses are left out. Only a name that what follows makes the head of a rule needs them: the
grammar takes any text up to the next closing parenthesis for a description, and an equals sign
behind it for that of a rule.

Main statement: `compile_unparenthesized`.
-/

namespace Pegboard

open Text Grammar Grammar.Build

/-- The exchange of a name in parentheses for the name with spaces around it. -/
def Exchange.unparenthesized (before : List Char) {n : List Char} (hn : isName n = true)
    (after : List Char) : Exchange where
  before := before
  here := group n
  after := after
  gap := [' ']
  there := n
  here_begins := (begins_group n).mono (by simp)
  there_opens := .of_isName hn
  gap_blank := by simp [Blank]
  closed h := by
    have hname : '*' ∉ n := fun hmem => absurd (isNameRest_of_mem hn hmem) (by decide)
    have hhere : '*' ∉ group n := by simp [group, hname]
    have hthere : '*' ∉ [' '] ++ (n ++ [' ']) := by simp [hname]
    rw [seek_append_of_notMem _ _ hhere] at h
    have h' := seek_append_of_notMem ['/'] after hthere
    rw [h] at h'
    simpa only [List.append_assoc] using h'
  apart c _ _ d hd := by
    obtain rfl : ' ' = d := by simpa using hd
    decide

namespace Grammar

theorem Build.Replaces.of_denotes {E : Expr → Expr → Prop} {s s' : Tree.Located} {q : String} {e : Expr}
    (hq : q ∈ expressions) (h : Denotes q e s) (h' : Denotes q e s') : Replaces E s s' := by
  refine .expression hq h.1 h'.1 fun lexical => ?_
  obtain ⟨apps, heq, happs⟩ := h.2 lexical
  obtain ⟨apps', heq', happs'⟩ := h'.2 lexical
  rw [heq, heq']
  exact .ok ⟨rfl, happs'.trans happs.symm⟩

theorem written_named (name : String) : (named name).written = name.toList := by
  rw [named]
  split_ifs with hany hend
  · rw [hany]
    rfl
  · rw [hend]
    rfl
  · rfl

/-- A name in parentheses is parsed as what the name stands for. -/
theorem ParsedBy.base_parses_group_name {p : Parser} (hp : ofGrammars.ParsedBy p) {n : List Char}
    (hn : isName n = true) (back : List Char) :
    p.Parses "Base" (group n) back (Denotes "Base" (named (.ofList n))) := by
  have hname : isName (String.ofList n).toList = true := by rwa [String.toList_ofList]
  have h := hp.grouped_of_barred (hp.barred_of_name hname (written_named _) rfl) back
  rwa [written_named, String.toList_ofList] at h

/-- A source compiles to the same grammars where the parentheses around a name that is applied give
way to spaces, as long as the source does not go on with the rest of a head behind the name, nor
behind one that is applied in front of it. -/
theorem compile_unparenthesized {before n after : String} {ns : Namespace}
    {root hole : Tree.Located} 
    (hn : isName n.toList = true) (hns : compile (before ++ "(" ++ n ++ ")" ++ after) = .ok ns)
    (hroot : sourceTree? (before ++ "(" ++ n ++ ")" ++ after) = some root)
    (hreach : root.Reaches hole) (hrule : hole.tree.rule? = some "Base")
    (hplace : hole.interval =
      ⟨before.utf8ByteSize, (before ++ "(" ++ n ++ ")").utf8ByteSize⟩)
    (hplain : root.Unheaded before.utf8ByteSize (before ++ " " ++ n ++ " " ++ after))
    (hafter : headed after.toList = false)
    (hdeep : ofGrammars.matchText (before ++ " " ++ n ++ " " ++ after) none ≠
      .error (.tooDeep "Ohm" "Grammars")) :
    ∃ ns', compile (before ++ " " ++ n ++ " " ++ after) = .ok ns' ∧
      List.Forall₂ (Grammar.Alike Eq) ns ns' := by
  obtain ⟨r', hr'⟩ := matchText_of_shallow hdeep
  let x := Exchange.unparenthesized before.toList hn after.toList
  have hsource : (before ++ "(" ++ n ++ ")" ++ after).toList = x.before ++ x.back := by
    simp [x, Exchange.unparenthesized, Exchange.back, group]
  have hsource' : (before ++ " " ++ n ++ " " ++ after).toList = x.before ++ x.back' := by
    simp [x, Exchange.unparenthesized, Exchange.back']
  have hplace : hole.interval = ⟨byteSize x.before, byteSize (x.before ++ x.here)⟩ := by
    have hfront : (before ++ "(" ++ n ++ ")").toList = x.before ++ x.here := by
      simp [x, Exchange.unparenthesized, group]
    rw [← hfront, byteSize_toList, hplace, ← byteSize_toList before]
    rfl
  have hdenotes : Denotes "Base" (named n) hole := by
    have hp := acyclic_ofGrammars.parsedBy
    have hspans := hp.spans_of_sourceTree hsource hroot hreach hrule hplace
    have h := (hspans.of_parses (hp.base_parses_group_name hn after.toList)).2
    rwa [String.ofList_toList] at h
  refine compile_exchange .eq (fun s' hs' => .of_denotes (by decide) hdenotes hs') hsource hsource'
    hns hroot hreach hrule (by decide) (by decide) hplace (fun p hp _ _ => ?_) ?_ hr'
  · have hback : headed (' ' :: after.toList) = false := by
      have hskip : skip ([' '] ++ after.toList) = skip after.toList :=
        skip_blank (by simp [Blank]) after.toList
      rw [← headed_skip, ← hafter, ← headed_skip after.toList]
      exact congrArg headed hskip
    have hrest : ∀ c ∈ (' ' :: after.toList).head?, isNameRest c = false := by
      rintro _ ⟨⟩
      decide
    have h := hp.base_parses_name hn hrest hback
    rw [String.ofList_toList] at h
    exact ⟨n.toList, rfl, h⟩
  · rwa [show byteSize x.before = before.utf8ByteSize from byteSize_toList before]

theorem compile_unparenthesized_behind_name :
    ∃ ns ns', compile "G\x7ba=a(a)\x7d" = .ok ns ∧ compile "G\x7ba=a a \x7d" = .ok ns' ∧
      List.Forall₂ (Grammar.Alike Eq) ns ns' := by
  have hbuilt : (compile "G\x7ba=a(a)\x7d").toOption.isSome = true := by decide +kernel
  have hmatched : (ofGrammars.matchText "G\x7ba=a a \x7d" none).toOption.isSome = true := by
    decide +kernel
  have htree : (sourceTree? "G\x7ba=a(a)\x7d").any (fun root =>
      !(root.everywhere fun s => decide ¬(s.tree.rule? = some "Base" ∧ s.interval = ⟨5, 8⟩)) &&
        decide (root.Unheaded 5 "G\x7ba=a a \x7d")) = true := by
    decide +kernel
  obtain ⟨ns, hns⟩ := toOption_isSome hbuilt
  obtain ⟨root, hroot, hnode⟩ := (Option.any_eq_true _ _).mp htree
  obtain ⟨hnode, hplain⟩ := (Bool.and_eq_true _ _).mp hnode
  obtain ⟨hole, hreach, hrule, hplace⟩ :=
    Tree.Located.exists_of_everywhere ((Bool.not_eq_true' _).mp hnode)
  obtain ⟨ns', hns', halike⟩ := @compile_unparenthesized "G\x7ba=a" "a" "\x7d" ns root
    hole (by decide) hns hroot hreach hrule hplace (of_decide_eq_true hplain) (by decide +kernel)
    (fun hdeep => by
      rw [show "G\x7ba=a" ++ " " ++ "a" ++ " " ++ "\x7d" = "G\x7ba=a a \x7d" from rfl] at hdeep
      rw [hdeep] at hmatched
      cases hmatched)
  exact ⟨ns, ns', hns, hns', halike⟩

/-- What stands behind the name can be a description, which ends in a literal, and the equals sign
that the literal goes on with. -/
theorem compile_unparenthesized_headed :
    ∃ ns root hole, compile "G\x7bn=(n)(\")=\")\x7d" = .ok ns ∧
      sourceTree? "G\x7bn=(n)(\")=\")\x7d" = some root ∧ root.Reaches hole ∧
      hole.tree.rule? = some "Base" ∧ hole.interval = ⟨4, 7⟩ ∧
      ∀ ns', compile "G\x7bn= n (\")=\")\x7d" ≠ .ok ns' := by
  have hbuilt : (compile "G\x7bn=(n)(\")=\")\x7d").toOption.isSome = true := by
    decide +kernel
  have hrejected : (compile "G\x7bn= n (\")=\")\x7d").toOption.isSome = false := by
    decide +kernel
  have htree : (sourceTree? "G\x7bn=(n)(\")=\")\x7d").any (fun root => !(root.everywhere
      fun s => decide ¬(s.tree.rule? = some "Base" ∧ s.interval = ⟨4, 7⟩))) = true := by
    decide +kernel
  obtain ⟨ns, hns⟩ := toOption_isSome hbuilt
  obtain ⟨root, hroot, hnode⟩ := (Option.any_eq_true _ _).mp htree
  obtain ⟨hole, hreach, hrule, hplace⟩ :=
    Tree.Located.exists_of_everywhere ((Bool.not_eq_true' _).mp hnode)
  refine ⟨ns, root, hole, hns, hroot, hreach, hrule, hplace, fun ns' hns' => ?_⟩
  rw [hns'] at hrejected
  cases hrejected

end Grammar

end Pegboard
