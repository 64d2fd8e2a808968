import Pegboard.Proofs.Grammar.Nodes
import Pegboard.Proofs.Grammar.RangeEnds
import Pegboard.Proofs.Grammar.Recovered
import Pegboard.Proofs.Match.Confined

/-!
# Builds understand what was matched

The tree of a source that matches has below each node what the body of its rule says, so that a
build finds there whatever it looks for. It never meets a tree that it does not understand, and a
range without one of its ends only where the source has written an escape sequence that denotes no
character. Errors are placed in the source: at nodes of the tree, where there is one, and else where
the match was given up.

Main statement: `compile_error`.
-/

namespace Pegboard

open Text

/-- Whether the cause is another than a tree or a range that is not understood. -/
def BuildError.Cause.isPlain : BuildError.Cause → Bool
  | .malformedTree _ | .malformedRange => false
  | _ => true

namespace Grammar.Build

/-! ## Errors -/

/-- A range one end of which is an escape sequence that denotes no character. -/
def RangeOfNone (t : Tree.Located) : Prop :=
  t.tree.rule? = some "Base_range" ∧ ∃ s ∈ t.named "oneCharTerminal", ∃ cs,
    NoScalar cs ∧ s.text = .ofList ('"' :: (cs ++ ['"']))

/-- The error is none of a tree that is not understood, its place is in the source, and if it is a
range without one of its ends, it stands at one that has such an end written. -/
structure Fair (root : Tree.Located) (e : BuildError) : Prop where
  understood : ∀ detail, e.cause ≠ .malformedTree detail
  range : e.cause = .malformedRange → ∃ t, root.Reaches t ∧ RangeOfNone t ∧ t.interval = e.interval
  spans : root.input.Spans e.interval

/-- What is built has the property, and errors are fair. -/
def Sound {α : Type} (root : Tree.Located) (P : α → Prop) : Attempt α → Prop
  | .ok a => P a
  | .error e => Fair root e

namespace Sound

variable {α β : Type} {root : Tree.Located} {P : α → Prop} {Q : β → Prop} {a : Attempt α}

theorem plain {cause : BuildError.Cause} {interval : Interval} (hcause : cause.isPlain = true)
    (h : root.input.Spans interval) : Sound root P (.error ⟨cause, interval⟩) := by
  refine ⟨?_, ?_, h⟩
  · rintro detail rfl
    cases hcause
  · rintro rfl
    cases hcause

theorem bind {next : α → Attempt β} (h : Sound root P a) (hnext : ∀ x, P x → Sound root Q (next x)) :
    Sound root Q (a >>= next) := by
  cases a with
  | ok x => exact hnext x h
  | error e => exact h

theorem map {f : α → β} (h : Sound root P a) (hf : ∀ x, P x → Q (f x)) :
    Sound root Q (a.map f) := by
  cases a with
  | ok x => exact hf x h
  | error e => exact h

theorem foldlM {f : β → α → Attempt β} {as : List α} {b : β} (hb : Q b)
    (hf : ∀ b, Q b → ∀ a ∈ as, Sound root Q (f b a)) : Sound root Q (as.foldlM f b) := by
  induction as generalizing b with
  | nil => exact hb
  | cons a as ih =>
      rw [List.foldlM_cons]
      exact (hf b hb a List.mem_cons_self).bind fun c hc =>
        ih hc fun b hb a ha => hf b hb a (List.mem_cons_of_mem _ ha)

end Sound

/-! ## Expressions -/

/-- The rules for expressions. -/
def expressions : List String :=
  ["Alt", "Seq", "Iter", "Pred", "Lex", "Base", "Iter_star", "Iter_plus", "Iter_opt", "Pred_not",
    "Pred_lookahead", "Lex_lex", "Base_application", "Base_range", "Base_terminal", "Base_paren"]

/-- The applications stand in the source. -/
def InSource (root : Tree.Located) (apps : List Application) : Prop :=
  ∀ a ∈ apps, root.input.Spans a.interval

/-- In any context the reading builds an expression that applies rules where the source does, or is
in error for a fair reason. -/
def Reading.Sound (root : Tree.Located) (r : Reading) : Prop :=
  ∀ lexical, Build.Sound root (fun x => InSource root x.2) (r lexical)

section

variable {p : Parser} {root t : Tree.Located} {q r : String} {e : Expr}

theorem readAll_sound {parts : List Part} (h : ∀ p ∈ parts, p.reading.Sound root) (lexical : Bool) :
    Sound root (fun x => InSource root x.2) (readAll lexical parts) := by
  induction parts with
  | nil => exact List.forall_mem_nil _
  | cons p ps ih =>
      obtain ⟨hp, hps⟩ := List.forall_mem_cons.mp h
      rw [readAll]
      exact (hp lexical).bind fun x hx => (ih hps).bind fun y hy =>
        List.forall_mem_append.mpr ⟨hx, hy⟩

theorem Reading.Sound.map {read : Reading} (h : read.Sound root) (f : Expr → Expr) :
    (read.map f).Sound root :=
  fun lexical => Build.Sound.map (h lexical) fun _ hx => hx

variable (hp : ofGrammars.ParsedBy p)
  (ih : ∀ s ∈ t.applications, ∀ r ∈ expressions, Node p root r s → (readExpr s).Sound root)

include hp ih

theorem readFirst_sound (hbody : ofGrammars.HasBody q true e) (halways : e.always r = true)
    (h : Node p root q t) (hr : r ∈ expressions) :
    (readFirst t (t.applications.map fun s => ⟨s, readExpr s⟩) r).Sound root := by
  obtain ⟨c, hc, hnode⟩ := h.first?_eq hp hbody halways
  have hpart : (t.applications.map fun s => (⟨s, readExpr s⟩ : Part)).find? (·.isOf r) =
      some ⟨c, readExpr c⟩ := by
    rw [List.find?_map]
    exact congrArg (Option.map _) hc
  intro lexical
  rw [readFirst, hpart]
  exact ih c (List.mem_of_find?_eq_some hc) r hr hnode lexical

theorem readOnly_sound (rs : List String)
    (hbody : ofGrammars.HasBody q true (.alt (rs.map .apply))) (h : Node p root q t)
    (hrs : ∀ r ∈ rs, r ∈ expressions) :
    (readOnly t (t.applications.map fun s => ⟨s, readExpr s⟩)).Sound root := by
  obtain ⟨r, hr, c, happs, hnode⟩ := h.only hp rs hbody
  intro lexical
  rw [happs] at ih ⊢
  exact ih c (List.mem_singleton_self c) r (hrs r hr) hnode lexical

/-- The parts of one rule, put together. -/
theorem readParts_sound (hbody : ofGrammars.HasBody q true e) (h : Node p root q t)
    (hr : r ∈ expressions) (combine : List Expr → Expr) :
    Reading.Sound root fun lexical => do
      let (es, apps) ← readAll lexical
        ((t.applications.map fun s => (⟨s, readExpr s⟩ : Part)).filter (·.isOf r))
      return (combine es, apps) := by
  have hparts : ∀ part ∈ (t.applications.map fun s => (⟨s, readExpr s⟩ : Part)).filter (·.isOf r),
      part.reading.Sound root := by
    intro part hpart
    obtain ⟨hpart, hrule⟩ := List.mem_filter.mp hpart
    obtain ⟨c, hc, rfl⟩ := List.mem_map.mp hpart
    exact ih c hc r hr (h.of_mem hp hbody hc (of_decide_eq_true hrule))
  exact fun lexical => (readAll_sound hparts lexical).bind fun x hx => hx

omit ih

theorem readApplication_sound (h : Node p root "Base_application" t) :
    (readApplication t).Sound root := by
  obtain ⟨ident, hident, hnode⟩ := h.child_eq hp base_application_body (r := "ident") rfl
  intro lexical
  rw [readApplication, hident]
  dsimp only [bind, Except.bind]
  split
  · exact List.forall_mem_nil _
  · exact List.forall_mem_nil _
  · exact List.forall_mem_singleton.mpr (hnode.spans hp)

theorem readTerminal_sound (h : Node p root "Base_terminal" t) : (readTerminal t).Sound root := by
  obtain ⟨literal, hliteral, -⟩ := h.child_eq hp base_terminal_body (r := "terminal") rfl
  intro lexical
  rw [readTerminal, hliteral]
  exact List.forall_mem_nil _

theorem range_ends (h : Node p root "Base_range" t) :
    ∃ lo hi, t.named "oneCharTerminal" = [lo, hi] ∧ Node p root "oneCharTerminal" lo ∧
      Node p root "oneCharTerminal" hi := by
  obtain ⟨w, hw, hnodes⟩ := h.applications hp base_range_body
  obtain ⟨_, rfl, _, ⟨_, rfl, _, ⟨_, rfl, _, rfl, rfl⟩, rfl⟩, rfl⟩ := hw
  obtain ⟨lo, rest, hlo, hrest, happs⟩ := List.forall₂_cons_left_iff.mp hnodes
  obtain ⟨hi, rest', hhi, hrest', rfl⟩ := List.forall₂_cons_left_iff.mp hrest
  obtain rfl := List.forall₂_nil_left_iff.mp hrest'
  refine ⟨lo, hi, ?_, hlo, hhi⟩
  rw [Tree.Located.named, happs]
  simp [hlo.rule?_eq hp, hhi.rule?_eq hp]

theorem readRange_sound (h : Node p root "Base_range" t) : (readRange t).Sound root := by
  obtain ⟨lo, hi, hnamed, hlo, hhi⟩ := range_ends hp h
  have hnone : ∀ s ∈ [lo, hi], p.Found "oneCharTerminal" s → firstChar? s = none →
      Fair root ⟨.malformedRange, t.interval⟩ := by
    intro s hs hfound hchar
    obtain hsome | ⟨cs, hcs, htext⟩ := hp.firstChar?_found hfound
    · rw [hchar] at hsome
      cases hsome
    · exact ⟨by simp, fun _ => ⟨t, h.reached, ⟨h.rule?_eq hp, s, hnamed ▸ hs, cs, hcs, htext⟩, rfl⟩,
        h.spans hp⟩
  intro lexical
  rw [readRange, hnamed]
  cases hlochar : firstChar? lo with
  | none =>
      simp only [List.map, hlochar]
      exact hnone lo (by simp) hlo.found hlochar
  | some clo =>
      cases hhichar : firstChar? hi with
      | none =>
          simp only [List.map, hlochar, hhichar]
          exact hnone hi (by simp) hhi.found hhichar
      | some chi =>
          simp only [List.map, hlochar, hhichar]
          exact List.forall_mem_nil _

end

/-- Whatever expression a node is of, it is understood. -/
theorem readExpr_sound {p : Parser} {root : Tree.Located} (hp : ofGrammars.ParsedBy p)
    (t : Tree.Located) : ∀ q ∈ expressions, Node p root q t → (readExpr t).Sound root := by
  induction t using Tree.Located.induction with
  | step t ih =>
      intro q hq h lexical
      have hrule := h.rule?_eq hp
      rw [readExpr_eq]
      simp only [expressions, List.mem_cons, List.not_mem_nil, or_false] at hq
      -- in the order of `expressions`
      rcases hq with rfl | rfl | rfl | rfl | rfl | rfl | rfl | rfl | rfl | rfl | rfl | rfl | rfl |
        rfl | rfl | rfl
      all_goals simp only [readNode, hrule, Option.getD_some, descend_eq]
      · exact readParts_sound hp ih alt_body h (by decide) .choice lexical
      · exact readParts_sound hp ih seq_body h (by decide) .sequence lexical
      · exact readOnly_sound hp ih ["Iter_star", "Iter_plus", "Iter_opt", "Pred"] iter_body h
          (by decide) lexical
      · exact readOnly_sound hp ih ["Pred_not", "Pred_lookahead", "Lex"] pred_body h (by decide) lexical
      · exact readOnly_sound hp ih ["Lex_lex", "Base"] lex_body h (by decide) lexical
      · exact readOnly_sound hp ih
          ["Base_application", "Base_range", "Base_terminal", "Base_paren"] base_body h (by decide)
          lexical
      · exact (readFirst_sound hp ih (iterRule_body .star) rfl h (by decide)).map _ lexical
      · exact (readFirst_sound hp ih (iterRule_body .plus) rfl h (by decide)).map _ lexical
      · exact (readFirst_sound hp ih (iterRule_body .opt) rfl h (by decide)).map _ lexical
      · exact (readFirst_sound hp ih pred_not_body rfl h (by decide)).map _ lexical
      · exact (readFirst_sound hp ih pred_lookahead_body rfl h (by decide)).map _ lexical
      · exact (readFirst_sound hp ih lex_lex_body rfl h (by decide)).map _ true
      · exact readApplication_sound hp h lexical
      · exact readRange_sound hp h lexical
      · exact readTerminal_sound hp h lexical
      · exact readFirst_sound hp ih base_paren_body rfl h (by decide) lexical

/-! ## Rules -/

section

variable {p : Parser} {root t : Tree.Located} {q r rule : String} {e : Expr} {syntactic : Bool}
  {s : State} {b : Body} {interval : Interval}

theorem checkNew_sound (h : root.input.Spans interval) :
    Sound root (fun _ => True) (checkNew s rule interval) := by
  rw [checkNew]
  split
  · exact .plain rfl h
  · split
    · exact .plain rfl h
    · trivial

variable (hp : ofGrammars.ParsedBy p)

include hp

theorem child_sound (hbody : ofGrammars.HasBody q syntactic e) (halways : e.always r = true)
    (h : Node p root q t) : Sound root (Node p root r) (child t r) := by
  obtain ⟨c, hc, hnode⟩ := h.child_eq hp hbody halways
  rw [hc]
  exact hnode

theorem readSeq_sound (h : Node p root "Seq" t) (lexical : Bool) :
    Sound root (fun x => InSource root x.2) (readExpr t lexical) :=
  readExpr_sound hp t "Seq" (by decide) h lexical

theorem readCase_sound (h : Node p root "TopLevelTerm_inline" t)
    (hb : InSource root b.applications) :
    Sound root (fun b => InSource root b.applications) (readCase s rule t b) := by
  rw [readCase]
  refine (child_sound hp topLevelTerm_inline_body rfl h).bind fun seq hseq =>
    (readSeq_sound hp hseq _).bind fun read hread =>
    (child_sound hp topLevelTerm_inline_body rfl h).bind fun caseName hcase =>
    (child_sound hp caseName_body rfl hcase).bind fun name hname => ?_
  dsimp only
  split
  · exact .plain rfl (hname.spans hp)
  · exact (checkNew_sound (hname.spans hp)).bind fun _ _ => List.forall_mem_append.mpr ⟨hb, hread⟩

theorem readTerm_sound (h : Node p root "TopLevelTerm" t) (hb : InSource root b.applications) :
    Sound root (fun b => InSource root b.applications) (readTerm s rule b t) := by
  obtain ⟨r, hr, c, hc, hnode⟩ := h.onlyChild_eq hp ["TopLevelTerm_inline", "Seq"] topLevelTerm_body
  rw [readTerm, hc]
  simp only [List.mem_cons, List.not_mem_nil, or_false] at hr
  rcases hr with rfl | rfl
  · exact readCase_sound hp hnode hb
  · exact (readSeq_sound hp hnode _).bind fun x hx => List.forall_mem_append.mpr ⟨hb, hx⟩

theorem readBody_sound (h : Node p root "RuleBody" t) :
    Sound root (fun b => InSource root b.applications) (readBody s rule t) :=
  .foldlM (List.forall_mem_nil _) fun _ hb _ hterm =>
    readTerm_sound hp (h.of_named hp ruleBody_body _ hterm) hb

variable {ident body : Tree.Located} {cause : BuildError.Cause} {combine : Expr → Expr → Expr}

theorem defineRule_sound (hident : Node p root "ident" ident) (hbody : Node p root "RuleBody" body)
    (hs : InSource root s.applications) :
    Sound root (fun s => InSource root s.applications) (defineRule s t rule ident body) := by
  rw [defineRule]
  refine (checkNew_sound (hident.spans hp)).bind fun _ _ =>
    (readBody_sound hp hbody).bind fun b hb => ?_
  have hall : InSource root (s.applications ++ b.applications) :=
    List.forall_mem_append.mpr ⟨hs, hb⟩
  split
  · exact hall
  · exact hall

theorem changeRule_sound (hident : Node p root "ident" ident) (hbody : Node p root "RuleBody" body)
    (hs : InSource root s.applications) (hcause : cause.isPlain = true) :
    Sound root (fun s => InSource root s.applications)
      (changeRule s t rule ident body cause combine) := by
  have hold : Sound root (fun _ => True) (inherited s rule cause ident) := by
    rw [inherited]
    split
    · split
      · exact .plain hcause (hident.spans hp)
      · trivial
    · exact .plain hcause (hident.spans hp)
  rw [changeRule]
  exact hold.bind fun old _ => (readBody_sound hp hbody).bind fun b hb =>
    List.forall_mem_append.mpr ⟨hs, hb⟩

theorem readRule_sound {super : String} (h : Node p root "Rule" t)
    (hs : InSource root s.applications) :
    Sound root (fun s => InSource root s.applications) (readRule super s t) := by
  obtain ⟨r, hr, c, hc, hnode⟩ :=
    h.onlyChild_eq hp ["Rule_define", "Rule_override", "Rule_extend"] rule_body
  rw [readRule, hc]
  simp only [List.mem_cons, List.not_mem_nil, or_false] at hr
  rcases hr with rfl | rfl | rfl
  · exact (child_sound hp rule_define_body rfl hnode).bind fun ident hident =>
      (child_sound hp rule_define_body rfl hnode).bind fun body hbody =>
        defineRule_sound hp hident hbody hs
  · exact (child_sound hp rule_override_body rfl hnode).bind fun ident hident =>
      (child_sound hp rule_override_body rfl hnode).bind fun body hbody =>
        changeRule_sound hp hident hbody hs rfl
  · exact (child_sound hp rule_extend_body rfl hnode).bind fun ident hident =>
      (child_sound hp rule_extend_body rfl hnode).bind fun body hbody =>
        changeRule_sound hp hident hbody hs rfl

/-! ## Grammars -/

omit hp

theorem checkApplications_sound {g : Grammar} {apps : List Application} (h : InSource root apps) :
    Sound root (fun _ => True) (checkApplications g apps) := by
  induction apps with
  | nil => trivial
  | cons a rest ih =>
      obtain ⟨ha, hrest⟩ := List.forall_mem_cons.mp h
      rw [checkApplications]
      split
      · exact .plain rfl ha
      · split
        · exact .plain rfl ha
        · exact ih hrest

include hp

theorem superGrammar_sound {ns : Namespace} (h : Node p root "Grammar" t) :
    Sound root (fun _ => True) (superGrammar ns t) := by
  rw [superGrammar]
  split
  · trivial
  · rename_i decl hdecl
    refine (child_sound hp superGrammar_body rfl (h.of_first? hp grammar_body hdecl)).bind
      fun ident hident => ?_
    split
    · trivial
    · exact .plain rfl (hident.spans hp)

theorem readGrammar_sound {ns : Namespace} (h : Node p root "Grammar" t) :
    Sound root (fun _ => True) (readGrammar ns t) := by
  rw [readGrammar]
  refine (child_sound hp grammar_body rfl h).bind fun ident hident => ?_
  split
  · exact .plain rfl (hident.spans hp)
  · refine (superGrammar_sound hp h).bind fun super _ => ?_
    have hrules : Sound root (fun s => InSource root s.applications)
        ((t.named "Rule").foldlM (readRule super.name)
          ⟨.extending (some super) ident.text, [], [], false⟩) :=
      .foldlM (List.forall_mem_nil _) fun _ hs _ hrule =>
        readRule_sound hp (h.of_named hp grammar_body _ hrule) hs
    exact hrules.bind fun s hs => (checkApplications_sound hs).bind fun _ _ => trivial

end

theorem ofResult_sound {p : Parser} {root : Tree.Located} {r : Match.Result}
    (hp : ofGrammars.ParsedBy p) (hroot : r.root? = some root) (h : Node p root "Grammars" root) :
    Sound root (fun _ => True) (ofResult r) := by
  rw [ofResult, hroot]
  exact .foldlM trivial fun ns _ t ht =>
    (readGrammar_sound hp (h.of_named hp grammars_body t ht)).bind fun g _ => trivial

end Grammar.Build

namespace Grammar

open Build Match

variable {source : String} {r : Match.Result}

/-- A source that matches has a tree, and whatever is wrong with it is wrong for a fair reason. -/
theorem ofResult_fair {e : BuildError} (hr : ofGrammars.matchText source none = .ok r)
    (hsucceeded : r.succeeded = true) (he : ofResult r = .error e) :
    ∃ root, r.root? = some root ∧ root.input = .ofString source ∧ Fair root e := by
  have hp := acyclic_ofGrammars.parsedBy
  obtain rfl := hp.eq_result hr
  have hsome : ((Parser.result _ "Grammars" source).root?).isSome = true :=
    Option.isSome_map.trans hsucceeded
  obtain ⟨root, hroot⟩ := Option.isSome_iff_exists.mp hsome
  obtain ⟨hinput, hfound⟩ := (hp.tidy acyclic_ofGrammars).found_root hroot
  have hsound := ofResult_sound hp hroot ⟨hfound, .refl⟩
  rw [he] at hsound
  exact ⟨root, hroot, hinput, hsound⟩

theorem matchText_input {g : Grammar} {start? : Option String}
    (hr : g.matchText source start? = .ok r) : r.input = .ofString source := by
  obtain ⟨rule, a, memo, -, -, rfl⟩ := matchText_eq_ok.mp hr
  rfl

theorem compile_spans {e : GrammarError} (h : compile source = .error e) :
    (Input.ofString source).Spans e.interval := by
  have hpoint {pos : Nat} (hpos : (Input.ofString source).Boundary pos) :
      (Input.ofString source).Spans (.point pos) := ⟨hpos, hpos, Nat.le_refl pos⟩
  cases hr : ofGrammars.matchText source none with
  | error error =>
      delta compile at h
      rw [hr] at h
      cases h
      exact hpoint (Input.boundary_zero _)
  | ok r =>
      rw [compile_eq hr, compileResult] at h
      split at h
      · rename_i hsucceeded
        cases hb : ofResult r with
        | ok ns =>
            rw [hb] at h
            cases h
        | error error =>
            rw [hb] at h
            cases h
            obtain ⟨root, -, hinput, hfair⟩ := ofResult_fair hr hsucceeded hb
            exact hinput ▸ hfair.spans
      · rename_i hfailed
        cases h
        have htree : r.tree? = none := by
          rwa [Match.Result.succeeded, Bool.not_eq_true, Option.isSome_eq_false_iff,
            Option.isNone_iff_eq_none] at hfailed
        rw [GrammarError.interval, Match.Result.interval, htree]
        exact hpoint (matchText_input hr ▸ (reportsWithin_of_matchText hr).1)

/-- What a source that matches declares is always understood, and a range in it is malformed only
where one of its ends is an escape sequence by the number of no character. Whatever is wrong with a
source, matched or not, its place begins and ends at boundaries of the source. -/
theorem compile_error (source : String) :
    (∀ r, ofGrammars.matchText source none = .ok r → r.succeeded = true →
      ∀ e, ofResult r = .error e →
        (∀ detail, e.cause ≠ .malformedTree detail) ∧
        (e.cause = .malformedRange → ∃ root t, r.root? = some root ∧ root.Reaches t ∧
          RangeOfNone t ∧ t.interval = e.interval)) ∧
      ∀ e, compile source = .error e →
        e.interval.start ≤ e.interval.stop ∧ e.interval.stop ≤ source.utf8ByteSize ∧
          isBoundary source e.interval.start = true ∧
          isBoundary source e.interval.stop = true := by
  refine ⟨fun r hr hsucceeded e he => ?_, fun e he => ?_⟩
  · obtain ⟨root, hroot, -, hfair⟩ := ofResult_fair hr hsucceeded he
    refine ⟨hfair.understood, fun hcause => ?_⟩
    obtain ⟨t, hreaches, hrange, hinterval⟩ := hfair.range hcause
    exact ⟨root, t, hroot, hreaches, hrange, hinterval⟩
  · obtain ⟨hstart, hstop, hle⟩ := compile_spans he
    exact ⟨hle, hstop.le, isBoundary_iff.mpr hstart, isBoundary_iff.mpr hstop⟩

/-- A range that begins with a surrogate. -/
def surrogateRange : String :=
  "G\x7bx=\"\\ud800\"..\"b\"\x7d"

theorem compile_error_surrogateRange : ∃ r root t,
    ofGrammars.matchText surrogateRange none = .ok r ∧ r.succeeded = true ∧
    ofResult r = .error ⟨.malformedRange, ⟨4, 17⟩⟩ ∧ r.root? = some root ∧ root.Reaches t ∧
    RangeOfNone t ∧ t.interval = ⟨4, 17⟩ ∧
    compile surrogateRange = .error (.rejected r.input.text ⟨.malformedRange, ⟨4, 17⟩⟩) ∧
    17 ≤ surrogateRange.utf8ByteSize ∧ isBoundary surrogateRange 4 = true ∧
    isBoundary surrogateRange 17 = true := by
  have hmatch : (ofGrammars.matchText surrogateRange none).toOption.map
      (fun r => (r.succeeded, match ofResult r with | .error e => some e | .ok _ => none)) =
      some (true, some ⟨.malformedRange, ⟨4, 17⟩⟩) := by
    decide +kernel
  obtain ⟨r, hr, heq⟩ := toOption_map_eq_some hmatch
  obtain ⟨hsucceeded, herror⟩ := Prod.mk.inj heq
  have hresult : ofResult r = .error ⟨.malformedRange, ⟨4, 17⟩⟩ := by
    split at herror
    · rename_i e he
      rw [he, Option.some.inj herror]
    · cases herror
  have hcompile : compile surrogateRange =
      .error (.rejected r.input.text ⟨.malformedRange, ⟨4, 17⟩⟩) := by
    rw [compile_eq hr, compileResult, if_pos hsucceeded, hresult]
    rfl
  obtain ⟨hunderstood, hplaced⟩ := compile_error surrogateRange
  obtain ⟨-, hrange⟩ := hunderstood r hr hsucceeded _ hresult
  obtain ⟨root, t, hroot, hreaches, hnone, hinterval⟩ := hrange rfl
  obtain ⟨-, hstop, hbounds⟩ := hplaced _ hcompile
  exact ⟨r, root, t, hr, hsucceeded, hresult, hroot, hreaches, hnone, hinterval, hcompile, hstop,
    hbounds⟩

end Grammar

end Pegboard
