import Mathlib.Computability.Language
import Mathlib.Order.CompletePartialOrder
import Pegboard.Proofs.Parsing

/-!
# What a parser has found

The other way round from putting a text together that is parsed: a tree that a parser has found is
looked into. Which rules can have been applied directly below it, and in which order, is told by the
body of its rule (`Expr.shapes`), and each of these applications was found by the parser in turn.
Where no spaces are skipped, the body tells of the text as well that the tree covers (`Covers`).

Main statements: `ParsedBy.applications_found` and `Covers.text_found`.
-/

namespace Pegboard

open Text Computability

/-! ## What an expression can find -/

mutual

/-- The names of the rules whose applications an expression can find, in order. What a predicate
finds is given up. -/
def Expr.shapes : Expr → Language String
  | .apply q => {[q]}
  | .alt es => Expr.shapesOfAny es
  | .seq es => Expr.shapesOfEach es
  | .iter .star e => e.shapes∗
  | .iter .plus e => e.shapes * e.shapes∗
  | .iter .opt e => 1 + e.shapes
  | .lex e => e.shapes
  | .any | .endOfInput | .terminal _ | .range _ _ | .not _ | .look _ => 1

def Expr.shapesOfAny : List Expr → Language String
  | [] => 0
  | e :: es => e.shapes + Expr.shapesOfAny es

def Expr.shapesOfEach : List Expr → Language String
  | [] => 1
  | e :: es => e.shapes * Expr.shapesOfEach es

end

mutual

/-- Whether the expression cannot match without finding an application of the rule. -/
def Expr.always (q : String) : Expr → Bool
  | .apply r => r == q
  | .alt es => Expr.alwaysOfAll q es
  | .seq es => Expr.alwaysOfSome q es
  | .iter .plus e | .lex e => e.always q
  | _ => false

def Expr.alwaysOfAll (q : String) : List Expr → Bool
  | [] => true
  | e :: es => e.always q && Expr.alwaysOfAll q es

def Expr.alwaysOfSome (q : String) : List Expr → Bool
  | [] => false
  | e :: es => e.always q || Expr.alwaysOfSome q es

end

mutual

theorem Expr.mem_of_always {q : String} : ∀ {e : Expr} {w : List String}, e.always q = true →
    w ∈ e.shapes → q ∈ w
  | .apply r, w, h, hw => by
      obtain rfl : r = q := beq_iff_eq.mp h
      obtain rfl : w = [r] := hw
      exact List.mem_singleton_self r
  | .alt _, _, h, hw => Expr.mem_of_alwaysOfAll h hw
  | .seq _, _, h, hw => Expr.mem_of_alwaysOfSome h hw
  | .iter .plus e, _, h, hw => by
      obtain ⟨u, hu, v, -, rfl⟩ := hw
      have he : e.always q = true := h
      exact List.mem_append_left v (Expr.mem_of_always he hu)
  | .lex e, w, h, hw => by
      have he : e.always q = true := h
      exact Expr.mem_of_always he (show w ∈ e.shapes from hw)

theorem Expr.mem_of_alwaysOfAll {q : String} : ∀ {es : List Expr} {w : List String},
    Expr.alwaysOfAll q es = true → w ∈ Expr.shapesOfAny es → q ∈ w
  | e :: es, _, h, hw => by
      obtain ⟨he, hes⟩ := Bool.and_eq_true_iff.mp h
      rcases hw with hw | hw
      · exact Expr.mem_of_always he hw
      · exact Expr.mem_of_alwaysOfAll hes hw

theorem Expr.mem_of_alwaysOfSome {q : String} : ∀ {es : List Expr} {w : List String},
    Expr.alwaysOfSome q es = true → w ∈ Expr.shapesOfEach es → q ∈ w
  | e :: es, _, h, hw => by
      obtain ⟨u, hu, v, hv, rfl⟩ := hw
      rcases Bool.or_eq_true_iff.mp h with he | hes
      · exact List.mem_append_left v (Expr.mem_of_always he hu)
      · exact List.mem_append_right u (Expr.mem_of_alwaysOfSome hes hv)

end

/-- A choice between rules finds one application. -/
theorem Expr.shape_of_rules {rs : List String} {w : List String}
    (hw : w ∈ (Expr.alt (rs.map .apply)).shapes) : ∃ r ∈ rs, w = [r] := by
  rw [Expr.shapes] at hw
  induction rs with
  | nil => cases hw
  | cons r rs ih =>
      rcases hw with hw | hw
      · exact ⟨r, List.mem_cons_self, hw⟩
      · obtain ⟨r', hr', rfl⟩ := ih hw
        exact ⟨r', List.mem_cons_of_mem r hr', rfl⟩

/-! ## Trees that were found -/

/-- The parser finds the tree where it stands in the text, when it is asked for the rule. -/
def Parser.Found (p : Parser) (q : String) (s : Tree.Located) : Prop :=
  ∃ cs, s.input.LeftAt s.offset cs ∧ (p q cs).1 = some s.tree

/-- What the reading takes ends at a boundary of the text, and the applications in it were found by
the parser, in one of the shapes. -/
def Reading.Finds (p : Parser) (cs : List Char) (L : Language String) (r : Reading) : Prop :=
  ∀ t, r.taken? = some t → Cuts cs t.size ∧
    ∀ (input : Input) (offset : Nat), input.LeftAt offset cs →
      ∃ w ∈ L, List.Forall₂ p.Found w (Tree.located input offset t.trees)

namespace Reading.Finds

variable {p : Parser} {cs : List Char} {L L' : Language String} {a b r : Reading}
  {read : List Char → Reading}

theorem mono (h : r.Finds p cs L) (hle : L ≤ L') : r.Finds p cs L' := by
  intro t ht
  obtain ⟨hcut, hfound⟩ := h t ht
  refine ⟨hcut, fun input offset hleft => ?_⟩
  obtain ⟨w, hw, hfound⟩ := hfound input offset hleft
  exact ⟨w, hle hw, hfound⟩

theorem failed (h : r.taken? = none) : r.Finds p cs L := by
  intro t ht
  cases h.symm.trans ht

theorem nothing (h : ∀ t, r.taken? = some t → t = .nothing) : r.Finds p cs 1 := by
  intro t ht
  obtain rfl := h t ht
  exact ⟨.zero cs, fun input offset _ => ⟨[], rfl, .nil⟩⟩

/-- A piece of the text is no application. -/
theorem token (h : ∀ t, r.taken? = some t → ∃ n, t = .ofTree (.terminal n) ∧ Cuts cs n) :
    r.Finds p cs 1 := by
  intro t ht
  obtain ⟨n, rfl, hcut⟩ := h t ht
  exact ⟨hcut, fun input offset _ => ⟨[], rfl, .nil⟩⟩

theorem followed {t : Taken} (ha : a.Finds p cs L) (ht : a.taken? = some t)
    (hb : b.Finds p (dropBytes cs t.size) L') : (a.followed t b).Finds p cs (L * L') := by
  intro u hu
  obtain ⟨v, hv, rfl⟩ := Option.map_eq_some_iff.mp hu
  obtain ⟨hcut, hfound⟩ := ha t ht
  obtain ⟨hcut', hfound'⟩ := hb v hv
  refine ⟨(hcut.add hcut').1, fun input offset hleft => ?_⟩
  obtain ⟨w, hw, hfound⟩ := hfound input offset hleft
  obtain ⟨w', hw', hfound'⟩ := hfound' input _ (hleft.drop hcut)
  refine ⟨w ++ w', ⟨w, hw, w', hw', rfl⟩, ?_⟩
  rw [Taken.append, Tree.located_append, Tree.located_shift]
  exact List.rel_append hfound hfound'

theorem andThen {next : Taken → Reading} (ha : a.Finds p cs L)
    (hb : ∀ t, a.taken? = some t → (next t).Finds p (dropBytes cs t.size) L') :
    (a.andThen next).Finds p cs (L * L') := by
  cases ht : a.taken? with
  | none =>
      rw [andThen_of_none ht]
      exact .failed ht
  | some t =>
      rw [andThen_of_some ht]
      exact ha.followed ht (hb t ht)

theorem orElse (ha : a.Finds p cs L) (hb : b.Finds p cs L') :
    (a.orElse b).Finds p cs (L + L') := by
  cases ht : a.taken? with
  | some t =>
      rw [orElse_of_some ht]
      exact ha.mono Set.subset_union_left
  | none =>
      rw [orElse_of_none ht]
      intro u hu
      obtain ⟨v, hv, rfl⟩ := Option.map_eq_some_iff.mp hu
      have hsame : Taken.nothing.append v = v := by simp [Taken.append, Taken.nothing]
      rw [hsame]
      exact hb.mono Set.subset_union_right v hv

/-- Spaces are skipped together with what was found in them. -/
theorem spaced {m : Meaning} {skip : Bool}
    (hspaces : ∀ cs t, (m "spaces" cs).tree? = some t → Cuts cs t.length)
    (h : ∀ cs, (read cs).Finds p cs L) (cs : List Char) :
    (Reading.spaced m skip read cs).Finds p cs L := by
  cases skip with
  | false => exact h cs
  | true =>
      have hskipped : (Reading.spaces m cs).Finds p cs 1 := by
        intro t ht
        cases ht
        refine ⟨?_, fun input offset _ => ⟨[], rfl, .nil⟩⟩
        cases htree : (m "spaces" cs).tree? with
        | none => simpa [Application.reading, htree] using Cuts.zero cs
        | some t => simpa [Application.reading, htree, Taken.ofTree] using hspaces cs t htree
      rw [Reading.spaced, if_pos rfl, ← one_mul L]
      exact hskipped.andThen fun t _ => h _

/-- The rounds of an iteration behind its first one. -/
theorem rounds (h : ∀ cs, (read cs).Finds p cs L) {op : Repeat} (hop : op ≠ .opt)
    (cs : List Char) : (Reading.rounds op read true cs).Finds p cs L∗ := by
  induction hlen : cs.length using Nat.strong_induction_on generalizing cs with
  | _ n ih =>
      subst hlen
      have hone : L ≤ L∗ := le_kstar
      cases ht : (read cs).taken? with
      | none =>
          rw [rounds_of_none ht, if_pos rfl]
          refine (nothing ?_).mono one_le_kstar
          rintro t ⟨⟩
          rfl
      | some t =>
          by_cases hmore : 0 < t.size ∧ cs ≠ []
          · rw [rounds_more ht ⟨hop, hmore⟩]
            exact ((h cs).followed ht (ih _ (dropBytes_length_lt hmore.2 hmore.1) _ rfl)).mono
              mul_kstar_le_kstar
          · rw [rounds_last ht fun hall => hmore hall.2]
            exact (h cs).mono hone

theorem asTree {optional : Bool} (h : r.Finds p cs L) :
    (r.asTree fun t => .iter optional t.size t.trees).Finds p cs L := by
  intro u hu
  obtain ⟨t, ht, rfl⟩ := Option.map_eq_some_iff.mp hu
  obtain ⟨hcut, hfound⟩ := h t ht
  refine ⟨hcut, fun input offset hleft => ?_⟩
  obtain ⟨w, hw, hfound⟩ := hfound input offset hleft
  refine ⟨w, hw, ?_⟩
  rwa [Taken.ofTree, Tree.located_iter]

theorem iterated {e : Expr} (h : ∀ cs, (read cs).Finds p cs e.shapes) (op : Repeat)
    (cs : List Char) : (Reading.iterated op read cs).Finds p cs (Expr.iter op e).shapes := by
  refine asTree ?_
  cases op with
  | star => exact rounds h (by decide) cs
  | plus =>
      cases ht : (read cs).taken? with
      | none =>
          rw [rounds_of_none ht, if_neg (by decide)]
          exact failed ht
      | some t =>
          by_cases hmore : 0 < t.size ∧ cs ≠ []
          · rw [rounds_more ht ⟨by decide, hmore⟩]
            exact (h cs).followed ht (rounds h (by decide) _)
          · rw [rounds_last ht fun hall => hmore hall.2]
            refine (h cs).mono ?_
            nth_rewrite 1 [← mul_one e.shapes]
            exact mul_le_mul_right one_le_kstar _
  | opt =>
      cases ht : (read cs).taken? with
      | none =>
          rw [rounds_of_none ht, if_pos (by decide)]
          refine (nothing ?_).mono Set.subset_union_left
          rintro t ⟨⟩
          rfl
      | some t =>
          rw [rounds_last ht fun hall => hall.1 rfl]
          exact (h cs).mono Set.subset_union_right

end Reading.Finds

/-! ## Expressions -/

/-- A tree that the parser finds is one of the rule asked for, and ends at a boundary of the
text. -/
def Parser.Tidy (p : Parser) : Prop :=
  ∀ q cs t, (p q cs).1 = some t → t.rule? = some q ∧ Cuts cs t.length

theorem Parser.Tidy.application {p : Parser} (hp : p.Tidy) (q : String) (cs : List Char) :
    ((p.meaning q cs).reading q).Finds p cs {[q]} := by
  intro u hu
  obtain ⟨t, ht, rfl⟩ := Option.map_eq_some_iff.mp hu
  obtain ⟨hrule, hcut⟩ := hp q cs t ht
  refine ⟨hcut, fun input offset hleft => ⟨[q], rfl, ?_⟩⟩
  rw [Taken.ofTree, Tree.located_rule hrule]
  exact .cons ⟨cs, hleft, ht⟩ .nil

namespace Reading.Finds

variable {p : Parser}

theorem any (cs : List Char) : (Reading.any cs).Finds p cs 1 := by
  refine token fun t ht => ?_
  cases cs with
  | nil => cases ht
  | cons c cs =>
      cases ht
      exact ⟨_, rfl, .head c cs⟩

theorem range (lo hi : Char) (cs : List Char) : (Reading.range lo hi cs).Finds p cs 1 := by
  refine token fun t ht => ?_
  cases cs with
  | nil => cases ht
  | cons c cs =>
      rw [Reading.range] at ht
      split at ht
      · cases ht
        exact ⟨_, rfl, .head c cs⟩
      · cases ht

theorem terminal (s : String) (cs : List Char) : (Reading.terminal s cs).Finds p cs 1 := by
  refine token fun t ht => ?_
  rw [Reading.terminal] at ht
  split at ht
  · rename_i hprefix
    cases ht
    obtain ⟨rest, rfl⟩ := List.isPrefixOf_iff_prefix.mp hprefix
    exact ⟨_, rfl, s.toList, rest, rfl, byteSize_toList s⟩
  · cases ht

theorem endOfInput (cs : List Char) : (Reading.endOfInput cs).Finds p cs 1 := by
  refine nothing fun t ht => ?_
  cases cs with
  | nil =>
      cases ht
      rfl
  | cons c cs => cases ht

theorem negated (r : Reading) (text : String) (cs : List Char) :
    (r.negated text).Finds p cs 1 := by
  refine nothing fun t ht => ?_
  rw [Reading.negated] at ht
  split at ht
  · exact (Option.some.inj ht).symm
  · cases ht

theorem restored (r : Reading) (cs : List Char) : r.restored.Finds p cs 1 := by
  refine nothing fun t ht => ?_
  obtain ⟨u, -, rfl⟩ := Option.map_eq_some_iff.mp ht
  rfl

end Reading.Finds

open Reading.Finds in
mutual

/-- Whatever the expression, the applications that it finds have one of its shapes. -/
theorem Expr.read_finds {p : Parser} (hp : p.Tidy) (syntactic : Bool) :
    ∀ (e : Expr) (cs : List Char), (e.read p.meaning syntactic cs).Finds p cs e.shapes
  | .any, cs => by
      rw [Expr.read]
      exact spaced (fun cs t ht => (hp _ cs t ht).2) Reading.Finds.any cs
  | .endOfInput, cs => by
      rw [Expr.read]
      exact spaced (fun cs t ht => (hp _ cs t ht).2) Reading.Finds.endOfInput cs
  | .terminal s, cs => by
      rw [Expr.read]
      exact spaced (fun cs t ht => (hp _ cs t ht).2) (Reading.Finds.terminal s) cs
  | .range lo hi, cs => by
      rw [Expr.read]
      exact spaced (fun cs t ht => (hp _ cs t ht).2) (Reading.Finds.range lo hi) cs
  | .apply q, cs => by
      rw [Expr.read]
      exact spaced (fun cs t ht => (hp _ cs t ht).2) (hp.application q) cs
  | .alt es, cs => by
      rw [Expr.read]
      exact Expr.readFirst_finds hp syntactic es cs
  | .seq es, cs => by
      rw [Expr.read]
      exact Expr.readEach_finds hp syntactic es cs
  | .iter op e, cs => by
      rw [Expr.read]
      exact iterated (Expr.read_finds hp syntactic e) op cs
  | .not e, cs => by
      rw [Expr.read]
      exact negated _ _ cs
  | .look e, cs => by
      rw [Expr.read]
      exact restored _ cs
  | .lex e, cs => by
      rw [Expr.read]
      exact Expr.read_finds hp false e cs

theorem Expr.readFirst_finds {p : Parser} (hp : p.Tidy) (syntactic : Bool) :
    ∀ (es : List Expr) (cs : List Char),
      (Expr.readFirst p.meaning syntactic es cs).Finds p cs (Expr.shapesOfAny es)
  | [], cs => by
      rw [Expr.readFirst]
      exact failed rfl
  | e :: es, cs => by
      rw [Expr.readFirst]
      exact (Expr.read_finds hp syntactic e cs).orElse (Expr.readFirst_finds hp syntactic es cs)

theorem Expr.readEach_finds {p : Parser} (hp : p.Tidy) (syntactic : Bool) :
    ∀ (es : List Expr) (cs : List Char),
      (Expr.readEach p.meaning syntactic es cs).Finds p cs (Expr.shapesOfEach es)
  | [], cs => by
      rw [Expr.readEach]
      exact nothing fun t ht => (Option.some.inj ht).symm
  | e :: es, cs => by
      rw [Expr.readEach]
      exact (Expr.read_finds hp syntactic e cs).andThen
        fun t _ => Expr.readEach_finds hp syntactic es (dropBytes cs t.size)

end

/-- The root of a result is the only application in what was read of the whole text. -/
theorem Parser.Tidy.read_root {p : Parser} (hp : p.Tidy) {q text : String} {root : Tree.Located}
    (h : (p.result q text).root? = some root) : root.input = .ofString text ∧
      ∃ t, ((Expr.whole q).read p.meaning (isSyntactic q) text.toList).taken? = some t ∧
        Tree.located (.ofString text) 0 t.trees = [root] := by
  obtain ⟨⟨offset, tree⟩, htree, rfl⟩ := Option.map_eq_some_iff.mp h
  obtain ⟨t, ht, hhead⟩ := Option.bind_eq_some_iff.mp htree
  obtain ⟨offset', tree', htrees, cs, hcs⟩ := Expr.read_whole_trees _ _ _ _ ht
  rw [htrees] at hhead
  obtain ⟨rfl, rfl⟩ := Prod.mk.inj (Option.some.inj hhead)
  refine ⟨rfl, t, ht, ?_⟩
  rw [htrees, Tree.located_rule (hp q cs tree' hcs).1, Nat.zero_add]
  rfl

/-- The tree of a match is one that the parser has found. -/
theorem Parser.Tidy.found_root {p : Parser} (hp : p.Tidy) {q text : String} {root : Tree.Located}
    (h : (p.result q text).root? = some root) : root.input = .ofString text ∧ p.Found q root := by
  obtain ⟨hinput, t, ht, hlocated⟩ := hp.read_root h
  obtain ⟨w, hw, hfound⟩ := (Expr.read_finds hp _ _ _ t ht).2 _ 0 (.start (.ofString text))
  obtain ⟨_, rfl, _, ⟨_, rfl, _, rfl, rfl⟩, rfl⟩ := hw
  rw [hlocated] at hfound
  exact ⟨hinput, (List.forall₂_cons.mp hfound).1⟩

/-! ## Rules -/

namespace Grammar.ParsedBy

variable {g : Grammar} {p : Parser} {q : String} {s : Tree.Located} {e : Expr} {syntactic : Bool}
  {cs : List Char} {t : Tree}

/-- The tree of a rule is what its body took. -/
theorem body_took (hp : g.ParsedBy p) (h : (p q cs).1 = some t) :
    ∃ rule n trees, g.rule? q = some rule ∧ t = .rule q n trees ∧
      (rule.body.read p.meaning (isSyntactic q) cs).taken? = some ⟨n, trees⟩ := by
  rw [hp] at h
  cases hrule : g.rule? q with
  | none =>
      rw [hrule] at h
      cases h
  | some rule =>
      obtain rfl := rule?_name hrule
      have htree : (rule.body.read p.meaning (isSyntactic rule.name) cs).taken?.map
          (fun t => Tree.rule rule.name t.size t.trees) = some t := by
        simp only [hrule, Rule.parse] at h
        cases hd : rule.description <;> simpa only [hd] using h
      obtain ⟨⟨n, trees⟩, htaken, rfl⟩ := Option.map_eq_some_iff.mp htree
      exact ⟨rule, n, trees, rfl, rfl, htaken⟩

theorem tidy (hg : g.Acyclic) (hp : g.ParsedBy p) : p.Tidy := by
  intro q cs t h
  obtain ⟨rule, n, trees, -, rfl, -⟩ := hp.body_took h
  refine ⟨rfl, ?_⟩
  rw [hp.unique hg] at h
  exact (g.meaning_fits q cs _ h).1

/-- The applications below a tree that was found were found as well, in a shape of the body of a
rule. -/
theorem rule_found (hg : g.Acyclic) (hp : g.ParsedBy p) (h : p.Found q s) :
    ∃ rule, g.rule? q = some rule ∧
      ∃ w ∈ rule.body.shapes, List.Forall₂ p.Found w s.applications := by
  obtain ⟨cs, hleft, htree⟩ := h
  obtain ⟨rule, n, trees, hrule, hs, htaken⟩ := hp.body_took htree
  obtain ⟨-, hfound⟩ := Expr.read_finds (hp.tidy hg) _ rule.body cs _ htaken
  refine ⟨rule, hrule, ?_⟩
  rw [Tree.Located.applications, hs]
  exact hfound s.input s.offset hleft

theorem applications_found (hg : g.Acyclic) (hp : g.ParsedBy p) (hbody : g.HasBody q syntactic e)
    (h : p.Found q s) : ∃ w ∈ e.shapes, List.Forall₂ p.Found w s.applications := by
  obtain ⟨-, rule, hrule, rfl, -⟩ := hbody
  obtain ⟨rule', hrule', hfound⟩ := hp.rule_found hg h
  obtain rfl := Option.some.inj (hrule.symm.trans hrule')
  exact hfound

end Grammar.ParsedBy

/-! ## Texts -/

/-- Where no spaces are skipped, the expression takes texts of the language only. -/
def Covers (m : Meaning) (e : Expr) (L : Language Char) : Prop :=
  ∀ cs t, (e.read m false cs).taken? = some t →
    ∃ front ∈ L, ∃ back, cs = front ++ back ∧ byteSize front = t.size

namespace Covers

variable {m : Meaning} {e : Expr} {es : List Expr} {L L' : Language Char}

theorem terminal (s : String) : Covers m (.terminal s) {s.toList} := by
  intro cs t ht
  rw [Expr.read, Reading.spaced_false, Reading.terminal] at ht
  split at ht
  · rename_i hprefix
    cases ht
    obtain ⟨back, rfl⟩ := List.isPrefixOf_iff_prefix.mp hprefix
    exact ⟨s.toList, rfl, back, rfl, byteSize_toList s⟩
  · cases ht

theorem range (lo hi : Char) :
    Covers m (.range lo hi) {[c] | (c : Char) (_ : lo ≤ c ∧ c ≤ hi)} := by
  intro cs t ht
  rw [Expr.read, Reading.spaced_false] at ht
  cases cs with
  | nil => cases ht
  | cons c cs =>
      rw [Reading.range] at ht
      split at ht
      · rename_i hc
        cases ht
        exact ⟨[c], ⟨c, hc, rfl⟩, cs, rfl, by simp [Taken.ofTree, Tree.length]⟩
      · cases ht

theorem any : Covers m .any {[c] | c : Char} := by
  intro cs t ht
  rw [Expr.read, Reading.spaced_false] at ht
  cases cs with
  | nil => cases ht
  | cons c cs =>
      cases ht
      exact ⟨[c], ⟨c, rfl⟩, cs, rfl, by simp [Taken.ofTree, Tree.length]⟩

theorem nil : Covers m (.seq []) 1 := by
  intro cs t ht
  rw [Expr.read, Expr.readEach] at ht
  cases ht
  exact ⟨[], rfl, cs, rfl, rfl⟩

theorem cons (h : Covers m e L) (hs : Covers m (.seq es) L') :
    Covers m (.seq (e :: es)) (L * L') := by
  intro cs t ht
  rw [Expr.read, Expr.readEach] at ht
  cases hfirst : (e.read m false cs).taken? with
  | none =>
      rw [Reading.andThen_of_none hfirst, hfirst] at ht
      cases ht
  | some u =>
      rw [Reading.andThen_of_some hfirst] at ht
      obtain ⟨v, hv, rfl⟩ := Option.map_eq_some_iff.mp ht
      obtain ⟨front, hfront, back, rfl, hsize⟩ := h cs u hfirst
      rw [← hsize, dropBytes_append] at hv
      obtain ⟨front', hfront', back', rfl, hsize'⟩ := hs back v (by rwa [Expr.read])
      refine ⟨front ++ front', ⟨front, hfront, front', hfront', rfl⟩, back',
        (List.append_assoc _ _ _).symm, ?_⟩
      rw [byteSize_append, hsize, hsize']
      rfl

theorem last (h : Covers m e L) : Covers m (.seq [e]) L := by
  simpa using h.cons nil

/-- What follows `~"s"` takes no text that begins with `s`. -/
theorem guarded {s : String} (hs : Covers m (.seq es) L) :
    Covers m (.seq (.not (.terminal s) :: es)) {cs ∈ L | ¬ s.toList <+: cs} := by
  intro cs t ht
  rw [Expr.read, Expr.readEach, Expr.read] at ht
  cases hno : ((Expr.terminal s).read m false cs).taken? with
  | some u =>
      have hfailed : (((Expr.terminal s).read m false cs).negated (Expr.terminal s).text).taken? =
          none := by
        rw [Reading.negated, hno]
      rw [Reading.andThen_of_none hfailed, hfailed] at ht
      cases ht
  | none =>
      have hnothing : (((Expr.terminal s).read m false cs).negated (Expr.terminal s).text).taken? =
          some .nothing := by
        rw [Reading.negated, hno]
      rw [Reading.andThen_of_some hnothing] at ht
      obtain ⟨u, hu, rfl⟩ := Option.map_eq_some_iff.mp ht
      have htaken : ((Expr.seq es).read m false cs).taken? = some u := by
        simpa [Expr.read, Taken.nothing] using hu
      obtain ⟨front, hfront, back, rfl, hsize⟩ := hs cs u htaken
      refine ⟨front, ⟨hfront, fun hbegins => ?_⟩, back, rfl, by simpa [Taken.append, Taken.nothing]⟩
      rw [Expr.read, Reading.spaced_false, Reading.terminal, if_pos
        (List.isPrefixOf_iff_prefix.mpr (hbegins.trans (List.prefix_append front back)))] at hno
      cases hno

theorem alt (h : ∀ e ∈ es, Covers m e L) : Covers m (.alt es) L := by
  intro cs t ht
  rw [Expr.read] at ht
  induction es generalizing t with
  | nil => cases ht
  | cons e es ih =>
      obtain ⟨he, hes⟩ := List.forall_mem_cons.mp h
      rw [Expr.readFirst] at ht
      cases hfirst : (e.read m false cs).taken? with
      | some u =>
          rw [Reading.orElse_of_some hfirst] at ht
          exact he cs t ht
      | none =>
          rw [Reading.orElse_of_none hfirst] at ht
          obtain ⟨u, hu, rfl⟩ := Option.map_eq_some_iff.mp ht
          simpa [Taken.append, Taken.nothing] using ih hes u hu

theorem mono (h : Covers m e L) (hle : L ≤ L') : Covers m e L' := by
  intro cs t ht
  obtain ⟨front, hfront, hback⟩ := h cs t ht
  exact ⟨front, hle hfront, hback⟩

end Covers

variable {g : Grammar} {p : Parser} {q : String} {s : Tree.Located} {e : Expr} {L : Language Char}

theorem Grammar.ParsedBy.covers (hp : g.ParsedBy p) (hbody : g.HasBody q false e)
    (h : Covers p.meaning e L) : Covers p.meaning (.apply q) L := by
  intro cs u hu
  rw [Expr.read, Bool.false_and, Reading.spaced_false] at hu
  obtain ⟨t, ht, rfl⟩ := Option.map_eq_some_iff.mp hu
  obtain ⟨-, rule, hrule, rfl, hlexical⟩ := hbody
  obtain ⟨rule', n, trees, hrule', rfl, htaken⟩ := hp.body_took ht
  obtain rfl := Option.some.inj (hrule.symm.trans hrule')
  exact h cs ⟨n, trees⟩ (hlexical ▸ htaken)

/-- The text of a tree that was found is one of those that its rule covers. -/
theorem Covers.text_found (h : Covers p.meaning (.apply q) L) (hs : p.Found q s) :
    ∃ cs ∈ L, s.text = .ofList cs := by
  obtain ⟨cs, hleft, htree⟩ := hs
  have htaken : ((Expr.apply q).read p.meaning false cs).taken? = some (.ofTree s.tree) := by
    rw [Expr.read, Bool.false_and, Reading.spaced_false, Application.reading, Parser.meaning, htree]
    rfl
  obtain ⟨front, hfront, back, rfl, hsize⟩ := h cs _ htaken
  exact ⟨front, hfront, Tree.Located.text_eq hleft hsize.symm⟩

end Pegboard
