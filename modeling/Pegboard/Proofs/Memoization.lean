import Pegboard.Grammar.Match
import Pegboard.Proofs.LeftCalls.Check
import Pegboard.Proofs.Match.Whole
import Pegboard.Proofs.Text.Edit

/-!
# Memoization cannot be told

A `Parser` answers for the rules of a grammar with a tree and the failures met, and knows nothing of
a memo table: neither how far was looked nor which rules were applied. Where no rule is
left-recursive, one parser only obeys the rules of a grammar, and a match of a text, which looks up
in its table what it has worked out before, comes to what that parser does.

Main statement: `Grammar.Acyclic.matchText_eq_parse`.
-/

namespace Pegboard

open Relation Text

/-! ## Parsing without a table -/

/-- What applying the rule of a name at the beginning of a text comes to, and the failures met. -/
abbrev Parser := String → List Char → Option Tree × List Failure

/-- The parser as a meaning; what a memo table would have to know is left blank. -/
def Parser.meaning (p : Parser) : Meaning :=
  fun q cs => ⟨(p q cs).1, (p q cs).2, 0, []⟩

/-- The rule parsed at the beginning of a text: its body as one tree. A described rule reports its
description, if it did not match, in place of all failures of its body. -/
def Rule.parse (rule : Rule) (p : Parser) (cs : List Char) : Option Tree × List Failure :=
  let r := rule.body.read p.meaning (isSyntactic rule.name) cs
  let tree? := r.taken?.map fun t => .rule rule.name t.size t.trees
  match rule.description with
  | none => (tree?, r.missed)
  | some d => (tree?, if tree?.isSome then [] else [⟨0, .description d⟩])

/-- The parser obeys the rules of the grammar. -/
def Grammar.ParsedBy (g : Grammar) (p : Parser) : Prop :=
  ∀ q cs, p q cs =
    match g.rule? q with
    | none => (none, [])
    | some rule => rule.parse p cs

/-- The result of parsing a whole text from a rule. -/
def Parser.result (p : Parser) (start text : String) : Match.Result :=
  let r := (Expr.whole start).read p.meaning (isSyntactic start) text.toList
  ⟨.ofString text, start, r.tree?, .ofList r.missed⟩

/-! ## Readings that differ in what a table has to know -/

/-- Two readings came to the same and met the same failures. -/
structure Reading.Alike (a b : Reading) : Prop where
  taken : a.taken? = b.taken?
  missed : a.missed = b.missed

/-- Two meanings answer alike. -/
def Meaning.Alike (m m' : Meaning) : Prop :=
  ∀ q cs, (m q cs).tree? = (m' q cs).tree? ∧ (m q cs).missed = (m' q cs).missed

namespace Reading

variable {m m' : Meaning} {a a' b b' : Reading} {read read' : List Char → Reading}

namespace Alike

theorem refl (a : Reading) : a.Alike a :=
  ⟨rfl, rfl⟩

theorem followed (t : Taken) (ha : a.Alike a') (hb : b.Alike b') :
    (a.followed t b).Alike (a'.followed t b') :=
  ⟨by simp [Reading.followed, hb.taken], by simp [Reading.followed, ha.missed, hb.missed]⟩

theorem andThen {next next' : Taken → Reading} (ha : a.Alike a')
    (hnext : ∀ t, (next t).Alike (next' t)) : (a.andThen next).Alike (a'.andThen next') := by
  cases ht : a.taken? with
  | none =>
      rw [andThen_of_none ht, andThen_of_none (ha.taken.symm.trans ht)]
      exact ha
  | some t =>
      rw [andThen_of_some ht, andThen_of_some (ha.taken.symm.trans ht)]
      exact ha.followed t (hnext t)

theorem orElse (ha : a.Alike a') (hb : b.Alike b') : (a.orElse b).Alike (a'.orElse b') := by
  cases ht : a.taken? with
  | none =>
      rw [orElse_of_none ht, orElse_of_none (ha.taken.symm.trans ht)]
      exact ha.followed .nothing hb
  | some t =>
      rw [orElse_of_some ht, orElse_of_some (ha.taken.symm.trans ht)]
      exact ha

theorem negated (ha : a.Alike a') (text : String) : (a.negated text).Alike (a'.negated text) := by
  rw [Reading.negated, Reading.negated, ha.taken]
  split <;> exact ⟨rfl, rfl⟩

theorem restored (ha : a.Alike a') : a.restored.Alike a'.restored :=
  ⟨by simp [Reading.restored, ha.taken], ha.missed⟩

theorem application (hm : m.Alike m') (rule : String) (cs : List Char) :
    ((m rule cs).reading rule).Alike ((m' rule cs).reading rule) :=
  ⟨by simp [Application.reading, (hm rule cs).1], (hm rule cs).2⟩

theorem spaced (hm : m.Alike m') (skip : Bool) (h : ∀ cs, (read cs).Alike (read' cs))
    (cs : List Char) : (Reading.spaced m skip read cs).Alike (Reading.spaced m' skip read' cs) := by
  cases skip with
  | false => exact h cs
  | true =>
      have hspaces : (Reading.spaces m cs).Alike (Reading.spaces m' cs) :=
        ⟨by simp [Reading.spaces, (application hm "spaces" cs).taken], rfl⟩
      exact hspaces.andThen fun t => h (dropBytes cs t.size)

theorem rounds (h : ∀ cs, (read cs).Alike (read' cs)) (op : Repeat) (matched : Bool)
    (cs : List Char) :
    (Reading.rounds op read matched cs).Alike (Reading.rounds op read' matched cs) := by
  induction hlen : cs.length using Nat.strong_induction_on generalizing matched cs with
  | _ n ih =>
      subst hlen
      cases ht : (read cs).taken? with
      | none =>
          rw [rounds_of_none ht, rounds_of_none ((h cs).taken.symm.trans ht)]
          cases matched with
          | false => exact h cs
          | true => exact ⟨rfl, (h cs).missed⟩
      | some t =>
          by_cases hmore : op ≠ .opt ∧ 0 < t.size ∧ cs ≠ []
          · rw [rounds_more ht hmore, rounds_more ((h cs).taken.symm.trans ht) hmore]
            exact (h cs).followed t
              (ih _ (dropBytes_length_lt hmore.2.2 hmore.2.1) true _ rfl)
          · rw [rounds_last ht hmore, rounds_last ((h cs).taken.symm.trans ht) hmore]
            exact h cs

theorem iterated (h : ∀ cs, (read cs).Alike (read' cs)) (op : Repeat) (cs : List Char) :
    (Reading.iterated op read cs).Alike (Reading.iterated op read' cs) := by
  have hrounds := rounds h op (op != .plus) cs
  exact ⟨by simp [Reading.iterated, Reading.asTree, hrounds.taken], hrounds.missed⟩

end Alike

end Reading

open Reading.Alike in
mutual

theorem Expr.read_alike {m m' : Meaning} (hm : m.Alike m') (syntactic : Bool) :
    ∀ (e : Expr) (cs : List Char), (e.read m syntactic cs).Alike (e.read m' syntactic cs)
  | .any, cs => by rw [Expr.read, Expr.read]; exact spaced hm _ (fun _ => .refl _) cs
  | .endOfInput, cs => by rw [Expr.read, Expr.read]; exact spaced hm _ (fun _ => .refl _) cs
  | .terminal s, cs => by rw [Expr.read, Expr.read]; exact spaced hm _ (fun _ => .refl _) cs
  | .range lo hi, cs => by rw [Expr.read, Expr.read]; exact spaced hm _ (fun _ => .refl _) cs
  | .apply rule, cs => by rw [Expr.read, Expr.read]; exact spaced hm _ (application hm rule) cs
  | .alt es, cs => by rw [Expr.read, Expr.read]; exact Expr.readFirst_alike hm syntactic es cs
  | .seq es, cs => by rw [Expr.read, Expr.read]; exact Expr.readEach_alike hm syntactic es cs
  | .iter op e, cs => by
      rw [Expr.read, Expr.read]
      exact iterated (Expr.read_alike hm syntactic e) op cs
  | .not e, cs => by
      rw [Expr.read, Expr.read]
      exact (Expr.read_alike hm syntactic e cs).negated e.text
  | .look e, cs => by rw [Expr.read, Expr.read]; exact (Expr.read_alike hm syntactic e cs).restored
  | .lex e, cs => by rw [Expr.read, Expr.read]; exact Expr.read_alike hm false e cs

theorem Expr.readFirst_alike {m m' : Meaning} (hm : m.Alike m') (syntactic : Bool) :
    ∀ (es : List Expr) (cs : List Char),
      (Expr.readFirst m syntactic es cs).Alike (Expr.readFirst m' syntactic es cs)
  | [], cs => by rw [Expr.readFirst, Expr.readFirst]; exact .refl _
  | e :: es, cs => by
      rw [Expr.readFirst, Expr.readFirst]
      exact (Expr.read_alike hm syntactic e cs).orElse (Expr.readFirst_alike hm syntactic es cs)

theorem Expr.readEach_alike {m m' : Meaning} (hm : m.Alike m') (syntactic : Bool) :
    ∀ (es : List Expr) (cs : List Char),
      (Expr.readEach m syntactic es cs).Alike (Expr.readEach m' syntactic es cs)
  | [], cs => by rw [Expr.readEach, Expr.readEach]; exact .refl _
  | e :: es, cs => by
      rw [Expr.readEach, Expr.readEach]
      exact (Expr.read_alike hm syntactic e cs).andThen
        fun t => Expr.readEach_alike hm syntactic es _

end

/-! ## Grammars without left recursion -/

/-- What an application comes to, and the failures met. -/
def Application.parsed (a : Application) : Option Tree × List Failure :=
  (a.tree?, a.missed)

namespace Grammar

variable {g : Grammar} {rule : Rule} {cs : List Char}

/-- No rule applies itself at its own place, so that each takes one round. -/
theorem Acyclic.settled_eq_round (hg : g.Acyclic) (hrule : g.rule? rule.name = some rule) :
    rule.settled g.meaning cs = rule.round g.meaning cs none := by
  refine Rule.settled_of_not_mem fun hown => ?_
  have hsound := Rule.round_sound g.meaning_fits g.meaning_stays hrule cs none (by simp)
  exact hg rule.name (.single ⟨rule, hrule, hsound.left _ hown rfl⟩)

/-- A parser that agrees with the meaning on all that a rule applies parses the rule as it means. -/
theorem Acyclic.parse_eq (hg : g.Acyclic) (hrule : g.rule? rule.name = some rule) (p : Parser)
    (hp : ∀ c ∈ (g.meaning rule.name cs).calls, c ≠ ⟨0, rule.name⟩ →
      p c.rule (dropBytes cs c.offset) = (g.meaning c.rule (dropBytes cs c.offset)).parsed) :
    rule.parse p cs = (g.meaning rule.name cs).parsed := by
  have hmeaning : g.meaning rule.name cs = rule.described (rule.round g.meaning cs none) := by
    rw [hg.loopsOnly.meaning_eq hrule, Rule.applied, hg.settled_eq_round hrule]
  -- what a table has to know is taken from the meaning, all else from the parser
  let mixed : Meaning := fun q cs => { g.meaning q cs with tree? := (p q cs).1, missed := (p q cs).2 }
  let seeded := Meaning.seeded g.meaning rule.name cs none
  have hfits : seeded.Fits := g.meaning_fits.seeded rule.name cs (by simp)
  have hsame : rule.body.read mixed (isSyntactic rule.name) cs =
      rule.body.read seeded (isSyntactic rule.name) cs := by
    refine Expr.read_same hfits mixed _ rule.body _ cs cs (.refl _ cs) ⟨Nat.le_refl _, ?_⟩
    intro c hc
    have hcut := ((Expr.read_fits hfits _ rule.body cs).calls c hc).1
    rw [← Rule.round_calls] at hc
    have hne : c ≠ ⟨0, rule.name⟩ := by
      rintro rfl
      have hsound := Rule.round_sound g.meaning_fits g.meaning_stays hrule cs none (by simp)
      exact hg rule.name (.single ⟨rule, hrule, hsound.left _ hc rfl⟩)
    have hcall := hp c (by rwa [hmeaning, Rule.described_calls]) hne
    have hseeded : seeded c.rule (dropBytes cs c.offset) = g.meaning c.rule (dropBytes cs c.offset) :=
      Meaning.seeded_of_ne _ _ _ hcut hne
    rw [hseeded]
    simp only [mixed, hcall, Application.parsed]
  have halike : (rule.body.read p.meaning (isSyntactic rule.name) cs).Alike
      (rule.body.read seeded (isSyntactic rule.name) cs) := by
    have hmixed : p.meaning.Alike mixed := fun _ _ => ⟨rfl, rfl⟩
    rw [← hsame]
    exact Expr.read_alike hmixed _ rule.body cs
  rw [hmeaning, Rule.parse, Rule.described, halike.taken, halike.missed]
  cases rule.description <;> rfl

theorem Acyclic.parsedBy (hg : g.Acyclic) : g.ParsedBy fun q cs => (g.meaning q cs).parsed := by
  intro q cs
  dsimp only
  cases hrule : g.rule? q with
  | none =>
      rw [meaning_of_none hrule]
      rfl
  | some rule =>
      have hname := rule?_name hrule
      subst hname
      exact (hg.parse_eq hrule _ fun _ _ _ => rfl).symm

theorem ParsedBy.unique (hg : g.Acyclic) {p : Parser} (hp : g.ParsedBy p) :
    p = fun q cs => (g.meaning q cs).parsed := by
  funext q cs
  refine hg.loopsOnly.induction (P := fun q cs => p q cs = (g.meaning q cs).parsed) ?_ ?_ q cs
  · intro q cs hrule
    rw [hp q cs, hrule, meaning_of_none hrule]
    rfl
  · intro rule cs hrule ih
    rw [hp, hrule]
    exact hg.parse_eq hrule p ih

/-- A match that does not nest too deep comes to what a parser that obeys the rules makes of the
text. -/
theorem Acyclic.eq_result (hg : g.Acyclic) {p : Parser} (hp : g.ParsedBy p) {text : String}
    {start? : Option String} {r : Match.Result} (h : g.matchText text start? = .ok r) :
    ∃ rule, g.startRule start? = .ok rule ∧ r = p.result rule.name text := by
  obtain rfl := hp.unique hg
  obtain ⟨rule, hrule, heq⟩ := hg.loopsOnly.matchText_eq_reading h
  have hm : Meaning.Alike (Parser.meaning fun q cs => (g.meaning q cs).parsed) g.meaning :=
    fun _ _ => ⟨rfl, rfl⟩
  have halike := Expr.read_alike hm (isSyntactic rule.name) (.whole rule.name) text.toList
  refine ⟨rule, hrule, ?_⟩
  rw [heq, Parser.result, Reading.tree?, Reading.tree?, halike.taken, halike.missed]

/-- Where no rule is left-recursive, exactly one parser obeys the rules of the grammar, and whenever
a match does not nest too deep, its result is that of the parser in every field. -/
theorem Acyclic.matchText_eq_parse (hg : g.Acyclic) :
    ∃ p, g.ParsedBy p ∧ (∀ p', g.ParsedBy p' → p' = p) ∧
      ∀ text start? r, g.matchText text start? = .ok r →
        ∃ rule, g.startRule start? = .ok rule ∧ r = p.result rule.name text :=
  ⟨_, hg.parsedBy, fun _ hp' => hp'.unique hg, fun _ _ _ => hg.eq_result hg.parsedBy⟩

/-- Words in lower case, with spaces between them, and none that begins with `end`. -/
def words : Grammar where
  name := "Words"
  super := none
  start := some "Words"
  rules :=
    [⟨"Words", .iter .star (.apply "word"), none, none, "Words"⟩,
     ⟨"word", .seq [.not (.terminal "end"), .iter .plus (.range 'a' 'z')], some "a word", none,
       "Words"⟩,
     ⟨"spaces", .iter .star (.terminal " "), none, none, "Words"⟩]

theorem matchText_eq_parse_words :
    ∃ p, words.ParsedBy p ∧ (p.result "Words" "go on").succeeded = true ∧
      (p.result "Words" "go end").failures =
        .furthest 3 [.description "a word", .endOfInput] := by
  have hranked : words.RankedBy ["spaces", "Words"] ["spaces", "word", "Words"].idxOf := by
    decide +kernel
  obtain ⟨p, hp, -, hresult⟩ := (hranked.acyclic (by decide +kernel)).matchText_eq_parse
  have result : ∀ text outcome, (words.matchText text none).toOption.map
      (fun r => (r.start, r.succeeded, r.failures)) = some ("Words", outcome) →
        ((p.result "Words" text).succeeded, (p.result "Words" text).failures) = outcome := by
    intro text outcome h
    obtain ⟨r, hr, heq⟩ := toOption_map_eq_some h
    obtain ⟨rule, -, rfl⟩ := hresult text none r hr
    obtain ⟨hname, houtcome⟩ := Prod.mk.inj heq
    rw [← (show rule.name = "Words" from hname)]
    exact houtcome
  have hgo := result "go on" (true, .furthest 5 [.description "a word"]) (by decide +kernel)
  have hend := result "go end" (false, .furthest 3 [.description "a word", .endOfInput])
    (by decide +kernel)
  exact ⟨p, hp, (Prod.mk.inj hgo).1, (Prod.mk.inj hend).2⟩

end Grammar

end Pegboard
