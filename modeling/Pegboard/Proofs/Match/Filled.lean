import Pegboard.Proofs.Match.Confined
import Pegboard.Proofs.Match.Outcomes
import Pegboard.Proofs.Tree.Filled

/-!
# A match accounts for its text

The cursor moves in two ways only: over a tree that is kept, or over a match of `spaces` that is
not, and the latter happens in syntactic contexts alone. So from where an evaluation begins to where
it ends the trees it found stand one behind the other, with gaps between them that are matches of
`spaces` (`Advances`); what is tried in vain is taken back, trees and cursor alike. The trees in the
table are no others: each entry has the tree of its rule, worked out at its place in this match.

Main statement: `Grammar.matchText_coversText`.
-/

namespace Pegboard

namespace Match

open Evaluation
open Pegboard.Tree (Fills FilledBy Gap Tiled le_of_pieces)

/-! ## What evaluations come to -/

/-- In the match the rule `spaces` was applied at `p`, and matched up to `q`. -/
def SpacesMatched (set : Setting) (limit : Nat) (start : String) (memo : Memo) (p q : Nat) : Prop :=
  ∃ m out c, Reached set limit start memo m ∧ m.task = .apply "spaces" ∧ m.cursor.pos = p ∧
    m.outcome set = some out ∧ out.cursor? = some c ∧ c.pos = q

section

variable (piece : Nat → Nat → Prop)

/-- Between two cursors the trees found stand one behind the other, with the gaps of the context. -/
structure Advances (lexical : Bool) (c c' : Cursor) : Prop where
  found : ∃ found, c'.found = found ++ c.found ∧
    Fills (Gap piece lexical) 0 c.pos found.reverse c'.pos ∧
    ∀ x ∈ found, Tiled piece lexical x.1 x.2

/-- What an application of the rule found, if it matched, is a tree of the rule with no other
gaps. -/
def Found (rule : String) (pos : Nat) (tree? : Option Tree) : Prop :=
  ∀ t, tree? = some t → t.rule? = some rule ∧ Tiled piece true pos t

def Entry.Found (pos : Nat) (rule : String) (e : Entry) : Prop :=
  Match.Found piece rule pos e.tree?

/-- How far a task gets from one cursor to another. -/
def Task.Gets (c c' : Cursor) : Task → Prop
  | .expr syntactic _ | .choices syntactic _ | .parts syntactic _ | .rounds syntactic _ _ _ _ =>
    Advances piece (!syntactic) c c'
  | .apply q => ∃ t, c' = c.push t ∧ t.rule? = some q ∧ Tiled piece true c.pos t
  | .grow rule _ _ _ =>
    ∃ t, c' = Cursor.push ⟨c.pos, []⟩ t ∧ t.rule? = some rule.name ∧ Tiled piece true c.pos t

/-- The seed that a task begins with, if it does with one. -/
def Task.Seeded (pos : Nat) : Task → Prop
  | .grow rule _ best _ => Found piece rule.name pos (some best)
  | _ => True

/-- Begun at a moment with sound trees, the evaluation leaves sound trees. -/
def Moment.Keeps (set : Setting) (m : Moment) : Prop :=
  m.memo.Each (Entry.Found piece) → m.task.Seeded piece m.cursor.pos → ∀ out,
    m.outcome set = some out → out.memo.Each (Entry.Found piece) ∧
      ∀ c, out.cursor? = some c → m.task.Gets piece m.cursor c

end

namespace Advances

variable {piece : Nat → Nat → Prop} {lexical : Bool} {c c' c'' : Cursor}

theorem refl (lexical : Bool) (c : Cursor) : Advances piece lexical c c :=
  ⟨[], rfl, Gap.refl lexical c.pos, nofun⟩

theorem push {t : Tree} (h : Tiled piece lexical c.pos t) :
    Advances piece lexical c (c.push t) := by
  refine ⟨[(c.pos, t)], rfl, ⟨?_, ?_⟩, List.forall_mem_singleton.mpr h⟩
  · rw [Nat.zero_add]
    exact Gap.refl lexical _
  · rw [Nat.zero_add]
    exact Gap.refl lexical _

theorem trans (h : Advances piece lexical c c') (h' : Advances piece lexical c' c'') :
    Advances piece lexical c c'' := by
  obtain ⟨found, hfound, hfills, htiled⟩ := h.found
  obtain ⟨found', hfound', hfills', htiled'⟩ := h'.found
  refine ⟨found' ++ found, ?_, ?_, List.forall_mem_append.mpr ⟨htiled', htiled⟩⟩
  · rw [hfound', hfound, List.append_assoc]
  · rw [List.reverse_append]
    exact hfills.append (Gap.trans lexical) hfills'

theorem loosen (h : Advances piece true c c') : Advances piece false c c' := by
  obtain ⟨found, hfound, hfills, htiled⟩ := h.found
  exact ⟨found, hfound, hfills.mono fun _ _ => Gap.loosen, fun x hx => (htiled x hx).loosen⟩

/-- Spaces are skipped. -/
theorem skip {pos : Nat} (h : pos = c.pos ∨ piece c.pos pos) :
    Advances piece false c { c with pos := pos } := by
  refine ⟨[], rfl, ?_, nofun⟩
  rcases h with rfl | h
  · exact Gap.refl false c.pos
  · exact Relation.ReflTransGen.single h

/-- The trees found from the beginning of a node on fill the node. -/
theorem children (hpiece : ∀ p q, piece p q → p ≤ q) {pos : Nat}
    (h : Advances piece lexical ⟨pos, []⟩ c) :
    pos ≤ c.pos ∧ Fills (Gap piece lexical) pos pos (c.children pos) c.pos ∧
      ∀ x ∈ c.children pos, Tiled piece lexical (pos + x.1) x.2 := by
  obtain ⟨found, hfound, hfills, htiled⟩ := h.found
  rw [List.append_nil] at hfound
  obtain ⟨hle, hbetween⟩ := hfills.le fun _ _ h => le_of_pieces hpiece h.loosen
  have hfrom : ∀ x ∈ found.reverse, pos ≤ x.1 := fun x hx => by
    have := (hbetween x hx).1
    rwa [Nat.zero_add] at this
  refine ⟨hle, ?_, ?_⟩
  · rw [Cursor.children, hfound]
    exact hfills.rebase hfrom
  · rw [Cursor.children, hfound]
    intro x hx
    obtain ⟨y, hy, rfl⟩ := List.mem_map.mp hx
    rw [Nat.add_sub_cancel' (hfrom y hy)]
    exact htiled y (List.mem_reverse.mp hy)

end Advances

section

variable {piece : Nat → Nat → Prop} {set : Setting} {depth base : Nat} {frames : List Frame}
  {c : Cursor} {log : Log} {memo : Memo}

/-- What the body of a rule found becomes a tree of the rule. -/
theorem found_of_advances (hpiece : ∀ p q, piece p q → p ≤ q) {rule : String} {pos : Nat}
    (h : Advances piece (!isSyntactic rule) ⟨pos, []⟩ c) :
    Found piece rule pos (some (.rule rule (c.pos - pos) (c.children pos))) := by
  rintro _ ⟨⟩
  obtain ⟨hle, hfills, hchildren⟩ := h.children hpiece
  refine ⟨rfl, .rule ?_ hchildren⟩
  show Fills _ pos pos (c.children pos) (pos + (c.pos - pos))
  rwa [Nat.add_sub_cancel' hle]

/-- What is known at a moment of the evaluations that it leads to. -/
structure Moment.Below (piece : Nat → Nat → Prop) (set : Setting) (m : Moment) : Prop where
  keeps : ∀ m', Leads set m m' → m'.Keeps piece set
  spaces : ∀ m', Leads set m m' → m'.task = .apply "spaces" → ∀ out c, m'.outcome set = some out →
    out.cursor? = some c → piece m'.cursor.pos c.pos

/-! ## Expressions -/

theorem ofExpr_spaced {apply : String → Evaluation} {e : Expr} (he : e.Spaced) :
    ofExpr set apply true e = (skipSpaces apply).andThen (ofExpr set apply false e) := by
  cases e with
  | any => rfl
  | endOfInput => rfl
  | terminal s => rfl
  | range lo hi => rfl
  | apply q =>
      have hq : (q != "spaces") = true := bne_iff_ne.mpr he
      simp [ofExpr, spaced, hq]
  | alt es => exact he.elim
  | seq es => exact he.elim
  | iter op e => exact he.elim
  | not e => exact he.elim
  | look e => exact he.elim
  | lex e => exact he.elim

/-- Spaces are skipped, and the expression is read behind them. -/
theorem spaced_keeps {e : Expr} (he : e.Spaced)
    (hbelow : Moment.Below piece set ⟨depth, frames, base, .expr true e, c, log, memo⟩) :
    Moment.Keeps piece set ⟨depth, frames, base, .expr true e, c, log, memo⟩ := by
  intro hmemo _ out h
  have h : ofExpr set (ofRule set depth frames) true e c log memo = some out := h
  rw [ofExpr_spaced he] at h
  rcases andThen_eq_some h with ⟨hskip, -⟩ | ⟨c', log', memo', hskip, hread⟩
  · obtain ⟨c?, inner, -, hcursor, -⟩ := skipSpaces_eq_some hskip
    cases hcursor
  · obtain ⟨c?, inner, happly, hcursor, -⟩ := skipSpaces_eq_some hskip
    have hmemo' := (hbelow.keeps _ (.spaces rfl he) hmemo trivial _ happly).1
    obtain ⟨hout, hgets⟩ := hbelow.keeps _ (.behindSpaces rfl he hskip) hmemo' trivial out hread
    obtain rfl := Option.some.inj hcursor
    refine ⟨hout, fun c'' hc'' => (Advances.skip ?_).trans (hgets c'' hc'').loosen⟩
    cases c? with
    | none => exact .inl rfl
    | some c₁ => exact .inr (hbelow.spaces _ (.spaces rfl he) rfl _ c₁ happly rfl)

/-- An expression with a node of its own is evaluated as what it records in the node. -/
theorem traced_keeps {syntactic : Bool} {e : Expr} {evaluation : Evaluation}
    (he : ofExpr set (ofRule set depth frames) syntactic e = traced set e evaluation)
    (hkeeps : ∀ out, memo.Each (Entry.Found piece) →
      evaluation c (if set.tracing then { log with trace := [] } else log) memo = some out →
        out.memo.Each (Entry.Found piece) ∧
        ∀ c', out.cursor? = some c' → Advances piece (!syntactic) c c') :
    Moment.Keeps piece set ⟨depth, frames, base, .expr syntactic e, c, log, memo⟩ := by
  intro hmemo _ out h
  have h : ofExpr set (ofRule set depth frames) syntactic e c log memo = some out := h
  rw [he] at h
  obtain ⟨inner, hinner, hcursor, hout, -⟩ := traced_eq_some h
  rw [hcursor, hout]
  exact hkeeps inner hmemo hinner

/-- An expression that reads the text, where no spaces are skipped. -/
theorem reads_keeps {e : Expr} {read : Evaluation} (hread : read.Reads)
    (he : ofExpr set (ofRule set depth frames) false e = traced set e read) :
    Moment.Keeps piece set ⟨depth, frames, base, .expr false e, c, log, memo⟩ := by
  refine traced_keeps he fun out hmemo hout => ?_
  obtain ⟨hsame, -, hreads⟩ := hread _ _ _ _ hout
  refine ⟨by rwa [hsame], fun c' hc' => ?_⟩
  rcases hreads c' hc' with rfl | ⟨n, rfl⟩
  · exact .refl _ _
  · exact .push (.terminal _ _ _)

theorem apply_expr_keeps {syntactic : Bool} {q : String} (hq : syntactic = false ∨ q = "spaces")
    (hbelow : Moment.Below piece set
      ⟨depth, frames, base, .expr syntactic (.apply q), c, log, memo⟩) :
    Moment.Keeps piece set ⟨depth, frames, base, .expr syntactic (.apply q), c, log, memo⟩ := by
  intro hmemo _ out h
  have hskip : (syntactic && q != "spaces") = false := by
    rcases hq with rfl | rfl
    · rfl
    · simp
  have h : spaced _ (syntactic && q != "spaces") (ofRule set depth frames q) c log memo =
      some out := h
  rw [hskip] at h
  obtain ⟨hout, hgets⟩ := hbelow.keeps _ (.application rfl hq) hmemo trivial out h
  refine ⟨hout, fun c' hc' => ?_⟩
  obtain ⟨t, rfl, hrule, htiled⟩ := hgets c' hc'
  exact .push (htiled.ofRule hrule _)

theorem expr_keeps (hpiece : ∀ p q, piece p q → p ≤ q) {syntactic : Bool} {e : Expr}
    (hbelow : Moment.Below piece set ⟨depth, frames, base, .expr syntactic e, c, log, memo⟩) :
    Moment.Keeps piece set ⟨depth, frames, base, .expr syntactic e, c, log, memo⟩ := by
  cases e with
  | any =>
      cases syntactic with
      | true => exact spaced_keeps trivial hbelow
      | false => exact reads_keeps (any_reads set) (by rw [ofExpr]; rfl)
  | endOfInput =>
      cases syntactic with
      | true => exact spaced_keeps trivial hbelow
      | false => exact reads_keeps (endOfInput_reads set) (by rw [ofExpr]; rfl)
  | terminal s =>
      cases syntactic with
      | true => exact spaced_keeps trivial hbelow
      | false => exact reads_keeps (terminal_reads set s) (by rw [ofExpr]; rfl)
  | range lo hi =>
      cases syntactic with
      | true => exact spaced_keeps trivial hbelow
      | false => exact reads_keeps (range_reads set lo hi) (by rw [ofExpr]; rfl)
  | apply q =>
      by_cases hq : syntactic = false ∨ q = "spaces"
      · exact apply_expr_keeps hq hbelow
      · obtain ⟨hsyntactic, hne⟩ := not_or.mp hq
        obtain rfl : syntactic = true := by simpa using hsyntactic
        exact spaced_keeps hne hbelow
  | alt es =>
      refine traced_keeps (by rw [ofExpr]) fun out hmemo hout => ?_
      exact hbelow.keeps _ (.alt rfl) hmemo trivial out hout
  | seq es =>
      refine traced_keeps (by rw [ofExpr]) fun out hmemo hout => ?_
      exact hbelow.keeps _ (.seq rfl) hmemo trivial out hout
  | lex e =>
      refine traced_keeps (by rw [ofExpr]) fun out hmemo hout => ?_
      obtain ⟨hmemo', hgets⟩ := hbelow.keeps _ (.lex rfl) hmemo trivial out hout
      refine ⟨hmemo', fun c' hc' => ?_⟩
      cases syntactic with
      | true => exact (hgets c' hc').loosen
      | false => exact hgets c' hc'
  | iter op e =>
      refine traced_keeps (by rw [ofExpr]) fun out hmemo hout => ?_
      obtain ⟨c?, hrounds, hiter⟩ := iter_eq_some hout
      obtain ⟨hmemo', hgets⟩ := hbelow.keeps _ (.iter rfl) hmemo trivial _ hrounds
      refine ⟨hmemo', fun c' hc' => ?_⟩
      rw [hiter] at hc'
      obtain ⟨c₁, rfl, rfl⟩ := Option.map_eq_some_iff.mp hc'
      obtain ⟨hle, hfills, hchildren⟩ := (hgets c₁ rfl).children hpiece
      refine .push (.iter ?_ hchildren)
      show Fills _ c.pos c.pos (c₁.children c.pos) (c.pos + (c₁.pos - c.pos))
      rwa [Nat.add_sub_cancel' hle]
  | not e =>
      refine traced_keeps (by rw [ofExpr]) fun out hmemo hout => ?_
      obtain ⟨c?, log', he, -, hnot⟩ := not_eq_some hout
      obtain ⟨hmemo', -⟩ := hbelow.keeps _ (.not rfl) hmemo trivial _ he
      refine ⟨hmemo', fun c' hc' => ?_⟩
      rw [hnot] at hc'
      cases c? <;> cases hc'
      exact .refl _ _
  | look e =>
      refine traced_keeps (by rw [ofExpr]) fun out hmemo hout => ?_
      obtain ⟨c?, he, hlook⟩ := look_eq_some hout
      obtain ⟨hmemo', -⟩ := hbelow.keeps _ (.look rfl) hmemo trivial _ he
      refine ⟨hmemo', fun c' hc' => ?_⟩
      rw [hlook] at hc'
      obtain ⟨c₁, rfl, rfl⟩ := Option.map_eq_some_iff.mp hc'
      exact .refl _ _

theorem choices_keeps {syntactic : Bool} {es : List Expr}
    (hbelow : Moment.Below piece set ⟨depth, frames, base, .choices syntactic es, c, log, memo⟩) :
    Moment.Keeps piece set ⟨depth, frames, base, .choices syntactic es, c, log, memo⟩ := by
  intro hmemo _ out h
  cases es with
  | nil =>
      cases h
      exact ⟨hmemo, nofun⟩
  | cons e es =>
      have h : (ofExpr set (ofRule set depth frames) syntactic e).orElse
          (ofChoices set (ofRule set depth frames) syntactic es) c log memo = some out := h
      rcases orElse_eq_some h with ⟨hfirst, -⟩ | ⟨log', memo', hfirst, hrest⟩
      · exact hbelow.keeps _ (.choice rfl) hmemo trivial out hfirst
      · have hmemo' := (hbelow.keeps _ (.choice rfl) hmemo trivial _ hfirst).1
        exact hbelow.keeps _ (.nextChoice rfl hfirst) hmemo' trivial out hrest

theorem parts_keeps {syntactic : Bool} {es : List Expr}
    (hbelow : Moment.Below piece set ⟨depth, frames, base, .parts syntactic es, c, log, memo⟩) :
    Moment.Keeps piece set ⟨depth, frames, base, .parts syntactic es, c, log, memo⟩ := by
  intro hmemo _ out h
  cases es with
  | nil =>
      cases h
      refine ⟨hmemo, ?_⟩
      rintro _ ⟨⟩
      exact .refl _ _
  | cons e es =>
      have h : (ofExpr set (ofRule set depth frames) syntactic e).andThen
          (ofParts set (ofRule set depth frames) syntactic es) c log memo = some out := h
      rcases andThen_eq_some h with ⟨hfirst, hnone⟩ | ⟨c', log', memo', hfirst, hrest⟩
      · obtain ⟨hmemo', -⟩ := hbelow.keeps _ (.part rfl) hmemo trivial _ hfirst
        exact ⟨hmemo', fun _ hsome => nomatch hnone.symm.trans hsome⟩
      · obtain ⟨hmemo', hgets⟩ := hbelow.keeps _ (.part rfl) hmemo trivial _ hfirst
        obtain ⟨hout, hgets'⟩ := hbelow.keeps _ (.nextPart rfl hfirst) hmemo' trivial out hrest
        exact ⟨hout, fun c'' hc'' => (hgets c' rfl).trans (hgets' c'' hc'')⟩

theorem rounds_keeps {syntactic matched : Bool} {op : Repeat} {e : Expr} {n : Nat}
    (hbelow : Moment.Below piece set
      ⟨depth, frames, base, .rounds syntactic op e n matched, c, log, memo⟩) :
    Moment.Keeps piece set
      ⟨depth, frames, base, .rounds syntactic op e n matched, c, log, memo⟩ := by
  intro hmemo _ out h
  cases n with
  | zero =>
      cases h
      refine ⟨hmemo, fun c' hc' => ?_⟩
      cases matched <;> cases hc'
      exact .refl _ _
  | succ n =>
      rcases rounds_succ_eq_some h with
        ⟨he, hcursor⟩ | ⟨c', he, -, -⟩ | ⟨c', log', memo', he, hmoved, hrest⟩
      · obtain ⟨hmemo', -⟩ := hbelow.keeps _ (.round rfl) hmemo trivial _ he
        refine ⟨hmemo', fun c' hc' => ?_⟩
        rw [hcursor] at hc'
        cases matched <;> cases hc'
        exact .refl _ _
      · exact hbelow.keeps _ (.round rfl) hmemo trivial out he
      · obtain ⟨hmemo', hgets⟩ := hbelow.keeps _ (.round rfl) hmemo trivial _ he
        obtain ⟨hout, hgets'⟩ :=
          hbelow.keeps _ (.nextRound rfl he hmoved) hmemo' trivial out hrest
        exact ⟨hout, fun c'' hc'' => (hgets c' rfl).trans (hgets' c'' hc'')⟩

/-! ## Rule applications -/

theorem push_inj {t t' : Tree} (h : c.push t = c.push t') : t = t' := by
  have hfound : (c.pos, t) :: c.found = (c.pos, t') :: c.found := congrArg Cursor.found h
  exact (Prod.mk.inj (List.cons.inj hfound).1).2

/-- What a round found, if its body keeps to what is known. -/
theorem round_found (hpiece : ∀ p q, piece p q → p ≤ q) {rule : Rule} {pos : Nat} {r : Round}
    {log' : Log} {memo' : Memo} (hmemo : memo.Each (Entry.Found piece))
    (hbody : Moment.Keeps piece set ⟨depth, frames, base, .expr (isSyntactic rule.name) rule.body,
      ⟨pos, []⟩, { log with trace := [] }, memo⟩)
    (h : Evaluation.round rule.name pos
      (ofExpr set (ofRule set depth frames) (isSyntactic rule.name) rule.body) log memo =
        some (r, log', memo')) :
    memo'.Each (Entry.Found piece) ∧ Found piece rule.name pos r.tree? := by
  obtain ⟨c?, hread, htree, -⟩ := round_eq_some h
  obtain ⟨hmemo', hgets⟩ := hbody hmemo trivial _ hread
  refine ⟨hmemo', fun t ht => ?_⟩
  rw [htree] at ht
  obtain ⟨c, rfl, rfl⟩ := Option.map_eq_some_iff.mp ht
  exact found_of_advances hpiece (hgets c rfl) _ rfl

theorem grow_keeps (hpiece : ∀ p q, piece p q → p ≤ q) {rule : Rule} {n : Nat} {best : Tree}
    {trace : List Trace.Node}
    (hbelow : Moment.Below piece set ⟨depth, frames, base, .grow rule n best trace, c, log, memo⟩) :
    Moment.Keeps piece set ⟨depth, frames, base, .grow rule n best trace, c, log, memo⟩ := by
  intro hmemo hbest out h
  have hbest' : Task.Gets piece c (Cursor.push ⟨c.pos, []⟩ best) (.grow rule n best trace) :=
    ⟨best, rfl, hbest best rfl⟩
  obtain ⟨⟨r, log', memo'⟩, hgrow, rfl⟩ := Option.map_eq_some_iff.mp h
  cases n with
  | zero =>
      cases hgrow
      refine ⟨hmemo, ?_⟩
      rintro _ ⟨⟩
      exact hbest'
  | succ n =>
      obtain ⟨r₁, log₁, memo₁, hround, hcases⟩ := grow_succ_eq_some hgrow
      have hput : (memo.put c.pos rule.name (reseeded set rule.name c.pos best trace)).Each
          (Entry.Found piece) := hmemo.put hbest
      obtain ⟨hmemo₁, hr₁⟩ := round_found hpiece hput (hbelow.keeps _ (.regrow rfl)) hround
      rcases hcases with ⟨-, rfl, -, rfl⟩ | ⟨t, ht, hlonger, hrest⟩
      · refine ⟨hmemo₁, ?_⟩
        rintro _ ⟨⟩
        exact hbest'
      · obtain ⟨tree?, trace₁⟩ := r₁
        obtain rfl : tree? = some t := ht
        have houtcome : Moment.outcome set ⟨depth, frames, base, .grow rule n t trace₁, c, log₁,
            memo₁⟩ = some ⟨r.tree?.map (Cursor.push ⟨c.pos, []⟩), log', memo'⟩ :=
          Option.map_eq_some_iff.mpr ⟨_, hrest, rfl⟩
        exact hbelow.keeps _ (.grown rfl hround hlonger) hmemo₁ hr₁ _ houtcome

theorem apply_keeps (hpiece : ∀ p q, piece p q → p ≤ q) {q : String}
    (hbelow : Moment.Below piece set ⟨depth, frames, base, .apply q, c, log, memo⟩) :
    Moment.Keeps piece set ⟨depth, frames, base, .apply q, c, log, memo⟩ := by
  intro hmemo _ out h
  rcases ofRule_eq_some h with ⟨-, rfl⟩ | ⟨rule, hrule, hcases⟩
  · exact ⟨hmemo, nofun⟩
  obtain rfl := Grammar.rule?_name hrule
  -- an outcome with the tree of an entry, or one that was worked out
  have hgets : ∀ {tree? : Option Tree}, Found piece rule.name c.pos tree? →
      out.cursor? = tree?.map c.push → ∀ c', out.cursor? = some c' →
        Task.Gets piece c c' (.apply rule.name) := by
    intro tree? hfound hcursor c' hc'
    rw [hcursor] at hc'
    obtain ⟨t, rfl, rfl⟩ := Option.map_eq_some_iff.mp hc'
    exact ⟨t, rfl, hfound t rfl⟩
  rcases hcases with ⟨entry, hfind, rfl⟩ | ⟨hnew, d, hdepth, hwork⟩
  · have hentry : entry.Found piece c.pos rule.name := hmemo.entry _ _ _ hfind
    obtain ⟨hcursor, -, hput⟩ := reuse_eq set frames rule.name entry c log memo
    refine ⟨?_, hgets hentry hcursor⟩
    show (reuse set frames rule.name entry c log memo).memo.Each _
    rcases hput with hsame | ⟨e, htree, -, hput⟩
    · rw [hsame]
      exact hmemo
    · rw [hput]
      exact hmemo.put (by rwa [Entry.Found, htree])
  · obtain ⟨r, inner, memo₁, hsettle, hcursor, -, hput⟩ := work_eq_some hwork
    obtain ⟨hmemo₁, hr⟩ : memo₁.Each (Entry.Found piece) ∧ Found piece rule.name c.pos r.tree? := by
      obtain ⟨r₁, log₁, memo₂, hround, hcases⟩ := settle_eq_some hsettle
      have hplaced : (memo.put c.pos rule.name (.growing none none false)).Each
          (Entry.Found piece) := hmemo.put (show Found _ _ _ none from nofun)
      obtain ⟨hmemo₂, hr₁⟩ := round_found hpiece hplaced
        (hbelow.keeps _ (.enter rfl hrule hnew hdepth)) hround
      rcases hcases with ⟨-, rfl, -, rfl⟩ | ⟨t, ht, hread, hgrow⟩
      · exact ⟨hmemo₂, hr₁⟩
      · obtain ⟨tree?, trace⟩ := r₁
        obtain rfl : tree? = some t := ht
        obtain ⟨hmemo₁, hgets⟩ := hbelow.keeps _ (.grow rfl hrule hnew hdepth hround hread) hmemo₂
          hr₁ _ (Option.map_eq_some_iff.mpr ⟨_, hgrow, rfl⟩)
        refine ⟨hmemo₁, fun t' ht' => ?_⟩
        obtain ⟨t'', heq, hfound⟩ := hgets _ (congrArg (Option.map _) ht')
        exact push_inj heq ▸ hfound
    refine ⟨?_, hgets hr hcursor⟩
    rcases hput with hdrop | ⟨s, htree, -, hput⟩
    · exact hdrop ▸ hmemo₁.drop
    · rw [hput]
      exact hmemo₁.put (by rwa [Entry.Found, Entry.tree?, htree])

end

/-! ## Matches -/

section

variable {set : Setting} {limit : Nat} {start : String} {memo memo' : Memo} {m : Moment} {p q : Nat}

theorem SpacesMatched.le (hmemo : (Stack.bottom set).Intact memo)
    (h : SpacesMatched set limit start memo p q) : p ≤ q := by
  obtain ⟨m, out, c, hm, -, rfl, hout, hc, rfl⟩ := h
  exact ((hm.holds hmemo).ends hout).moved c hc

/-- Whatever the match evaluates keeps to its context: by induction on the evaluations that it leads
to. -/
theorem Reached.keeps (hmemo : (Stack.bottom set).Intact memo)
    (hm : Reached set limit start memo m) :
    m.Keeps (SpacesMatched set limit start memo) set := by
  have hpiece : ∀ p q, SpacesMatched set limit start memo p q → p ≤ q := fun _ _ h => h.le hmemo
  induction m using (leads_wellFounded set).induction with
  | _ m ih =>
      have hbelow : m.Below (SpacesMatched set limit start memo) set :=
        ⟨fun m' hleads => ih m' hleads (hm.leads hleads),
          fun m' hleads htask out c hout hc =>
            ⟨m', out, c, hm.leads hleads, htask, rfl, hout, hc, rfl⟩⟩
      obtain ⟨depth, frames, base, task, c, log, memo₁⟩ := m
      cases task with
      | expr syntactic e => exact expr_keeps hpiece hbelow
      | choices syntactic es => exact choices_keeps hbelow
      | parts syntactic es => exact parts_keeps hbelow
      | rounds syntactic op e n matched => exact rounds_keeps hbelow
      | apply q => exact apply_keeps hpiece hbelow
      | grow rule n best trace => exact grow_keeps hpiece hbelow

/-- Where the spaces before the start rule end, which is the beginning if there are none. -/
def leadingStop (set : Setting) (limit : Nat) (memo : Memo) : Option Nat :=
  (ofRule set limit [] "spaces" ⟨0, []⟩ (.start 0) memo).map fun out =>
    (out.cursor?.map (·.pos)).getD 0

/-- A tree and the spaces around it cover the whole text of a match. -/
structure CoversText (set : Setting) (limit : Nat) (start : String) (memo : Memo) (offset : Nat)
    (tree : Tree) : Prop where
  rule : tree.rule? = some start
  lexical : isSyntactic start = false → offset = 0 ∧ tree.length = set.input.size
  leading : isSyntactic start = true → leadingStop set limit memo = some offset
  trailing : isSyntactic start = true → offset + tree.length = set.input.size ∨
    SpacesMatched set limit start memo (offset + tree.length) set.input.size
  accounted : tree.Accounted (SpacesMatched set limit start memo) offset

theorem endOfInput_here {apply : String → Evaluation} {c c' : Cursor} {log log' : Log}
    (h : ofExpr set apply false .endOfInput c log memo = some ⟨some c', log', memo'⟩) :
    c' = c ∧ set.input.size ≤ c.pos := by
  rw [ofExpr] at h
  obtain ⟨inner, hinner, hcursor, -⟩ := traced_eq_some h
  exact endOfInput_cursor hinner hcursor.symm

/-- The spaces before the start rule are skipped where it is syntactic. -/
theorem leading_cases {offset : Nat} {log₁ : Log} {memo₁ : Memo}
    (h : spaced (ofRule set limit []) (isSyntactic start)
      (fun c log memo => some ⟨some c, log, memo⟩) ⟨0, []⟩ (.start 0) memo =
        some ⟨some ⟨offset, []⟩, log₁, memo₁⟩) :
    isSyntactic start = false ∧ offset = 0 ∧ memo₁ = memo ∨
      isSyntactic start = true ∧ leadingStop set limit memo = some offset ∧
        ∃ c? inner, ofRule set limit [] "spaces" ⟨0, []⟩ (.start 0) memo =
          some ⟨c?, inner, memo₁⟩ := by
  cases hsyntactic : isSyntactic start with
  | false =>
      rw [hsyntactic] at h
      cases h
      exact .inl ⟨rfl, rfl, rfl⟩
  | true =>
      rw [hsyntactic] at h
      rcases andThen_eq_some h with ⟨-, hnone⟩ | ⟨c', log', memo', hskip, hhere⟩
      · cases hnone
      · cases hhere
        obtain ⟨c?, inner, happly, hcursor, -⟩ := skipSpaces_eq_some hskip
        have happly : ofRule set limit [] "spaces" ⟨0, []⟩ (.start 0) memo =
            some ⟨c?, inner, memo₁⟩ := happly
        refine .inr ⟨rfl, ?_, c?, inner, happly⟩
        rw [leadingStop, happly]
        exact congrArg (Option.map Cursor.pos) hcursor.symm

theorem run_coversText (hmemo : (Stack.bottom set).Intact memo)
    (heach : memo.Each (Entry.Found (SpacesMatched set limit start memo))) {a : Answer}
    {offset : Nat} {tree : Tree} (h : run set limit start memo = some (a, memo'))
    (htree : a.tree? = some (offset, tree)) : CoversText set limit start memo offset tree := by
  obtain ⟨log₁, memo₁, log₂, memo₂, log₃, stop, hbefore, hstart, hend, -⟩ := run_tree h htree
  have hleading := leading_cases hbefore
  have heach₁ : memo₁.Each (Entry.Found (SpacesMatched set limit start memo)) := by
    rcases hleading with ⟨-, -, rfl⟩ | ⟨hsyntactic, -, c?, inner, happly⟩
    · exact heach
    · exact ((Reached.begins (.spaces hsyntactic)).keeps hmemo heach trivial _ happly).1
  have hrule : Reached set limit start memo
      ⟨limit, [], 0, .apply start, ⟨offset, []⟩, log₁, memo₁⟩ :=
    .begins (.start hbefore)
  obtain ⟨t, heq, hq, htiled⟩ := (hrule.keeps hmemo heach₁ trivial _ hstart).2 _ rfl
  obtain rfl : tree = t := push_inj heq
  have hstop : Reached set limit start memo ⟨limit, [], 0, .expr (isSyntactic start) .endOfInput,
      Cursor.push ⟨offset, []⟩ tree, log₂, memo₂⟩ := .begins (.stop hbefore hstart)
  have hle : stop ≤ set.input.size := by
    obtain ⟨ends, hready⟩ := ((hstop.holds hmemo).ends hend).ready
    exact hready.boundary.le
  refine ⟨hq, fun hlexical => ?_, fun hsyntactic => ?_, fun hsyntactic => ?_,
    htiled.accounted fun _ _ h => h.le hmemo⟩
  · rw [hlexical] at hend hleading
    obtain ⟨hcursor, hsize⟩ := endOfInput_here hend
    obtain ⟨-, rfl, -⟩ := hleading.resolve_right (by simp)
    have hstop : stop = 0 + tree.length := congrArg Cursor.pos hcursor
    have hsize : set.input.size ≤ 0 + tree.length := hsize
    exact ⟨rfl, by omega⟩
  · rw [hsyntactic] at hleading
    exact (hleading.resolve_left (by simp)).2.1
  · rw [hsyntactic, ofExpr_spaced (show Expr.endOfInput.Spaced from trivial)] at hend
    rw [hsyntactic] at hstop
    rcases andThen_eq_some hend with ⟨-, hnone⟩ | ⟨c', log', memo'', hskip, hhere⟩
    · cases hnone
    obtain ⟨c?, inner, happly, hcursor, -⟩ := skipSpaces_eq_some hskip
    obtain rfl := Option.some.inj hcursor
    obtain ⟨heq, hsize⟩ := endOfInput_here hhere
    have hpos : stop = (c?.map (·.pos)).getD (offset + tree.length) := congrArg Cursor.pos heq
    have hsize : set.input.size ≤ (c?.map (·.pos)).getD (offset + tree.length) := hsize
    cases c? with
    | none =>
        have hpos : stop = offset + tree.length := hpos
        have hsize : set.input.size ≤ offset + tree.length := hsize
        exact .inl (by omega)
    | some c₁ =>
        have hpos : stop = c₁.pos := hpos
        have hsize : set.input.size ≤ c₁.pos := hsize
        exact .inr ⟨_, _, c₁, hstop.leads (.spaces rfl trivial), rfl, rfl, happly, rfl, by omega⟩

end

end Match

namespace Grammar

open Match

/-- Where a text matches, every byte of it is accounted for. The tree of a lexical start rule covers
the whole text; that of a syntactic one begins where the leading spaces end, and behind it there is
nothing, or one match of `spaces` up to the end. In each node the children stand in order, apart from
one another and inside the node; what they leave out is made up of matches of `spaces` in this match,
and below a lexical rule they leave out nothing. -/
theorem matchText_coversText {g : Grammar} {text : String} {start? : Option String}
    {r : Match.Result} {offset : Nat} {tree : Tree} (h : g.matchText text start? = .ok r)
    (htree : r.tree? = some (offset, tree)) :
    CoversText ⟨g, .ofString text, false⟩ nestingLimit r.start (.blank text.utf8ByteSize) offset
      tree := by
  obtain ⟨rule, a, memo, -, hrun, rfl⟩ := matchText_eq_ok.mp h
  exact run_coversText (Stack.intact_blank ⟨g, .ofString text, false⟩) (.blank _) hrun htree

/-- Numbers with plus signs between them, and spaces. -/
def numbers : Grammar where
  name := "G"
  super := none
  start := some "Sum"
  rules :=
    [⟨"Sum", .seq [.apply "n", .iter .star (.seq [.terminal "+", .apply "n"])], none, none, "G"⟩,
     ⟨"n", .iter .plus (.range '0' '9'), none, none, "G"⟩,
     ⟨"spaces", .iter .star (.terminal " "), none, none, "G"⟩]

theorem matchText_coversText_numbers :
    ∃ r tree, numbers.matchText " 1+ 23 " none = .ok r ∧ r.tree? = some (1, tree) ∧
      tree.length = 5 ∧ CoversText ⟨numbers, .ofString " 1+ 23 ", false⟩ nestingLimit r.start
        (.blank " 1+ 23 ".utf8ByteSize) 1 tree := by
  have hmatch : (numbers.matchText " 1+ 23 " none).toOption.map
      (fun r => r.tree?.map fun p => (p.1, p.2.length)) = some (some (1, 5)) := by
    decide +kernel
  obtain ⟨r, hr, htree⟩ := toOption_map_eq_some hmatch
  obtain ⟨⟨offset, tree⟩, htree, heq⟩ := Option.map_eq_some_iff.mp htree
  obtain ⟨rfl, hlength⟩ := Prod.mk.inj heq
  exact ⟨r, tree, hr, htree, hlength, matchText_coversText hr htree⟩

end Grammar

end Pegboard
