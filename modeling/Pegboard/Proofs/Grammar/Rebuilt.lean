import Pegboard.Proofs.Grammar.Carried
import Pegboard.Proofs.Grammar.Understood

/-!
# Twins are built alike

Trees that are twins are built into grammars that are alike, if what is in the place of the one node
is built like it: an expression that is the same, or a body that is the same up to a relation `E`.
Rules are found and refused by their names, which are the same in both, and what the grammars that
come later inherit is alike.

Main statement: `ofResult_also`.
-/

namespace Pegboard

open Text

/-- The rules differ in nothing but their bodies, which are related, and where they are declared. -/
structure Rule.Alike (E : Expr → Expr → Prop) (r r' : Rule) : Prop where
  name : r'.name = r.name
  body : E r.body r'.body
  description : r'.description = r.description
  declaredIn : r'.declaredIn = r.declaredIn

/-- The grammars have the same rules up to the relation between their bodies. -/
structure Grammar.Alike (E : Expr → Expr → Prop) (g g' : Grammar) : Prop where
  name : g'.name = g.name
  super : g'.super = g.super
  start : g'.start = g.start
  rules : List.Forall₂ (Rule.Alike E) g.rules g'.rules

theorem Grammar.Alike.refl {E : Expr → Expr → Prop} (hE : ∀ e, E e e) (g : Grammar) : g.Alike E g :=
  ⟨rfl, rfl, rfl, List.forall₂_same.mpr fun r _ => ⟨rfl, hE r.body, rfl, rfl⟩⟩

/-- Whatever the list is searched for, both have it at the same place. -/
theorem find?_forall₂ {α β : Type} {R : α → β → Prop} {as : List α} {bs : List β}
    {f : α → Bool} {f' : β → Bool} (h : List.Forall₂ R as bs)
    (hf : ∀ a b, R a b → f' b = f a) : Option.Rel R (as.find? f) (bs.find? f') := by
  induction h with
  | nil => exact .none
  | cons hab _ ih =>
      rw [List.find?_cons, List.find?_cons, hf _ _ hab]
      cases f _ with
      | true => exact .some hab
      | false => exact ih

namespace Grammar.Build

/-! ## Attempts -/

/-- What the one attempt builds the other one builds as well, up to a relation. -/
def Also {α β : Type} (R : α → β → Prop) (a : Attempt α) (a' : Attempt β) : Prop :=
  ∀ x, a = .ok x → ∃ x', a' = .ok x' ∧ R x x'

namespace Also

variable {α α' β β' : Type} {R : α → β → Prop} {S : α' → β' → Prop} {a : Attempt α}
  {a' : Attempt β}

theorem ok {x : α} {x' : β} (h : R x x') : Also R (.ok x) (.ok x') := by
  rintro _ ⟨⟩
  exact ⟨x', rfl, h⟩

theorem error (e : BuildError) (a' : Attempt β) : Also R (.error e) a' := by
  rintro x ⟨⟩

theorem bind {next : α → Attempt α'} {next' : β → Attempt β'} (h : Also R a a')
    (hnext : ∀ x x', R x x' → Also S (next x) (next' x')) : Also S (a >>= next) (a' >>= next') := by
  cases a with
  | error e => exact error e _
  | ok x =>
      obtain ⟨x', rfl, hx⟩ := h x rfl
      exact hnext x x' hx

theorem map {f : α → α'} {f' : β → β'} (h : Also R a a')
    (hf : ∀ x x', R x x' → S (f x) (f' x')) : Also S (a.map f) (a'.map f') := by
  cases a with
  | error e => exact error e _
  | ok x =>
      obtain ⟨x', rfl, hx⟩ := h x rfl
      exact ok (hf x x' hx)

theorem mono {R' : α → β → Prop} (h : Also R a a') (hR : ∀ x x', R x x' → R' x x') :
    Also R' a a' := fun x hx =>
  have ⟨x', hx', hr⟩ := h x hx
  ⟨x', hx', hR x x' hr⟩

theorem foldlM {f : α' → α → Attempt α'} {f' : β' → β → Attempt β'} {as : List α} {bs : List β}
    {s : α'} {s' : β'} (h : List.Forall₂ R as bs) (hs : S s s')
    (hf : ∀ s s' a b, S s s' → R a b → Also S (f s a) (f' s' b)) :
    Also S (as.foldlM f s) (bs.foldlM f' s') := by
  induction h generalizing s s' with
  | nil => exact ok hs
  | cons hab _ ih =>
      rw [List.foldlM_cons, List.foldlM_cons]
      exact (hf _ _ _ _ hs hab).bind fun _ _ => ih

end Also

/-! ## What is in the place of a node -/

/-- What an expression is built into, and which rules it lists. -/
def SameReading {α : Type} (x x' : α × List Application) : Prop :=
  x'.1 = x.1 ∧ x'.2.map Application.listed = x.2.map Application.listed

/-- What the terms of a body are built into is the same, but for where the cases stand. -/
structure Body.Same (E : Expr → Expr → Prop) (b b' : Body) : Prop where
  terms : b'.terms = b.terms
  cases : List.Forall₂ (Rule.Alike E) b.cases b'.cases
  applications : b'.applications.map Application.listed = b.applications.map Application.listed

/-- What the terms of a body are built into: related choices, alike cases, and the same rules
listed. -/
structure Body.Alike (E : Expr → Expr → Prop) (b b' : Body) : Prop where
  body : E (.choice b.terms) (.choice b'.terms)
  cases : List.Forall₂ (Rule.Alike E) b.cases b'.cases
  applications : b'.applications.map Application.listed = b.applications.map Application.listed

/-- Grammars as far as they are built. -/
structure State.Alike (E : Expr → Expr → Prop) (s s' : State) : Prop where
  grammar : s.grammar.Alike E s'.grammar
  declared : s'.declared = s.declared
  applications : s'.applications.map Application.listed = s.applications.map Application.listed
  hasStart : s'.hasStart = s.hasStart

/-- In the place of the node there is one of an expression that is built into the same, or of a body
that is built into a related one. -/
inductive Replaces (E : Expr → Expr → Prop) (s s' : Tree.Located) : Prop
  | expression {q : String} (hq : q ∈ expressions) (hs : s.tree.rule? = some q)
      (hs' : s'.tree.rule? = some q)
      (h : ∀ lexical, Also SameReading (readExpr s lexical) (readExpr s' lexical))
  | body (hs : s.tree.rule? = some "RuleBody") (hs' : s'.tree.rule? = some "RuleBody")
      (h : ∀ st st' rule, st.Alike E st' →
        Also (Body.Alike E) (readBody st rule s) (readBody st' rule s'))

section

variable {E : Expr → Expr → Prop} {hole s s' : Tree.Located} {H : Tree.Property} {q r : String}
  (hH : ∀ s', H s' → Replaces E hole s')

include hH

theorem rule?_of_twins (h : Tree.Twins hole H s s') : s'.tree.rule? = s.tree.rule? := by
  cases h with
  | hole h =>
      cases hH _ h with
      | expression _ hs hs' _ => rw [hs, hs']
      | body hs hs' _ => rw [hs, hs']
  | text _ hs hs' _ => rw [hs, hs']
  | caseName hs hs' _ => rw [hs, hs']
  | node _ hs hs' _ => rw [hs, hs']

/-- The node that is replaced is one of an expression or a body. -/
theorem rule_of_hole (h : H s') : ∃ q ∈ "RuleBody" :: expressions, hole.tree.rule? = some q := by
  cases hH _ h with
  | expression hq hs _ _ => exact ⟨_, List.mem_cons_of_mem _ hq, hs⟩
  | body hs _ _ => exact ⟨_, List.mem_cons_self, hs⟩

theorem text_of_twins (h : Tree.Twins hole H s s') (hs : s.tree.rule? = some q)
    (hq : q ∈ texts) : s'.text = s.text := by
  have hapart : ∀ q ∈ texts, q ∉ "RuleBody" :: expressions ∧ q ≠ "caseName" ∧
      isSyntactic q = false := by decide
  obtain ⟨hexpr, hcase, hlexical⟩ := hapart q hq
  cases h with
  | hole h =>
      obtain ⟨r, hr, hrule⟩ := rule_of_hole hH h
      obtain rfl : r = q := Option.some.inj (hrule.symm.trans hs)
      exact absurd hr hexpr
  | text _ _ _ h => exact h
  | caseName hs₁ _ _ => exact absurd (Option.some.inj (hs.symm.trans hs₁)) hcase
  | node hq₁ hs₁ _ _ =>
      obtain rfl := Option.some.inj (hs.symm.trans hs₁)
      rw [hlexical] at hq₁
      cases hq₁

/-- Twins that are neither replaced nor tokens have twins below them. -/
theorem applications_of_twins (h : Tree.Twins hole H s s') (hs : s.tree.rule? = some q)
    (hq : isSyntactic q = true) (hnot : q ∉ "RuleBody" :: expressions) :
    List.Forall₂ (Tree.Twins hole H) s.applications s'.applications := by
  cases h with
  | hole h =>
      obtain ⟨r, hr, hrule⟩ := rule_of_hole hH h
      obtain rfl : r = q := Option.some.inj (hrule.symm.trans hs)
      exact absurd hr hnot
  | text hq₁ hs₁ _ _ =>
      obtain rfl := Option.some.inj (hs.symm.trans hs₁)
      have hlexical : ∀ q ∈ texts, isSyntactic q = false := by decide
      rw [hlexical q hq₁] at hq
      cases hq
  | caseName hs₁ _ _ =>
      obtain rfl := Option.some.inj (hs.symm.trans hs₁)
      cases hq
  | node _ _ _ h => exact h

/-! ## Children -/

variable (happs : List.Forall₂ (Tree.Twins hole H) s.applications s'.applications)

include happs

/-- The first twins of a rule below the trees. -/
theorem first?_rel (r : String) :
    Option.Rel (fun c c' => Tree.Twins hole H c c' ∧ c.tree.rule? = some r) (s.first? r)
      (s'.first? r) := by
  have hrel : Option.Rel (Tree.Twins hole H) (s.first? r) (s'.first? r) :=
    find?_forall₂ happs fun _ _ h => by rw [rule?_of_twins hH h]
  have hrule : ∀ c, s.first? r = some c → c.tree.rule? = some r := by
    intro c hc
    have hfound := List.find?_some hc
    exact of_decide_eq_true hfound
  generalize s.first? r = found at hrel hrule ⊢
  generalize s'.first? r = found' at hrel ⊢
  cases hrel with
  | none => exact .none
  | some h => exact .some ⟨h, hrule _ rfl⟩

theorem named_rel (r : String) :
    List.Forall₂ (fun c c' => Tree.Twins hole H c c' ∧ c.tree.rule? = some r) (s.named r)
      (s'.named r) := by
  have htwins : List.Forall₂ (Tree.Twins hole H) (s.named r) (s'.named r) :=
    List.rel_filter (fun _ _ h => by simp only [rule?_of_twins hH h]) happs
  have hrule : ∀ c ∈ s.named r, c.tree.rule? = some r :=
    fun c hc => of_decide_eq_true (List.mem_filter.mp hc).2
  obtain ⟨hlength, hzip⟩ := List.forall₂_iff_zip.mp htwins
  exact List.forall₂_iff_zip.mpr ⟨hlength, fun hmem =>
    ⟨hzip hmem, hrule _ (List.of_mem_zip hmem).1⟩⟩

theorem child_also (r : String) :
    Also (fun c c' => Tree.Twins hole H c c' ∧ c.tree.rule? = some r) (child s r)
      (child s' r) := by
  have hrel := first?_rel hH happs r
  rw [child, child]
  generalize s.first? r = found at hrel ⊢
  generalize s'.first? r = found' at hrel ⊢
  cases hrel with
  | none => exact .error _ _
  | some h => exact .ok h

theorem onlyChild_also :
    Also (fun x x' => Tree.Twins hole H x.1 x'.1 ∧ x.1.tree.rule? = some x.2 ∧ x'.2 = x.2)
      (onlyChild s) (onlyChild s') := by
  rw [onlyChild, onlyChild, Tree.Located.onlyChild?, Tree.Located.onlyChild?]
  generalize s.applications = as at happs ⊢
  generalize s'.applications = as' at happs ⊢
  cases happs with
  | nil => exact .error _ _
  | cons hab hrest =>
      cases hrest with
      | cons => exact .error _ _
      | nil =>
          simp only [rule?_of_twins hH hab]
          cases hrule : Tree.rule? _ with
          | none => exact .error _ _
          | some q => exact .ok ⟨hab, hrule, rfl⟩

end

/-! ## Expressions -/

/-- Parts of the same rule that are built into the same. -/
def SamePart (part part' : Part) : Prop :=
  part'.tree.tree.rule? = part.tree.tree.rule? ∧
    ∀ lexical, Also SameReading (part.reading lexical) (part'.reading lexical)

section

variable {parts parts' : List Part} {t t' : Tree.Located} {lexical : Bool}

theorem readAll_also (h : List.Forall₂ SamePart parts parts') (lexical : Bool) :
    Also SameReading (readAll lexical parts) (readAll lexical parts') := by
  induction h with
  | nil => exact .ok ⟨rfl, rfl⟩
  | cons hpart _ ih =>
      rw [readAll, readAll]
      refine (hpart.2 lexical).bind fun x x' hx => ih.bind fun y y' hy => .ok ⟨?_, ?_⟩
      · rw [hx.1, hy.1]
      · rw [List.map_append, List.map_append, hx.2, hy.2]

theorem readFirst_also (h : List.Forall₂ SamePart parts parts') (r : String) (lexical : Bool) :
    Also SameReading (readFirst t parts r lexical) (readFirst t' parts' r lexical) := by
  have hrel : Option.Rel SamePart (parts.find? (·.isOf r)) (parts'.find? (·.isOf r)) :=
    find?_forall₂ h fun part part' hpart => by rw [Part.isOf, Part.isOf, hpart.1]
  rw [readFirst, readFirst]
  generalize parts.find? (·.isOf r) = found at hrel ⊢
  generalize parts'.find? (·.isOf r) = found' at hrel ⊢
  cases hrel with
  | none => exact .error _ _
  | some hpart => exact hpart.2 lexical

theorem readOnly_also (h : List.Forall₂ SamePart parts parts') (lexical : Bool) :
    Also SameReading (readOnly t parts lexical) (readOnly t' parts' lexical) := by
  cases h with
  | nil => exact .error _ _
  | cons hpart hrest =>
      cases hrest with
      | nil => exact hpart.2 lexical
      | cons => exact .error _ _

theorem Reading.map_also {read read' : Reading} (f : Expr → Expr)
    (h : Also SameReading (read lexical) (read' lexical)) :
    Also SameReading (read.map f lexical) (read'.map f lexical) :=
  Also.map h fun _ _ hx => ⟨congrArg f hx.1, hx.2⟩

/-- The parts of one rule, put together. -/
theorem readParts_also (h : List.Forall₂ SamePart parts parts') (r : String)
    (combine : List Expr → Expr) (lexical : Bool) :
    Also SameReading
      (do let (es, apps) ← readAll lexical (parts.filter (·.isOf r)); return (combine es, apps))
      (do let (es, apps) ← readAll lexical (parts'.filter (·.isOf r)); return (combine es, apps)) := by
  have hfilter : List.Forall₂ SamePart (parts.filter (·.isOf r)) (parts'.filter (·.isOf r)) :=
    List.rel_filter (fun part part' hpart => by simp only [Part.isOf, hpart.1]) h
  exact (readAll_also hfilter lexical).bind fun _ _ hx => .ok ⟨congrArg combine hx.1, hx.2⟩

/-- What is no expression is none that a build understands. -/
theorem readNode_other {q : String} (hq : q ∉ expressions) (ht : t.tree.rule? = some q)
    (level : Nat) (parts : List Part) (lexical : Bool) :
    ∃ e, readNode level t parts lexical = .error e := by
  unfold readNode
  rw [ht, Option.getD_some]
  split
  all_goals first | exact ⟨_, rfl⟩ | exact absurd (by decide) hq

end

section

variable {E : Expr → Expr → Prop} {hole s s' : Tree.Located} {H : Tree.Property} {q r : String}
  (hH : ∀ s', H s' → Replaces E hole s')

include hH

theorem readApplication_also
    (happs : List.Forall₂ (Tree.Twins hole H) s.applications s'.applications) (lexical : Bool) :
    Also SameReading (readApplication s lexical) (readApplication s' lexical) := by
  rw [readApplication, readApplication]
  refine (child_also hH happs "ident").bind fun c c' hchild => ?_
  obtain ⟨htwins, hc⟩ := hchild
  rw [text_of_twins hH htwins hc (by decide)]
  split
  · exact .ok ⟨rfl, rfl⟩
  · exact .ok ⟨rfl, rfl⟩
  · exact .ok ⟨rfl, rfl⟩

theorem readTerminal_also
    (happs : List.Forall₂ (Tree.Twins hole H) s.applications s'.applications) (lexical : Bool) :
    Also SameReading (readTerminal s lexical) (readTerminal s' lexical) := by
  rw [readTerminal, readTerminal]
  refine (child_also hH happs "terminal").bind fun c c' hchild => ?_
  obtain ⟨htwins, hc⟩ := hchild
  rw [text_of_twins hH htwins hc (by decide)]
  exact .ok ⟨rfl, rfl⟩

theorem readRange_also
    (happs : List.Forall₂ (Tree.Twins hole H) s.applications s'.applications) (lexical : Bool) :
    Also SameReading (readRange s lexical) (readRange s' lexical) := by
  have hchars : (s'.named "oneCharTerminal").map firstChar? =
      (s.named "oneCharTerminal").map firstChar? := by
    have hnamed := named_rel hH happs "oneCharTerminal"
    generalize s.named "oneCharTerminal" = cs at hnamed ⊢
    generalize s'.named "oneCharTerminal" = cs' at hnamed ⊢
    induction hnamed with
    | nil => rfl
    | cons hc _ ih =>
        rw [List.map_cons, List.map_cons, ih, firstChar?, firstChar?,
          text_of_twins hH hc.1 hc.2 (by decide)]
  rw [readRange, readRange, hchars]
  split
  · exact .ok ⟨rfl, rfl⟩
  · exact .error _ _

/-- Twins are built into the same expression. -/
theorem readExpr_also (t t' : Tree.Located) (h : Tree.Twins hole H t t') (lexical : Bool) :
    Also SameReading (readExpr t lexical) (readExpr t' lexical) := by
  induction t using Tree.Located.induction generalizing t' lexical with
  | step t ih =>
      have hother {q : String} (ht : t.tree.rule? = some q) (hq : q ∉ expressions) :
          Also SameReading (readExpr t lexical) (readExpr t' lexical) := by
        obtain ⟨e, he⟩ := readNode_other hq ht 0
          (t.applications.map fun s => ⟨s, readExpr s⟩) lexical
        rw [readExpr_eq, he]
        exact .error _ _
      cases h with
      | hole h =>
          cases hH _ h with
          | expression _ _ _ hread => exact hread lexical
          | body ht _ _ => exact hother ht (by decide)
      | text hq ht _ _ =>
          have hapart : ∀ q ∈ texts, q ∉ expressions := by decide
          exact hother ht (hapart _ hq)
      | caseName ht _ _ => exact hother ht (by decide)
      | @node q _ _ _ ht ht' happs =>
          by_cases hq : q ∈ expressions
          · have hparts : List.Forall₂ SamePart
                (t.applications.map fun s => (⟨s, readExpr s⟩ : Part))
                (t'.applications.map fun s => (⟨s, readExpr s⟩ : Part)) := by
              refine List.forall₂_map_left_iff.mpr (List.forall₂_map_right_iff.mpr ?_)
              obtain ⟨hlength, htwins⟩ := List.forall₂_iff_zip.mp happs
              exact List.forall₂_iff_zip.mpr ⟨hlength, fun hmem => ⟨rule?_of_twins hH (htwins hmem),
                ih _ (List.of_mem_zip hmem).1 _ (htwins hmem)⟩⟩
            rw [readExpr_eq, readExpr_eq]
            simp only [expressions, List.mem_cons, List.not_mem_nil, or_false] at hq
            -- in the order of `expressions`
            rcases hq with rfl | rfl | rfl | rfl | rfl | rfl | rfl | rfl | rfl | rfl | rfl | rfl |
              rfl | rfl | rfl | rfl
            all_goals simp only [readNode, ht, ht', Option.getD_some, descend_eq]
            · exact readParts_also hparts "Seq" .choice lexical
            · exact readParts_also hparts "Iter" .sequence lexical
            · exact readOnly_also hparts lexical
            · exact readOnly_also hparts lexical
            · exact readOnly_also hparts lexical
            · exact readOnly_also hparts lexical
            · exact Reading.map_also _ (readFirst_also hparts "Pred" lexical)
            · exact Reading.map_also _ (readFirst_also hparts "Pred" lexical)
            · exact Reading.map_also _ (readFirst_also hparts "Pred" lexical)
            · exact Reading.map_also _ (readFirst_also hparts "Lex" lexical)
            · exact Reading.map_also _ (readFirst_also hparts "Lex" lexical)
            · exact Reading.map_also _ (readFirst_also hparts "Base" true)
            · exact readApplication_also hH happs lexical
            · exact readRange_also hH happs lexical
            · exact readTerminal_also hH happs lexical
            · exact readFirst_also hparts "Alt" lexical
          · exact hother ht hq

end

/-! ## Rules -/

/-- Bodies stay related if others like them are put beside them. -/
structure Congruent (E : Expr → Expr → Prop) : Prop where
  refl : ∀ e, E e e
  alt : ∀ {e e' f f'}, E e e' → E f f' → E (.alt [e, f]) (.alt [e', f'])

theorem Congruent.eq : Congruent Eq where
  refl _ := rfl
  alt h h' := by rw [h, h']

section

variable {E : Expr → Expr → Prop} {g g' : Grammar} {r r' : Rule} {rs rs' : List Rule}
  {st st' : State} {b b' : Body}

theorem alike_rule? (h : g.Alike E g') (n : String) :
    Option.Rel (Rule.Alike E) (g.rule? n) (g'.rule? n) :=
  find?_forall₂ h.rules fun _ _ hr => by rw [hr.name]

theorem alike_hasRule (h : g.Alike E g') (n : String) : g'.hasRule n = g.hasRule n := by
  have hrel := alike_rule? h n
  rw [hasRule, hasRule]
  generalize g.rule? n = r at hrel ⊢
  generalize g'.rule? n = r' at hrel ⊢
  cases hrel with
  | none => rfl
  | some => rfl

theorem placeRule_alike (hr : r.Alike E r') (h : List.Forall₂ (Rule.Alike E) rs rs') :
    List.Forall₂ (Rule.Alike E) (placeRule r rs) (placeRule r' rs') := by
  induction h with
  | nil => exact .cons hr .nil
  | cons hs hrest ih =>
      rw [placeRule, placeRule, hs.name, hr.name]
      split
      · exact .cons hr hrest
      · exact .cons hs ih

theorem foldl_define_alike (hrs : List.Forall₂ (Rule.Alike E) rs rs') (h : g.Alike E g') :
    (rs.foldl define g).Alike E (rs'.foldl define g') := by
  induction hrs generalizing g g' with
  | nil => exact h
  | cons hr _ ih =>
      exact ih ⟨h.name, h.super, h.start, placeRule_alike hr h.rules⟩

theorem Body.Same.alike (h : b.Same E b') (hE : Congruent E) : b.Alike E b' :=
  ⟨h.terms ▸ hE.refl _, h.cases, h.applications⟩

theorem checkNew_also (h : st.Alike E st') (rule : String) (i i' : Interval) :
    Also (fun _ _ => True) (checkNew st rule i) (checkNew st' rule i') := by
  have hrel := alike_rule? h.grammar rule
  rw [checkNew, checkNew, h.declared]
  split
  · exact .error _ _
  · generalize st.grammar.rule? rule = old at hrel ⊢
    generalize st'.grammar.rule? rule = old' at hrel ⊢
    cases hrel with
    | none => exact .ok trivial
    | some => exact .error _ _

theorem State.Alike.declare (h : st.Alike E st') (hr : r.Alike E r') (hb : b.Alike E b') :
    (st.declare r b).Alike E (st'.declare r' b') where
  grammar := foldl_define_alike (.cons hr hb.cases) h.grammar
  declared := by rw [State.declare, State.declare, h.declared, hr.name]
  applications := by
    rw [State.declare, State.declare, List.map_append, List.map_append, h.applications,
      hb.applications]
  hasStart := h.hasStart

theorem inherited_also (h : st.Alike E st') (rule : String) (cause : BuildError.Cause)
    (ident ident' : Tree.Located) :
    Also (Rule.Alike E) (inherited st rule cause ident) (inherited st' rule cause ident') := by
  have hrel := alike_rule? h.grammar rule
  rw [inherited, inherited, h.declared]
  generalize st.grammar.rule? rule = old at hrel ⊢
  generalize st'.grammar.rule? rule = old' at hrel ⊢
  cases hrel with
  | none => exact .error _ _
  | some hr =>
      dsimp only
      split
      · exact .error _ _
      · exact .ok hr

theorem checkApplications_also (h : g.Alike E g') {apps apps' : List Application}
    (happs : apps'.map Application.listed = apps.map Application.listed) :
    Also (fun _ _ => True) (checkApplications g apps) (checkApplications g' apps') := by
  induction apps generalizing apps' with
  | nil =>
      obtain rfl := List.map_eq_nil_iff.mp happs
      exact .ok trivial
  | cons a rest ih =>
      obtain ⟨a', rest', rfl, ha, hrest⟩ := List.map_eq_cons_iff.mp happs
      obtain ⟨hrule, hlexical⟩ := Prod.mk.inj ha
      rw [checkApplications, checkApplications, hrule, hlexical, alike_hasRule h]
      split
      · exact .error _ _
      · split
        · exact .error _ _
        · exact ih hrest

end

/-! ## Bodies -/

section

variable {E : Expr → Expr → Prop} {hole t t' ident ident' body body' : Tree.Located}
  {H : Tree.Property} {rule : String} {st st' : State} {b b' : Body}
  (hE : Congruent E) (hH : ∀ s', H s' → Replaces E hole s')

include hH

/-- The name of a case is the same. -/
theorem caseName_also (h : Tree.Twins hole H t t') (ht : t.tree.rule? = some "caseName") :
    Also (fun n n' => n'.text = n.text) (child t "name") (child t' "name") := by
  have hname : (t'.first? "name").map (·.text) = (t.first? "name").map (·.text) := by
    cases h with
    | hole h =>
        obtain ⟨r, hr, hrule⟩ := rule_of_hole hH h
        obtain rfl : r = "caseName" := Option.some.inj (hrule.symm.trans ht)
        exact absurd hr (by decide)
    | text hq hs _ _ =>
        obtain rfl := Option.some.inj (ht.symm.trans hs)
        exact absurd hq (by decide)
    | caseName _ _ h => exact h
    | node hq hs _ _ =>
        obtain rfl := Option.some.inj (ht.symm.trans hs)
        cases hq
  rw [child, child]
  cases hn : t.first? "name" with
  | none => exact .error _ _
  | some n =>
      rw [hn] at hname
      obtain ⟨n', hn', htext⟩ := Option.map_eq_some_iff.mp hname
      rw [hn']
      exact .ok htext

omit hH in
theorem any_cases {cases cases' : List Rule} (h : List.Forall₂ (Rule.Alike E) cases cases')
    (n : String) : cases'.any (·.name == n) = cases.any (·.name == n) := by
  induction h with
  | nil => rfl
  | cons hr _ ih => rw [List.any_cons, List.any_cons, ih, hr.name]

include hE

theorem readCase_also (ht : t.tree.rule? = some "TopLevelTerm_inline")
    (h : Tree.Twins hole H t t') (hst : st.Alike E st') (hb : b.Same E b') :
    Also (Body.Same E) (readCase st rule t b) (readCase st' rule t' b') := by
  have happs := applications_of_twins hH h ht rfl (by decide)
  rw [readCase, readCase]
  refine (child_also hH happs "Seq").bind fun seq seq' hseq =>
    (readExpr_also hH seq seq' hseq.1 _).bind fun read read' hread =>
    (child_also hH happs "caseName").bind fun caseName caseName' hcase =>
    (caseName_also hH hcase.1 hcase.2).bind fun name name' hname => ?_
  dsimp only
  rw [any_cases hb.cases, hname]
  split
  · exact .error _ _
  · refine (checkNew_also hst _ _ _).bind fun _ _ _ => .ok ⟨?_, ?_, ?_⟩
    · exact congrArg (· ++ _) hb.terms
    · refine List.rel_append hb.cases (.cons ⟨rfl, ?_, rfl, hst.grammar.name⟩ .nil)
      exact hread.1 ▸ hE.refl _
    · rw [List.map_append, List.map_append, hb.applications, hread.2]

theorem readTerm_also (ht : t.tree.rule? = some "TopLevelTerm") (h : Tree.Twins hole H t t')
    (hst : st.Alike E st') (hb : b.Same E b') :
    Also (Body.Same E) (readTerm st rule b t) (readTerm st' rule b' t') := by
  have happs := applications_of_twins hH h ht rfl (by decide)
  rw [readTerm, readTerm]
  refine (onlyChild_also hH happs).bind fun only only' hinner => ?_
  obtain ⟨inner, kind⟩ := only
  obtain ⟨inner', kind'⟩ := only'
  obtain ⟨htwins, hrule, rfl⟩ : Tree.Twins hole H inner inner' ∧ inner.tree.rule? = some kind ∧
    kind' = kind := hinner
  dsimp only
  split
  · rename_i hkind
    obtain rfl := beq_iff_eq.mp hkind
    exact readCase_also hE hH hrule htwins hst hb
  · refine (readExpr_also hH inner inner' htwins _).bind fun read read' hread =>
      .ok ⟨?_, hb.cases, ?_⟩
    · rw [hread.1, hb.terms]
    · rw [List.map_append, List.map_append, hb.applications, hread.2]

/-- Twins of a body are built into bodies that are alike. -/
theorem readBody_also (ht : t.tree.rule? = some "RuleBody") (h : Tree.Twins hole H t t')
    (hst : st.Alike E st') :
    Also (Body.Alike E) (readBody st rule t) (readBody st' rule t') := by
  have hnode (happs : List.Forall₂ (Tree.Twins hole H) t.applications t'.applications) :
      Also (Body.Same E) (readBody st rule t) (readBody st' rule t') := by
    rw [readBody, readBody]
    exact Also.foldlM (named_rel hH happs "TopLevelTerm") ⟨rfl, .nil, rfl⟩
      fun b b' s s' hb hs => readTerm_also hE hH hs.2 hs.1 hst hb
  cases h with
  | hole h =>
      cases hH _ h with
      | expression hq hs _ _ =>
          obtain rfl := Option.some.inj (ht.symm.trans hs)
          exact absurd hq (by decide)
      | body _ _ hread => exact hread st st' rule hst
  | text hq hs _ _ =>
      obtain rfl := Option.some.inj (ht.symm.trans hs)
      exact absurd hq (by decide)
  | caseName hs _ _ => exact absurd (Option.some.inj (ht.symm.trans hs)) (by decide)
  | node _ _ _ happs => exact (hnode happs).mono fun _ _ hb => hb.alike hE

omit hE in
theorem description_of_twins (happs : List.Forall₂ (Tree.Twins hole H) t.applications t'.applications) :
    description? t' = description? t := by
  have hdescr := first?_rel hH happs "RuleDescr"
  rw [description?, description?]
  generalize t.first? "RuleDescr" = descr at hdescr ⊢
  generalize t'.first? "RuleDescr" = descr' at hdescr ⊢
  cases hdescr with
  | none => rfl
  | @some d d' hd =>
      have htext := first?_rel hH (applications_of_twins hH hd.1 hd.2 rfl (by decide)) "ruleDescrText"
      simp only [Option.bind_eq_bind, Option.bind_some]
      generalize d.first? "ruleDescrText" = text at htext ⊢
      generalize d'.first? "ruleDescrText" = text' at htext ⊢
      cases htext with
      | none => rfl
      | some h =>
          simp only [Option.bind_some]
          rw [text_of_twins hH h.1 h.2 (by decide)]

theorem defineRule_also (happs : List.Forall₂ (Tree.Twins hole H) t.applications t'.applications)
    (hbody : Tree.Twins hole H body body') (hb : body.tree.rule? = some "RuleBody")
    (hst : st.Alike E st') :
    Also (State.Alike E) (defineRule st t rule ident body) (defineRule st' t' rule ident' body') := by
  rw [defineRule, defineRule]
  refine (checkNew_also hst _ _ _).bind fun _ _ _ =>
    (readBody_also hE hH hb hbody hst).bind fun b b' hb => ?_
  have hrule : Rule.Alike E
      ⟨rule, .choice b.terms, description? t, some t.interval, st.grammar.name⟩
      ⟨rule, .choice b'.terms, description? t', some t'.interval, st'.grammar.name⟩ :=
    ⟨rfl, hb.body, description_of_twins hH happs, hst.grammar.name⟩
  have hdeclare := hst.declare hrule hb
  dsimp only
  rw [hst.hasStart]
  split
  · exact .ok hdeclare
  · exact .ok ⟨⟨hdeclare.grammar.name, hdeclare.grammar.super, rfl, hdeclare.grammar.rules⟩,
      hdeclare.declared, hdeclare.applications, rfl⟩

theorem changeRule_also {cause : BuildError.Cause} {combine : Expr → Expr → Expr}
    (hcombine : ∀ {e e' f f'}, E e e' → E f f' → E (combine e f) (combine e' f'))
    (hbody : Tree.Twins hole H body body') (hb : body.tree.rule? = some "RuleBody")
    (hst : st.Alike E st') :
    Also (State.Alike E) (changeRule st t rule ident body cause combine)
      (changeRule st' t' rule ident' body' cause combine) := by
  rw [changeRule, changeRule]
  refine (inherited_also hst rule cause ident ident').bind fun old old' hold =>
    (readBody_also hE hH hb hbody hst).bind fun b b' hb => .ok (hst.declare ?_ hb)
  exact ⟨rfl, hcombine hb.body hold.body, hold.description, hst.grammar.name⟩

theorem readRule_also (ht : t.tree.rule? = some "Rule") (h : Tree.Twins hole H t t')
    (hst : st.Alike E st') (super : String) :
    Also (State.Alike E) (readRule super st t) (readRule super st' t') := by
  have happs := applications_of_twins hH h ht rfl (by decide)
  rw [readRule, readRule]
  refine (onlyChild_also hH happs).bind fun only only' hcase => ?_
  obtain ⟨case, kind⟩ := only
  obtain ⟨case', kind'⟩ := only'
  obtain ⟨htwins, hrule, rfl⟩ : Tree.Twins hole H case case' ∧ case.tree.rule? = some kind ∧
    kind' = kind := hcase
  by_cases hkind : kind' ∈ ["Rule_define", "Rule_override", "Rule_extend"]
  · have hkinds : ∀ q ∈ ["Rule_define", "Rule_override", "Rule_extend"],
        isSyntactic q = true ∧ q ∉ "RuleBody" :: expressions := by decide
    obtain ⟨hsyntactic, hnot⟩ := hkinds kind' hkind
    have hparts := applications_of_twins hH htwins hrule hsyntactic hnot
    refine (child_also hH hparts "ident").bind fun ident ident' hident =>
      (child_also hH hparts "RuleBody").bind fun body body' hbody => ?_
    rw [text_of_twins hH hident.1 hident.2 (by decide)]
    simp only [List.mem_cons, List.not_mem_nil, or_false] at hkind
    rcases hkind with rfl | rfl | rfl
    · exact defineRule_also hE hH hparts hbody.1 hbody.2 hst
    · exact changeRule_also hE hH (fun h _ => h) hbody.1 hbody.2 hst
    · exact changeRule_also hE hH hE.alt hbody.1 hbody.2 hst
  · intro s hs
    obtain ⟨ident, -, hs⟩ := bind_eq_ok.mp hs
    obtain ⟨body, -, hs⟩ := bind_eq_ok.mp hs
    simp only [List.mem_cons, List.not_mem_nil, or_false, not_or] at hkind
    obtain ⟨hdefine, hoverride, hextend⟩ := hkind
    split at hs
    · exact absurd rfl hdefine
    · exact absurd rfl hoverride
    · exact absurd rfl hextend
    · cases hs

end

/-! ## Grammars -/

section

variable {E : Expr → Expr → Prop} {hole t t' : Tree.Located} {H : Tree.Property}
  {ns ns' : Namespace}
  (hE : Congruent E) (hH : ∀ s', H s' → Replaces E hole s')

theorem grammar?_alike (hns : List.Forall₂ (Grammar.Alike E) ns ns') (n : String) :
    Option.Rel (Grammar.Alike E) (grammar? ns n) (grammar? ns' n) :=
  find?_forall₂ hns fun _ _ h => by rw [h.name]

include hE hH

theorem superGrammar_also (happs : List.Forall₂ (Tree.Twins hole H) t.applications t'.applications)
    (hns : List.Forall₂ (Grammar.Alike E) ns ns') :
    Also (Grammar.Alike E) (superGrammar ns t) (superGrammar ns' t') := by
  have hdecl := first?_rel hH happs "SuperGrammar"
  rw [superGrammar, superGrammar]
  generalize t.first? "SuperGrammar" = decl at hdecl ⊢
  generalize t'.first? "SuperGrammar" = decl' at hdecl ⊢
  cases hdecl with
  | none => exact .ok (.refl hE.refl builtInRules)
  | some h =>
      refine (child_also hH (applications_of_twins hH h.1 h.2 rfl (by decide)) "ident").bind
        fun ident ident' hident => ?_
      have hfound := grammar?_alike hns ident.text
      rw [text_of_twins hH hident.1 hident.2 (by decide)]
      generalize grammar? ns ident.text = found at hfound ⊢
      generalize grammar? ns' ident.text = found' at hfound ⊢
      cases hfound with
      | none => exact .error _ _
      | some h => exact .ok h

theorem readGrammar_also (ht : t.tree.rule? = some "Grammar") (h : Tree.Twins hole H t t')
    (hns : List.Forall₂ (Grammar.Alike E) ns ns') :
    Also (Grammar.Alike E) (readGrammar ns t) (readGrammar ns' t') := by
  have happs := applications_of_twins hH h ht rfl (by decide)
  rw [readGrammar, readGrammar]
  refine (child_also hH happs "ident").bind fun ident ident' hident => ?_
  have hdeclared : (grammar? ns' ident.text).isSome = (grammar? ns ident.text).isSome := by
    have hrel := grammar?_alike hns ident.text
    generalize grammar? ns ident.text = found at hrel ⊢
    generalize grammar? ns' ident.text = found' at hrel ⊢
    cases hrel <;> rfl
  rw [text_of_twins hH hident.1 hident.2 (by decide)]
  dsimp only
  rw [hdeclared]
  split
  · exact .error _ _
  · refine (superGrammar_also hE hH happs hns).bind fun super super' hsuper => ?_
    rw [hsuper.name]
    have hinitial : State.Alike E ⟨.extending (some super) ident.text, [], [], false⟩
        ⟨.extending (some super') ident.text, [], [], false⟩ :=
      ⟨⟨rfl, congrArg some hsuper.name, hsuper.start, hsuper.rules⟩, rfl, rfl, rfl⟩
    refine (Also.foldlM (named_rel hH happs "Rule") hinitial fun s s' r r' hs hr =>
      readRule_also hE hH hr.2 hr.1 hs super.name).bind fun s s' hs => ?_
    exact (checkApplications_also hs.grammar hs.applications).bind fun _ _ _ => .ok hs.grammar

/-- Twins of a source are built into grammars that are alike, one by one. -/
theorem ofResult_also {r r' : Match.Result} {root root' : Tree.Located}
    (hroot : r.root? = some root) (hroot' : r'.root? = some root')
    (hrule : root.tree.rule? = some "Grammars") (h : Tree.Twins hole H root root') :
    Also (List.Forall₂ (Grammar.Alike E)) (ofResult r) (ofResult r') := by
  have happs := applications_of_twins hH h hrule rfl (by decide)
  rw [ofResult, ofResult, hroot, hroot']
  refine Also.foldlM (named_rel hH happs "Grammar") .nil fun ns ns' t t' hns ht => ?_
  exact (readGrammar_also hE hH ht.2 ht.1 hns).bind fun g g' hg =>
    .ok (List.rel_append hns (.cons hg .nil))

end

end Grammar.Build

end Pegboard
