import Pegboard.Proofs.Grammar.Exchange
import Pegboard.Proofs.Grammar.Nodes

/-!
# Carrying a parse over to another text

Where a piece of a text is exchanged, the tree of the one text has a twin in the other: the same
rules apply where they did, one of them finding what is there now. Step by step a row of the one tree
is carried over, from its last step to its first, since what stands behind a rule decides how far it
goes.

Main statement: `Row.carried`.
-/

namespace Pegboard

open Text

/-- The rules whose trees say no more than their text. -/
def Grammar.texts : List String :=
  ["ident", "terminal", "oneCharTerminal", "ruleDescrText"]

/-- The trees are of the same rules and have the same names and literals in them, but that in the
place of `hole` there is something that has the property `H`. -/
inductive Tree.Twins (hole : Located) (H : Property) : Located → Located → Prop
  | hole {s' : Located} (h : H s') : Twins hole H hole s'
  | text {q : String} {s s' : Located} (hq : q ∈ Grammar.texts) (hs : s.tree.rule? = some q)
      (hs' : s'.tree.rule? = some q) (h : s'.text = s.text) : Twins hole H s s'
  | caseName {s s' : Located} (hs : s.tree.rule? = some "caseName")
      (hs' : s'.tree.rule? = some "caseName")
      (h : (s'.first? "name").map (·.text) = (s.first? "name").map (·.text)) : Twins hole H s s'
  | node {q : String} {s s' : Located} (hq : isSyntactic q = true) (hs : s.tree.rule? = some q)
      (hs' : s'.tree.rule? = some q)
      (h : List.Forall₂ (Twins hole H) s.applications s'.applications) : Twins hole H s s'

/-- The tree is a twin of the other one if the applications below it are. -/
theorem Tree.Twins.of_each {hole s s' : Located} {H : Property} {q : String}
    (hq : isSyntactic q = true) (hs : s.tree.rule? = some q) (hs' : s'.tree.rule? = some q)
    (h : Each s'.applications (s.applications.map (Twins hole H))) : Twins hole H s s' :=
  .node hq hs hs' (List.forall₂_map_right_iff.mp h).flip

namespace Exchange

variable (x : Exchange) (p : Parser) (hole : Tree.Located) (H : Tree.Property)
  (follow : String → List Char → Prop)

/-- What was taken from `cs` to `ds` ends at a place that has a counterpart, and if it goes over the
piece, the place of the piece is in one of the trees. -/
structure Keeps (cs ds : List Char) (ss : List Tree.Located) : Prop where
  clear : x.Clear ds
  around : x.back.length ≤ cs.length → ds.length ≤ x.after.length → ∃ s ∈ ss, s.Reaches hole

/-- Wherever the tree was made in the one text, its rule makes a twin of it in the other, if what
stands behind it there may follow the rule. -/
def Carried (rules : List String) (t : Tree.Located) : Prop :=
  ∀ q ∈ rules, ∀ cs ds cs', p.Spans q cs ds t → x.Twin cs cs' → x.Keeps hole cs ds [t] →
    (∀ ds', x.Alike ds ds' → follow q ds') →
    ∃ ds', p.Yields q cs' ds' (Tree.Twins hole H t) ∧ x.Alike ds ds'

/-- The steps of the rule `q` are such that what stands behind a rule among them may follow it. -/
def Fits (rules : List String) (q : String) : List Step → Prop
  | [] => True
  | .mark s :: w => s.toList ≠ [] ∧ Fits rules q w
  | .rule r :: w =>
    (r ∈ rules ∧ ∀ cs ds Ps, Course p w cs ds Ps → follow q ds → follow r cs) ∧ Fits rules q w

variable {x p hole H follow}

section

variable {i : Input} {q s : String} {w : List Step} {rules : List String}
  {cs cs' ds : List Char} {t : Tree.Located} {ss : List Tree.Located}
  (hin : ∀ {s : Tree.Located} {q : String} {a b : List Char}, s.Reaches hole → p.Spans q a b s →
    x.back.length ≤ a.length ∧ b.length ≤ x.after.length)

theorem Clear.whole (h : x.Clear cs) :
    x.back.length ≤ cs.length ∨ cs.length ≤ x.after.length :=
  h.imp_left fun h => h.trans (length_skip_le cs)

theorem Alike.whole (h : x.Alike cs cs') :
    x.back.length ≤ cs.length ∨ cs.length ≤ x.after.length := by
  cases h with
  | before => exact .inl (by rw [List.length_append]; omega)
  | hole => exact .inl (Nat.le_refl _)
  | edge => exact .inr (Nat.le_refl _)
  | behind h => exact .inr h.length_le

include hin

/-- Where a row behind `cs` keeps to places with counterparts, it begins before the piece if it goes
over it. -/
theorem Keeps.start (h : Row p i w cs ds ss) (hover : ∃ s ∈ ss, s.Reaches hole) :
    x.back.length ≤ (skip cs).length := by
  obtain ⟨s, hs, hreach⟩ := hover
  rcases h.start with ⟨-, -, rfl⟩ | ⟨-, hbegin⟩
  · cases hs
  · obtain ⟨q, a, b, hspans, ha, -⟩ := hbegin s hs
    exact (hin hreach hspans).1.trans ha

/-- A mark and the rest of a row keep to places with counterparts. -/
theorem Keeps.mark (h : x.Keeps hole cs ds ss) (hcs : x.back.length ≤ cs.length ∨
    cs.length ≤ x.after.length) (hskip : skip cs = s.toList ++ cs')
    (hrest : Row p i w cs' ds ss) : x.Clear cs ∧ x.Keeps hole cs' ds ss ∧
      (x.back.length ≤ cs'.length ∨ (s.toList ++ cs').length ≤ x.after.length) := by
  have hlt := x.after_lt_back
  have hskipped := length_skip_le cs
  have hlength := congrArg List.length hskip
  rw [List.length_append] at hlength
  rcases hcs with hcs | hcs
  · have hle : x.back.length ≤ cs'.length := by
      rcases h.clear.whole with hds | hds
      · rcases hrest.start with ⟨-, rfl, -⟩ | ⟨hle, -⟩
        · exact hds
        · exact (hds.trans hle).trans (length_skip_le cs')
      · exact (Keeps.start hin hrest (h.around hcs hds)).trans (length_skip_le cs')
    exact ⟨.inl (by omega), ⟨h.clear, fun _ => h.around hcs⟩, .inl hle⟩
  · refine ⟨.inr hcs, ⟨h.clear, fun hback => ?_⟩, .inr ?_⟩
    · omega
    · rw [List.length_append]
      omega

/-- A rule and the rest of a row keep to places with counterparts. -/
theorem Keeps.rule (h : x.Keeps hole cs ds (t :: ss)) (hcs : x.back.length ≤ cs.length ∨
    cs.length ≤ x.after.length) (hspans : p.Spans q (skip cs) cs' t)
    (hrest : Row p i w cs' ds ss) :
    x.Clear cs ∧ x.Keeps hole (skip cs) cs' [t] ∧ x.Keeps hole cs' ds ss := by
  have hlt := x.after_lt_back
  have hskipped := length_skip_le cs
  have hlength := hspans.suffix.length_le
  rcases hcs with hcs | hcs
  · by_cases hover : ds.length ≤ x.after.length
    · obtain ⟨s, hs, hreach⟩ := h.around hcs hover
      rcases List.mem_cons.mp hs with rfl | hs
      · -- the piece is in the tree of the first rule
        obtain ⟨hbegin, hend⟩ := hin hreach hspans
        exact ⟨.inl hbegin, ⟨.inr hend, fun _ _ => ⟨s, List.mem_singleton_self s, hreach⟩⟩,
          h.clear, fun hback => by omega⟩
      · have hclear := Keeps.start hin hrest ⟨s, hs, hreach⟩
        have := length_skip_le cs'
        exact ⟨.inl (by omega), ⟨.inl hclear, fun _ hend => by omega⟩, h.clear,
          fun _ _ => ⟨s, hs, hreach⟩⟩
    · have hds : x.back.length ≤ (skip ds).length := h.clear.resolve_right hover
      have hclear : x.back.length ≤ (skip cs').length := by
        rcases hrest.start with ⟨-, rfl, -⟩ | ⟨hle, -⟩
        · exact hds
        · exact (hds.trans (length_skip_le ds)).trans hle
      have := length_skip_le cs'
      exact ⟨.inl (by omega), ⟨.inl hclear, fun _ hend => by omega⟩, h.clear,
        fun _ hend => absurd hend hover⟩
  · exact ⟨.inr hcs, ⟨.inr (by omega), fun hback => by omega⟩, h.clear, fun hback => by omega⟩

end

end Exchange

/-- A row is carried over if the trees in it are. -/
theorem Row.carried {x : Exchange} {p : Parser} {hole : Tree.Located} {H : Tree.Property}
    {follow : String → List Char → Prop} {i : Input} {q : String} {w : List Step}
    {rules : List String} {cs cs' ds : List Char} {ss : List Tree.Located}
    (hin : ∀ {s : Tree.Located} {q : String} {a b : List Char}, s.Reaches hole → p.Spans q a b s →
      x.back.length ≤ a.length ∧ b.length ≤ x.after.length) (hrow : Row p i w cs ds ss)
    (hss : ∀ s ∈ ss, x.Carried p hole H follow rules s)
    (hfits : Exchange.Fits p follow rules q w)
    (hkeeps : x.Keeps hole cs ds ss) (hend : ∀ ds', x.Alike ds ds' → follow q ds')
    (hcs : x.Alike cs cs') :
    ∃ ds', Course p w cs' ds' (ss.map (Tree.Twins hole H)) ∧ x.Alike ds ds' := by
  induction hrow generalizing cs' with
  | nil cs => exact ⟨cs', .nil cs', hcs⟩
  | mark hskip hrest ih =>
      obtain ⟨hs, hfits⟩ := hfits
      obtain ⟨hclear, hkeeps, hlength⟩ := hkeeps.mark hin hcs.whole hskip hrest
      have htwin := hcs.skip hclear
      rw [hskip] at htwin
      obtain ⟨ds', hskip', hds'⟩ := htwin.take_alike hs hlength
      obtain ⟨ds'', hcourse, halike⟩ := ih hss hfits hkeeps hend hds'
      exact ⟨ds'', .mark hskip' hcourse, halike⟩
  | @rule r w cs c ds t ss _ hspans hrest ih =>
      obtain ⟨⟨hr, hfollow⟩, hfits⟩ := hfits
      obtain ⟨ht, hss⟩ := List.forall_mem_cons.mp hss
      obtain ⟨hclear, hfirst, hkeeps⟩ := hkeeps.rule hin hcs.whole hspans hrest
      have hnext (c' : List Char) (hc' : x.Alike c c') : follow r c' := by
        obtain ⟨ds', hcourse, halike⟩ := ih hss hfits hkeeps hend hc'
        exact hfollow _ _ _ hcourse (hend ds' halike)
      obtain ⟨c', hyields, hc'⟩ := ht r hr _ _ _ hspans (hcs.skip hclear) hfirst hnext
      obtain ⟨ds', hcourse, halike⟩ := ih hss hfits hkeeps hend hc'
      exact ⟨ds', .rule hyields hcourse, halike⟩

end Pegboard
