import Pegboard.Proofs.Match.Beside.Rule
import Pegboard.Proofs.Match.Untraced

/-!
# How far an evaluation looked

The entry of a rule tells how many bytes were looked at from its place on, the end of the text
counting as one more. Nothing else of the text matters: wherever the same bytes stand, in any text,
the rule comes to the same entry there, and what lies before the place is never looked at. That is
so in every grammar, whichever of its rules are left-recursive.

Main statement: `settled_alike`.
-/

namespace Pegboard.Match

open Text Evaluation

variable {g : Grammar} {i i' : Input} {depth p q : Nat} {r : String} {out : Outcome} {s : Settled}

/-- What two texts have in common, and all rules to be followed. -/
def Twin.ofTexts (g : Grammar) (i i' : Input) (p q n : Nat)
    (alike : ∀ k < n, i.text.toUTF8.data[p + k]? = i'.text.toUTF8.data[q + k]?) : Twin where
  grammar := g
  left := i
  right := i'
  a := p
  b := q
  n := n
  alike := alike
  locked _ := True
  aside _ := False
  closed _ _ _ _ := .inl trivial
  known _ _ := True
  known_put _ _ _ _ _ _ _ _ _ _ := trivial
  known_drop _ _ _ _ _ _ _ _ _ := trivial

/-- An application in a table without entries looked as far as its entry says. -/
theorem reach_of_settled {set : Setting} (hp : set.input.Boundary p)
    (h : ofRule set depth [] r ⟨p, []⟩ (.start p) (.blank set.input.size) = some out)
    (hs : out.memo.find? p r = some (.settled s)) : out.log.reach = p + s.examined := by
  have hr := Stack.ready_at (Stack.intact_blank set) hp
  rcases ofRule_eq_some h with ⟨-, rfl⟩ | ⟨rule, hrule, ⟨entry, hentry, -⟩ | ⟨hnew, -⟩⟩
  · simp at hs
  · simp at hentry
  · obtain rfl := Grammar.rule?_name hrule
    obtain ⟨r, inner, memo', stop, rfl, hbetween, hleft⟩ := ofRule_leaves hr hrule hnew h
    obtain rfl := Entry.settled.inj (Option.some.inj (hleft.symm.trans hs))
    have hstart : p ≤ inner.reach := hbetween.start_le
    simp only [concluded, Log.reach_note, keptEntry, Log.start]
    omega

/-- What `settled_alike` says of applications that keep no trace. -/
theorem settled_alike_untraced (hp : i.Boundary p) (hq : i'.Boundary q)
    (h : ofRule ⟨g, i, false⟩ depth [] r ⟨p, []⟩ (.start p) (.blank i.size) = some out)
    (hs : out.memo.find? p r = some (.settled s))
    (hbytes : ∀ k < s.examined, i.text.toUTF8.data[p + k]? = i'.text.toUTF8.data[q + k]?) :
    ∃ out', ofRule ⟨g, i', false⟩ depth [] r ⟨q, []⟩ (.start q) (.blank i'.size) = some out' ∧
      out'.memo.find? q r = some (.settled s) := by
  -- as far as the entry says, the left side looked at nothing but what both texts have
  let T := Twin.ofTexts g i i' p q s.examined hbytes
  have hfollows : T.Follows [] False (ofRule T.leftSet depth [] r) (ofRule T.rightSet depth [] r) :=
    Twin.ofRule_follows (fun _ _ _ h => False.elim h) depth [] r (.inl trivial) (List.forall_mem_nil _)
  have hready : T.Ready [] ⟨0, []⟩ (.start 0) (.blank i.size) (.blank i'.size) :=
    ⟨⟨fun _ => 0, p, Stack.ready_at (Stack.intact_blank T.leftSet) hp⟩,
      ⟨fun _ => 0, q, Stack.ready_at (Stack.intact_blank T.rightSet) hq⟩,
      ⟨by simp, trivial⟩⟩
  have hreach : out.log.reach = T.a + T.n := reach_of_settled hp h hs
  have hbeside := hfollows.beside ⟨0, []⟩ (.start 0) _ _ out hready h hreach.le
  change Yields False (T.Beside out)
    (ofRule ⟨g, i', false⟩ depth [] r ⟨q, []⟩ (.start q) (.blank i'.size)) at hbeside
  generalize ofRule ⟨g, i', false⟩ depth [] r ⟨q, []⟩ (.start q) (.blank i'.size) = result
    at hbeside ⊢
  cases result with
  | none => exact hbeside.elim
  | some out' =>
      obtain ⟨c?, log, hnear⟩ := hbeside
      exact ⟨_, rfl, (hnear.same 0 r trivial).symm.trans hs⟩

/-- An application in a table without entries depends on nothing but the bytes that its entry says
were looked at. Where they stand in any text, the rule comes to the same there: the same tree, the
same length looked at, and the same failures, each counted from the place on. -/
theorem settled_alike (tracing tracing' : Bool) (hp : i.Boundary p) (hq : i'.Boundary q)
    (h : ofRule ⟨g, i, tracing⟩ depth [] r ⟨p, []⟩ (.start p) (.blank i.size) = some out)
    (hs : out.memo.find? p r = some (.settled s))
    (hbytes : ∀ k < s.examined, i.text.toUTF8.data[p + k]? = i'.text.toUTF8.data[q + k]?) :
    ∃ out' s',
      ofRule ⟨g, i', tracing'⟩ depth [] r ⟨q, []⟩ (.start q) (.blank i'.size) = some out' ∧
      out'.memo.find? q r = some (.settled s') ∧ s'.tree? = s.tree? ∧ s'.length = s.length ∧
      s'.examined = s.examined ∧ s'.failures = s.failures := by
  have hforgets := ofRule_forgets ⟨g, i, tracing⟩ depth [] r ⟨p, []⟩ (.start p) (.blank i.size)
  rw [h, Option.map_some, Log.untraced_start, Memo.untraced_blank] at hforgets
  have hs' : out.untraced.memo.find? p r = some (.settled { s with trace? := none }) := by
    rw [Outcome.untraced, Memo.find?_untraced, hs]
    rfl
  obtain ⟨out₁, hout₁, hs₁⟩ := settled_alike_untraced hp hq hforgets hs' hbytes
  have hforgets' := ofRule_forgets ⟨g, i', tracing'⟩ depth [] r ⟨q, []⟩ (.start q) (.blank i'.size)
  rw [Log.untraced_start, Memo.untraced_blank] at hforgets'
  obtain ⟨out', hout', rfl⟩ := Option.map_eq_some_iff.mp (hforgets'.symm.trans hout₁)
  rw [Outcome.untraced, Memo.find?_untraced] at hs₁
  obtain ⟨entry, hentry, huntraced⟩ := Option.map_eq_some_iff.mp hs₁
  cases entry with
  | growing seed? trace? read => cases huntraced
  | settled s' =>
      obtain ⟨htree, hexamined, hfailures, -⟩ := Settled.mk.inj (Entry.settled.inj huntraced)
      exact ⟨out', s', hout', hentry, htree, by rw [Settled.length, htree, Settled.length], hexamined,
        hfailures⟩

theorem settled_alike_sums :
    ∃ out s, ofRule ⟨Session.sums, .ofString "é1+2x9", true⟩ 20 [] "sum" ⟨2, []⟩ (.start 2)
        (.blank (Input.ofString "é1+2x9").size) = some out ∧
      out.memo.find? 2 "sum" = some (.settled s) ∧ s.length = 3 ∧ s.examined = 4 ∧
      ∃ out' s', ofRule ⟨Session.sums, .ofString "7+1+2xé", false⟩ 20 [] "sum" ⟨2, []⟩ (.start 2)
          (.blank (Input.ofString "7+1+2xé").size) = some out' ∧
        out'.memo.find? 2 "sum" = some (.settled s') ∧ s'.tree? = s.tree? ∧ s'.length = s.length ∧
        s'.examined = s.examined ∧ s'.failures = s.failures := by
  have hmatch : (ofRule ⟨Session.sums, .ofString "é1+2x9", true⟩ 20 [] "sum" ⟨2, []⟩ (.start 2)
      (.blank (Input.ofString "é1+2x9").size)).bind (fun out => (out.memo.find? 2 "sum").bind
        fun | .settled s => some (s.length, s.examined)
            | .growing _ _ _ => none) = some (3, 4) := by
    decide +kernel
  obtain ⟨out, hout, hentry⟩ := Option.bind_eq_some_iff.mp hmatch
  obtain ⟨entry, hs, hlooked⟩ := Option.bind_eq_some_iff.mp hentry
  cases entry with
  | growing seed? trace? read => cases hlooked
  | settled s =>
      obtain ⟨hlength, hexamined⟩ := Prod.mk.inj (Option.some.inj hlooked)
      have hp : (Input.ofString "é1+2x9").Boundary 2 :=
        ⟨['é'], "1+2x9".toList, by decide +kernel, by decide +kernel⟩
      have hq : (Input.ofString "7+1+2xé").Boundary 2 :=
        ⟨"7+".toList, "1+2xé".toList, by decide +kernel, by decide +kernel⟩
      have hbytes : ∀ k < 4, "é1+2x9".toUTF8.data[2 + k]? = "7+1+2xé".toUTF8.data[2 + k]? := by
        decide +kernel
      exact ⟨out, s, hout, hs, hlength, hexamined,
        settled_alike true false hp hq hout hs (by rw [hexamined]; exact hbytes)⟩

end Pegboard.Match
