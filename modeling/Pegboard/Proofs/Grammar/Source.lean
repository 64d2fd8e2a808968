import Pegboard.Grammar.Source
import Pegboard.Proofs.LeftCalls.Check
import Pegboard.Proofs.Match.Session

/-!
# The grammar of grammars

No rule of the grammar of grammars is left-recursive, and none is blind. A session that matches
grammar sources therefore answers what a match from scratch answers, whatever was edited before.

Main statement: `matchRule_ofGrammars`.
-/

namespace Pegboard

open Match

namespace Grammar

variable {g : Grammar}

/-- A match of the empty text from the rule is seen to look at its end. -/
def looksAtEnd (g : Grammar) (q : String) : Bool :=
  match run ⟨g, .ofString "", false⟩ nestingLimit q (.blank (Text.Input.ofString "").size) with
  | some (_, memo) =>
    match memo.find? 0 q with
    | some (.settled s) => 0 < s.examined
    | _ => false
  | none => false

theorem not_blind_of_looksAtEnd (hg : g.LoopsOnly) {q : String} (h : g.looksAtEnd q = true) :
    ¬ g.Blind q := by
  intro hblind
  rw [looksAtEnd] at h
  split at h
  · rename_i a memo hrun
    split at h
    · rename_i s hs
      have hkept := (run_kept hg (kept_blank g _) hrun).2.2
      obtain ⟨cs, -, hentry⟩ := hkept.table.settled 0 q s hblind.1 hs
      have hexamined := Application.examined_of_entry hentry
      rw [hexamined, hblind.meaning_eq hg, hblind.2] at h
      simp at h
    · cases h
  · cases h

theorem blindCount_eq_zero (hg : g.LoopsOnly) (h : ∀ q ∈ g.ruleNames, g.looksAtEnd q = true) :
    g.blindCount = 0 := by
  classical
  rw [blindCount, Finset.card_eq_zero, Finset.filter_eq_empty_iff]
  intro q hq
  exact not_blind_of_looksAtEnd hg (h q (List.mem_toFinset.mp hq))

namespace Source

/-- The rules that may match nothing. -/
def staying : List String :=
  ["spaces", "Grammars", "ruleDescrText"]

/-- The rules, each behind those that it calls from its left. -/
def order : List String :=
  ["digit", "hexDigit", "lower", "upper", "letter", "alnum", "ruleDescrText", "caseName",
   "nameFirst", "name", "ident", "nameRest", "terminal", "oneCharTerminal", "escapeChar",
   "terminalChar", "comment_singleLine", "comment_multiLine", "comment", "space", "spaces",
   "Grammar", "Grammars", "SuperGrammar", "Rule_define", "Rule_override", "Rule_extend", "Rule",
   "RuleDescr", "Pred_not", "Pred_lookahead", "Lex_lex", "Base_application", "Base_range",
   "Base_terminal", "Base_paren", "Base", "Lex", "Pred", "Iter_star", "Iter_plus", "Iter_opt",
   "Iter", "Seq", "TopLevelTerm_inline", "TopLevelTerm", "RuleBody", "Alt"]

theorem rankedBy_order : ofGrammars.RankedBy staying order.idxOf := by
  decide +kernel

end Source

theorem acyclic_ofGrammars : ofGrammars.Acyclic :=
  Source.rankedBy_order.acyclic (by decide +kernel)

theorem blindCount_ofGrammars : ofGrammars.blindCount = 0 :=
  blindCount_eq_zero acyclic_ofGrammars.loopsOnly (by decide +kernel)

end Grammar

namespace Match.Session

/-- A session that matches grammar sources answers what a match from scratch answers. -/
theorem Holds.matchRule_ofGrammars {s : Session} {start? : Option String} {r : Result}
    (h : Holds .ofGrammars s) (hr : Grammar.ofGrammars.matchText s.text start? = .ok r) :
    (s.matchRule start?).1 = .ok r :=
  h.matchRule_eq Grammar.acyclic_ofGrammars.loopsOnly Grammar.blindCount_ofGrammars hr

end Match.Session

end Pegboard
