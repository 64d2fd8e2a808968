import Pegboard.Grammar.Build
import Pegboard.Grammar.Match
import Pegboard.Grammar.Source

/-!
# Compiling grammar sources

A source is matched against the grammar of grammars, and its tree is built into grammars. What goes
wrong on the way is reported with the place in the source.
-/

namespace Pegboard

/-- Why a source has no grammars. -/
inductive GrammarError
  /-- The source does not match. -/
  | unmatched (result : Match.Result)
  /-- The match of the source has no result. -/
  | abandoned (error : MatchError)
  /-- The source matches, but what it declares is wrong. -/
  | rejected (source : String) (error : BuildError)

namespace GrammarError

def interval : GrammarError → Interval
  | unmatched r => r.interval
  | abandoned _ => .point 0
  | rejected _ e => e.interval

/-- The error with the lines of the source around it. -/
def message : GrammarError → String
  | unmatched r => r.message
  | abandoned e => e.message
  | rejected source e =>
    Match.Result.placeText (Text.place source e.interval.start) ++ "\n"
      ++ Text.excerpt source e.interval.start ++ e.message

/-- The error on one line. -/
def shortMessage : GrammarError → String
  | unmatched r => r.shortMessage
  | abandoned e => e.message
  | rejected source e =>
    Match.Result.placeText (Text.place source e.interval.start) ++ " " ++ e.message

end GrammarError

namespace Grammar

/-- The grammars that a matched source declares, in order. -/
def compileResult (r : Match.Result) : Except GrammarError Build.Namespace :=
  if r.succeeded then (ofResult r).mapError (.rejected r.input.text)
  else .error (.unmatched r)

/-- The first grammar of a source, or what is wrong with the source. A source may also declare no
grammar at all. -/
structure Outcome where
  grammar? : Option Grammar
  error? : Option GrammarError

/-- What a match of a source comes to. -/
def outcome (r : Match.Result) : Outcome :=
  match compileResult r with
  | .ok ns => ⟨ns.head?, none⟩
  | .error e => ⟨none, some e⟩

/-- The grammars that a source declares, in order. -/
def compile (source : String) : Except GrammarError Build.Namespace :=
  match ofGrammars.matchText source none with
  | .error e => .error (.abandoned e)
  | .ok r => compileResult r

/-- The grammar with a name, or the first one if no name is given. -/
def select? (ns : Build.Namespace) (name? : Option String) : Option Grammar :=
  match name? with
  | some name => Build.grammar? ns name
  | none => ns.head?

end Grammar

end Pegboard
