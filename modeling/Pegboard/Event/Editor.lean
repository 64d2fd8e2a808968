import Pegboard.Event
import Pegboard.Grammar.Compile

/-!
# Editor events

What the editors and the refresh of grammar and trace tell each other.
-/

namespace Pegboard

inductive EditorEvent
  | inputEditorChanged (version : Nat)
  | grammarEditorChanged (version : Nat)
  | grammarChanged (source : String)
  | inputChanged (source : String)
  | grammarParsed (result : Match.Result) (grammar : Option Grammar) (error : Option GrammarError)
  | inputParsed (trace : Trace)
  | peekFailure (failure : Failure)
  | unpeekFailure
  | gotoFailure (failure : Failure)
  | peekRuleDefinition (rule : String)
  | unpeekRuleDefinition
  | optionChanged (option : String)

namespace EditorEvent

def kinds : List EventKind :=
  [⟨"change:inputEditor", "The input editor contents changed", ["version"]⟩,
   ⟨"change:grammarEditor", "The grammar editor contents changed", ["version"]⟩,
   ⟨"change:grammar", "A refresh picked up a new grammar source", ["grammarSource"]⟩,
   ⟨"change:input", "A refresh picked up a new input source", ["inputSource"]⟩,
   ⟨"parse:grammar", "The grammar source was parsed and built", ["matchResult", "grammar", "err"]⟩,
   ⟨"parse:input", "The input was traced against the current grammar", ["matchResult", "trace"]⟩,
   ⟨"peek:failure", "A failure is being hovered", ["failure"]⟩,
   ⟨"unpeek:failure", "A failure is no longer hovered", []⟩,
   ⟨"goto:failure", "Jump to a failure location", ["failure"]⟩,
   ⟨"peek:ruleDefinition", "A rule definition is being hovered", ["ruleName"]⟩,
   ⟨"unpeek:ruleDefinition", "A rule definition is no longer hovered", []⟩,
   ⟨"change:option", "An option flag was toggled", ["optionName"]⟩]

def name : EditorEvent → String
  | inputEditorChanged _ => "change:inputEditor"
  | grammarEditorChanged _ => "change:grammarEditor"
  | grammarChanged _ => "change:grammar"
  | inputChanged _ => "change:input"
  | grammarParsed _ _ _ => "parse:grammar"
  | inputParsed _ => "parse:input"
  | peekFailure _ => "peek:failure"
  | unpeekFailure => "unpeek:failure"
  | gotoFailure _ => "goto:failure"
  | peekRuleDefinition _ => "peek:ruleDefinition"
  | unpeekRuleDefinition => "unpeek:ruleDefinition"
  | optionChanged _ => "change:option"

/-- A trace comes together with its result. -/
def arity : EditorEvent → Nat
  | unpeekFailure | unpeekRuleDefinition => 0
  | grammarParsed _ _ _ => 3
  | inputParsed _ => 2
  | _ => 1

instance : Event EditorEvent where
  name := name
  arity := arity
  catalog := kinds

end EditorEvent

end Pegboard
