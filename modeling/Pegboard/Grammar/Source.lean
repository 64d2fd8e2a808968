import Pegboard.Grammar.BuiltIn

/-!
# The grammar of grammar sources

The text of a grammar is itself matched against a grammar. Rules with a capital skip spaces and
comments; what they are built into is told in `Pegboard.Grammar.Build`.
-/

namespace Pegboard.Grammar

namespace Source

def star (e : Expr) : Expr := .iter .star e
def plus (e : Expr) : Expr := .iter .plus e
def opt (e : Expr) : Expr := .iter .opt e

/-- Spaces up to the end of the line. -/
def lineSpaces : Expr :=
  star (.seq [.not (.terminal "\n"), .apply "space"])

/-- Everything up to a text. -/
def upTo (s : String) : Expr :=
  star (.seq [.not (.terminal s), .any])

def rule := plainRule "Ohm"

/-- Grammars and their rules. -/
def declarations : List Rule :=
  [rule "Grammars" none (star (.apply "Grammar")),
   rule "Grammar" none
     (.seq [.apply "ident", opt (.apply "SuperGrammar"), .terminal "\x7b", star (.apply "Rule"),
       .terminal "\x7d"]),
   rule "SuperGrammar" none (.seq [.terminal "<:", .apply "ident"]),
   rule "Rule" none
     (.alt [.apply "Rule_define", .apply "Rule_override", .apply "Rule_extend"]),
   rule "Rule_define" none
     (.seq [.apply "ident", opt (.apply "RuleDescr"), .terminal "=", .apply "RuleBody"]),
   rule "Rule_override" none (.seq [.apply "ident", .terminal ":=", .apply "RuleBody"]),
   rule "Rule_extend" none (.seq [.apply "ident", .terminal "+=", .apply "RuleBody"]),
   rule "RuleDescr" (some "a rule description")
     (.seq [.terminal "(", .apply "ruleDescrText", .terminal ")"]),
   rule "ruleDescrText" none (upTo ")")]

/-- The bodies of rules, from choices down to single expressions. -/
def bodies : List Rule :=
  [rule "RuleBody" none
     (.seq [opt (.terminal "|"), .apply "TopLevelTerm",
       star (.seq [.terminal "|", .apply "TopLevelTerm"])]),
   rule "TopLevelTerm" none (.alt [.apply "TopLevelTerm_inline", .apply "Seq"]),
   rule "TopLevelTerm_inline" none (.seq [.apply "Seq", .apply "caseName"]),
   rule "Alt" none (.seq [.apply "Seq", star (.seq [.terminal "|", .apply "Seq"])]),
   rule "Seq" none (plus (.apply "Iter")),
   rule "Iter" none
     (.alt [.apply "Iter_star", .apply "Iter_plus", .apply "Iter_opt", .apply "Pred"]),
   rule "Iter_star" none (.seq [.apply "Pred", .terminal "*"]),
   rule "Iter_plus" none (.seq [.apply "Pred", .terminal "+"]),
   rule "Iter_opt" none (.seq [.apply "Pred", .terminal "?"]),
   rule "Pred" none (.alt [.apply "Pred_not", .apply "Pred_lookahead", .apply "Lex"]),
   rule "Pred_not" none (.seq [.terminal "~", .apply "Lex"]),
   rule "Pred_lookahead" none (.seq [.terminal "&", .apply "Lex"]),
   rule "Lex" none (.alt [.apply "Lex_lex", .apply "Base"]),
   rule "Lex_lex" none (.seq [.terminal "#", .apply "Base"]),
   rule "Base" none
     (.alt [.apply "Base_application", .apply "Base_range", .apply "Base_terminal",
       .apply "Base_paren"]),
   rule "Base_application" none
     (.seq [.apply "ident",
       .not (.alt [.seq [opt (.apply "RuleDescr"), .terminal "="], .terminal ":=",
         .terminal "+="])]),
   rule "Base_range" none
     (.seq [.apply "oneCharTerminal", .terminal "..", .apply "oneCharTerminal"]),
   rule "Base_terminal" none (.apply "terminal"),
   rule "Base_paren" none (.seq [.terminal "(", .apply "Alt", .terminal ")"])]

/-- Names and literals. -/
def tokens : List Rule :=
  [rule "caseName" none
     (.seq [.terminal "--", lineSpaces, .apply "name", lineSpaces,
       .alt [.terminal "\n", .look (.terminal "\x7d")]]),
   rule "ident" (some "an identifier") (.apply "name"),
   rule "name" (some "a name") (.seq [.apply "nameFirst", star (.apply "nameRest")]),
   rule "nameFirst" none (.alt [.terminal "_", .apply "letter"]),
   rule "nameRest" none (.alt [.terminal "_", .apply "alnum"]),
   rule "terminal" none
     (.seq [.terminal "\"", star (.apply "terminalChar"), .terminal "\""]),
   rule "oneCharTerminal" none
     (.seq [.terminal "\"", .apply "terminalChar", .terminal "\""]),
   rule "terminalChar" none
     (.alt [.apply "escapeChar",
       .seq [.not (.terminal "\\"), .not (.terminal "\""), .not (.terminal "\n"), .any]]),
   rule "escapeChar" (some "an escape sequence")
     (.alt [.terminal "\\\\", .terminal "\\\"", .terminal "\\'", .terminal "\\b", .terminal "\\n",
       .terminal "\\r", .terminal "\\t",
       .seq [.terminal "\\u", .apply "hexDigit", .apply "hexDigit", .apply "hexDigit",
         .apply "hexDigit"],
       .seq [.terminal "\\x", .apply "hexDigit", .apply "hexDigit"]])]

/-- What may stand between tokens. -/
def spacing : List Rule :=
  [rule "space" none (.alt [.apply "comment", .range '\x00' ' ']),
   rule "comment" none (.alt [.apply "comment_singleLine", .apply "comment_multiLine"]),
   rule "comment_singleLine" none
     (.seq [.terminal "//", upTo "\n", .look (.alt [.terminal "\n", .endOfInput])]),
   rule "comment_multiLine" none (.seq [.terminal "/*", upTo "*/", .terminal "*/"])]

end Source

/-- The grammar that grammar sources are matched against. -/
def ofGrammars : Grammar :=
  let base := Grammar.extending (some builtInRules) "Ohm"
  let rules := Source.declarations ++ Source.bodies ++ Source.tokens ++ Source.spacing
  { rules.foldl define base with start := some "Grammars" }

end Pegboard.Grammar
