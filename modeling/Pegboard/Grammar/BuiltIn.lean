import Pegboard.Grammar

/-!
# The built-in rules

The rules that every grammar written down begins with.
-/

namespace Pegboard.Grammar

/-- A rule of the grammar `g`, declared in no source. -/
def plainRule (g name : String) (description : Option String) (body : Expr) : Rule :=
  ⟨name, body, description, none, g⟩

def builtInRules : Grammar where
  name := "BuiltInRules"
  super := none
  start := none
  rules :=
    [rule "alnum" (some "an alpha-numeric character") (.alt [.apply "letter", .apply "digit"]),
     rule "letter" (some "a letter") (.alt [.apply "lower", .apply "upper"]),
     rule "digit" (some "a digit") (.range '0' '9'),
     rule "hexDigit" (some "a hexadecimal digit")
       (.alt [.apply "digit", .range 'a' 'f', .range 'A' 'F']),
     rule "lower" (some "a lowercase letter") (.range 'a' 'z'),
     rule "upper" (some "an uppercase letter") (.range 'A' 'Z'),
     rule "space" none (.range '\x00' ' '),
     rule "spaces" none (.iter .star (.apply "space"))]
where
  rule := plainRule "BuiltInRules"

end Pegboard.Grammar
