/-!
# Commands

What the program can be asked to do.
-/

namespace Pegboard

/-- A category of events, as a command names it. -/
inductive Category
  | editor
  | semantics
  | examples
  deriving DecidableEq, Repr

inductive Command
  /-- Builds a grammar, and matches an input against it if there is one. -/
  | check (grammar : String) (input? start? : Option String)
  /-- Shows the trace of an input. -/
  | trace (grammar input : String) (start? : Option String) (failures spaces json : Bool)
  /-- Follows the changes of a grammar and an input. -/
  | watch (grammar? input? start? : Option String) (noStore : Bool) (cycles? : Option Nat)
  /-- Lists the events of a category. -/
  | events (category : Category)
  /-- Describes configuration files. -/
  | configSchema
  deriving DecidableEq, Repr

/-- A command with what goes for all commands. -/
structure Invocation where
  config? : Option String
  logFile? : Option String
  command : Command
  deriving DecidableEq, Repr

/-- What the arguments of the program ask for. -/
inductive Request
  | run (invocation : Invocation)
  | version
  | help
  deriving DecidableEq, Repr

end Pegboard
