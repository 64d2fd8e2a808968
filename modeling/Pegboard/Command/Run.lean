import Pegboard.Command.Arguments
import Pegboard.Command.Check
import Pegboard.Command.Watch
import Pegboard.Config.Schema

/-!
# Running commands

What the program does with its arguments. All commands but one end at once with what they print;
a watch goes on in rounds.
-/

namespace Pegboard

/-- What the program does first. -/
inductive Start
  | finished (printout : Printout)
  /-- A watch begins, after a message on the error output. -/
  | watching (err : String) (watch : Watch)

namespace Start

def versionText : String := "workbench 0.1.0\n"

def usage : String :=
  "\n".intercalate
    ["Usage: workbench [--config <PATH>] [--log-file <PATH>] <COMMAND>",
     "",
     "Commands:",
     "  check          --grammar <FILE> [--input <FILE>] [--start-rule <RULE>]",
     "  trace          --grammar <FILE> --input <FILE> [--start-rule <RULE>]",
     "                 [--show-failures] [--show-spaces] [--json]",
     "  watch          [--grammar <FILE>] [--input <FILE>] [--start-rule <RULE>]",
     "                 [--no-store] [--cycles <N>]",
     "  events         [editor|semantics|examples]",
     "  config-schema",
     ""]

/-- The kinds of events in a category. -/
def kindsOf : Category → List EventKind
  | .editor => EditorEvent.kinds
  | .semantics => SemanticsEvent.kinds
  | .examples => ExampleEvent.kinds

variable {m : Type → Type} [Monad m] [Files m]

/-- Runs a command under a configuration. -/
def runCommand (places : Config.Places) (now : Nat) (config : Config) :
    Command → ExceptT CommandError m Start
  | .check grammar input? start? => finished <$> checkFiles config grammar input? start?
  | .trace grammar input start? failures spaces json =>
    finished <$> traceFiles config grammar input start? ⟨failures, spaces, json⟩
  | .watch grammar? input? start? noStore cycles? =>
    let storePath? := if noStore then none else config.storePath? places
    watching "" <$> Watch.start config storePath? grammar? input? start? cycles? now
  | .events category =>
    pure (finished (.success ((catalogSchema (kindsOf category)).pretty ++ "\n")))
  | .configSchema => pure (finished (.success (Config.schema.pretty ++ "\n")))

/-- Makes the log file, and tells if that failed. -/
def openLog : Option String → m String
  | some path => do
    match ← Files.write path "" with
    | .ok () => return ""
    | .error e => return "Failed to initialize logging: " ++ e.message ++ "\n"
  | none => return ""

/-- Puts a message before all others. -/
def prepend (err : String) : Start → Start
  | finished p => finished { p with err := err ++ p.err }
  | watching err' w => watching (err ++ err') w

/-- Runs what was asked for under the configuration that goes for it. -/
def runInvocation (places : Config.Places) (now : Nat) (i : Invocation) : m Start := do
  let logMessage ← openLog i.logFile?
  let start : ExceptT CommandError m Start := do
    let config ← ExceptT.mk do return (← Config.resolve places i.config?).mapError .config
    runCommand places now config i.command
  match ← start.run with
  | .ok s => return s.prepend logMessage
  | .error e => return (finished (.ofError e)).prepend logMessage

/-- Does what the arguments ask for. -/
def ofArguments (places : Config.Places) (now : Nat) (arguments : List String) : m Start :=
  match Arguments.request? arguments with
  | some (.run i) => runInvocation places now i
  | some .version => pure (finished (.success versionText))
  | some .help => pure (finished (.success usage))
  | none => pure (finished (.misuse usage))

end Start

end Pegboard
