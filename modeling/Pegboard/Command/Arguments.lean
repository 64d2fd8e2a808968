import Pegboard.Command
import Pegboard.Text.Decimal

/-!
# Reading arguments

The arguments name a command, with options before it that go for all commands and options behind it.
An option is written `--name value` or `--name=value`, or `--name` alone if it has no value, and at
most once before the command and once behind it. Arguments are read from left to right: the first one
that does not fit ends the reading, and so does a request for help or for the version.
-/

namespace Pegboard.Arguments

/-- What the value of an option may be. -/
inductive ValueKind
  /-- The option has no value. -/
  | nothing
  /-- A text that is not empty. -/
  | path
  | text
  /-- A natural number below 2 ^ 64. -/
  | count
  deriving DecidableEq, Repr

/-- Why no command is read. -/
inductive Stop
  | misuse
  | help
  | version
  deriving DecidableEq, Repr

/-- What may be written before a command, or behind one. -/
structure Level where
  options : List (String × ValueKind)
  /-- Whether a word is the name of a command. -/
  commands : Bool
  /-- Whether the version may be asked for. -/
  version : Bool
  /-- The words that may stand here, at most one of them. -/
  words : List String

/-- The options and words read at a level. -/
structure Found where
  options : List (String × String)
  words : List String
  deriving DecidableEq, Repr

namespace Found

def empty : Found := ⟨[], []⟩

def value? (f : Found) (name : String) : Option String :=
  f.options.lookup name

def has (f : Found) (name : String) : Bool :=
  (f.value? name).isSome

end Found

/-- The number below 2 ^ 64 that a text writes; a plus sign may come before its digits. -/
def number? (text : String) : Option Nat :=
  match text.toList with
  | '+' :: digits => Text.decimal? digits
  | digits => Text.decimal? digits

def ValueKind.accepts (value : String) : ValueKind → Bool
  | nothing => false
  | path => value != ""
  | text => true
  | count => (number? value).isSome

/-- Whether an argument is to be read as an option, so that it is not the value of one. -/
def isOption (argument : String) : Bool :=
  match argument.toList with
  | '-' :: _ :: _ => true
  | _ => false

/-- The name of a long option and what follows it behind an equals sign. -/
def long? (argument : String) : Option (String × Option String) :=
  match argument.toList with
  | '-' :: '-' :: cs =>
    let name := String.ofList (cs.takeWhile (· ≠ '='))
    match cs.dropWhile (· ≠ '=') with
    | _ :: value => some (name, some (String.ofList value))
    | [] => some (name, none)
  | _ => none

/-- The letter after a single dash. -/
def short? (argument : String) : Option Char :=
  match argument.toList with
  | '-' :: c :: _ => some c
  | _ => none

namespace Level

/-- Takes an option with its value. -/
def take (l : Level) (f : Found) (name value : String) : Except Stop Found :=
  match l.options.lookup name with
  | none => .error .misuse
  | some kind =>
    if f.has name || !(kind = .nothing || kind.accepts value) then .error .misuse
    else .ok { f with options := f.options ++ [(name, value)] }

/-- Takes a word that is no option. -/
def takeWord (l : Level) (f : Found) (word : String) : Except Stop Found :=
  if f.words.isEmpty && l.words.contains word then .ok { f with words := [word] }
  else .error .misuse

/-- Whether an option has a value; none if there is no such option. -/
def hasValue? (l : Level) (name : String) : Option Bool :=
  (l.options.lookup name).map (· ≠ .nothing)

/-- Asks for help or for the version by a long option without a value. -/
def request? (l : Level) (name : String) : Option Stop :=
  if name = "help" then some .help
  else if name = "version" && l.version then some .version
  else none

/-- Asks for help or for the version by a letter; other letters mean nothing. -/
def shortRequest (l : Level) (letter : Char) : Stop :=
  if letter = 'h' then .help
  else if letter = 'V' && l.version then .version
  else .misuse

/-- Reads the arguments of a level, up to the name of a command if the level has one. The rest begins
with that name. -/
def read (l : Level) (f : Found) : List String → Except Stop (Found × List String)
  | [] => .ok (f, [])
  | "--" :: rest =>
    if l.commands then if rest.isEmpty then .ok (f, []) else .error .misuse
    else do return (← rest.foldlM l.takeWord f, [])
  | argument :: rest =>
    match long? argument with
    | some (name, some value) =>
      if l.hasValue? name = some true then do read l (← l.take f name value) rest
      else .error .misuse
    | some (name, none) =>
      match l.hasValue? name, rest with
      | none, _ => .error ((l.request? name).getD .misuse)
      | some false, rest => do read l (← l.take f name "") rest
      | some true, value :: rest =>
        if isOption value then .error .misuse
        else do read l (← l.take f name value) rest
      | some true, [] => .error .misuse
    | none =>
      match short? argument with
      | some letter => .error (l.shortRequest letter)
      | none =>
        if l.commands then .ok (f, argument :: rest)
        else do read l (← l.takeWord f argument) rest

end Level

/-! ### The commands -/

/-- The options that go for all commands. -/
def sharedOptions : List (String × ValueKind) :=
  [("config", .path), ("log-file", .path)]

/-- What may be written before the command. -/
def programLevel : Level :=
  ⟨sharedOptions, true, true, []⟩

/-- What may be written behind a command. -/
def commandLevel (options : List (String × ValueKind)) (words : List String) : Level :=
  ⟨options ++ sharedOptions, false, false, words⟩

/-- What may be written behind each command. -/
def commandLevels : List (String × Level) :=
  [("check", commandLevel [("grammar", .path), ("input", .path), ("start-rule", .text)] []),
   ("trace", commandLevel
      [("grammar", .path), ("input", .path), ("start-rule", .text), ("show-failures", .nothing),
       ("show-spaces", .nothing), ("json", .nothing)] []),
   ("watch", commandLevel
      [("grammar", .path), ("input", .path), ("start-rule", .text), ("no-store", .nothing),
       ("cycles", .count)] []),
   ("events", commandLevel [] ["editor", "semantics", "examples"]),
   ("config-schema", commandLevel [] [])]

def category (f : Found) : Category :=
  match f.words with
  | ["semantics"] => .semantics
  | ["examples"] => .examples
  | _ => .editor

/-- The value of an option that may not be missing. -/
def required (f : Found) (name : String) : Except Stop String :=
  match f.value? name with
  | some value => .ok value
  | none => .error .misuse

/-- The command with a name and what was found behind it. -/
def command (name : String) (f : Found) : Except Stop Command := do
  match name with
  | "check" => return .check (← required f "grammar") (f.value? "input") (f.value? "start-rule")
  | "trace" =>
    return .trace (← required f "grammar") (← required f "input") (f.value? "start-rule")
      (f.has "show-failures") (f.has "show-spaces") (f.has "json")
  | "watch" =>
    return .watch (f.value? "grammar") (f.value? "input") (f.value? "start-rule")
      (f.has "no-store") ((f.value? "cycles").bind number?)
  | "events" => return .events (category f)
  | "config-schema" => return .configSchema
  | _ => throw .misuse

/-- Whether the words behind the word `help` ask for help on the program or on a command. -/
def isHelpTopic : List String → Bool
  | [] => true
  | [name] => name = "help" || (commandLevels.lookup name).isSome
  | _ => false

/-- The command that the arguments ask for. An option written before the command and behind it has
the value written behind it. -/
def invocation (arguments : List String) : Except Stop Invocation := do
  let (before, rest) ← programLevel.read .empty arguments
  match rest with
  | [] => throw .misuse
  | name :: rest =>
    match commandLevels.lookup name with
    | some level =>
      let (behind, _) ← level.read .empty rest
      let shared (option : String) : Option String :=
        (behind.value? option).or (before.value? option)
      return ⟨shared "config", shared "log-file", ← command name behind⟩
    | none => throw (if name = "help" && isHelpTopic rest then .help else .misuse)

/-- What the arguments ask for, if they make sense. -/
def request? (arguments : List String) : Option Request :=
  match invocation arguments with
  | .ok i => some (.run i)
  | .error .help => some .help
  | .error .version => some .version
  | .error .misuse => none

end Pegboard.Arguments
