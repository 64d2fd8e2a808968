import Pegboard.Files
import Pegboard.Json.Typed
import Pegboard.Options
import Pegboard.Text.Blank
import Pegboard.Text.Inspected

/-!
# Configuration

How long a refresh waits, how the option flags begin, where the sources are kept, and the grammar to
begin with. A configuration is a JSON record; what is missing in it keeps its standard value.
-/

namespace Pegboard

structure Config where
  /-- How long a refresh waits after an edit, in milliseconds. -/
  editDelay : Nat
  /-- How long a refresh waits after a change of an option or of the start rule. -/
  optionDelay : Nat
  options : Options
  /-- The file that keeps the sources, if it is not the usual one. -/
  storagePath? : Option String
  /-- The grammar for a store that holds none. -/
  sampleGrammar : String
  deriving DecidableEq, Repr

/-- What makes a configuration invalid. -/
inductive ConfigFault
  | editDelayTooLong
  | optionDelayTooLong
  | blankOptionName (name : String)
  deriving DecidableEq, Repr

def ConfigFault.message : ConfigFault → String
  | editDelayTooLong => "refresh.edit_delay_ms must be <= 60000"
  | optionDelayTooLong => "refresh.option_delay_ms must not exceed the edit delay (or 1000)"
  | blankOptionName name => "option name " ++ Text.inspect name ++ " cannot be empty"

/-- Why there is no configuration. -/
inductive ConfigError
  | io (cause : FileError)
  | parse (cause : Json.ReadError)
  | invalid (fault : ConfigFault)
  deriving DecidableEq, Repr

def ConfigError.message : ConfigError → String
  | io cause => "IO error: " ++ cause.message
  | parse cause => "Parse error: " ++ cause.message
  | invalid fault => "Validation error: " ++ fault.message

namespace Config

/-- A small grammar of sums and products. -/
def arithmetic : String :=
  "\n".intercalate
    ["Arithmetic \x7b",
     "  Exp",
     "    = AddExp",
     "",
     "  AddExp",
     "    = AddExp \"+\" MulExp  -- plus",
     "    | AddExp \"-\" MulExp  -- minus",
     "    | MulExp",
     "",
     "  MulExp",
     "    = MulExp \"*\" PriExp  -- times",
     "    | MulExp \"/\" PriExp  -- divide",
     "    | PriExp",
     "",
     "  PriExp",
     "    = \"(\" Exp \")\"  -- paren",
     "    | number",
     "",
     "  number  (a number)",
     "    = digit+",
     "\x7d",
     ""]

/-- The configuration where none is given. -/
def standard : Config where
  editDelay := 250
  optionDelay := 0
  options := .ofList [(showFailures, false), (showSpaces, false)]
  storagePath? := none
  sampleGrammar := arithmetic

/-- The longest delay after an edit. -/
def maxEditDelay : Nat := 60000

/-- The delay after an option is at most the one after an edit, or this long. -/
def maxOptionDelay : Nat := 1000

/-- The first fault of a configuration, if it has any. -/
def fault? (c : Config) : Option ConfigFault :=
  if maxEditDelay < c.editDelay then some .editDelayTooLong
  else if max c.editDelay maxOptionDelay < c.optionDelay then some .optionDelayTooLong
  else
    (c.options.flags.find? fun (name, _) => Text.trim name == "").map fun (name, _) =>
      .blankOptionName name

/-! ### As JSON -/

open Json.Reader (record)

/-- Reads the delays. -/
def refreshReader : Json.Reader (Config → Config) :=
  record "struct RefreshConfig"
    [⟨"edit_delay_ms", return setEditDelay (← Json.Reader.natural)⟩,
     ⟨"option_delay_ms", return setOptionDelay (← Json.Reader.natural)⟩]
where
  setEditDelay (n : Nat) (c : Config) : Config := { c with editDelay := n }
  setOptionDelay (n : Nat) (c : Config) : Config := { c with optionDelay := n }

/-- Reads where the sources are kept. -/
def storageReader : Json.Reader (Config → Config) :=
  record "struct StorageConfig"
    [⟨"path", return setPath (← Json.Reader.nullable (.text "path string"))⟩]
where
  setPath (path? : Option String) (c : Config) : Config := { c with storagePath? := path? }

/-- Reads a configuration, and answers what it changes in the standard one. -/
def reader : Json.Reader (Config → Config) :=
  record "struct Config"
    [⟨"refresh", refreshReader⟩,
     ⟨"options", return setOptions (← Json.Reader.values .boolean)⟩,
     ⟨"storage", storageReader⟩,
     ⟨"sample_grammar", return setSample (← Json.Reader.text "a string")⟩]
where
  setOptions (flags : List (String × Bool)) (c : Config) : Config := { c with options := ⟨flags⟩ }
  setSample (text : String) (c : Config) : Config := { c with sampleGrammar := text }

/-- The configuration that a text writes, if it is valid. -/
def ofText (text : String) : Except ConfigError Config := do
  let c := (← (reader.run text).mapError .parse) standard
  match c.fault? with
  | some fault => throw (.invalid fault)
  | none => return c

def refreshJson (c : Config) : Json :=
  .obj [("edit_delay_ms", .nat c.editDelay), ("option_delay_ms", .nat c.optionDelay)]

def optionsJson (c : Config) : Json :=
  .obj (c.options.flags.map fun (name, value) => (name, .bool value))

def storageJson (c : Config) : Json :=
  .obj (c.storagePath?.toList.map fun path => ("path", .str path))

def toJson (c : Config) : Json :=
  .obj
    [("refresh", c.refreshJson),
     ("options", c.optionsJson),
     ("storage", c.storageJson),
     ("sample_grammar", .str c.sampleGrammar)]

/-! ### In files -/

/-- Where configurations and data are, beyond what a configuration says itself. -/
structure Places where
  workingDir : String
  configDir? : Option String
  dataDir? : Option String
  deriving DecidableEq, Repr

variable {m : Type → Type} [Monad m] [Files m]

def load (path : String) : m (Except ConfigError Config) := do
  match ← Files.read path with
  | .ok text => return ofText text
  | .error e => return .error (.io e)

def save (c : Config) (path : String) : m (Except ConfigError Unit) := do
  return (← Files.write path c.toJson.pretty).mapError .io

/-- Where a configuration is looked for if none is asked for. -/
def searchPaths (places : Places) : List String :=
  Path.join places.workingDir "workbench.json" ::
    places.configDir?.toList.map (Path.join · "workbench/config.json")

/-- The configuration asked for, or else the first one found, or else the standard one. -/
def resolve (places : Places) (path? : Option String) : m (Except ConfigError Config) := do
  match path? with
  | some path => load path
  | none =>
    match ← (searchPaths places).findM? Files.isFile with
    | some path => load path
    | none => return .ok standard

/-- The file that keeps the sources, if there is a place for it. -/
def storePath? (c : Config) (places : Places) : Option String :=
  c.storagePath?.or (places.dataDir?.map (Path.join · "grammar-workbench/state.json"))

end Config

end Pegboard
