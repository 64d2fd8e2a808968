import Pegboard.Config

/-!
# The schema of configurations

What a configuration file may hold, as a JSON schema with the standard values.
-/

namespace Pegboard.Config

def delaySchema (description : String) (standard : Nat) : Json :=
  .obj
    [("description", .str description),
     ("type", .str "integer"),
     ("format", .str "uint64"),
     ("minimum", .nat 0),
     ("default", .nat standard)]

def refreshSchema : Json :=
  .obj
    [("description", .str "Debounce configuration"),
     ("type", .str "object"),
     ("properties", .obj
       [("edit_delay_ms", delaySchema
          "Delay after a grammar or input edit before refreshing, in milliseconds"
          standard.editDelay),
        ("option_delay_ms", delaySchema
          "Delay after an option or start rule change, in milliseconds"
          standard.optionDelay)])]

def storageSchema : Json :=
  .obj
    [("description", .str "Where the grammar and input are persisted"),
     ("type", .str "object"),
     ("properties", .obj
       [("path", .obj
          [("description", .str
             ("State file path. Defaults to \x60grammar-workbench/state.json\x60 in the\n"
               ++ "platform data directory.")),
           ("type", .arr [.str "string", .str "null"])])])]

/-- The schema of a field that has one of its own, with the value that stands for it if missing. -/
def referenceSchema (definition : String) (standard : Json) : Json :=
  .obj [("$ref", .str ("#/$defs/" ++ definition)), ("default", standard)]

def schema : Json :=
  .obj
    [("$schema", .str "https://json-schema.org/draft/2020-12/schema"),
     ("title", .str "Config"),
     ("description", .str "Main configuration structure"),
     ("type", .str "object"),
     ("properties", .obj
       [("refresh", referenceSchema "RefreshConfig" standard.refreshJson),
        ("options", .obj
          [("description", .str "Initial values of the option flags"),
           ("type", .str "object"),
           ("additionalProperties", .obj [("type", .str "boolean")]),
           ("default", standard.optionsJson)]),
        ("storage", referenceSchema "StorageConfig" standard.storageJson),
        ("sample_grammar", .obj
          [("description", .str "Grammar loaded when the store holds none"),
           ("type", .str "string"),
           ("default", .str standard.sampleGrammar)])]),
     ("$defs", .obj [("RefreshConfig", refreshSchema), ("StorageConfig", storageSchema)])]

end Pegboard.Config
