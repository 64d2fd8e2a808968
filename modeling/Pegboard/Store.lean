import Pegboard.Files
import Pegboard.Json.Typed

/-!
# Stores

A store keeps texts under keys, so that a session can take up where the last one ended. One kind keeps
them in memory. The other keeps them in a file as well, and remembers only what it could write.
-/

namespace Pegboard

/-- The key of the grammar source. -/
def grammarKey : String := "grammar"

/-- The key of the input. -/
def inputKey : String := "input"

/-- Why a store does not answer. -/
inductive StoreError
  | io (cause : FileError)
  | parse (cause : Json.ReadError)
  deriving DecidableEq, Repr

namespace StoreError

def cause : StoreError → String
  | io cause => cause.message
  | parse cause => cause.message

def message : StoreError → String
  | io cause => "Store I/O error: " ++ cause.message
  | parse cause => "Store parse error: " ++ cause.message

end StoreError

/-- The kinds of stores that a monad can work with. -/
class Store (m : Type → Type) (τ : Type) where
  get : (store : τ) → (key : String) → m (Except StoreError (Option String))
  set : (store : τ) → (key text : String) → m (Except StoreError Unit × τ)

/-- Texts in the order of their keys. -/
abbrev Entries := List (String × String)

/-! ### In memory -/

structure MemoryStore where
  entries : Entries
  deriving DecidableEq, Repr

namespace MemoryStore

/-- A store of these texts; of several under one key the last one counts. -/
def ofList (entries : Entries) : MemoryStore :=
  ⟨sortedByName entries⟩

instance {m : Type → Type} [Pure m] : Store m MemoryStore where
  get s key := pure (.ok (s.entries.lookup key))
  set s key text := pure (.ok (), ⟨putSorted key text s.entries⟩)

end MemoryStore

/-! ### In a file -/

structure FileStore where
  path : String
  entries : Entries
  deriving DecidableEq, Repr

namespace FileStore

variable {m : Type → Type} [Monad m] [Files m]

/-- The JSON object of texts. -/
def encode (entries : Entries) : String :=
  (Json.obj (entries.map fun (key, text) => (key, .str text))).pretty

def decode (contents : String) : Except Json.ReadError Entries :=
  (Json.Reader.values (.text "a string")).run contents

/-- The store that a file holds. A file that is not there holds no texts. -/
def load (path : String) : m (Except StoreError FileStore) := do
  match ← Files.read path with
  | .ok contents =>
    match decode contents with
    | .ok entries => return .ok ⟨path, entries⟩
    | .error e => return .error (.parse e)
  | .error .notFound => return .ok ⟨path, []⟩
  | .error e => return .error (.io e)

/-- Writes a file beside the one at the path and moves it there, so that at each moment the path has
a file that was written to its end. -/
def replaceFile (path contents : String) : m (Except FileError Unit) := do
  let temporary := Path.withExtension path "tmp"
  match ← Files.write temporary contents with
  | .error e => return .error e
  | .ok () => Files.rename temporary path

/-- Writes texts into the file of a store. -/
def persist (path : String) (entries : Entries) : m (Except FileError Unit) := do
  match ← createParent path with
  | .error e => return .error e
  | .ok () => replaceFile path (encode entries)
where
  createParent (path : String) : m (Except FileError Unit) :=
    match Path.parent? path with
    | some parent => Files.createDirs parent
    | none => return .ok ()

/-- Keeps a text, in the file first. A text that is there already is not written again. -/
def set (s : FileStore) (key text : String) : m (Except StoreError Unit × FileStore) := do
  if s.entries.lookup key = some text then return (.ok (), s)
  else
    let entries := putSorted key text s.entries
    match ← persist s.path entries with
    | .ok () => return (.ok (), { s with entries := entries })
    | .error e => return (.error (.io e), s)

instance : Store m FileStore where
  get s key := pure (.ok (s.entries.lookup key))
  set := set

end FileStore

/-! ### Of either kind -/

instance {m : Type → Type} [Monad m] {σ τ : Type} [Store m σ] [Store m τ] : Store m (σ ⊕ τ) where
  get
    | .inl s, key => Store.get s key
    | .inr t, key => Store.get t key
  set
    | .inl s, key, text => do
      let (r, s) ← Store.set s key text
      return (r, .inl s)
    | .inr t, key, text => do
      let (r, t) ← Store.set t key text
      return (r, .inr t)

end Pegboard
