import Pegboard.Proofs.Json.Objects
import Mathlib

/-!
# A store in a file holds what it remembers

Any operation on files may fail on the way of a text into the file of a store: directories may not be
made, writing may stop behind any number of bytes, and a file may not be moved. `Shelf` is a file system
with operations that fail like that, in any order. Whatever happens, the texts go into a file beside
that of the store, and what is at the path of the store is replaced as a whole or not at all, as long
as the file beside it is another one. It is not where the path has the extension of such files itself.

Main statement: `FileStore.load_setAll`.
-/

namespace Pegboard

/-! ## Files that fail -/

/-- What becomes of an operation on files. -/
inductive Fate
  | done
  /-- It fails and changes nothing. -/
  | refused (e : FileError)
  /-- It fails, and if it was writing it has written so many bytes. -/
  | torn (e : FileError) (written : Nat)

/-- The bytes of the files that there are, by what paths name. Several paths may name one file. -/
structure Shelf {κ : Type} (names : String → κ) where
  files : κ → Option ByteArray
  /-- What becomes of the operations to come. Those behind the last one of these are done. -/
  fates : List Fate

namespace Shelf

variable {κ : Type} {names : String → κ}

/-- An operation by what it does where it is done, and by what is left of it where it is torn. -/
def operation (done : (κ → Option ByteArray) → Except FileError (κ → Option ByteArray))
    (torn : Nat → (κ → Option ByteArray) → κ → Option ByteArray) :
    StateM (Shelf names) (Except FileError Unit) := fun d =>
  match d.fates with
  | .refused e :: fates => (.error e, ⟨d.files, fates⟩)
  | .torn e written :: fates => (.error e, ⟨torn written d.files, fates⟩)
  | fates =>
    match done d.files with
    | .ok files => (.ok (), ⟨files, fates.tail⟩)
    | .error e => (.error e, ⟨d.files, fates.tail⟩)

/-- An operation is done, or it fails and leaves the files as they were or what is left of it. -/
theorem operation_cases {done : (κ → Option ByteArray) → Except FileError (κ → Option ByteArray)}
    {torn : Nat → (κ → Option ByteArray) → κ → Option ByteArray} {d d' : Shelf names}
    {r : Except FileError Unit} (h : operation done torn d = (r, d')) :
    (r = .ok () ∧ done d.files = .ok d'.files) ∨
      (∃ e, r = .error e) ∧ (d'.files = d.files ∨ ∃ written, d'.files = torn written d.files) := by
  unfold operation at h
  split at h
  · cases h
    exact .inr ⟨⟨_, rfl⟩, .inl rfl⟩
  · cases h
    exact .inr ⟨⟨_, rfl⟩, .inr ⟨_, rfl⟩⟩
  · split at h
    · rename_i files hdone
      cases h
      exact .inl ⟨rfl, hdone⟩
    · cases h
      exact .inr ⟨⟨_, rfl⟩, .inl rfl⟩

/-- An operation on files that do not fail is done. -/
theorem operation_done {done : (κ → Option ByteArray) → Except FileError (κ → Option ByteArray)}
    {torn : Nat → (κ → Option ByteArray) → κ → Option ByteArray} {d : Shelf names}
    {files : κ → Option ByteArray} (hdone : done d.files = .ok files) (hfates : d.fates = []) :
    operation done torn d = (.ok (), ⟨files, []⟩) := by
  simp [operation, hfates, hdone]

def contents (d : Shelf names) (path : String) : Except FileError String :=
  match d.files (names path) with
  | none => .error .notFound
  | some bytes =>
    match String.fromUTF8? bytes with
    | some text => .ok text
    | none => .error (.other "stream did not contain valid UTF-8")

variable [DecidableEq κ]

def moved (source target : κ) (files : κ → Option ByteArray) :
    Except FileError (κ → Option ByteArray) :=
  match files source with
  | none => .error .notFound
  | some bytes => .ok (Function.update (Function.update files source none) target (some bytes))

instance : Files (StateM (Shelf names)) where
  read path := fun d => (d.contents path, d)
  isFile path := fun d => ((d.files (names path)).isSome, d)
  createDirs _ := operation .ok fun _ files => files
  write path text :=
    operation (fun files => .ok (Function.update files (names path) (some text.toUTF8)))
      fun written files =>
        Function.update files (names path) (some (text.toUTF8.extract 0 written))
  rename source target := operation (moved (names source) (names target)) fun _ files => files

/-! ### What operations come to -/

variable {d d' : Shelf names} {path text : String} {l : κ} {r : Except FileError Unit}

/-- Writing leaves the other files alone. -/
theorem write_cases (hl : l ≠ names path) (h : (Files.write path text : StateM _ _) d = (r, d')) :
    d'.files l = d.files l ∧ (r = .ok () → d'.files (names path) = some text.toUTF8) := by
  rcases operation_cases h with ⟨-, hfiles⟩ | ⟨⟨e, rfl⟩, hfiles | ⟨written, hfiles⟩⟩
  · obtain hfiles := (Except.ok.inj hfiles).symm
    rw [hfiles, Function.update_of_ne hl, Function.update_self]
    exact ⟨rfl, fun _ => rfl⟩
  · rw [hfiles]
    exact ⟨rfl, nofun⟩
  · rw [hfiles, Function.update_of_ne hl]
    exact ⟨rfl, nofun⟩

theorem moved_update (files : κ → Option ByteArray) (source target : κ) (bytes : ByteArray) :
    moved source target (Function.update files source (some bytes)) = .ok (Function.update
      (Function.update (Function.update files source (some bytes)) source none) target
        (some bytes)) := by
  rw [moved, Function.update_self]

/-- A file takes the place of another one as a whole, or else stays where it is. -/
theorem rename_cases {source target : String}
    (h : (Files.rename source target : StateM _ _) d = (r, d')) :
    (r = .ok () ∧ d'.files (names target) = d.files (names source)) ∨
      (∃ e, r = .error e) ∧ d'.files = d.files := by
  rcases operation_cases h with ⟨rfl, hmoved⟩ | ⟨he, hfiles | ⟨-, hfiles⟩⟩
  · unfold moved at hmoved
    split at hmoved
    · cases hmoved
    · rename_i bytes hbytes
      rw [← Except.ok.inj hmoved, Function.update_self, hbytes]
      exact .inl ⟨rfl, rfl⟩
  · exact .inr ⟨he, hfiles⟩
  · exact .inr ⟨he, hfiles⟩

theorem createParent_files (h : (FileStore.persist.createParent path : StateM _ _) d = (r, d')) :
    d'.files = d.files := by
  rw [FileStore.persist.createParent] at h
  cases hparent : Path.parent? path with
  | none =>
      rw [hparent] at h
      cases h
      rfl
  | some parent =>
      rw [hparent] at h
      rcases operation_cases h with ⟨-, hfiles⟩ | ⟨-, hfiles | ⟨-, hfiles⟩⟩
      · exact (Except.ok.inj hfiles).symm
      · exact hfiles
      · exact hfiles

end Shelf

namespace FileStore

variable {κ : Type} [DecidableEq κ] {names : String → κ} {d d' : Shelf names} {path : String}
  {entries : Entries}

/-! ## One text -/

theorem persist_eq (d : Shelf names) : (persist path entries : StateM (Shelf names) _) d =
    match (persist.createParent path : StateM (Shelf names) _) d with
    | (.error e, d) => (.error e, d)
    | (.ok (), d) =>
      match (Files.write (Path.withExtension path "tmp") (encode entries) :
        StateM (Shelf names) _) d with
      | (.error e, d) => (.error e, d)
      | (.ok (), d) =>
        (Files.rename (Path.withExtension path "tmp") path : StateM (Shelf names) _) d := by
  simp only [persist, replaceFile, bind, StateT.bind]
  rcases (persist.createParent path : StateM (Shelf names) _) d with ⟨e | ⟨⟩, d₁⟩
  · rfl
  · simp only [StateT.bind]
    rcases (Files.write (Path.withExtension path "tmp") (encode entries) :
      StateM (Shelf names) _) d₁ with ⟨e | ⟨⟩, d₂⟩ <;> rfl

/-- The file of a store is replaced by one with all texts, or else stays as it is. -/
theorem persist_cases (hapart : names (Path.withExtension path "tmp") ≠ names path)
    {r : Except FileError Unit} (h : (persist path entries : StateM _ _) d = (r, d')) :
    (r = .ok () ∧ d'.files (names path) = some (encode entries).toUTF8) ∨
      (∃ e, r = .error e) ∧ d'.files (names path) = d.files (names path) := by
  rw [persist_eq] at h
  rcases hparent : (persist.createParent path : StateM (Shelf names) _) d with ⟨e | ⟨⟩, d₁⟩
  all_goals
    have hfiles := Shelf.createParent_files hparent
    rw [hparent] at h
  · cases h
    exact .inr ⟨⟨e, rfl⟩, by rw [hfiles]⟩
  rcases hwrite : (Files.write (Path.withExtension path "tmp") (encode entries) :
    StateM (Shelf names) _) d₁ with ⟨e | ⟨⟩, d₂⟩
  all_goals
    obtain ⟨hfile, htemporary⟩ := Shelf.write_cases hapart.symm hwrite
    simp only [hwrite] at h
  · cases h
    exact .inr ⟨⟨e, rfl⟩, by rw [hfile, hfiles]⟩
  · rcases Shelf.rename_cases h with ⟨rfl, hmoved⟩ | ⟨he, hsame⟩
    · exact .inl ⟨rfl, hmoved.trans (htemporary rfl)⟩
    · exact .inr ⟨he, by rw [hsame, hfile, hfiles]⟩

/-- If nothing fails the file is replaced. -/
theorem persist_done (hfates : d.fates = []) :
    ∃ d', (persist path entries : StateM (Shelf names) _) d = (.ok (), d') ∧ d'.fates = [] := by
  have hparent : ∃ d₁ : Shelf names, (persist.createParent path : StateM (Shelf names) _) d =
      (.ok (), d₁) ∧ d₁.fates = [] := by
    rw [persist.createParent]
    cases Path.parent? path with
    | none => exact ⟨d, rfl, hfates⟩
    | some parent => exact ⟨_, Shelf.operation_done rfl hfates, rfl⟩
  obtain ⟨d₁, hparent, hfates₁⟩ := hparent
  rw [persist_eq, hparent]
  have hwrite : (Files.write (Path.withExtension path "tmp") (encode entries) :
      StateM (Shelf names) _) d₁ = (.ok (), ⟨_, []⟩) := Shelf.operation_done rfl hfates₁
  simp only [hwrite]
  have hmoved := Shelf.moved_update d₁.files (names (Path.withExtension path "tmp")) (names path)
    (encode entries).toUTF8
  exact ⟨_, Shelf.operation_done hmoved rfl, rfl⟩

/-! ### What is read back -/

theorem load_eq (path : String) (d : Shelf names) : (load path : StateM (Shelf names) _) d =
    (match d.contents path with
      | .ok contents =>
        match decode contents with
        | .ok entries => .ok ⟨path, entries⟩
        | .error e => .error (.parse e)
      | .error .notFound => .ok ⟨path, []⟩
      | .error e => .error (.io e), d) := by
  simp only [load, bind, StateT.bind, Files.read]
  rcases d.contents path with e | contents
  · cases e <;> rfl
  · simp only
    cases decode contents <;> rfl

/-- Only the file at the path counts. -/
theorem load_congr (h : d'.files (names path) = d.files (names path)) :
    ((load path : StateM (Shelf names) _) d').1 = ((load path : StateM (Shelf names) _) d).1 := by
  rw [load_eq, load_eq, Shelf.contents, Shelf.contents, h]

theorem load_encoded (hentries : InOrder entries)
    (h : d.files (names path) = some (encode entries).toUTF8) :
    ((load path : StateM (Shelf names) _) d).1 = .ok ⟨path, entries⟩ := by
  have hcontents : d.contents path = .ok (encode entries) := by
    have hvalid : String.fromUTF8? (encode entries).toUTF8 = some (encode entries) :=
      dif_pos (encode entries).isValidUTF8
    rw [Shelf.contents, h]
    simp only [hvalid]
  rw [load_eq, hcontents]
  simp only [decode_encode, sortedByName_eq hentries]

theorem load_eq_ok {s : FileStore} (h : ((load path : StateM (Shelf names) _) d).1 = .ok s) :
    s.path = path ∧ InOrder s.entries := by
  rw [load_eq] at h
  dsimp only at h
  split at h
  · split at h
    · rename_i entries hdecode
      cases h
      exact ⟨rfl, inOrder_decode hdecode⟩
    · cases h
  · cases h
    exact ⟨rfl, List.Pairwise.nil⟩
  · cases h

/-! ## Many texts -/

/-- Keeps texts one after the other, and tells what was answered to each. -/
def setAll {m : Type → Type} [Monad m] [Files m] :
    List (String × String) → FileStore → m (List (Except StoreError Unit) × FileStore)
  | [], s => return ([], s)
  | (key, text) :: calls, s => do
    let (answer, s) ← s.set key text
    let (answers, s) ← setAll calls s
    return (answer :: answers, s)

/-- The text that was kept last under a key without an error, or else the one there was before. -/
def lastKept (key : String) (before : Option String) :
    List ((String × String) × Except StoreError Unit) → Option String
  | [] => before
  | ((k, text), .ok ()) :: rest => lastKept key (if key = k then some text else before) rest
  | (_, .error _) :: rest => lastKept key before rest

/-- A store as it would be read back from its file. -/
structure Mirrors (path : String) (s : FileStore) (d : Shelf names) : Prop where
  atPath : s.path = path
  inOrder : InOrder s.entries
  readBack : ((load path : StateM (Shelf names) _) d).1 = .ok s

variable {s s' : FileStore} {key text : String} {answer : Except StoreError Unit}

theorem set_eq (s : FileStore) (key text : String) (d : Shelf names) :
    (s.set key text : StateM (Shelf names) _) d =
      if s.entries.lookup key = some text then ((.ok (), s), d)
      else match (persist s.path (putSorted key text s.entries) : StateM (Shelf names) _) d with
        | (.ok (), d) => ((.ok (), { s with entries := putSorted key text s.entries }), d)
        | (.error e, d) => ((.error (.io e), s), d) := by
  unfold set
  split
  · rfl
  · simp only [bind, StateT.bind]
    rcases (persist s.path (putSorted key text s.entries) : StateM (Shelf names) _) d with
      ⟨e | ⟨⟩, d₁⟩ <;> rfl

/-- A text that is not kept leaves the store and its file as they were. -/
theorem set_refused (hapart : names (Path.withExtension path "tmp") ≠ names path)
    (hs : s.path = path) (h : (s.set key text : StateM (Shelf names) _) d = ((answer, s'), d'))
    (hanswer : answer ≠ .ok ()) : s' = s ∧ d'.files (names path) = d.files (names path) := by
  subst hs
  rw [set_eq] at h
  split at h
  · cases h
    exact absurd rfl hanswer
  · rcases hpersist : (persist s.path (putSorted key text s.entries) : StateM (Shelf names) _) d
      with ⟨e | ⟨⟩, d₁⟩
    all_goals
      simp only [hpersist] at h
      cases h
    · rcases persist_cases hapart hpersist with ⟨hr, -⟩ | ⟨-, hsame⟩
      · cases hr
      · exact ⟨rfl, hsame⟩
    · exact absurd rfl hanswer

/-- A text that is kept is found, and so are the others that there were. -/
theorem lookup_set (h : (s.set key text : StateM (Shelf names) _) d = ((.ok (), s'), d'))
    (other : String) :
    s'.entries.lookup other = if other = key then some text else s.entries.lookup other := by
  rw [set_eq] at h
  split at h
  · rename_i hthere
    cases h
    split
    · rename_i heq
      rw [heq, hthere]
    · rfl
  · rcases hpersist : (persist s.path (putSorted key text s.entries) : StateM (Shelf names) _) d
      with ⟨e | ⟨⟩, d₁⟩
    all_goals
      simp only [hpersist] at h
      cases h
    exact lookup_putSorted key other text s.entries

/-- Whether it is kept or not, the file still holds what the store remembers. -/
theorem Mirrors.set (hapart : names (Path.withExtension path "tmp") ≠ names path)
    (hs : Mirrors path s d)
    (h : (s.set key text : StateM (Shelf names) _) d = ((answer, s'), d')) :
    Mirrors path s' d' := by
  by_cases hanswer : answer = .ok ()
  · obtain rfl := hs.atPath
    subst hanswer
    rw [set_eq] at h
    split at h
    · cases h
      exact hs
    · rcases hpersist : (persist s.path (putSorted key text s.entries) : StateM (Shelf names) _) d
        with ⟨e | ⟨⟩, d₁⟩
      all_goals
        simp only [hpersist] at h
        cases h
      rcases persist_cases hapart hpersist with ⟨-, hfile⟩ | ⟨⟨e, he⟩, -⟩
      · have hentries := hs.inOrder.putSorted key text
        exact ⟨rfl, hentries, load_encoded hentries hfile⟩
      · cases he
  · obtain ⟨rfl, hsame⟩ := set_refused hapart hs.atPath h hanswer
    exact ⟨hs.atPath, hs.inOrder, (load_congr hsame).trans hs.readBack⟩

theorem set_done (s : FileStore) (key text : String) (hfates : d.fates = []) :
    ∃ s' d', (s.set key text : StateM (Shelf names) _) d = ((.ok (), s'), d') ∧ d'.fates = [] := by
  rw [set_eq]
  split
  · exact ⟨s, d, rfl, hfates⟩
  · obtain ⟨d₁, hpersist, hfates₁⟩ :=
      persist_done hfates
    rw [hpersist]
    exact ⟨_, d₁, rfl, hfates₁⟩

theorem setAll_cons (key text : String) (calls : List (String × String)) (s : FileStore)
    (d : Shelf names) : (setAll ((key, text) :: calls) s : StateM (Shelf names) _) d =
      match (s.set key text : StateM (Shelf names) _) d with
      | ((answer, s), d) => match (setAll calls s : StateM (Shelf names) _) d with
        | ((answers, s), d) => ((answer :: answers, s), d) := rfl

/-- Over many texts the store keeps to its file, and to each key belongs the text kept last. -/
theorem setAll_mirrors (hapart : names (Path.withExtension path "tmp") ≠ names path)
    (calls : List (String × String)) (hs : Mirrors path s d)
    {answers : List (Except StoreError Unit)}
    (h : (setAll calls s : StateM (Shelf names) _) d = ((answers, s'), d')) :
    Mirrors path s' d' ∧ answers.length = calls.length ∧
      (∀ key, s'.entries.lookup key =
        lastKept key (s.entries.lookup key) (calls.zip answers)) ∧
      (d.fates = [] → ∀ answer ∈ answers, answer = .ok ()) := by
  induction calls generalizing s d answers with
  | nil =>
      cases h
      exact ⟨hs, rfl, fun _ => rfl, fun _ => nofun⟩
  | cons call calls ih =>
      obtain ⟨key, text⟩ := call
      rw [setAll_cons] at h
      rcases hset : (s.set key text : StateM (Shelf names) _) d with ⟨⟨answer, s₁⟩, d₁⟩
      rcases hrest : (setAll calls s₁ : StateM (Shelf names) _) d₁ with ⟨⟨answers, s₂⟩, d₂⟩
      simp only [hset, hrest] at h
      cases h
      obtain ⟨hmirrors, hlength, hlookup, hdone⟩ := ih (hs.set hapart hset) hrest
      refine ⟨hmirrors, congrArg Nat.succ hlength, fun other => ?_, fun hfates => ?_⟩
      · rw [hlookup other, List.zip_cons_cons]
        rcases answer with e | ⟨⟩
        · rw [lastKept, (set_refused hapart hs.atPath hset nofun).1]
        · rw [lastKept, lookup_set hset other]
      · obtain ⟨s₃, d₃, hset', hfates₁⟩ := set_done s key text hfates
        rw [hset] at hset'
        cases hset'
        exact List.forall_mem_cons.mpr ⟨rfl, hdone hfates₁⟩

/-- Whatever fails, a store that was read from a file and keeps texts remembers under each key what
was kept there last without an error, and reading the file again gives this very store. If nothing
fails, nothing is answered with an error. A text that is not kept afterwards changes neither the store
nor its file. For this the temporary file has to be another one than that of the store. -/
theorem load_setAll (hapart : names (Path.withExtension path "tmp") ≠ names path)
    (hload : ((load path : StateM (Shelf names) _) d).1 = .ok s)
    (calls : List (String × String)) :
    ∃ answers s' d', (setAll calls s : StateM (Shelf names) _) d = ((answers, s'), d') ∧
      answers.length = calls.length ∧
      (∀ key, (Store.get s' key : StateM (Shelf names) _) d' =
        (.ok (lastKept key (s.entries.lookup key) (calls.zip answers)), d')) ∧
      ((load path : StateM (Shelf names) _) d').1 = .ok s' ∧
      (d.fates = [] → ∀ answer ∈ answers, answer = .ok ()) ∧
      ∀ key text answer s'' d'', (s'.set key text : StateM (Shelf names) _) d' =
        ((answer, s''), d'') → answer ≠ .ok () →
          s'' = s' ∧ d''.files (names path) = d'.files (names path) := by
  obtain ⟨hpath, hinOrder⟩ := load_eq_ok hload
  rcases h : (setAll calls s : StateM (Shelf names) _) d with ⟨⟨answers, s'⟩, d'⟩
  obtain ⟨hmirrors, hlength, hlookup, hdone⟩ :=
    setAll_mirrors hapart calls ⟨hpath, hinOrder, hload⟩ h
  refine ⟨answers, s', d', rfl, hlength, fun key => ?_, hmirrors.readBack, hdone, ?_⟩
  · rw [← hlookup key]
    rfl
  · intro key text answer s'' d'' hset hanswer
    exact set_refused hapart hmirrors.atPath hset hanswer

/-- The second of three texts stops behind three bytes. -/
theorem load_setAll_torn :
    let d : Shelf (id : String → String) :=
      ⟨fun _ => none, [.done, .done, .done, .done, .torn (.other "No space left on device") 3]⟩
    id (Path.withExtension "a.b" "tmp") ≠ id "a.b" ∧
      ((load "a.b" : StateM (Shelf id) _) d).1 = .ok ⟨"a.b", []⟩ ∧
      ∃ s' d', (setAll [("input", "1"), ("input", "2"), ("grammar", "G")] ⟨"a.b", []⟩ :
          StateM (Shelf id) _) d =
        (([.ok (), .error (.io (.other "No space left on device")), .ok ()], s'), d') ∧
        (Store.get s' "input" : StateM (Shelf id) _) d' = (.ok (some "1"), d') ∧
        ((load "a.b" : StateM (Shelf id) _) d').1 = .ok s' := by
  intro d
  have hextension : Path.withExtension "a.b" "tmp" = "a.tmp" := by cbv
  have hparent : Path.parent? "a.b" = some "" := by cbv
  have hapart : id (Path.withExtension "a.b" "tmp") ≠ id "a.b" := by
    rw [hextension]
    decide
  have hload : ((load "a.b" : StateM (Shelf id) _) d).1 = .ok ⟨"a.b", []⟩ := by
    simp [load_eq, Shelf.contents, d]
  have hanswers : ((setAll [("input", "1"), ("input", "2"), ("grammar", "G")] ⟨"a.b", []⟩ :
      StateM (Shelf id) _) d).1.1 =
        [.ok (), .error (.io (.other "No space left on device")), .ok ()] := by
    simp [setAll, bind, StateT.bind, set_eq, persist_eq, hparent, hextension, persist.createParent,
      Files.createDirs, Files.write, Files.rename, pure, StateT.pure, Shelf.operation, Shelf.moved,
      putSorted, d]
  obtain ⟨answers, s', d', hset, -, hget, hback, -⟩ := load_setAll hapart hload
    [("input", "1"), ("input", "2"), ("grammar", "G")]
  rw [hset] at hanswers
  obtain rfl := hanswers
  exact ⟨hapart, hload, s', d', hset, hget "input", hback⟩

end FileStore

end Pegboard
