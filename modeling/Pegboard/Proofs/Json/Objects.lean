import Pegboard.Proofs.Sorted
import Mathlib.Tactic.Common

/-!
# Objects of texts are read as they are written

A store writes its texts as one object over several lines, and reads them back with a reader that
admits any object of texts. `Reader.Takes` says what a reader takes off a source, at whatever place of
it, and answers; it goes through the reader piece by piece, as the object was written.

Main statement: `decode_encode`.
-/

namespace Pegboard

namespace Json

/-! ## Strings -/

/-- A quoted character is read as that character. -/
theorem stringFrom_quoteChar (c : Char) (out : List Char) (a : At) (rest : List Char) :
    ∃ a', stringFrom true none out a (Text.quoteChar c ++ rest) =
      stringFrom true none (c :: out) a' rest := by
  unfold Text.quoteChar
  split
  case h_8 hquote hslash _ _ _ _ _ =>
    split
    · rename_i hlt
      have hsecond : isSecondHalf c.toNat = false := by simp [isSecondHalf]; omega
      have hfirst : isFirstHalf c.toNat = false := by simp [isFirstHalf]; omega
      refine ⟨['0', '0', Text.hexDigit (c.toNat / 16), Text.hexDigit (c.toNat % 16)].foldl At.next
        ((a.next '\\').next 'u'), ?_⟩
      simp only [List.cons_append, List.nil_append]
      rw [stringFrom]
      have hnumber := Text.hexNumber?_hexDigit (show c.toNat < 0x100 by omega)
      simp [hnumber, takeUnit, hsecond, hfirst, endHalf]
    · rename_i hge
      refine ⟨a.next c, ?_⟩
      rw [List.singleton_append, stringFrom]
      · simp [show c ≠ '"' from hquote, hge, endHalf]
      all_goals simp [show c ≠ '\\' from hslash]
  all_goals exact ⟨_, rfl⟩

theorem stringFrom_quoted (cs out : List Char) (a : At) (rest : List Char) :
    ∃ a', stringFrom true none out a (cs.flatMap Text.quoteChar ++ '"' :: rest) =
      .ok (String.ofList (out.reverse ++ cs), ⟨rest, a'⟩) := by
  induction cs generalizing out a with
  | nil => exact ⟨a.next '"', by simp [stringFrom, endHalf]⟩
  | cons c cs ih =>
      obtain ⟨a₁, hc⟩ := stringFrom_quoteChar c out a (cs.flatMap Text.quoteChar ++ '"' :: rest)
      obtain ⟨a₂, hcs⟩ := ih (c :: out) a₁
      exact ⟨a₂, by rw [List.flatMap_cons, List.append_assoc, hc, hcs]; simp⟩

/-! ## Readers -/

namespace Reader

/-- Wherever the characters stand before the rest, the reader takes them off and answers with this. -/
def Takes {α : Type} (r : Reader α) (front rest : List Char) (a : α) : Prop :=
  ∀ place, ∃ place', StateT.run r ⟨front ++ rest, place⟩ = .ok (a, ⟨rest, place'⟩)

namespace Takes

variable {α β : Type} {r : Reader α} {k : α → Reader β} {u v w blanks rest : List Char}
  {a : α} {b : β} {c : Char}

theorem pure (a : α) (rest : List Char) : Takes (Pure.pure a) [] rest a :=
  fun place => ⟨place, rfl⟩

theorem bind (h : r.Takes u (v ++ w) a) (h' : (k a).Takes v w b) :
    (r >>= k).Takes (u ++ v) w b := by
  intro place
  obtain ⟨place₁, hr⟩ := h place
  obtain ⟨place₂, hk⟩ := h' place₁
  refine ⟨place₂, ?_⟩
  rw [List.append_assoc, StateT.run_bind, hr]
  exact hk

/-- A reader that answers once it has seen what comes next. -/
theorem bind_pure (h : r.Takes u w a) (h' : (k a).Takes [] w b) : (r >>= k).Takes u w b := by
  rw [← List.append_nil u]
  exact h.bind h'

/-- A reader that goes on from the source itself. -/
theorem get_bind {k : Source → Reader β}
    (h : ∀ place, (k ⟨u ++ w, place⟩).Takes u w b) : (get >>= k).Takes u w b :=
  fun place => h place place

theorem skip (c : Char) (rest : List Char) : Takes Reader.skip [c] rest () :=
  fun place => ⟨place.next c, rfl⟩

theorem peekPastBlanks? (hblanks : ∀ c ∈ blanks, isBlank c = true)
    (hrest : ∀ c, rest.head? = some c → isBlank c = false) :
    Takes Reader.peekPastBlanks? blanks rest rest.head? := by
  have htake : rest.takeWhile isBlank = [] := by
    cases rest with
    | nil => rfl
    | cons c rest => simp [hrest c rfl]
  have hdrop : rest.dropWhile isBlank = rest := by
    cases rest with
    | nil => rfl
    | cons c rest => simp [hrest c rfl]
  intro place
  refine ⟨blanks.foldl At.next place, ?_⟩
  have hall : (blanks ++ rest).takeWhile isBlank = blanks := by
    rw [List.takeWhile_append_of_pos hblanks, htake, List.append_nil]
  have hleft : (blanks ++ rest).dropWhile isBlank = rest := by
    rw [List.dropWhile_append_of_pos hblanks, hdrop]
  show Except.ok (((blanks ++ rest).dropWhile isBlank).head?, (⟨(blanks ++ rest).dropWhile isBlank,
    ((blanks ++ rest).takeWhile isBlank).foldl At.next place⟩ : Source)) = _
  rw [hall, hleft]

theorem peekValue (hblanks : ∀ c ∈ blanks, isBlank c = true) (hc : isBlank c = false) :
    Takes Reader.peekValue blanks (c :: rest) c := by
  have hpeek : Takes Reader.peekPastBlanks? blanks (c :: rest) (some c) :=
    .peekPastBlanks? hblanks fun d hd => Option.some.inj hd ▸ hc
  exact hpeek.bind_pure (.pure c (c :: rest))

theorem colon (rest : List Char) : Takes Reader.colon [':'] rest () := by
  have hpeek : Takes Reader.peekPastBlanks? [] (':' :: rest) (some ':') :=
    .peekPastBlanks? (List.forall_mem_nil _) fun d hd => Option.some.inj hd ▸ by decide
  refine hpeek.bind (v := [':']) ?_
  rw [if_pos rfl]
  exact .skip ':' rest

theorem string (s : String) (rest : List Char) :
    Takes (Reader.string true) (Text.quoteChars s.toList) rest s := by
  intro place
  obtain ⟨place', h⟩ := stringFrom_quoted s.toList [] (place.next '"') rest
  refine ⟨place', ?_⟩
  show stringFrom true none [] (place.next '"')
    (s.toList.flatMap Text.quoteChar ++ ['"'] ++ rest) = _
  rw [List.append_assoc, List.singleton_append, h]
  simp

theorem text (wanted s : String) (hblanks : ∀ c ∈ blanks, isBlank c = true) (rest : List Char) :
    Takes (Reader.text wanted) (blanks ++ Text.quoteChars s.toList) rest s := by
  refine (peekValue hblanks (by decide : isBlank '"' = false)).bind ?_
  rw [if_pos rfl]
  exact .string s rest

/-! ### Fields -/

theorem firstKey (hblanks : ∀ c ∈ blanks, isBlank c = true) :
    Takes (Reader.keyComes true) blanks ('"' :: rest) true := by
  have hpeek : Takes Reader.peekPastBlanks? blanks ('"' :: rest) (some '"') :=
    .peekPastBlanks? hblanks fun d hd => Option.some.inj hd ▸ by decide
  exact hpeek.bind_pure (.pure true ('"' :: rest))

theorem nextKey (hblanks : ∀ c ∈ blanks, isBlank c = true) :
    Takes (Reader.keyComes false) (',' :: blanks) ('"' :: rest) true := by
  have hcomma : Takes Reader.peekPastBlanks? [] (',' :: blanks ++ '"' :: rest) (some ',') :=
    .peekPastBlanks? (List.forall_mem_nil _) fun d hd => Option.some.inj hd ▸ by decide
  have hquote : Takes Reader.peekPastBlanks? blanks ('"' :: rest) (some '"') :=
    .peekPastBlanks? hblanks fun d hd => Option.some.inj hd ▸ by decide
  refine hcomma.bind (v := ',' :: blanks) ?_
  refine (Takes.skip ',' (blanks ++ '"' :: rest)).bind ?_
  exact hquote.bind_pure (.pure true ('"' :: rest))

theorem noKey (isFirst : Bool) (hblanks : ∀ c ∈ blanks, isBlank c = true) :
    Takes (Reader.keyComes isFirst) blanks ('\x7d' :: rest) false := by
  have hpeek : Takes Reader.peekPastBlanks? blanks ('\x7d' :: rest) (some '\x7d') :=
    .peekPastBlanks? hblanks fun d hd => Option.some.inj hd ▸ by decide
  exact hpeek.bind_pure (.pure false ('\x7d' :: rest))

end Takes

end Reader

/-! ## Objects of texts -/

/-- A field of an object of texts. -/
def fieldChars (key text : String) : List Char :=
  Text.quoteChars key.toList ++ ':' :: ' ' :: Text.quoteChars text.toList

/-- The fields behind the first one, each on a line of its own. -/
def fieldsChars (entries : Entries) : List Char :=
  entries.flatMap fun (key, text) => [',', '\n', ' ', ' '] ++ fieldChars key text

theorem length_le_fieldsChars (entries : Entries) :
    entries.length ≤ (fieldsChars entries).length := by
  induction entries with
  | nil => exact Nat.zero_le _
  | cons entry entries ih =>
      rw [fieldsChars, List.flatMap_cons, List.length_append, List.length_cons]
      exact Nat.add_comm 1 _ ▸ Nat.add_le_add (by simp) ih

theorem toList_newLine (out : String) (level : Nat) :
    (newLine out level).toList = out.toList ++ '\n' :: List.replicate (2 * level) ' ' := by
  have pushed (s : String) (n : Nat) : (s.pushn ' ' n).toList = s.toList ++ List.replicate n ' ' := by
    rw [String.pushn_eq_repeat_push]
    induction n with
    | zero => simp [Nat.repeat]
    | succ n ih => rw [Nat.repeat, String.toList_push, ih, List.replicate_succ', List.append_assoc]
  rw [newLine, pushed, String.toList_push, List.append_assoc, List.singleton_append]

theorem toList_quote (s : String) : (Text.quote s).toList = Text.quoteChars s.toList := by
  rw [Text.quote, String.toList_ofList]

theorem toList_prettyFields (out : String) (entries : Entries) :
    (prettyFields 1 out (entries.map fun (key, text) => (key, .str text))).toList =
      out.toList ++ fieldsChars entries := by
  induction entries generalizing out with
  | nil => simp [prettyFields, fieldsChars]
  | cons entry entries ih =>
      obtain ⟨key, text⟩ := entry
      rw [List.map_cons, prettyFields, ih]
      simp [prettyOnto, atom, toList_newLine, toList_quote, fieldsChars, fieldChars]

theorem toList_encode (key text : String) (entries : Entries) :
    (FileStore.encode ((key, text) :: entries)).toList =
      '\x7b' :: (['\n', ' ', ' '] ++ fieldChars key text ++ fieldsChars entries ++ ['\n', '\x7d']) := by
  rw [FileStore.encode, List.map_cons, pretty, prettyOnto, descend_eq, String.toList_append,
    toList_newLine, toList_prettyFields]
  simp [prettyOnto, atom, toList_newLine, toList_quote, fieldChars]

namespace Reader.Takes

variable {u v w : List Char}

theorem field {isFirst : Bool} {wanted : String} {n : Nat}
    {values values' : Entries} (key text : String)
    (hkey : (keyComes isFirst).Takes u (fieldChars key text ++ v ++ w) true)
    (hmore : (valuesFrom (Reader.text wanted) n false (putSorted key text values)).Takes v w
      values') :
    (valuesFrom (Reader.text wanted) (n + 1) isFirst values).Takes
      (u ++ (fieldChars key text ++ v)) w values' := by
  rw [valuesFrom]
  refine hkey.bind ?_
  rw [if_pos rfl, fieldChars, List.append_assoc]
  refine (Takes.string key _).bind ?_
  refine (Takes.colon _).bind (v := [' '] ++ Text.quoteChars text.toList ++ v) ?_
  have hblank : ∀ c ∈ [' '], isBlank c = true := by simp [isBlank]
  exact (Takes.text wanted text hblank _).bind hmore

theorem fields (wanted : String) (entries : Entries) (values : Entries) {n : Nat}
    (hn : entries.length < n) :
    (valuesFrom (Reader.text wanted) n false values).Takes (fieldsChars entries ++ ['\n', '\x7d'])
      w (entries.foldl (fun sorted (name, value) => putSorted name value sorted) values) := by
  induction entries generalizing n values with
  | nil =>
      obtain ⟨n, rfl⟩ := Nat.exists_eq_add_one_of_ne_zero (Nat.ne_zero_of_lt hn)
      rw [valuesFrom]
      refine (Takes.noKey false (by simp [isBlank] : ∀ c ∈ ['\n'], isBlank c = true)).bind
        (v := ['\x7d']) ?_
      rw [if_neg Bool.false_ne_true]
      exact (Takes.skip '\x7d' w).bind_pure (.pure values w)
  | cons entry entries ih =>
      obtain ⟨key, text⟩ := entry
      obtain ⟨n, rfl⟩ := Nat.exists_eq_add_one_of_ne_zero (Nat.ne_zero_of_lt hn)
      have hblanks : ∀ c ∈ ['\n', ' ', ' '], isBlank c = true := by simp [isBlank]
      have hfield := field (v := fieldsChars entries ++ ['\n', '\x7d']) key text
        (.nextKey hblanks) (ih (putSorted key text values) (Nat.lt_of_succ_lt_succ hn))
      simpa [fieldsChars] using hfield

/-- The whole object, at the end of a text. -/
theorem values (wanted : String) (entries : Entries) :
    (Reader.values (Reader.text wanted)).Takes (FileStore.encode entries).toList []
      (sortedByName entries) := by
  rw [Reader.values]
  cases entries with
  | nil =>
      refine (Takes.peekValue (List.forall_mem_nil _) (by decide : isBlank '\x7b' = false)).bind
        (v := ['\x7b', '\x7d']) ?_
      rw [if_pos rfl]
      refine (Takes.skip '\x7b' ['\x7d']).bind (v := ['\x7d']) (.get_bind fun place => ?_)
      rw [valuesFrom]
      refine (Takes.noKey true (List.forall_mem_nil _)).bind (v := ['\x7d']) ?_
      rw [if_neg Bool.false_ne_true]
      exact (Takes.skip '\x7d' []).bind_pure (.pure [] [])
  | cons entry entries =>
      obtain ⟨key, text⟩ := entry
      rw [toList_encode]
      generalize hbody : ['\n', ' ', ' '] ++ fieldChars key text ++ fieldsChars entries ++
        ['\n', '\x7d'] = body
      refine (Takes.peekValue (List.forall_mem_nil _) (by decide : isBlank '\x7b' = false)).bind
        (v := '\x7b' :: body) ?_
      rw [if_pos rfl]
      refine (Takes.skip '\x7b' (body ++ [])).bind (v := body) (.get_bind fun place => ?_)
      have hblanks : ∀ c ∈ ['\n', ' ', ' '], isBlank c = true := by simp [isBlank]
      have hlength : entries.length < (body ++ []).length := by
        have hle := length_le_fieldsChars entries
        simp only [← hbody, List.length_append, List.length_cons]
        omega
      have hfield := field (w := []) (v := fieldsChars entries ++ ['\n', '\x7d']) key text
        (.firstKey hblanks) (fields wanted entries (putSorted key text []) hlength)
      simpa [← hbody, sortedByName] using hfield

end Reader.Takes

theorem Reader.Takes.run {α : Type} {r : Reader α} {text : String} {a : α}
    (h : r.Takes text.toList [] a) : Reader.run r text = .ok a := by
  have hend : Takes Reader.peekPastBlanks? [] [] none :=
    .peekPastBlanks? (List.forall_mem_nil _) nofun
  have hrun {whole : Reader α} (hwhole : whole.Takes text.toList [] a) :
      (StateT.run whole (.ofText text)).map Prod.fst = .ok a := by
    obtain ⟨place, hr⟩ := hwhole ⟨1, 0⟩
    rw [List.append_nil] at hr
    rw [Source.ofText, hr]
    rfl
  exact hrun (h.bind_pure (Takes.bind_pure hend (.pure a [])))

/-! ### The order of what is read -/

namespace Reader

variable {α β : Type} {s s' : Source}

theorem run_bind_eq_ok {r : Reader α} {k : α → Reader β} {b : β}
    (h : StateT.run (r >>= k) s = .ok (b, s')) :
    ∃ a s₁, StateT.run r s = .ok (a, s₁) ∧ StateT.run (k a) s₁ = .ok (b, s') := by
  rw [StateT.run_bind] at h
  cases hr : StateT.run r s with
  | error e =>
      rw [hr] at h
      cases h
  | ok result =>
      rw [hr] at h
      exact ⟨result.1, result.2, rfl, h⟩

theorem run_eq_ok {r : Reader α} {text : String} {a : α} (h : Reader.run r text = .ok a) :
    ∃ s, StateT.run r (.ofText text) = .ok (a, s) := by
  unfold Reader.run at h
  dsimp only at h
  generalize hrun : StateT.run _ (Source.ofText text) = result at h
  cases result with
  | error e => cases h
  | ok result =>
      obtain ⟨a', s₁, hr, hend⟩ := run_bind_eq_ok hrun
      obtain ⟨c?, s₂, -, hend⟩ := run_bind_eq_ok hend
      cases c? with
      | none =>
          cases hend
          cases h
          exact ⟨s₁, hr⟩
      | some c => cases hend

theorem inOrder_valuesFrom {item : Reader α} {n : Nat} {isFirst : Bool}
    {values values' : List (String × α)} (hvalues : InOrder values)
    (h : StateT.run (valuesFrom item n isFirst values) s = .ok (values', s')) :
    InOrder values' := by
  induction n generalizing s isFirst values with
  | zero =>
      cases h
      exact hvalues
  | succ n ih =>
      rw [valuesFrom] at h
      obtain ⟨comes, s₁, -, h⟩ := run_bind_eq_ok h
      cases comes with
      | false =>
          obtain ⟨_, s₂, -, h⟩ := run_bind_eq_ok h
          cases h
          exact hvalues
      | true =>
          obtain ⟨key, s₂, -, h⟩ := run_bind_eq_ok h
          obtain ⟨_, s₃, -, h⟩ := run_bind_eq_ok h
          obtain ⟨value, s₄, -, h⟩ := run_bind_eq_ok h
          exact ih (hvalues.putSorted key value) h

theorem inOrder_values {item : Reader α} {values : List (String × α)}
    (h : StateT.run (Reader.values item) s = .ok (values, s')) : InOrder values := by
  obtain ⟨c, s₁, -, h⟩ := run_bind_eq_ok h
  split at h
  · obtain ⟨_, s₂, -, h⟩ := run_bind_eq_ok h
    obtain ⟨_, s₃, -, h⟩ := run_bind_eq_ok h
    exact inOrder_valuesFrom List.Pairwise.nil h
  · obtain ⟨_, s₂, -, h⟩ := run_bind_eq_ok h
    obtain ⟨_, s₃, -, h⟩ := run_bind_eq_ok h
    cases h

end Reader

end Json

namespace FileStore

open Json

/-- Texts are read as they were written, in the order of their keys. -/
theorem decode_encode (entries : Entries) : decode (encode entries) = .ok (sortedByName entries) :=
  Reader.Takes.run (.values "a string" entries)

theorem inOrder_decode {contents : String} {entries : Entries} (h : decode contents = .ok entries) :
    InOrder entries := by
  obtain ⟨s, hrun⟩ := Reader.run_eq_ok h
  exact Reader.inOrder_values hrun

end FileStore

end Pegboard
