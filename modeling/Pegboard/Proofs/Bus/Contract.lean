import Pegboard.Bus
import Pegboard.Event.Editor
import Pegboard.Event.Example
import Pegboard.Event.Semantics
import Mathlib.Data.List.Nodup
import Mathlib.Tactic.Common

/-!
# The contract of a bus

What a bus knows, and whom it tells, is decided by the calls that it answered without an error: by the
kinds that they registered and the handlers that they subscribed. `Has` says that a bus is as those
calls left it, which every call preserves (`Has.call`), and `Contract` what each further call then
comes to. A batch of kinds is checked as a whole before the first of them is registered, and since the
check is as strict as the registrations are, none of these is refused (`registerEach_eq`).

Main statement: `contract_after`.
-/

namespace Pegboard

/-- A category of events whose catalog has no name twice. -/
class LawfulEvent (ε : Type) [Event ε] : Prop where
  nodup_catalog : ((Event.catalog ε).map (·.name)).Nodup

instance : LawfulEvent EditorEvent := ⟨by decide⟩

instance : LawfulEvent ExampleEvent := ⟨by decide⟩

instance : LawfulEvent SemanticsEvent := ⟨by decide⟩

instance : LawfulEvent NamedEvent := ⟨List.nodup_nil⟩

namespace Bus

variable {ε σ : Type}

/-! ## Handlers one after the other -/

/-- The state that handlers leave which are told an event one after the other. -/
def told (e : ε) (hs : List (Handler ε σ)) (s : σ) : σ :=
  hs.foldl (fun s h => (h e s).2) s

/-- What each of them answers, in the state that those before it left. -/
def answers (e : ε) (hs : List (Handler ε σ)) (s : σ) : List (Except HandlerError Unit) :=
  List.zipWith (fun h s => (h e s).1) hs (hs.scanl (fun s h => (h e s).2) s)

/-- The errors among the answers. -/
def failures (answers : List (Except HandlerError Unit)) : List HandlerError :=
  answers.filterMap fun
    | .error failure => some failure
    | .ok () => none

theorem runAll_eq (e : ε) (hs : List (Handler ε σ)) (s : σ) :
    runAll e hs s = (failures (answers e hs s), told e hs s) := by
  induction hs generalizing s with
  | nil => rfl
  | cons h hs ih =>
      rw [runAll, answers, List.scanl_cons, List.zipWith_cons_cons, told, List.foldl_cons, ← told,
        ← answers]
      rcases h e s with ⟨failure | ⟨⟩, s'⟩
      · simp only [ih, failures, List.filterMap_cons]
      · simp only [ih, failures, List.filterMap_cons]

variable {b : Bus ε σ} {k : EventKind} {ks passed : List EventKind} {event : String}

/-! ## Names that are taken -/

theorem isRegistered_iff : b.isRegistered event = true ↔ event ∈ b.kinds.map (·.name) := by
  rw [isRegistered, kind?, List.find?_isSome, List.mem_map]
  simp only [beq_iff_eq]

theorem kind?_eq_none (h : event ∉ b.kinds.map (·.name)) : b.kind? event = none := by
  rw [← isRegistered_iff, isRegistered, Option.not_isSome_iff_eq_none] at h
  exact h

/-- Among kinds with distinct names each is found by its name. -/
theorem kind?_of_mem (hnodup : (b.kinds.map (·.name)).Nodup) (hk : k ∈ b.kinds) :
    b.kind? k.name = some k := by
  obtain ⟨k', hfound⟩ : ∃ k', b.kind? k.name = some k' :=
    Option.isSome_iff_exists.mp (isRegistered_iff.mpr (List.mem_map_of_mem hk))
  have hname : k'.name = k.name := by simpa using List.find?_some hfound
  have hmem : k' ∈ b.kinds := List.mem_of_find?_eq_some hfound
  rw [hfound, List.inj_on_of_nodup_map hnodup hmem hk hname]

theorem nodup_names_concat : ((ks ++ [k]).map (·.name)).Nodup ↔
    k.name ∉ ks.map (·.name) ∧ (ks.map (·.name)).Nodup := by
  rw [List.map_append, List.map_singleton, ← List.concat_eq_append, List.nodup_concat]

theorem taken?_cons (b : Bus ε σ) (passed : List EventKind) (k : EventKind) (ks : List EventKind) :
    b.taken? passed (k :: ks) = if k.name ∈ (b.kinds ++ passed).map (·.name) then some k
      else b.taken? (passed ++ [k]) ks := by
  have htaken : (b.isRegistered k.name || passed.any (·.name == k.name)) = true ↔
      k.name ∈ (b.kinds ++ passed).map (·.name) := by
    rw [Bool.or_eq_true, isRegistered_iff, List.map_append, List.mem_append, List.any_eq_true,
      List.mem_map (l := passed)]
    simp only [beq_iff_eq]
  rw [taken?]
  simp only [htaken]

/-- The check of a batch passes exactly if all names are distinct: of what is registered already, of
what was passed, and of what is still to come. -/
theorem taken?_eq_none_iff (h : ((b.kinds ++ passed).map (·.name)).Nodup) :
    b.taken? passed ks = none ↔ ((b.kinds ++ passed ++ ks).map (·.name)).Nodup := by
  induction ks generalizing passed with
  | nil => simpa [taken?] using h
  | cons k ks ih =>
      have hassoc : b.kinds ++ passed ++ k :: ks = b.kinds ++ (passed ++ [k]) ++ ks := by simp
      rw [taken?_cons, hassoc]
      by_cases hk : k.name ∈ (b.kinds ++ passed).map (·.name)
      · rw [if_pos hk]
        refine iff_of_false nofun fun hnodup => ?_
        rw [List.map_append, ← List.append_assoc] at hnodup
        exact (nodup_names_concat.mp hnodup.of_append_left).1 hk
      · rw [if_neg hk]
        refine ih ?_
        rw [← List.append_assoc]
        exact nodup_names_concat.mpr ⟨hk, h⟩

theorem taken?_eq_some (h : b.taken? passed ks = some k) :
    ∃ before behind, ks = before ++ k :: behind ∧
      k.name ∈ (b.kinds ++ passed ++ before).map (·.name) := by
  induction ks generalizing passed with
  | nil => cases h
  | cons k' ks ih =>
      rw [taken?_cons] at h
      split at h
      · obtain rfl := Option.some.inj h
        exact ⟨[], ks, rfl, by rwa [List.append_nil]⟩
      · obtain ⟨before, behind, rfl, hname⟩ := ih h
        exact ⟨k' :: before, behind, rfl, by simpa using hname⟩

/-- Kinds with distinct names that are new are all registered. -/
theorem registerEach_eq (h : ((b.kinds ++ ks).map (·.name)).Nodup) :
    b.registerEach ks = (.ok (), { b with kinds := b.kinds ++ ks }) := by
  induction ks generalizing b with
  | nil => simp [registerEach]
  | cons k ks ih =>
      rw [List.append_cons] at h
      have hk : ¬ b.isRegistered k.name = true := by
        rw [isRegistered_iff]
        rw [List.map_append] at h
        exact (nodup_names_concat.mp h.of_append_left).1
      rw [registerEach, Bus.register, if_neg hk]
      dsimp only
      rw [ih h, ← List.append_cons]

/-! ## Calls -/

/-- What a bus is asked. -/
inductive Call (ε σ : Type)
  | register (k : EventKind)
  | registerAll (ks : List EventKind)
  | on (event : String) (h : Handler ε σ)
  | emit (e : ε)

/-- A bus and the state that its handlers share. -/
abbrev Live (ε σ : Type) := Bus ε σ × σ

/-- The kinds that a call with this answer registered. -/
def registers : Call ε σ × Except BusError Unit → List EventKind
  | (.register k, .ok ()) => [k]
  | (.registerAll ks, .ok ()) => ks
  | _ => []

/-- The handlers that a call with this answer subscribed to an event. -/
def subscribes (event : String) : Call ε σ × Except BusError Unit → List (Handler ε σ)
  | (.on other h, .ok ()) => if other = event then [h] else []
  | _ => []

theorem handlersOf_on (b : Bus ε σ) (event other : String) (h : Handler ε σ) :
    ({ b with handlers := b.handlers ++ [(event, h)] } : Bus ε σ).handlersOf other =
      b.handlersOf other ++ if event = other then [h] else [] := by
  rw [handlersOf, List.filter_append, List.map_append, ← handlersOf]
  by_cases hevent : event = other <;> simp [hevent]

variable [Event ε] {e : ε}

/-- What a call answers, and what it leaves. -/
def call (x : Live ε σ) : Call ε σ → Except BusError Unit × Live ε σ
  | .register k =>
    match x.1.register k with
    | .ok b => (.ok (), b, x.2)
    | .error e => (.error e, x)
  | .registerAll ks => ((x.1.registerBatch ks).1, (x.1.registerBatch ks).2, x.2)
  | .on event h =>
    match x.1.on event h with
    | .ok b => (.ok (), b, x.2)
    | .error e => (.error e, x)
  | .emit e => ((x.1.emit e x.2).1, x.1, (x.1.emit e x.2).2)

def after (x : Live ε σ) (calls : List (Call ε σ)) : Live ε σ :=
  calls.foldl (fun x c => (call x c).2) x

/-- Calls made one after the other, each with its answer. -/
def answered (x : Live ε σ) : List (Call ε σ) → List (Call ε σ × Except BusError Unit)
  | [] => []
  | c :: calls => (c, (call x c).1) :: answered (call x c).2 calls

theorem emit_of_known (hk : b.kind? (Event.name e) = some k)
    (harity : k.params.length = Event.arity e) (s : σ) :
    let hs := b.handlersOf (Event.name e)
    b.emit e s = (if failures (answers e hs s) = [] then .ok ()
      else .error (.handlerFailed (Event.name e) (failures (answers e hs s))), told e hs s) := by
  intro hs
  rw [emit, hk]
  dsimp only
  rw [if_pos harity, runAll_eq]
  cases failures (answers e (b.handlersOf (Event.name e)) s) <;> rfl

/-- The bus has these kinds registered, with distinct names, and these handlers subscribed to each
event. -/
structure Has (x : Live ε σ) (kinds : List EventKind) (handlers : String → List (Handler ε σ)) :
    Prop where
  kinds_eq : x.1.kinds = kinds
  handlersOf_eq : ∀ event, x.1.handlersOf event = handlers event
  nodup : (kinds.map (·.name)).Nodup

namespace Has

variable {x : Live ε σ} {kinds : List EventKind} {handlers : String → List (Handler ε σ)}

theorem register (h : Has x kinds handlers) (k : EventKind) :
    call x (.register k) =
      if k.name ∈ kinds.map (·.name) then (.error (.alreadyRegistered k.name), x)
      else (.ok (), { x.1 with kinds := kinds ++ [k] }, x.2) := by
  obtain rfl := h.kinds_eq
  rw [Bus.call, Bus.register]
  by_cases hk : k.name ∈ x.1.kinds.map (·.name)
  · rw [if_pos (isRegistered_iff.mpr hk), if_pos hk]
  · rw [if_neg (mt isRegistered_iff.mp hk), if_neg hk]

theorem registerAll (h : Has x kinds handlers) (hks : ((kinds ++ ks).map (·.name)).Nodup) :
    call x (.registerAll ks) = (.ok (), { x.1 with kinds := kinds ++ ks }, x.2) := by
  obtain rfl := h.kinds_eq
  have hnone : x.1.taken? [] ks = none := by
    rw [taken?_eq_none_iff (by simpa using h.nodup)]
    simpa using hks
  have hbatch : x.1.registerBatch ks = (.ok (), { x.1 with kinds := x.1.kinds ++ ks }) := by
    rw [registerBatch, hnone]
    exact registerEach_eq hks
  rw [Bus.call, hbatch]

theorem registerAll_refused (h : Has x kinds handlers)
    (hks : ¬ ((kinds ++ ks).map (·.name)).Nodup) :
    ∃ before k behind, ks = before ++ k :: behind ∧ k.name ∈ (kinds ++ before).map (·.name) ∧
      call x (.registerAll ks) = (.error (.alreadyRegistered k.name), x) := by
  obtain rfl := h.kinds_eq
  have hsome : x.1.taken? [] ks ≠ none := by
    rw [Ne, taken?_eq_none_iff (by simpa using h.nodup)]
    simpa using hks
  obtain ⟨k, hk⟩ := Option.ne_none_iff_exists'.mp hsome
  obtain ⟨before, behind, rfl, hname⟩ := taken?_eq_some hk
  refine ⟨before, k, behind, rfl, by simpa using hname, ?_⟩
  rw [Bus.call, registerBatch, hk]

theorem on (h : Has x kinds handlers) (event : String) (handler : Handler ε σ) :
    call x (.on event handler) =
      if event ∈ kinds.map (·.name) then
        (.ok (), { x.1 with handlers := x.1.handlers ++ [(event, handler)] }, x.2)
      else (.error (.unregisteredEvent event), x) := by
  obtain rfl := h.kinds_eq
  rw [Bus.call, Bus.on]
  by_cases hevent : event ∈ x.1.kinds.map (·.name)
  · rw [if_pos (isRegistered_iff.mpr hevent), if_pos hevent]
  · rw [if_neg (mt isRegistered_iff.mp hevent), if_neg hevent]

theorem emit_unknown (h : Has x kinds handlers) (he : Event.name e ∉ kinds.map (·.name)) :
    call x (.emit e) = (.error (.unregisteredEvent (Event.name e)), x) := by
  obtain rfl := h.kinds_eq
  rw [Bus.call, emit, kind?_eq_none he]

theorem kind? (h : Has x kinds handlers) (hk : k ∈ kinds) (hname : k.name = Event.name e) :
    x.1.kind? (Event.name e) = some k := by
  obtain rfl := h.kinds_eq
  rw [← hname]
  exact kind?_of_mem h.nodup hk

theorem emit_mismatched (h : Has x kinds handlers) (hk : k ∈ kinds) (hname : k.name = Event.name e)
    (harity : k.params.length ≠ Event.arity e) :
    call x (.emit e) =
      (.error (.arityMismatch (Event.name e) k.params.length (Event.arity e)), x) := by
  rw [Bus.call, Bus.emit, h.kind? hk hname]
  simp only [if_neg harity]

theorem emit (h : Has x kinds handlers) (hk : k ∈ kinds) (hname : k.name = Event.name e)
    (harity : k.params.length = Event.arity e) :
    let hs := handlers (Event.name e)
    call x (.emit e) = (if failures (answers e hs x.2) = [] then .ok ()
      else .error (.handlerFailed (Event.name e) (failures (answers e hs x.2))),
      x.1, told e hs x.2) := by
  intro hs
  rw [Bus.call, emit_of_known (h.kind? hk hname) harity, h.handlersOf_eq]

/-- What a call adds to the kinds and the handlers is told by its answer. -/
theorem call (h : Has x kinds handlers) (c : Call ε σ) :
    Has (call x c).2 (kinds ++ registers (c, (call x c).1))
      fun event => handlers event ++ subscribes event (c, (call x c).1) := by
  have same : Has x (kinds ++ []) fun event => handlers event ++ [] := by
    simpa only [List.append_nil] using h
  cases c with
  | register k =>
      rw [h.register k]
      split
      · exact same
      · rename_i hk
        exact ⟨rfl, same.handlersOf_eq, nodup_names_concat.mpr ⟨hk, h.nodup⟩⟩
  | registerAll ks =>
      by_cases hks : ((kinds ++ ks).map (·.name)).Nodup
      · rw [h.registerAll hks]
        exact ⟨rfl, same.handlersOf_eq, hks⟩
      · obtain ⟨before, k, behind, -, -, hcall⟩ := h.registerAll_refused hks
        rw [hcall]
        exact same
  | on event handler =>
      rw [h.on event handler]
      split
      · refine ⟨same.kinds_eq, fun other => ?_, same.nodup⟩
        rw [handlersOf_on, h.handlersOf_eq]
        rfl
      · exact same
  | emit e =>
      exact ⟨same.kinds_eq, same.handlersOf_eq, same.nodup⟩

/-- What calls add to the kinds and the handlers is told by their answers. -/
theorem after (h : Has x kinds handlers) (calls : List (Call ε σ)) :
    Has (after x calls) (kinds ++ (answered x calls).flatMap registers)
      fun event => handlers event ++ (answered x calls).flatMap (subscribes event) := by
  induction calls generalizing x kinds handlers with
  | nil =>
      show Has x (kinds ++ []) fun event => handlers event ++ []
      simpa only [List.append_nil] using h
  | cons c calls ih =>
      have hrest := ih (h.call c)
      simp only [List.append_assoc] at hrest
      simp only [answered, List.flatMap_cons]
      exact hrest

end Has

/-- What any further call comes to where these kinds are registered and these handlers subscribed to
each event. -/
structure Contract (x : Live ε σ) (kinds : List EventKind)
    (handlers : String → List (Handler ε σ)) : Prop where
  kinds_eq : x.1.kinds = kinds
  nodup : x.1.eventNames.Nodup
  /-- A kind is registered unless its name is taken. -/
  register : ∀ k, call x (.register k) =
    if k.name ∈ x.1.eventNames then (.error (.alreadyRegistered k.name), x)
    else (.ok (), { x.1 with kinds := kinds ++ [k] }, x.2)
  /-- A batch is registered as a whole where all names are distinct. -/
  registerAll : ∀ ks, ((kinds ++ ks).map (·.name)).Nodup →
    call x (.registerAll ks) = (.ok (), { x.1 with kinds := kinds ++ ks }, x.2)
  /-- Where they are not, a name that is taken is told, and nothing is registered. -/
  registerAll_refused : ∀ ks, ¬ ((kinds ++ ks).map (·.name)).Nodup →
    ∃ before k behind, ks = before ++ k :: behind ∧ k.name ∈ (kinds ++ before).map (·.name) ∧
      call x (.registerAll ks) = (.error (.alreadyRegistered k.name), x)
  /-- A handler is subscribed to an event that is registered. -/
  on : ∀ event handler, call x (.on event handler) =
    if event ∈ x.1.eventNames then
      (.ok (), { x.1 with handlers := x.1.handlers ++ [(event, handler)] }, x.2)
    else (.error (.unregisteredEvent event), x)
  /-- An event that is not registered reaches no handler. -/
  emit_unknown : ∀ e, Event.name e ∉ x.1.eventNames →
    call x (.emit e) = (.error (.unregisteredEvent (Event.name e)), x)
  /-- Neither does one with another number of arguments. -/
  emit_mismatched : ∀ e, ∀ k ∈ kinds, k.name = Event.name e → k.params.length ≠ Event.arity e →
    call x (.emit e) = (.error (.arityMismatch (Event.name e) k.params.length (Event.arity e)), x)
  /-- Any other event is told to each of its handlers in order, whichever of them fail. -/
  emit : ∀ e, ∀ k ∈ kinds, k.name = Event.name e → k.params.length = Event.arity e →
    let hs := handlers (Event.name e)
    call x (.emit e) = (if failures (answers e hs x.2) = [] then .ok ()
      else .error (.handlerFailed (Event.name e) (failures (answers e hs x.2))),
      x.1, told e hs x.2)

theorem Has.contract {x : Live ε σ} {kinds : List EventKind}
    {handlers : String → List (Handler ε σ)} (h : Has x kinds handlers) :
    Contract x kinds handlers := by
  have hnames : x.1.eventNames = kinds.map (·.name) := congrArg _ h.kinds_eq
  constructor
  case kinds_eq => exact h.kinds_eq
  case nodup => exact hnames ▸ h.nodup
  case register => exact fun k => hnames ▸ h.register k
  case registerAll => exact fun ks => h.registerAll
  case registerAll_refused => exact fun ks => h.registerAll_refused
  case on => exact fun event handler => hnames ▸ h.on event handler
  case emit_unknown => exact fun e he => h.emit_unknown (hnames ▸ he)
  case emit_mismatched => exact fun e k => h.emit_mismatched
  case emit => exact fun e k => h.emit

/-- Whatever was asked of a bus that was made empty or with the catalog of its category, it keeps the
contract for the kinds that it began with or registered without an error, and for the handlers that it
subscribed without one. The catalog is taken as it stands, so it is up to the category that no name
comes twice in it. -/
theorem contract_after {b : Bus ε σ} (hb : b = empty ∨ b = new ∧ LawfulEvent ε) (s : σ)
    (calls : List (Call ε σ)) :
    Contract (after (b, s) calls) (b.kinds ++ (answered (b, s) calls).flatMap registers)
      fun event => (answered (b, s) calls).flatMap (subscribes event) := by
  have hstart : Has (b, s) b.kinds fun _ => [] := by
    rcases hb with rfl | ⟨rfl, hcatalog⟩
    · exact ⟨rfl, fun _ => rfl, List.nodup_nil⟩
    · exact ⟨rfl, fun _ => rfl, hcatalog.nodup_catalog⟩
  have hafter := hstart.after calls
  simp only [List.nil_append] at hafter
  exact hafter.contract

/-- Two of three handlers are subscribed to the event, and the first of them fails. -/
theorem contract_after_failing :
    let handler (tag : String) (answer : Except HandlerError Unit) :
      Handler NamedEvent (List String) := fun _ log => (answer, log ++ [tag])
    let calls : List (Call NamedEvent (List String)) := [.register ⟨"a", "", ["x"]⟩,
      .registerAll [⟨"b", "", []⟩, ⟨"c", "", []⟩], .on "a" (handler "first" (.error ["no"])),
      .on "b" (handler "second" (.ok ())), .registerAll [⟨"d", "", []⟩, ⟨"a", "", []⟩],
      .on "a" (handler "third" (.ok ()))]
    let x := after (new, []) calls
    x.1.eventNames = ["a", "b", "c"] ∧
      call x (.emit ⟨"a", [.null]⟩) =
        (.error (.handlerFailed "a" [["no"]]), x.1, ["first", "third"]) := by
  intro handler calls x
  have h := contract_after (b := (new : Bus NamedEvent (List String)))
    (.inr ⟨rfl, inferInstance⟩) [] calls
  have hkinds : x.1.kinds = [⟨"a", "", ["x"]⟩, ⟨"b", "", []⟩, ⟨"c", "", []⟩] := by
    decide +kernel
  have hemit := h.emit ⟨"a", [.null]⟩ ⟨"a", "", ["x"]⟩
    (by rw [← h.kinds_eq]; exact hkinds ▸ List.mem_cons_self) rfl rfl
  refine ⟨congrArg _ hkinds, hemit.trans ?_⟩
  rfl

end Bus

end Pegboard
