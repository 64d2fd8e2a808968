import Pegboard.Proofs.Refresh.Published
import Pegboard.Proofs.Sorted
import Pegboard.Proofs.Workbench.Cycles

/-!
# What is in the store behind a refresh

A refresh saves the sources: the input each time, and the grammar source if the cycle took over a
change of it. It does so only if the bus refused none of its events. The cycle itself is run to its
end all the same, and takes over the changes; so a change of the grammar source that such a cycle
took over is lost to the store until a later cycle takes over another one (`Lost`). On a bus that
knows its catalog nothing is lost, whatever the handlers answer.

Main statement: `saved_after`.
-/

namespace Pegboard.Workbench

open History

variable {σ τ : Type} [Store Id τ]

/-- What the store has under a key. -/
def stored (w : Workbench σ τ) (key : String) : Except StoreError (Option String) :=
  Store.get (m := Id) w.store key

/-- Somebody else puts another store in the place of the one that is there. -/
def Meddles (w : Workbench σ τ) (op : Operation σ τ) : Prop :=
  ∃ world store, op = .outside world store ∧ store ≠ w.store

/-- A cycle run now is answered with its report: the bus refuses none of its events. -/
def Completes (w : Workbench σ τ) : Prop :=
  ∃ report, w.runCycle.1 = .ok report

/-- A cycle takes over a change of the grammar source, and is answered with its report. -/
def SavesGrammar (w : Workbench σ τ) (op : Operation σ τ) : Prop :=
  w.RunsCycle op ∧ w.refresh.dirty.grammar = true ∧ w.Completes

/-- A cycle takes over a change of the grammar source, and is answered with an error. -/
def LosesGrammar (w : Workbench σ τ) (op : Operation σ τ) : Prop :=
  w.RunsCycle op ∧ w.refresh.dirty.grammar = true ∧ ¬ w.Completes

/-- No change of the grammar source came into the store since one was lost to it. -/
def Lost (w : Workbench σ τ) (ops : List (Operation σ τ)) : Prop :=
  Since step SavesGrammar (fun w op => w.LosesGrammar op ∨ w.Meddles op) w ops

/-- The grammar source did not change since the last cycle, and the store has another one. -/
def Unsaved (w : Workbench σ τ) : Prop :=
  w.refresh.dirty.grammar = false ∧ w.stored grammarKey ≠ .ok (some w.grammarSource)

variable {w : Workbench σ τ} {op : Operation σ τ}

/-! ## What an operation does to the store -/

omit [Store Id τ] in
theorem completes_iff (w : Workbench σ τ) : w.Completes ↔ w.cycle.violation? = none := by
  unfold Completes
  rw [runCycle_eq]
  cases w.cycle.violation? <;> simp

/-- An operation that is no cycle leaves the store as it is, and the grammar source, unless it marks it
as changed. -/
theorem store_cases (htext : w.session.text = w.grammarDoc.text) (hstore : ¬ w.Meddles op) :
    w.RunsCycle op ∧ w.step op = (w.refreshNow (m := Id)).2 ∨
      ¬ w.RunsCycle op ∧ (w.step op).store = w.store ∧
        ((w.step op).refresh.dirty.grammar = true ∨
          (w.step op).refresh.dirty.grammar = w.refresh.dirty.grammar ∧
            (w.step op).grammarDoc = w.grammarDoc) := by
  cases step_turn htext op with
  | stays hop hstep =>
      exact .inr ⟨not_runsCycle (by rw [hstep]), by rw [hstep], .inr ⟨by rw [hstep], by rw [hstep]⟩⟩
  | grammar hop d session hversion hstep =>
      exact .inr ⟨not_runsCycle (by rw [hstep]; rfl), by rw [hstep]; rfl, .inl (by rw [hstep]; rfl)⟩
  | input hop d hversion hstep =>
      exact .inr ⟨not_runsCycle (by rw [hstep]; rfl), by rw [hstep]; rfl,
        .inr ⟨by rw [hstep]; rfl, by rw [hstep]; rfl⟩⟩
  | restored now grammar input hstep =>
      exact .inr ⟨not_runsCycle (by rw [hstep]; rfl), by rw [hstep]; rfl, .inl (by rw [hstep]; rfl)⟩
  | option now name value =>
      refine .inr ⟨not_runsCycle ?_, rfl, .inr ⟨?_, rfl⟩⟩
      · show (if name = showFailures then { w.refresh with display := .explicit value }
          else w.refresh).stats.cycles = _
        split <;> rfl
      · show (if name = showFailures then { w.refresh with display := .explicit value }
          else w.refresh).dirty.grammar = _
        split <;> rfl
  | startRule now rule? => exact .inr ⟨not_runsCycle rfl, rfl, .inr ⟨rfl, rfl⟩⟩
  | refreshed hop hstep => exact .inl ⟨(Refreshes.of_refreshed hop hstep).runs, hstep⟩
  | replacedBus bus => exact .inr ⟨not_runsCycle rfl, rfl, .inr ⟨rfl, rfl⟩⟩
  | outside world store =>
      have hsame : store = w.store := by
        by_contra hne
        exact hstore ⟨world, store, rfl, hne⟩
      exact .inr ⟨not_runsCycle rfl, hsame, .inr ⟨rfl, rfl⟩⟩

theorem RunsCycle.not_meddles (h : w.RunsCycle op) : ¬ w.Meddles op := by
  rintro ⟨world, store, rfl, -⟩
  exact not_runsCycle rfl h

theorem RunsCycle.step_eq (h : w.RunsCycle op) (htext : w.session.text = w.grammarDoc.text) :
    w.step op = (w.refreshNow (m := Id)).2 :=
  ((store_cases htext h.not_meddles).resolve_right fun hnot => hnot.1 h).2

/-- A refresh leaves the store as it is if the bus refuses an event. -/
theorem refreshNow_store (hnot : ¬ w.Completes) : (w.refreshNow (m := Id)).2.store = w.store := by
  rw [completes_iff] at hnot
  rw [refreshNow_snd, if_neg hnot]

/-- A workbench takes the sources that a store has. -/
theorem load_sources (config : Config) {store : τ} (world : σ) (now : Nat) {grammar input : String}
    (hgrammar : Store.get (m := Id) store grammarKey = .ok (some grammar))
    (hinput : Store.get (m := Id) store inputKey = .ok (some input)) :
    let w : Workbench σ τ := load (m := Id) config store world now
    w.grammarSource = grammar ∧ w.inputSource = input := by
  have hload : (load (m := Id) config store world now : Workbench σ τ) =
      (new config store world).takeSources now
        (restore.found (Store.get (m := Id) store grammarKey) config.sampleGrammar)
        (restore.found (Store.get (m := Id) store inputKey) "") := rfl
  intro w
  show w.grammarSource = grammar ∧ w.inputSource = input
  unfold w
  rw [hload, hgrammar, hinput]
  exact ⟨Document.setText_text _ _, Document.setText_text _ _⟩

/-- On buses that know the catalog every cycle completes. -/
theorem completes_after (config : Config) (store : τ) (world : σ) (ops : List (Operation σ τ))
    (hops : ∀ bus, .replaceBus bus ∈ ops → bus.Standard) :
    (after config store world ops).Completes :=
  ⟨_, runCycle_completes (standard_after config store world ops hops)⟩

theorem not_lost_of_standard (config : Config) (store : τ) (world : σ) (now : Nat)
    (ops : List (Operation σ τ)) (hbuses : ∀ bus, .replaceBus bus ∈ ops → bus.Standard)
    (hstore : ¬ Sometime step Meddles (load (m := Id) config store world now) ops) :
    ¬ (load (m := Id) config store world now : Workbench σ τ).Lost ops := by
  rintro ⟨before, op, behind, rfl, hloses | hmeddles, -⟩
  · refine hloses.2.2 (completes_after config store world (.restore now :: before) ?_)
    intro bus hbus
    exact hbuses bus (List.mem_append_left _ (by simpa using hbus))
  · exact hstore ⟨before, op, behind, rfl, hmeddles⟩

variable [Store.Keeps τ]

theorem kept_input (w : Workbench σ τ) :
    Store.get (m := Id) w.kept inputKey = .ok (some w.inputSource) := by
  have hkeys : inputKey ≠ grammarKey := by decide
  unfold kept
  dsimp only
  split
  · rw [Store.Keeps.get_set_of_ne _ _ hkeys, Store.Keeps.get_set]
    rfl
  · exact Store.Keeps.get_set _ _ _

theorem kept_grammar (w : Workbench σ τ) :
    Store.get (m := Id) w.kept grammarKey =
      if w.refresh.dirty.grammar then .ok (some w.grammarSource) else w.stored grammarKey := by
  have hkeys : grammarKey ≠ inputKey := by decide
  unfold kept
  dsimp only
  split
  · exact Store.Keeps.get_set _ _ _
  · exact Store.Keeps.get_set_of_ne _ _ hkeys

theorem refreshNow_input (h : w.Completes) :
    (w.refreshNow (m := Id)).2.stored inputKey = .ok (some w.inputSource) := by
  rw [completes_iff] at h
  rw [refreshNow_snd, if_pos h]
  exact w.kept_input

theorem refreshNow_changed (h : w.Completes) (hdirty : w.refresh.dirty.grammar = true) :
    (w.refreshNow (m := Id)).2.stored grammarKey = .ok (some w.grammarSource) := by
  rw [completes_iff] at h
  rw [refreshNow_snd, if_pos h]
  exact w.kept_grammar.trans (if_pos hdirty)

theorem refreshNow_unchanged (hclean : w.refresh.dirty.grammar = false) :
    (w.refreshNow (m := Id)).2.stored grammarKey = w.stored grammarKey := by
  by_cases h : w.Completes
  · rw [completes_iff] at h
    rw [refreshNow_snd, if_pos h]
    exact w.kept_grammar.trans (if_neg (by simp [hclean]))
  · unfold stored
    rw [refreshNow_store h]

/-! ## Over a run -/

/-- The store comes to have another grammar source only if the one at hand is lost to it. -/
theorem unsaved_step (htext : w.session.text = w.grammarDoc.text) (op : Operation σ τ)
    (h : (w.step op).Unsaved) :
    (w.LosesGrammar op ∨ w.Meddles op) ∨ w.Unsaved ∧ ¬ w.SavesGrammar op := by
  obtain ⟨hclean, hstored⟩ := h
  by_cases hstore : w.Meddles op
  · exact .inl (.inr hstore)
  rcases store_cases htext hstore with ⟨hruns, hstep⟩ | ⟨hnot, hsame, hdirty | ⟨hdirty, hdoc⟩⟩
  · have hsource : (w.refreshNow (m := Id)).2.grammarSource = w.grammarSource := by
      rw [refreshNow_snd]
      rfl
    rw [hstep, hsource] at hstored
    cases hdirty : w.refresh.dirty.grammar with
    | true =>
        exact .inl (.inl ⟨hruns, hdirty, fun hcompletes =>
          hstored (refreshNow_changed hcompletes hdirty)⟩)
    | false =>
        rw [refreshNow_unchanged hdirty] at hstored
        exact .inr ⟨⟨hdirty, hstored⟩, fun hsaves => by simp [hdirty, SavesGrammar] at hsaves⟩
  · rw [hdirty] at hclean
    cases hclean
  · unfold stored grammarSource at hstored
    rw [hsame, hdoc] at hstored
    exact .inr ⟨⟨hdirty.symm.trans hclean, hstored⟩, fun hsaves => hnot hsaves.1⟩

theorem lost_of_unsaved (config : Config) (store : τ) (world : σ) (now : Nat)
    (ops : List (Operation σ τ)) :
    let start : Workbench σ τ := load (m := Id) config store world now
    (ops.foldl step start).Unsaved → start.Lost ops := by
  intro start
  have hstart : start.Follows := follows_after config store world [.restore now]
  exact since_of_holds hstart (fun _ op h => h.step op) (by rintro ⟨⟨⟩, -⟩)
    (fun _ op h => unsaved_step h.text op)

/-- Behind a cycle the grammar source is in the store, unless its last change was lost. -/
theorem grammar_stored (config : Config) (store : τ) (world : σ) (now : Nat)
    (ops : List (Operation σ τ)) (op : Operation σ τ) :
    let start : Workbench σ τ := load (m := Id) config store world now
    let w := ops.foldl step start
    w.RunsCycle op → ¬ start.Lost (ops ++ [op]) →
      (w.step op).stored grammarKey = .ok (some (w.step op).grammarSource) := by
  intro start w hcycle hlost
  have hfollows : w.Follows := follows_after config store world (.restore now :: ops)
  have hclean : (w.step op).refresh.dirty.grammar = false := by
    rw [hcycle.step_eq hfollows.text, refreshNow_snd, w.steady_cycle.dirty]
    rfl
  by_contra hne
  refine hlost (lost_of_unsaved config store world now _ ?_)
  rw [List.foldl_append]
  exact ⟨hclean, hne⟩

/-- After whatever happened to a workbench that took its sources from a store, a cycle that is
answered with an error leaves the store as it is. Any other one puts the input there; and the grammar
source is there then as well, and a workbench that is opened on the store has both, unless the last
change of it was lost to the store, which keeps what it had in this case. Nothing is lost, and no
cycle answered with an error, if every bus knows the catalog and nobody else changes the store. -/
theorem saved_after (config : Config) (store : τ) (world : σ) (now : Nat)
    (ops : List (Operation σ τ)) (op : Operation σ τ)
    (hcycle : (ops.foldl step (load (m := Id) config store world now)).RunsCycle op) :
    let start : Workbench σ τ := load (m := Id) config store world now
    let w := ops.foldl step start
    let w' := w.step op
    (¬ w.Completes → w'.store = w.store) ∧
      (w.Completes → w'.stored inputKey = .ok (some w'.inputSource) ∧
        (start.Lost (ops ++ [op]) → w'.stored grammarKey = w.stored grammarKey) ∧
        (¬ start.Lost (ops ++ [op]) → w'.stored grammarKey = .ok (some w'.grammarSource) ∧
          ∀ (config : Config) (world : σ) (now : Nat),
            let v : Workbench σ τ := load (m := Id) config w'.store world now
            v.grammarSource = w'.grammarSource ∧ v.inputSource = w'.inputSource)) ∧
      ((∀ bus, .replaceBus bus ∈ ops → bus.Standard) → ¬ Sometime step Meddles start ops →
        w.Completes ∧ ¬ start.Lost (ops ++ [op])) := by
  intro start w w'
  have hfollows : w.Follows := follows_after config store world (.restore now :: ops)
  have hstep : w' = (w.refreshNow (m := Id)).2 := hcycle.step_eq hfollows.text
  refine ⟨fun hnot => ?_, fun hcompletes => ?_, fun hbuses hmeddles => ⟨?_, ?_⟩⟩
  · rw [hstep]
    exact refreshNow_store hnot
  · have hinput : w'.inputSource = w.inputSource := by
      rw [hstep, refreshNow_snd]
      rfl
    have hsaved : w'.stored inputKey = .ok (some w'.inputSource) := by
      rw [hinput, hstep]
      exact refreshNow_input hcompletes
    refine ⟨hsaved, fun hlost => ?_, fun hlost => ?_⟩
    · rw [hstep]
      refine refreshNow_unchanged (Bool.eq_false_iff.mpr fun hdirty => ?_)
      -- the cycle would have saved a change
      rcases since_concat.mp hlost with (hloses | hmeddles) | ⟨-, hnot⟩
      · exact hloses.2.2 hcompletes
      · exact hcycle.not_meddles hmeddles
      · exact hnot ⟨hcycle, hdirty, hcompletes⟩
    · have hkept : w'.stored grammarKey = .ok (some w'.grammarSource) :=
        grammar_stored config store world now ops op hcycle hlost
      exact ⟨hkept, fun config world now => load_sources config world now hkept hsaved⟩
  · exact completes_after config store world (.restore now :: ops) (by simpa using hbuses)
  · refine not_lost_of_standard config store world now _ (fun bus hbus => ?_) ?_
    · rcases List.mem_append.mp hbus with hbus | hbus
      · exact hbuses bus hbus
      · obtain rfl := List.mem_singleton.mp hbus
        exact absurd hcycle (not_runsCycle rfl)
    · rw [sometime_concat, not_or]
      exact ⟨hmeddles, hcycle.not_meddles⟩

/-- A bus that knows no event refuses the one of another input, which does not come into the store. -/
theorem saved_after_emptied :
    let store := MemoryStore.ofList [(grammarKey, "G \x7b \x7d"), (inputKey, "1")]
    let ops : List (Operation Unit MemoryStore) := [.replaceBus .empty, .setInputSource 0 "2"]
    let w := ops.foldl step (load (m := Id) Config.standard store () 0)
    w.RunsCycle .flush ∧ (w.step .flush).stored inputKey = .ok (some "1") ∧
      (w.step .flush).inputSource = "2" := by
  intro store ops w
  have hcycle : w.RunsCycle .flush := (Refreshes.flush rfl).runs
  have hstate : (w.cycle.violation?.isSome, w.stored inputKey, (w.step .flush).inputSource) =
      (true, .ok (some "1"), "2") := by
    decide +kernel
  obtain ⟨hviolation, hrest⟩ := Prod.mk.inj hstate
  obtain ⟨hstored, hinput⟩ := Prod.mk.inj hrest
  have hnot : ¬ w.Completes := by
    rw [completes_iff]
    exact Option.isSome_iff_ne_none.mp hviolation
  have hsame : (w.step .flush).store = w.store :=
    (saved_after Config.standard store () 0 ops .flush hcycle).1 hnot
  refine ⟨hcycle, ?_, hinput⟩
  rw [← hstored]
  exact congrArg (fun store => Store.get (m := Id) store inputKey) hsame

end Pegboard.Workbench
