import Pegboard.Options
import Pegboard.Store

/-!
# Looking up what was put in

Options and stores keep their values under names. What is put in under a name is found there, in place
of what was there before, and all else stays. Of a store this is what it means that its writes succeed
(`Store.Keeps`).
-/

namespace Pegboard

theorem lookup_cons_ite {α : Type} (name other : String) (value : α) (l : List (String × α)) :
    ((name, value) :: l).lookup other = if other = name then some value else l.lookup other := by
  rw [List.lookup_cons]
  split <;> simp_all

theorem lookup_putSorted {α : Type} (name other : String) (value : α) (l : List (String × α)) :
    (putSorted name value l).lookup other = if other = name then some value else l.lookup other := by
  induction l with
  | nil => exact lookup_cons_ite name other value []
  | cons entry rest ih =>
      obtain ⟨n, v⟩ := entry
      unfold putSorted
      split
      · exact lookup_cons_ite name other value _
      · split
        · rename_i heq
          subst heq
          simp only [lookup_cons_ite]
          split <;> rfl
        · rename_i hne
          simp only [lookup_cons_ite, ih]
          -- no name is both of them
          split <;> split <;> simp_all

/-! ### The order of the names -/

/-- The names stand in their order, each of them once. -/
def InOrder {α : Type} (l : List (String × α)) : Prop :=
  l.Pairwise (·.1 < ·.1)

theorem name_of_mem_putSorted {α : Type} {name : String} {value : α} {l : List (String × α)}
    {x : String × α} (h : x ∈ putSorted name value l) : x.1 = name ∨ x ∈ l := by
  induction l with
  | nil => exact .inl (congrArg Prod.fst (List.mem_singleton.mp h))
  | cons entry rest ih =>
      obtain ⟨n, v⟩ := entry
      unfold putSorted at h
      split at h
      · exact (List.mem_cons.mp h).imp_left (congrArg Prod.fst)
      · split at h
        · rename_i heq
          rcases List.mem_cons.mp h with rfl | h
          · exact .inl heq.symm
          · exact .inr (List.mem_cons_of_mem _ h)
        · rcases List.mem_cons.mp h with rfl | h
          · exact .inr List.mem_cons_self
          · exact (ih h).imp_right (List.mem_cons_of_mem _)

theorem InOrder.putSorted {α : Type} {l : List (String × α)} (h : InOrder l) (name : String)
    (value : α) : InOrder (putSorted name value l) := by
  induction l with
  | nil => exact List.pairwise_singleton _ _
  | cons entry rest ih =>
      obtain ⟨n, v⟩ := entry
      obtain ⟨hfirst, hrest⟩ := List.pairwise_cons.mp h
      unfold Pegboard.putSorted
      split
      · rename_i hlt
        refine List.pairwise_cons.mpr ⟨?_, h⟩
        exact List.forall_mem_cons.mpr ⟨hlt, fun x hx => String.lt_trans hlt (hfirst x hx)⟩
      · split
        · exact List.pairwise_cons.mpr ⟨hfirst, hrest⟩
        · rename_i hge hne
          have hlt : n < name := by
            refine Decidable.by_contra fun hnot => hne ?_
            exact String.le_antisymm (String.not_lt.mp hnot) (String.not_lt.mp hge)
          refine List.pairwise_cons.mpr ⟨fun x hx => ?_, ih hrest⟩
          rcases name_of_mem_putSorted hx with heq | hx
          · exact heq ▸ hlt
          · exact hfirst x hx

/-- Behind all others a name is put at the end. -/
theorem putSorted_concat {α : Type} {l : List (String × α)} {name : String}
    (h : ∀ x ∈ l, x.1 < name) (value : α) : putSorted name value l = l ++ [(name, value)] := by
  induction l with
  | nil => rfl
  | cons entry rest ih =>
      obtain ⟨n, v⟩ := entry
      obtain ⟨hfirst, hrest⟩ := List.forall_mem_cons.mp h
      have hfirst : n < name := hfirst
      have hge : ¬ name < n := fun hlt => String.lt_irrefl n (String.lt_trans hfirst hlt)
      have hne : name ≠ n := fun heq => String.lt_irrefl n (heq ▸ hfirst)
      rw [putSorted, if_neg hge, if_neg hne, ih hrest, List.cons_append]

theorem sortedByName_eq {α : Type} {l : List (String × α)} (h : InOrder l) :
    sortedByName l = l := by
  have run : ∀ todo done : List (String × α), InOrder (done ++ todo) →
      todo.foldl (fun sorted entry => putSorted entry.1 entry.2 sorted) done = done ++ todo := by
    intro todo
    induction todo with
    | nil => exact fun done _ => (List.append_nil done).symm
    | cons entry todo ih =>
        intro done hdone
        obtain ⟨name, value⟩ := entry
        have hlast : ∀ x ∈ done, x.1 < name := fun x hx =>
          (List.pairwise_append.mp hdone).2.2 x hx _ List.mem_cons_self
        show todo.foldl _ (putSorted name value done) = _
        rw [putSorted_concat hlast, ih _ (by rwa [← List.append_cons]), ← List.append_cons]
  exact run l [] h

theorem Options.get_set (o : Options) (name other : String) (value : Bool) :
    (o.set name value).get other = if other = name then value else o.get other := by
  unfold Options.get Options.set
  rw [lookup_putSorted]
  split <;> rfl

/-- A store whose writes succeed: it keeps what is put in, and nothing else changes. -/
class Store.Keeps (τ : Type) [Store Id τ] : Prop where
  get_set (store : τ) (key text : String) :
    Store.get (m := Id) (Store.set (m := Id) store key text).2 key = .ok (some text)
  get_set_of_ne (store : τ) {key other : String} (text : String) (hne : other ≠ key) :
    Store.get (m := Id) (Store.set (m := Id) store key text).2 other = Store.get (m := Id) store other

instance : Store.Keeps MemoryStore where
  get_set store key text := by
    show Except.ok ((putSorted key text store.entries).lookup key) = _
    rw [lookup_putSorted, if_pos rfl]
  get_set_of_ne store key other text hne := by
    show Except.ok ((putSorted key text store.entries).lookup other) = _
    rw [lookup_putSorted, if_neg hne]
    rfl

end Pegboard
