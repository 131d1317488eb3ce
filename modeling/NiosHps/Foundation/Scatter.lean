import Mathlib.Data.Set.Image
import Mathlib.Data.Set.Insert
import Mathlib.Logic.Function.Basic

/-!
# Cells stored one after another

A loop stores one cell for each index of a list.  As long as it reads none of
the cells that it stores, each of them ends with the value computed from the
memory at the start, whatever the order of the indices and however often one of
them comes up.
-/

namespace NiosHps.Foundation

structure Scatter (Index Address Value : Type*) where
  cell : Index → Address
  compute : (Address → Value) → Index → Value

namespace Scatter

variable {Index Address Value : Type*}

/-- The indices of `domain` are computed from `input`, which has none of their
cells, and no two of them share a cell. -/
structure Separated (s : Scatter Index Address Value) (domain : Set Index)
    (input : Set Address) : Prop where
  injective : Set.InjOn s.cell domain
  not_input : ∀ i ∈ domain, s.cell i ∉ input
  reads_input : ∀ i ∈ domain, ∀ mem mem', (∀ a ∈ input, mem a = mem' a) →
    s.compute mem i = s.compute mem' i

structure Stored (s : Scatter Index Address Value) (done : Set Index)
    (before after : Address → Value) : Prop where
  stored : ∀ i ∈ done, after (s.cell i) = s.compute before i
  unchanged : ∀ a, a ∉ s.cell '' done → after a = before a

variable {s : Scatter Index Address Value} {done domain : Set Index}
  {input : Set Address} {before after : Address → Value}

theorem Stored.empty (mem : Address → Value) : Stored s ∅ mem mem := by
  constructor
  · intro i hi
    exact hi.elim
  · intro a _
    rfl

theorem Stored.input_unchanged (h : Stored s done before after)
    (hsep : Separated s domain input) (hdone : done ⊆ domain) {a : Address}
    (ha : a ∈ input) : after a = before a := by
  apply h.unchanged
  rintro ⟨i, hi, rfl⟩
  exact hsep.not_input i (hdone hi) ha

theorem Stored.unique {after' : Address → Value}
    (h : Stored s done before after) (h' : Stored s done before after') :
    after = after' := by
  funext a
  by_cases ha : a ∈ s.cell '' done
  · rcases ha with ⟨i, hi, rfl⟩
    rw [h.stored i hi, h'.stored i hi]
  · rw [h.unchanged a ha, h'.unchanged a ha]

variable [DecidableEq Address]

def store (s : Scatter Index Address Value) (mem : Address → Value)
    (i : Index) : Address → Value :=
  Function.update mem (s.cell i) (s.compute mem i)

def stores (s : Scatter Index Address Value) (mem : Address → Value)
    (indices : List Index) : Address → Value :=
  indices.foldl s.store mem

theorem Stored.store (h : Stored s done before after)
    (hsep : Separated s domain input) (hdone : done ⊆ domain) {i : Index}
    (hi : i ∈ domain) : Stored s (insert i done) before (s.store after i) := by
  have hvalue : s.compute after i = s.compute before i :=
    hsep.reads_input i hi after before fun a ha => h.input_unchanged hsep hdone ha
  constructor
  · intro j hj
    rw [Scatter.store]
    rcases hj with rfl | hj
    · rw [Function.update_self, hvalue]
    · by_cases hji : j = i
      · rw [hji, Function.update_self, hvalue]
      · have hcell : s.cell j ≠ s.cell i := fun heq =>
          hji (hsep.injective (hdone hj) hi heq)
        rw [Function.update_of_ne hcell, h.stored j hj]
  · intro a ha
    rw [Set.image_insert_eq, Set.mem_insert_iff, not_or] at ha
    rw [Scatter.store, Function.update_of_ne ha.1, h.unchanged a ha.2]

theorem Stored.stores (hsep : Separated s domain input) {indices : List Index}
    (hindices : ∀ i ∈ indices, i ∈ domain) (h : Stored s done before after)
    (hdone : done ⊆ domain) :
    Stored s (done ∪ { i | i ∈ indices }) before (s.stores after indices) := by
  induction indices generalizing done after with
  | nil => simpa [Scatter.stores] using h
  | cons i indices ih =>
      have hi : i ∈ domain := hindices i (by simp)
      have hrest : ∀ j ∈ indices, j ∈ domain := fun j hj =>
        hindices j (by simp [hj])
      have hset : done ∪ { j | j ∈ i :: indices } =
          insert i done ∪ { j | j ∈ indices } := by
        ext j
        simp only [Set.mem_union, Set.mem_ofPred_eq, List.mem_cons,
          Set.mem_insert_iff]
        tauto
      rw [hset]
      exact ih hrest (h.store hsep hdone hi) (Set.insert_subset hi hdone)

theorem Separated.stored_stores (hsep : Separated s domain input)
    (mem : Address → Value) {indices : List Index}
    (hindices : ∀ i ∈ indices, i ∈ domain) :
    Stored s { i | i ∈ indices } mem (s.stores mem indices) := by
  simpa using
    (Stored.empty mem).stores hsep hindices (Set.empty_subset domain)

theorem Separated.stores_congr (hsep : Separated s domain input)
    (mem : Address → Value) {indices indices' : List Index}
    (hindices : ∀ i ∈ indices, i ∈ domain)
    (hmem : ∀ i, i ∈ indices' ↔ i ∈ indices) :
    s.stores mem indices' = s.stores mem indices := by
  have hset : { i | i ∈ indices' } = { i | i ∈ indices } := Set.ext hmem
  have hstored := hsep.stored_stores mem fun i hi => hindices i ((hmem i).mp hi)
  rw [hset] at hstored
  exact hstored.unique (hsep.stored_stores mem hindices)

end Scatter

end NiosHps.Foundation
