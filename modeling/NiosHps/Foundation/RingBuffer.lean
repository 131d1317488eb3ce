import Mathlib.Data.List.Basic
import Mathlib.Logic.Function.Basic

/-!
# Ring buffers

One side stores at `next`, the other takes at `first`, and each moves its own
index only.  Equal indices mean that the ring is empty, so one cell always stays
free.  The side that stores may work with an index of the other that is out of
date: what was free for it stays free.
-/

namespace NiosHps.Foundation

structure RingBuffer (α : Type*) (size : Nat) where
  cells : Nat → α
  first : Nat
  next : Nat
  first_lt : first < size
  next_lt : next < size

/-- How many cells in a row are free behind `next`, by the two indices. -/
def room (size next first : Nat) : Nat :=
  if next < first then first - 1 - next
  else if 0 < first then size - next
  else size - 1 - next

namespace RingBuffer

variable {α : Type*} {size : Nat}

def length (r : RingBuffer α size) : Nat :=
  if r.first ≤ r.next then r.next - r.first else r.next + size - r.first

def contents (r : RingBuffer α size) : List α :=
  (List.range r.length).map fun k => r.cells ((r.first + k) % size)

def store (r : RingBuffer α size) (i : Nat) (x : α) : RingBuffer α size :=
  { r with cells := Function.update r.cells i x }

def publish (r : RingBuffer α size) (start n : Nat) : RingBuffer α size :=
  { r with
    next := (start + n) % size
    next_lt := Nat.mod_lt _ (Nat.zero_lt_of_lt r.next_lt) }

def take (r : RingBuffer α size) : RingBuffer α size :=
  { r with
    first := (r.first + 1) % size
    first_lt := Nat.mod_lt _ (Nat.zero_lt_of_lt r.first_lt) }

/-- The `n` cells behind `next` are free, and one more. -/
structure Free (r : RingBuffer α size) (n : Nat) : Prop where
  inside : r.next + n ≤ size
  length : r.length + n < size

variable {r : RingBuffer α size} {n : Nat}

@[simp] theorem store_first (i : Nat) (x : α) : (r.store i x).first = r.first := rfl

@[simp] theorem store_next (i : Nat) (x : α) : (r.store i x).next = r.next := rfl

@[simp] theorem store_length (i : Nat) (x : α) :
    (r.store i x).length = r.length := rfl

theorem store_self (i : Nat) (x : α) : (r.store i x).cells i = x := by
  simp [store]

theorem store_of_ne {i j : Nat} (h : j ≠ i) (x : α) :
    (r.store i x).cells j = r.cells j := by
  simp [store, h]

@[simp] theorem publish_first (start n : Nat) :
    (r.publish start n).first = r.first := rfl

@[simp] theorem take_next : r.take.next = r.next := rfl

@[simp] theorem length_contents : r.contents.length = r.length := by
  simp [contents]

theorem length_lt : r.length < size := by
  have hfirst := r.first_lt
  have hnext := r.next_lt
  unfold length
  split_ifs <;> omega

theorem mod_of_lt_two {a : Nat} (h : a < 2 * size) :
    a % size = if a < size then a else a - size := by
  split_ifs with hlt
  · exact Nat.mod_eq_of_lt hlt
  · rw [Nat.mod_eq_sub_mod (by omega), Nat.mod_eq_of_lt (by omega)]

theorem length_eq_zero : r.length = 0 ↔ r.first = r.next := by
  have hfirst := r.first_lt
  have hnext := r.next_lt
  unfold length
  split_ifs <;> omega

theorem contents_eq_nil : r.contents = [] ↔ r.first = r.next := by
  rw [← List.length_eq_zero_iff, length_contents, length_eq_zero]

theorem length_take (h : r.first ≠ r.next) : r.take.length + 1 = r.length := by
  have hfirst := r.first_lt
  have hnext := r.next_lt
  have hmoved : r.take.first = if r.first + 1 < size then r.first + 1 else 0 := by
    change (r.first + 1) % size = _
    rw [mod_of_lt_two (by omega)]
    split_ifs <;> omega
  unfold length
  rw [hmoved, take_next]
  split_ifs <;> omega

theorem contents_take (h : r.first ≠ r.next) :
    r.contents = r.cells r.first :: r.take.contents := by
  have hfirst := r.first_lt
  unfold contents
  rw [← length_take h, List.range_succ_eq_map, List.map_cons, List.map_map,
    Nat.add_zero, Nat.mod_eq_of_lt hfirst]
  congr 1
  refine List.map_congr_left fun k _ => ?_
  change r.cells ((r.first + (k + 1)) % size) =
    r.cells (((r.first + 1) % size + k) % size)
  rw [Nat.mod_add_mod, Nat.add_right_comm, Nat.add_assoc]

theorem length_publish (hfree : r.Free n) :
    (r.publish r.next n).length = r.length + n := by
  have hfirst := r.first_lt
  have hnext := r.next_lt
  obtain ⟨hinside, hlength⟩ := hfree
  have hmoved : (r.publish r.next n).next =
      if r.next + n < size then r.next + n else r.next + n - size :=
    mod_of_lt_two (by omega)
  unfold length at hlength ⊢
  rw [hmoved, publish_first]
  split_ifs at hlength ⊢ <;> omega

theorem free_ne {k j : Nat} (hfree : r.Free n) (hk : k < r.length) (hj : j < n) :
    (r.first + k) % size ≠ r.next + j := by
  have hfirst := r.first_lt
  have hnext := r.next_lt
  obtain ⟨hinside, hlength⟩ := hfree
  have hlt := r.length_lt
  rw [mod_of_lt_two (by omega)]
  unfold length at hk hlength
  split_ifs at hk hlength ⊢ <;> omega

theorem contents_store {j : Nat} (hfree : r.Free n) (hj : j < n) (x : α) :
    (r.store (r.next + j) x).contents = r.contents := by
  refine List.map_congr_left fun k hk => ?_
  rw [store_length, List.mem_range] at hk
  exact store_of_ne (free_ne hfree hk hj) x

theorem first_add_length {k : Nat} (hfree : r.Free n) (hk : k < n) :
    (r.first + (r.length + k)) % size = r.next + k := by
  have hfirst := r.first_lt
  have hnext := r.next_lt
  obtain ⟨hinside, hlength⟩ := hfree
  rw [mod_of_lt_two (by omega)]
  unfold length at hlength ⊢
  split_ifs at hlength ⊢ <;> omega

theorem contents_publish {added : List α} (hfree : r.Free added.length)
    (hadded : ∀ j (hj : j < added.length), r.cells (r.next + j) = added[j]) :
    (r.publish r.next added.length).contents = r.contents ++ added := by
  unfold contents
  rw [length_publish hfree, List.range_add, List.map_append, List.map_map]
  congr 1
  apply List.ext_getElem
  · simp
  · intro j _ hj
    rw [List.getElem_map, List.getElem_range]
    change r.cells ((r.first + (r.length + j)) % size) = _
    rw [first_add_length hfree hj, hadded j hj]

theorem Free.mono {m : Nat} (hfree : r.Free n) (hle : m ≤ n) : r.Free m := by
  obtain ⟨hinside, hlength⟩ := hfree
  exact ⟨by omega, by omega⟩

theorem Free.store (hfree : r.Free n) (i : Nat) (x : α) : (r.store i x).Free n :=
  ⟨hfree.inside, hfree.length⟩

theorem Free.take (hfree : r.Free n) (h : r.first ≠ r.next) : r.take.Free n := by
  refine ⟨hfree.inside, ?_⟩
  have hbefore := hfree.length
  have hone := length_take h
  omega

theorem free_room : r.Free (room size r.next r.first) := by
  have hfirst := r.first_lt
  have hnext := r.next_lt
  constructor <;> unfold room
  · split_ifs <;> omega
  · unfold length
    split_ifs <;> omega

theorem contents_put (hfree : r.Free 1) (x : α) :
    ((r.store r.next x).publish r.next 1).contents = r.contents ++ [x] := by
  have hcells : ∀ j (hj : j < [x].length),
      (r.store r.next x).cells (r.next + j) = [x][j] := by
    intro j hj
    obtain rfl : j = 0 := by simpa using hj
    exact store_self r.next x
  have hput := contents_publish (r := r.store r.next x) (hfree.store _ _) hcells
  have hstored : (r.store r.next x).contents = r.contents :=
    contents_store (j := 0) hfree Nat.zero_lt_one x
  rwa [hstored] at hput

theorem full_of_room (h : room size r.next r.first = 0) : r.length + 1 = size := by
  have hfirst := r.first_lt
  have hnext := r.next_lt
  unfold room at h
  unfold length
  split_ifs at h ⊢ <;> omega

theorem next_of_full (h : r.length + 1 = size) : (r.next + 1) % size = r.first := by
  have hfirst := r.first_lt
  have hnext := r.next_lt
  rw [mod_of_lt_two (by omega)]
  unfold length at h
  split_ifs at h ⊢ <;> omega

theorem free_one (h : (r.next + 1) % size ≠ r.first) : r.Free 1 := by
  have hfirst := r.first_lt
  have hnext := r.next_lt
  rw [mod_of_lt_two (by omega)] at h
  refine ⟨hnext, ?_⟩
  unfold length
  split_ifs at h ⊢ <;> omega

end RingBuffer

end NiosHps.Foundation
