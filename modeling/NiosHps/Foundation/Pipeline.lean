import Mathlib.Data.Set.Insert
import Mathlib.Logic.Function.Basic
import Mathlib.Logic.Relation
import Mathlib.Order.Interval.Set.Basic

/-!
# One producer and two consumers of a split sequence

The items `0 .. total - 1` are produced in order.  One consumer takes them in
order from the front up to `split`, the other from `split` on; neither may take
an item that has not been produced.  The bounds are fields of the state, so a
consumer that has run past the producer or past its share cannot be written
down.
-/

namespace NiosHps.Foundation

structure Pipeline (total split : Nat) where
  produced : Nat
  front : Nat
  back : Nat
  produced_le : produced ≤ total
  front_le_produced : front ≤ produced
  front_le_split : front ≤ split
  back_le : back = 0 ∨ split + back ≤ produced

namespace Pipeline

variable {total split : Nat}

def initial (total split : Nat) : Pipeline total split :=
  ⟨0, 0, 0, by omega, by omega, by omega, by omega⟩

def consumed (a : Pipeline total split) : Set Nat :=
  { i | i < a.front ∨ split ≤ i ∧ i < split + a.back }

inductive Step : Pipeline total split → Pipeline total split → Prop
  | produce (a b : Pipeline total split)
      (produced : b.produced = a.produced + 1)
      (front : b.front = a.front) (back : b.back = a.back) : Step a b
  | takeFront (a b : Pipeline total split)
      (produced : b.produced = a.produced)
      (front : b.front = a.front + 1) (back : b.back = a.back) : Step a b
  | takeBack (a b : Pipeline total split)
      (produced : b.produced = a.produced)
      (front : b.front = a.front) (back : b.back = a.back + 1) : Step a b

abbrev Steps : Pipeline total split → Pipeline total split → Prop :=
  Relation.ReflTransGen Step

@[ext] theorem ext {a b : Pipeline total split}
    (produced : a.produced = b.produced) (front : a.front = b.front)
    (back : a.back = b.back) : a = b := by
  cases a
  cases b
  simp_all

@[simp] theorem mem_consumed {a : Pipeline total split} {i : Nat} :
    i ∈ a.consumed ↔ i < a.front ∨ split ≤ i ∧ i < split + a.back := Iff.rfl

theorem consumed_lt_produced (a : Pipeline total split) {i : Nat}
    (hi : i ∈ a.consumed) : i < a.produced := by
  have hfront := a.front_le_produced
  have hback := a.back_le
  rcases hi with hi | ⟨hlow, hhigh⟩
  · omega
  · omega

theorem consumed_lt_total (a : Pipeline total split) {i : Nat}
    (hi : i ∈ a.consumed) : i < total :=
  (a.consumed_lt_produced hi).trans_le a.produced_le

theorem consumed_all (a : Pipeline total split) (hfront : a.front = split)
    (hback : split + a.back = total) {i : Nat} (hi : i < total) :
    i ∈ a.consumed := by
  by_cases hsplit : i < split
  · exact .inl (by omega)
  · exact .inr (by omega)

theorem consumed_takeFront {a b : Pipeline total split}
    (hfront : b.front = a.front + 1) (hback : b.back = a.back) :
    b.consumed = insert a.front a.consumed := by
  ext i
  simp only [mem_consumed, Set.mem_insert_iff, hfront, hback]
  omega

theorem consumed_takeBack {a b : Pipeline total split}
    (hfront : b.front = a.front) (hback : b.back = a.back + 1) :
    b.consumed = insert (split + a.back) a.consumed := by
  ext i
  simp only [mem_consumed, Set.mem_insert_iff, hfront, hback]
  omega

theorem front_not_consumed {a b : Pipeline total split}
    (hfront : b.front = a.front + 1) : a.front ∉ a.consumed := by
  have hsplit := b.front_le_split
  simp only [mem_consumed]
  omega

theorem back_not_consumed (a : Pipeline total split) :
    split + a.back ∉ a.consumed := by
  have hsplit := a.front_le_split
  simp only [mem_consumed]
  omega

/-! ## Batches -/

theorem steps_front (a b : Pipeline total split) (k : Nat)
    (hproduced : b.produced = a.produced) (hfront : b.front = a.front + k)
    (hback : b.back = a.back) : Steps a b := by
  induction k generalizing b with
  | zero =>
      have heq : a = b := ext hproduced.symm (by omega) hback.symm
      exact heq ▸ .refl
  | succ k ih =>
      have hle := b.front_le_produced
      have hle' := b.front_le_split
      let middle : Pipeline total split :=
        { b with
          front := a.front + k
          front_le_produced := by omega
          front_le_split := by omega }
      exact (ih middle hproduced rfl hback).tail
        (.takeFront middle b rfl (by simp [middle]; omega) rfl)

theorem steps_back (a b : Pipeline total split) (k : Nat)
    (hproduced : b.produced = a.produced) (hfront : b.front = a.front)
    (hback : b.back = a.back + k) : Steps a b := by
  induction k generalizing b with
  | zero =>
      have heq : a = b := ext hproduced.symm hfront.symm (by omega)
      exact heq ▸ .refl
  | succ k ih =>
      have hle := b.back_le
      let middle : Pipeline total split :=
        { b with
          back := a.back + k
          back_le := by omega }
      exact (ih middle hproduced hfront rfl).tail
        (.takeBack middle b rfl rfl (by simp [middle]; omega))

end Pipeline

/-! ## Tables filled once -/

section Fills

variable {Index Value : Type*} [DecidableEq Index]

/-- The entries in `done` hold `f`, all the others are still blank. -/
structure Fills (f : Index → Value) (blank : Value) (done : Set Index)
    (out : Index → Value) : Prop where
  filled : ∀ i ∈ done, out i = f i
  blank : ∀ i, i ∉ done → out i = blank

theorem Fills.insert {f : Index → Value} {blank : Value} {done : Set Index}
    {out : Index → Value} (h : Fills f blank done out) (i : Index) :
    Fills f blank (insert i done) (Function.update out i (f i)) := by
  constructor
  · intro j hj
    by_cases hij : j = i
    · subst hij
      simp
    · rw [Function.update_of_ne hij]
      exact h.filled j (hj.resolve_left hij)
  · intro j hj
    rw [Set.mem_insert_iff, not_or] at hj
    rw [Function.update_of_ne hj.1]
    exact h.blank j hj.2

end Fills

end NiosHps.Foundation
