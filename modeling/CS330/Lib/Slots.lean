/-
Shared objects behind tables of slots: each owner has a table, each slot is empty or refers to an
object, and an object is used as often as slots refer to it. Over any finite types of owners and of
slots and any type of objects. When an owner's table changes, uses change by as much as what the
table holds.
-/
import Mathlib.Tactic
import Mathlib.Algebra.BigOperators.Group.Finset.Piecewise

namespace CS330.Lib

open Finset

variable {π σ α : Type*} [DecidableEq α]

section Table

variable [Fintype σ] {t : σ → Option α} {x : α}

/-- How many slots of a table refer to `x`. -/
def held (t : σ → Option α) (x : α) : ℕ := (univ.filter fun i => t i = some x).card

theorem held_pos : 0 < held t x ↔ ∃ i, t i = some x := by
  simp [held, Finset.card_pos, Finset.Nonempty]

theorem held_eq_zero : held t x = 0 ↔ ∀ i, t i ≠ some x := by
  simp [held, Finset.filter_eq_empty_iff]

theorem held_pos_of {i : σ} (h : t i = some x) : 0 < held t x := held_pos.2 ⟨i, h⟩

@[simp] theorem held_empty (x : α) : held (fun _ : σ => none) x = 0 := held_eq_zero.2 fun _ h => by cases h

theorem held_le_card (t : σ → Option α) (x : α) : held t x ≤ Fintype.card σ := Finset.card_le_univ _

/-- A table that holds `x` once holds it in one slot only. -/
theorem held_le_one (h : held t x ≤ 1) {i j : σ} (hi : t i = some x) (hj : t j = some x) : i = j :=
  Finset.card_le_one.1 h i (by simp [hi]) j (by simp [hj])

/-- Two slots that refer to `x` make it held twice. -/
theorem two_le_held {i j : σ} (hi : t i = some x) (hj : t j = some x) (hne : i ≠ j) : 2 ≤ held t x := by
  by_contra h
  exact hne (held_le_one (by omega) hi hj)

/-- What is held twice is held by a slot other than any given one. -/
theorem exists_ne_of_two_le_held (h : 2 ≤ held t x) (i : σ) : ∃ j ≠ i, t j = some x := by
  obtain ⟨j, hj, hne⟩ := Finset.exists_mem_ne (show 1 < (univ.filter fun i => t i = some x).card from h) i
  exact ⟨j, hne, (Finset.mem_filter.1 hj).2⟩

/-- Counting the slots along a list that enumerates them. -/
theorem countP_eq_held {l : List σ} (hn : l.Nodup) (hl : ∀ i, i ∈ l) :
    l.countP (fun i => t i = some x) = held t x := by
  classical
  have hset : (univ.filter fun i => t i = some x) = (l.filter fun i => t i = some x).toFinset := by
    ext i
    simp [hl i]
  unfold held
  rw [hset, List.toFinset_card_of_nodup (hn.filter _), List.countP_eq_length_filter]

variable [DecidableEq σ]

/-- Overwriting a slot takes one use from what it held and gives one to what it holds now. -/
theorem held_update (t : σ → Option α) (i : σ) (v : Option α) (x : α) :
    held (Function.update t i v) x + (if t i = some x then 1 else 0) =
      held t x + if v = some x then 1 else 0 := by
  have hrest : ∀ u : σ → Option α, (univ.filter fun j => u j = some x).card =
      ((univ.erase i).filter fun j => u j = some x).card + if u i = some x then 1 else 0 := by
    intro u
    conv_lhs => rw [← Finset.insert_erase (Finset.mem_univ i), Finset.filter_insert]
    split
    · rw [Finset.card_insert_of_notMem (by simp)]
    · rfl
  have hsame : ((univ.erase i).filter fun j => Function.update t i v j = some x) =
      (univ.erase i).filter fun j => t j = some x := by
    refine Finset.filter_congr fun j hj => ?_
    rw [Function.update_of_ne (Finset.ne_of_mem_erase hj)]
  unfold held
  rw [hrest, hrest t, hsame, Function.update_self]
  omega

end Table

section Owners

variable [Fintype π] [Fintype σ] {T : π → σ → Option α} {x : α}

/-- How many slots of all tables refer to `x`. -/
def uses (T : π → σ → Option α) (x : α) : ℕ := ∑ p, held (T p) x

theorem held_le_uses (p : π) : held (T p) x ≤ uses T x :=
  Finset.single_le_sum (f := fun p => held (T p) x) (fun _ _ => Nat.zero_le _) (Finset.mem_univ p)

theorem uses_le_card (T : π → σ → Option α) (x : α) : uses T x ≤ Fintype.card π * Fintype.card σ := by
  have h := Finset.sum_le_card_nsmul univ (fun p => held (T p) x) _ fun p _ => held_le_card (T p) x
  simpa [uses] using h

theorem uses_pos : 0 < uses T x ↔ ∃ p i, T p i = some x := by
  constructor
  · intro h
    by_contra hno
    push Not at hno
    have hzero : uses T x = 0 := Finset.sum_eq_zero fun p _ => held_eq_zero.2 (hno p)
    omega
  · rintro ⟨p, i, hi⟩
    exact (held_pos_of hi).trans_le (held_le_uses p)

variable [DecidableEq π]

/-- When one owner's table changes, uses change as what it holds does. -/
theorem uses_update (T : π → σ → Option α) (p : π) (t : σ → Option α) (x : α) :
    uses (Function.update T p t) x + held (T p) x = uses T x + held t x := by
  have hsum := Finset.add_sum_erase univ (fun q => held (T q) x) (Finset.mem_univ p)
  have hsum' := Finset.add_sum_erase univ (fun q => held (Function.update T p t q) x) (Finset.mem_univ p)
  have hsame : ∑ q ∈ univ.erase p, held (Function.update T p t q) x = ∑ q ∈ univ.erase p, held (T q) x := by
    refine Finset.sum_congr rfl fun q hq => ?_
    rw [Function.update_of_ne (Finset.ne_of_mem_erase hq)]
  simp only [Function.update_self] at hsum'
  unfold uses
  omega

end Owners

end CS330.Lib
