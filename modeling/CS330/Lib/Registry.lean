/-
Names entered in numbered slots: each slot is empty or has one name, no name has two slots. Over any type of
names. A scan of the slots finds the one slot of a name, and entering or erasing one name moves the number of
names by one.
-/
import CS330.Lib.Loop

namespace CS330.Lib

open Finset

/-- What is entered in each slot. -/
abbrev Registry (ν : Type*) := ℕ → Option ν

namespace Registry

variable {ν : Type*} {m : Registry ν} {a b : ν} {i j n : ℕ}

/-- No name has two slots. -/
def Distinct (m : Registry ν) : Prop := ∀ i j a, m i = some a → m j = some a → i = j

/-- How many of the first `n` slots have a name. -/
def size (m : Registry ν) (n : ℕ) : ℕ := ((range n).filter fun i => (m i).isSome = true).card

theorem distinct_empty : Distinct (fun _ => none : Registry ν) := fun _ _ _ h => by cases h

@[simp] theorem size_empty (n : ℕ) : size (fun _ => none : Registry ν) n = 0 := by simp [size]

/-- An absent name may be entered anywhere. -/
theorem Distinct.enter (h : m.Distinct) (ha : ∀ j, m j ≠ some a) (i : ℕ) :
    Distinct (Function.update m i (some a)) := by
  have hold : ∀ j b, j ≠ i → Function.update m i (some a) j = some b → m j = some b ∧ b ≠ a := by
    intro j b hj hb
    rw [Function.update_of_ne hj] at hb
    exact ⟨hb, fun he => ha j (he ▸ hb)⟩
  intro j l b hj hl
  by_cases hji : j = i <;> by_cases hli : l = i
  · rw [hji, hli]
  · rw [hji, Function.update_self] at hj
    exact absurd (Option.some.inj hj).symm (hold l b hli hl).2
  · rw [hli, Function.update_self] at hl
    exact absurd (Option.some.inj hl).symm (hold j b hji hj).2
  · exact h j l b (hold j b hji hj).1 (hold l b hli hl).1

theorem Distinct.erase (h : m.Distinct) (i : ℕ) : Distinct (Function.update m i none) := by
  have hold : ∀ j b, Function.update m i none j = some b → m j = some b := by
    intro j b hb
    by_cases hj : j = i
    · rw [hj, Function.update_self] at hb
      cases hb
    · rwa [Function.update_of_ne hj] at hb
  exact fun j l b hj hl => h j l b (hold j b hj) (hold l b hl)

theorem size_enter (hi : i < n) (hm : m i = none) (a : ν) : size (Function.update m i (some a)) n = size m n + 1 := by
  have hset : ((range n).filter fun j => (Function.update m i (some a) j).isSome = true) =
      insert i ((range n).filter fun j => (m j).isSome = true) := by
    ext j
    by_cases hj : j = i
    · subst hj
      simp [hi]
    · simp [hj]
  unfold size
  rw [hset, Finset.card_insert_of_notMem (by simp [hm])]

theorem size_erase (hi : i < n) (hm : m i = some a) : size (Function.update m i none) n + 1 = size m n := by
  have hset : ((range n).filter fun j => (Function.update m i none j).isSome = true) =
      ((range n).filter fun j => (m j).isSome = true).erase i := by
    ext j
    by_cases hj : j = i
    · subst hj
      simp
    · simp [hj]
  have hmem : i ∈ (range n).filter fun j => (m j).isSome = true := by simp [hi, hm]
  unfold size
  rw [hset, Finset.card_erase_add_one hmem]

/-- A scan for a name finds its slot, wherever that is. -/
theorem Distinct.firstIdx_eq (h : m.Distinct) {p : ℕ → Bool} (hp : ∀ j < n, p j = true ↔ m j = some a) :
    firstIdx n p = some i ↔ i < n ∧ m i = some a := by
  constructor
  · intro hf
    obtain ⟨hi, hpi, -⟩ := firstIdx_some hf
    exact ⟨hi, (hp i hi).1 hpi⟩
  · rintro ⟨hi, hmi⟩
    obtain ⟨j, hj⟩ := Option.isSome_iff_exists.1 (firstIdx_isSome.2 ⟨i, hi, (hp i hi).2 hmi⟩)
    obtain ⟨hjn, hpj, -⟩ := firstIdx_some hj
    rw [hj, h j i a ((hp j hjn).1 hpj) hmi]

end Registry

end CS330.Lib
