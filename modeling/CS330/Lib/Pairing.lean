/-
Pairing neighbours in a list, over any type. Elements that are to be skipped sit out: the element before one is
paired with the element behind it. If nothing is skipped a list of even length is paired, and no other; if one
element is, a list of odd length.
-/
import Mathlib.Tactic

namespace CS330.Lib

variable {α : Type*} {skip : α → Bool} {a : α}

/-- The pairs, or nothing if an element is left without a partner. -/
def pairUp (skip : α → Bool) : List α → Option (List (α × α))
  | [] => some []
  | [a] => if skip a then some [] else none
  | [a, b] =>
    if skip a then (if skip b then some [] else none)
    else if skip b then none
    else some [(a, b)]
  | a :: b :: c :: l =>
    if skip a then pairUp skip (b :: c :: l)
    else if skip b then (pairUp skip l).map ((a, c) :: ·)
    else (pairUp skip (c :: l)).map ((a, b) :: ·)

/-- Everybody who is in a pair, in order. -/
def seats (ms : List (α × α)) : List α := ms.flatMap fun m => [m.1, m.2]

@[simp] theorem seats_nil : seats ([] : List (α × α)) = [] := rfl

@[simp] theorem seats_cons (m : α × α) (ms : List (α × α)) : seats (m :: ms) = m.1 :: m.2 :: seats ms := rfl

theorem length_seats (ms : List (α × α)) : (seats ms).length = 2 * ms.length := by
  induction ms with
  | nil => rfl
  | cons m ms ih =>
    simp only [seats_cons, List.length_cons, ih]
    ring

/-- The two of a pair, in its order. -/
theorem pair_sublist_seats {m : α × α} {ms : List (α × α)} (h : m ∈ ms) : [m.1, m.2].Sublist (seats ms) := by
  obtain ⟨pre, post, rfl⟩ := List.append_of_mem h
  unfold seats
  rw [List.flatMap_append, List.flatMap_cons]
  exact (List.sublist_append_left ..).trans (List.sublist_append_right ..)

/-! ## One step -/

theorem pairUp_skip (h : skip a = true) (l : List α) : pairUp skip (a :: l) = pairUp skip l := by
  rcases l with _ | ⟨b, _ | ⟨c, l⟩⟩ <;> simp [pairUp, h]

theorem pairUp_single (h : skip a = false) : pairUp skip [a] = none := by simp [pairUp, h]

theorem pairUp_next {b : α} (ha : skip a = false) (hb : skip b = false) (l : List α) :
    pairUp skip (a :: b :: l) = (pairUp skip l).map ((a, b) :: ·) := by
  cases l <;> simp [pairUp, ha, hb]

theorem pairUp_over {b c : α} (ha : skip a = false) (hb : skip b = true) (l : List α) :
    pairUp skip (a :: b :: c :: l) = (pairUp skip l).map ((a, c) :: ·) := by simp [pairUp, ha, hb]

theorem pairUp_stuck {b : α} (ha : skip a = false) (hb : skip b = true) : pairUp skip [a, b] = none := by
  simp [pairUp, ha, hb]

/-! ## Who is paired -/

/-- Only elements of the list are paired, in its order. -/
theorem seats_sublist : ∀ {l : List α} {ms : List (α × α)}, pairUp skip l = some ms → (seats ms).Sublist l
  | [], _, h => by
    obtain rfl := Option.some.inj h
    exact .slnil
  | a :: l, ms, h => by
    cases ha : skip a with
    | true =>
      rw [pairUp_skip ha] at h
      exact (seats_sublist h).cons a
    | false =>
      match l with
      | [] => rw [pairUp_single ha] at h; cases h
      | b :: l =>
        cases hb : skip b with
        | false =>
          rw [pairUp_next ha hb] at h
          obtain ⟨ms, hms, rfl⟩ := Option.map_eq_some_iff.1 h
          exact ((seats_sublist hms).cons_cons b).cons_cons a
        | true =>
          match l with
          | [] => rw [pairUp_stuck ha hb] at h; cases h
          | c :: l =>
            rw [pairUp_over ha hb] at h
            obtain ⟨ms, hms, rfl⟩ := Option.map_eq_some_iff.1 h
            exact (((seats_sublist hms).cons_cons c).cons b).cons_cons a

/-- Nobody sits out. -/
theorem pairUp_of_even : ∀ {l : List α}, (∀ a ∈ l, skip a = false) → Even l.length →
    ∃ ms, pairUp skip l = some ms ∧ seats ms = l
  | [], _, _ => ⟨[], rfl, rfl⟩
  | [_], _, he => by simp at he
  | a :: b :: l, h, he => by
    have hl : Even l.length := by simpa [Nat.even_add_one] using he
    obtain ⟨ms, hms, hseats⟩ := pairUp_of_even (fun c hc => h c (by simp [hc])) hl
    refine ⟨(a, b) :: ms, ?_, by simp [hseats]⟩
    rw [pairUp_next (h a (by simp)) (h b (by simp)), hms, Option.map_some]

/-- The last one has no partner. -/
theorem pairUp_of_odd : ∀ {l : List α}, (∀ a ∈ l, skip a = false) → Odd l.length → pairUp skip l = none
  | [], _, ho => by simp at ho
  | [a], h, _ => pairUp_single (h a (by simp))
  | a :: b :: l, h, ho => by
    have hl : Odd l.length := by simpa [Nat.odd_add_one, Nat.even_add_one] using ho
    rw [pairUp_next (h a (by simp)) (h b (by simp)), pairUp_of_odd (fun c hc => h c (by simp [hc])) hl,
      Option.map_none]

/-- One sits out, wherever that is; everybody else is paired. -/
theorem pairUp_of_middle {w : α} (hw : skip w = true) : ∀ {pre post : List α}, (∀ a ∈ pre ++ post, skip a = false) →
    Even (pre ++ post).length → ∃ ms, pairUp skip (pre ++ w :: post) = some ms ∧ seats ms = pre ++ post
  | [], post, h, he => by
    rw [List.nil_append, pairUp_skip hw]
    exact pairUp_of_even h he
  | [a], [], _, he => by simp at he
  | [a], c :: post, h, he => by
    -- `a` is paired with the one behind `w`
    have hpost : Even post.length := by simpa [Nat.even_add_one] using he
    obtain ⟨ms, hms, hseats⟩ := pairUp_of_even (fun b hb => h b (by simp [hb])) hpost
    refine ⟨(a, c) :: ms, ?_, by simp [hseats]⟩
    rw [List.singleton_append, pairUp_over (h a (by simp)) hw, hms, Option.map_some]
  | a :: b :: pre, post, h, he => by
    have hrest : Even (pre ++ post).length := by
      simpa only [List.cons_append, List.length_cons, Nat.even_add_one, not_not] using he
    have hnone : ∀ c ∈ pre ++ post, skip c = false := fun c hc =>
      h c (List.mem_cons_of_mem _ (List.mem_cons_of_mem _ hc))
    obtain ⟨ms, hms, hseats⟩ := pairUp_of_middle hw hnone hrest
    refine ⟨(a, b) :: ms, ?_, by simp [hseats]⟩
    rw [List.cons_append, List.cons_append, pairUp_next (h a (by simp)) (h b (by simp)), hms, Option.map_some]

end CS330.Lib
