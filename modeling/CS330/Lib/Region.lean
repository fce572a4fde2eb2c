/-
Regions of a flat memory: the list a region holds, the loop that copies an array into it, and what
the copy does to that region and to others. A copy that starts inside or right behind the list a
region holds splices the array into the list.
-/
import CS330.Lib.Loop

namespace CS330.Lib

variable {α : Type*}

/-! ## Overwriting part of a list -/

/-- `l` with the positions from `off` on overwritten by `xs`, extended where `xs` reaches further. -/
def splice (l : List α) (off : ℕ) (xs : List α) : List α := l.take off ++ xs ++ l.drop (off + xs.length)

theorem getElem?_splice {l : List α} {off : ℕ} (h : off ≤ l.length) (xs : List α) (i : ℕ) :
    (splice l off xs)[i]? = if off ≤ i ∧ i < off + xs.length then xs[i - off]? else l[i]? := by
  have hlen : (l.take off).length = off := by simp [h]
  unfold splice
  split
  · rename_i h1
    rw [List.getElem?_append_left (by simp only [List.length_append, hlen]; omega),
      List.getElem?_append_right (by rw [hlen]; exact h1.1), hlen]
  · rename_i h1
    rcases Nat.lt_or_ge i off with h2 | h2
    · rw [List.getElem?_append_left (by simp only [List.length_append, hlen]; omega),
        List.getElem?_append_left (by rw [hlen]; exact h2), List.getElem?_take_of_lt h2]
    · rw [List.getElem?_append_right (by simp only [List.length_append, hlen]; omega), List.getElem?_drop]
      congr 1
      simp only [List.length_append, hlen]
      omega

@[simp] theorem splice_nil (l : List α) (off : ℕ) : splice l off [] = l := by simp [splice]

/-- What is written behind what was written is written at once. -/
theorem splice_splice {l : List α} {off : ℕ} (h : off ≤ l.length) (xs ys : List α) :
    splice (splice l off xs) (off + xs.length) ys = splice l off (xs ++ ys) := by
  have hlen : (l.take off ++ xs).length = off + xs.length := by simp [h]
  have hdrop : (l.take off ++ xs ++ l.drop (off + xs.length)).drop (off + xs.length + ys.length) =
      l.drop (off + (xs ++ ys).length) := by
    rw [← hlen, List.drop_append, List.drop_eq_nil_of_le (by omega), List.nil_append, List.drop_drop, hlen,
      List.length_append]
    congr 1
    omega
  unfold splice
  rw [hdrop, ← hlen, List.take_left, List.append_assoc (l.take off)]

/-! ## Memory -/

/-- The `n` cells from address `a` on. -/
def region (m : ℕ → α) (a n : ℕ) : List α := slice (fun k => m (a + k)) n

@[simp] theorem length_region (m : ℕ → α) (a n : ℕ) : (region m a n).length = n := length_slice ..

theorem region_congr {m m' : ℕ → α} {a n : ℕ} (h : ∀ x, a ≤ x → x < a + n → m x = m' x) :
    region m a n = region m' a n :=
  slice_congr fun k hk => h (a + k) (by omega) (by omega)

/-- A part of a region is a region. -/
theorem region_drop_take (m : ℕ → α) (a n off len : ℕ) :
    ((region m a n).drop off).take len = region m (a + off) (min len (n - off)) := by
  apply List.ext_getElem
  · simp
  · intro i h1 h2
    simp [region, add_assoc]

/-- `for (i = 0; i < n; i++) a[i] = b[i]`, on the memory `a` points into. -/
def copyIn (m : ℕ → α) (a n : ℕ) (b : ℕ → α) : ℕ → α :=
  forRange 0 n (fun i m => Function.update m (a + i) (b i)) m

theorem copyIn_apply (m : ℕ → α) (a n : ℕ) (b : ℕ → α) (x : ℕ) :
    copyIn m a n b x = if a ≤ x ∧ x < a + n then b (x - a) else m x :=
  forRange_write (w := fun x => b (x - a)) (fun k _ _ _ _ => by rw [Nat.add_sub_cancel_left]) x

/-- A copy whose first element is there already is the rest of it. -/
theorem copyIn_update (m : ℕ → α) (a n : ℕ) (b : ℕ → α) :
    copyIn (Function.update m a (b 0)) (a + 1) n (fun j => b (j + 1)) = copyIn m a (n + 1) b := by
  funext x
  rw [copyIn_apply, copyIn_apply]
  rcases lt_trichotomy x a with hx | rfl | hx
  · rw [if_neg (by omega), if_neg (by omega), Function.update_of_ne hx.ne]
  · rw [if_neg (by omega), if_pos (by omega), Function.update_self, Nat.sub_self]
  · obtain ⟨d, rfl⟩ : ∃ d, x = a + 1 + d := ⟨x - (a + 1), by omega⟩
    have hd : a + 1 + d - a = d + 1 := by omega
    rw [hd, Nat.add_sub_cancel_left, Function.update_of_ne (by omega)]
    congr 1
    apply propext
    omega

/-- A copy of a list that an array starts with is a copy of the array. -/
theorem copyIn_slice (m : ℕ → α) (a n : ℕ) (b : ℕ → α) (d : α) :
    copyIn m a n (fun j => (slice b n).getD j d) = copyIn m a n b := by
  funext x
  rw [copyIn_apply, copyIn_apply]
  split
  · rename_i hx
    rw [List.getD_eq_getElem?_getD, getElem?_slice, if_pos (by omega), Option.getD_some]
  · rfl

/-- A copy changes no cell outside its range. -/
theorem region_copyIn_disjoint {m : ℕ → α} {a n c k : ℕ} (b : ℕ → α) (h : c + k ≤ a ∨ a + n ≤ c) :
    region (copyIn m a n b) c k = region m c k :=
  region_congr fun x h1 h2 => by rw [copyIn_apply, if_neg (by omega)]

/-- A copy that starts at offset `off` of a region, not behind its end, splices into its list. -/
theorem region_copyIn {m : ℕ → α} {a len off n : ℕ} (b : ℕ → α) (h : off ≤ len) :
    region (copyIn m (a + off) n b) a (max len (off + n)) = splice (region m a len) off (slice b n) := by
  have hoff : off ≤ (region m a len).length := by simpa using h
  apply List.ext_getElem?
  intro i
  rw [getElem?_splice hoff]
  unfold region
  simp only [getElem?_slice, length_slice, copyIn_apply]
  by_cases hi : off ≤ i ∧ i < off + n
  · rw [if_pos hi, if_pos (by omega), if_pos (by omega), if_pos (by omega)]
    congr 2; omega
  · rw [if_neg hi, if_neg (show ¬ (a + off ≤ a + i ∧ a + i < a + off + n) by omega)]
    congr 1
    apply propext
    omega

end CS330.Lib
