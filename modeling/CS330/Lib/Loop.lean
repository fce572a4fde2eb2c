/-
Counted loops and in-place arrays, over any element type: `forRange` is a C `for` loop over an
index, with the invariant rule that every loop proof goes through; `slice` is the list held by the
first `n` cells of an array; and the three array loops that recur in systems code are characterised
by what they do to that list: the shift that closes a gap, the compaction that keeps the cells
passing a test, and the fill.

Arrays are read through an index map `p` (a pointer table, or the identity), so the laws also hold
for arrays whose cells are reached indirectly, as long as distinct indices reach distinct cells.
-/
import Mathlib.Tactic

namespace CS330.Lib

/-! ## Counted loops -/

section Loop

variable {σ : Type*}

/-- `for (j = i; j < n; j++) s = body j s`. -/
def forRange (i n : ℕ) (body : ℕ → σ → σ) (s : σ) : σ :=
  (List.range' i (n - i)).foldl (fun s j => body j s) s

/-- A loop whose range is empty does nothing. -/
@[simp] theorem forRange_of_le {i n : ℕ} (h : n ≤ i) (body : ℕ → σ → σ) (s : σ) :
    forRange i n body s = s := by
  simp [forRange, Nat.sub_eq_zero_of_le h]

theorem forRange_succ {i n : ℕ} (h : i ≤ n) (body : ℕ → σ → σ) (s : σ) :
    forRange i (n + 1) body s = body n (forRange i n body s) := by
  unfold forRange
  rw [show n + 1 - i = (n - i) + 1 by omega, List.range'_concat, List.foldl_append]
  simp [show i + (n - i) = n by omega]

/-- The invariant rule: `P j` holds before the iteration with index `j`. -/
theorem forRange_inv {i n : ℕ} {f : ℕ → σ → σ} {s : σ} (P : ℕ → σ → Prop) (hin : i ≤ n)
    (h0 : P i s) (hstep : ∀ j s, i ≤ j → j < n → P j s → P (j + 1) (f j s)) :
    P n (forRange i n f s) := by
  induction n, hin using Nat.le_induction with
  | base => simpa using h0
  | succ n hn ih =>
    rw [forRange_succ hn]
    exact hstep n _ hn (Nat.lt_succ_self n) (ih fun j s hj hjn => hstep j s hj (by omega))

/-- A property every iteration keeps holds after the loop. -/
theorem forRange_keep {i n : ℕ} {f : ℕ → σ → σ} {s : σ} (P : σ → Prop) (h0 : P s)
    (hstep : ∀ j s, i ≤ j → j < n → P s → P (f j s)) : P (forRange i n f s) := by
  rcases le_total i n with hin | hni
  · exact forRange_inv (fun _ => P) hin h0 hstep
  · simpa [hni] using h0

/-- Loops whose bodies agree on the range agree. -/
theorem forRange_congr {i n : ℕ} {f g : ℕ → σ → σ} (h : ∀ j s, i ≤ j → j < n → f j s = g j s) (s : σ) :
    forRange i n f s = forRange i n g s := by
  rcases le_total i n with hin | hni
  · induction n, hin using Nat.le_induction with
    | base => simp
    | succ n hn ih =>
      rw [forRange_succ hn, forRange_succ hn, ih fun j s hj hjn => h j s hj (by omega)]
      exact h n _ hn (Nat.lt_succ_self n)
  · simp [hni]

/-- The first index below `n` passing the test: a scan that stops at its first hit. -/
def firstIdx (n : ℕ) (p : ℕ → Bool) : Option ℕ := (List.range n).find? p

theorem firstIdx_some {n i : ℕ} {p : ℕ → Bool} (h : firstIdx n p = some i) :
    i < n ∧ p i = true ∧ ∀ j < i, p j = false := by
  unfold firstIdx at h
  rw [List.find?_range_eq_some] at h
  obtain ⟨hp, hm, hlt⟩ := h
  exact ⟨List.mem_range.1 hm, hp, fun j hj => by simpa using hlt j hj⟩

theorem firstIdx_none {n : ℕ} {p : ℕ → Bool} : firstIdx n p = none ↔ ∀ j < n, p j = false := by
  simp [firstIdx]

theorem firstIdx_congr {n : ℕ} {p q : ℕ → Bool} (h : ∀ i < n, p i = q i) : firstIdx n p = firstIdx n q := by
  unfold firstIdx
  exact List.find?_congr fun i hi => h i (List.mem_range.1 hi)

theorem firstIdx_isSome {n : ℕ} {p : ℕ → Bool} : (firstIdx n p).isSome ↔ ∃ j < n, p j = true := by
  rw [← Option.ne_none_iff_isSome, Ne, firstIdx_none]
  push Not
  simp

end Loop

/-! ## Loops that may fail -/

section Except

variable {ε σ α : Type*}

/-- The invariant rule for a loop over a list whose body may fail: with the invariant, which may
speak of the elements done, no body fails. -/
theorem foldlM_ok {l : List α} {f : σ → α → Except ε σ} {s : σ} (P : List α → σ → Prop) (h0 : P [] s)
    (hstep : ∀ pre a post s, l = pre ++ a :: post → P pre s → ∃ s', f s a = .ok s' ∧ P (pre ++ [a]) s') :
    ∃ s', l.foldlM f s = .ok s' ∧ P l s' := by
  suffices h : ∀ (rest pre : List α) (s : σ), l = pre ++ rest → P pre s →
      ∃ s', rest.foldlM f s = .ok s' ∧ P l s' from h l [] s rfl h0
  intro rest
  induction rest with
  | nil =>
    rintro pre s rfl hp
    exact ⟨s, rfl, by simpa using hp⟩
  | cons a rest ih =>
    intro pre s hl hp
    obtain ⟨s', he, hp'⟩ := hstep pre a rest s hl hp
    obtain ⟨s'', he', hp''⟩ := ih (pre ++ [a]) s' (by simpa using hl) hp'
    refine ⟨s'', ?_, hp''⟩
    rw [List.foldlM_cons, he]
    exact he'

/-- A computation that comes back does so through its first part. -/
theorem bind_ok.{u} {β γ : Type u} {x : Except ε β} {f : β → Except ε γ} {c : γ} (h : x >>= f = .ok c) :
    ∃ b, x = .ok b ∧ f b = .ok c := by
  cases x with
  | ok b => exact ⟨b, rfl, h⟩
  | error e => cases h

theorem map_ok.{u} {β γ : Type u} {x : Except ε β} {f : β → γ} {c : γ} (h : f <$> x = .ok c) :
    ∃ b, x = .ok b ∧ f b = c := by
  cases x with
  | ok b => exact ⟨b, rfl, Except.ok.inj h⟩
  | error e => cases h

/-- A loop whose body fails at some elements and does nothing at the others. -/
theorem foldlM_guard {l : List α} {f : σ → α → Except ε σ} {s : σ} (e : ε) (bad : α → Prop) [DecidablePred bad]
    (h : ∀ a ∈ l, f s a = if bad a then .error e else .ok s) :
    l.foldlM f s = if ∃ a ∈ l, bad a then .error e else .ok s := by
  induction l with
  | nil => simp only [List.not_mem_nil, false_and, exists_false, if_false, List.foldlM_nil, pure, Except.pure]
  | cons a l ih =>
    rw [List.foldlM_cons, h a (List.mem_cons_self ..)]
    by_cases ha : bad a
    · rw [if_pos ha, if_pos ⟨a, List.mem_cons_self .., ha⟩]
      rfl
    · have hrest : (∃ b ∈ a :: l, bad b) ↔ ∃ b ∈ l, bad b := by
        simp only [List.mem_cons, or_and_right, exists_or, exists_eq_left, ha, false_or]
      rw [if_neg ha]
      simp only [hrest]
      exact ih fun b hb => h b (List.mem_cons_of_mem _ hb)

/-- What no body that comes back breaks, a loop that comes back keeps. -/
theorem foldlM_keep {l : List α} {f : σ → α → Except ε σ} {s s' : σ} (P : σ → Prop)
    (hstep : ∀ s a s', P s → f s a = .ok s' → P s') (h0 : P s) (h : l.foldlM f s = .ok s') : P s' := by
  induction l generalizing s with
  | nil =>
    cases h
    exact h0
  | cons a l ih =>
    rw [List.foldlM_cons] at h
    obtain ⟨t, ht, hrest⟩ := bind_ok h
    exact ih (hstep s a t h0 ht) hrest

end Except

/-! ## The list an array holds -/

section Slice

variable {α β : Type*}

/-- The first `n` cells of an array, in order. -/
def slice (f : ℕ → α) (n : ℕ) : List α := (List.range n).map f

@[simp] theorem slice_zero (f : ℕ → α) : slice f 0 = [] := rfl

@[simp] theorem length_slice (f : ℕ → α) (n : ℕ) : (slice f n).length = n := by simp [slice]

theorem slice_succ (f : ℕ → α) (n : ℕ) : slice f (n + 1) = slice f n ++ [f n] := by
  simp [slice, List.range_succ]

theorem mem_slice {f : ℕ → α} {n : ℕ} {a : α} : a ∈ slice f n ↔ ∃ j < n, f j = a := by
  simp [slice]

theorem slice_congr {f g : ℕ → α} {n : ℕ} (h : ∀ j < n, f j = g j) : slice f n = slice g n :=
  List.map_congr_left fun j hj => h j (List.mem_range.1 hj)

@[simp] theorem getElem_slice (f : ℕ → α) (n i : ℕ) (h : i < (slice f n).length) :
    (slice f n)[i] = f i := by
  simp [slice]

theorem getElem?_slice (f : ℕ → α) (n i : ℕ) : (slice f n)[i]? = if i < n then some (f i) else none := by
  rcases Nat.lt_or_ge i n with h | h
  · rw [List.getElem?_eq_getElem (by simpa using h), getElem_slice, if_pos h]
  · rw [List.getElem?_eq_none (by simpa using h), if_neg (by omega)]

/-- An array splits at any index below its length. -/
theorem slice_split (f : ℕ → α) {i n : ℕ} (h : i < n) :
    slice f n = slice f i ++ f i :: slice (fun j => f (i + 1 + j)) (n - (i + 1)) := by
  apply List.ext_getElem
  · simp; omega
  · intro j h1 h2
    simp only [getElem_slice]
    rcases lt_trichotomy j i with hj | rfl | hj
    · rw [List.getElem_append_left (by simpa using hj)]; simp
    · rw [List.getElem_append_right (by simp)]; simp
    · rw [List.getElem_append_right (by simp; omega)]
      simp only [length_slice]
      rw [List.getElem_cons, dif_neg (by omega)]
      simp only [getElem_slice]
      congr 1; omega

/-- Two indices of a duplicate-free array that hold the same value are equal. -/
theorem slice_nodup_inj {f : ℕ → α} {n : ℕ} (h : (slice f n).Nodup) {i j : ℕ} (hi : i < n) (hj : j < n)
    (he : f i = f j) : i = j :=
  List.inj_on_of_nodup_map h (List.mem_range.2 hi) (List.mem_range.2 hj) he

end Slice

/-! ## Closing a gap -/

section Shift

variable {κ α : Type*} [DecidableEq κ]

/-- `for (j = i; j < n; j++) *p[j] = *p[j+1]`. -/
def shiftDown (p : ℕ → κ) (i n : ℕ) (c : κ → α) : κ → α :=
  forRange i n (fun j c => Function.update c (p j) (c (p (j + 1)))) c

theorem shiftDown_apply {p : ℕ → κ} {i n : ℕ} (hp : ∀ a ≤ n, ∀ b ≤ n, p a = p b → a = b) (c : κ → α)
    {x : ℕ} (hx : x ≤ n) :
    shiftDown p i n c (p x) = if i ≤ x ∧ x < n then c (p (x + 1)) else c (p x) := by
  rcases Nat.lt_or_ge n i with h | hin
  · rw [shiftDown, forRange_of_le (by omega), if_neg (by omega)]
  have key := forRange_inv (s := c) (f := fun j c => Function.update c (p j) (c (p (j + 1))))
    (fun j (d : κ → α) => ∀ x ≤ n, d (p x) = if i ≤ x ∧ x < j then c (p (x + 1)) else c (p x)) hin
    (fun x _ => by rw [if_neg (by omega)])
    (fun j d hij hjn ih x hx => by
      by_cases hxj : x = j
      · subst hxj
        rw [Function.update_self, ih (x + 1) (by omega), if_neg (by omega), if_pos (by omega)]
      · rw [Function.update_of_ne fun h => hxj (hp x hx j (by omega) h), ih x hx]
        congr 1; apply propext; omega)
  exact key x hx

/-- Shifting the tail down over index `i` erases that index from the list the cells hold. -/
theorem slice_shiftDown {p : ℕ → κ} {i m n : ℕ} (hi : i ≤ m) (hm : m ≤ n)
    (hp : ∀ a ≤ n, ∀ b ≤ n, p a = p b → a = b) (c : κ → α) :
    slice (fun j => shiftDown p i n c (p j)) m =
      slice (fun j => c (p j)) i ++ slice (fun j => c (p (i + 1 + j))) (m - i) := by
  apply List.ext_getElem
  · simp; omega
  · intro j h1 h2
    simp only [length_slice] at h1
    simp only [getElem_slice]
    rw [shiftDown_apply hp c (by omega)]
    rcases Nat.lt_or_ge j i with hj | hj
    · rw [List.getElem_append_left (by simpa using hj), if_neg (by omega)]; simp
    · rw [List.getElem_append_right (by simpa using hj), if_pos ⟨hj, by omega⟩]
      simp only [length_slice, getElem_slice]
      congr 2; omega

end Shift

/-! ## Compaction -/

section Compact

variable {κ α : Type*} [DecidableEq κ]

/-- `t = 0; for (j = 0; j < n; j++) if (keep *p[j]) *p[t++] = *p[j]`, as the final `t` and cells. -/
def compact (p : ℕ → κ) (keep : α → Bool) (n : ℕ) (c : κ → α) : ℕ × (κ → α) :=
  forRange 0 n (fun j s => if keep (s.2 (p j)) then (s.1 + 1, Function.update s.2 (p s.1) (s.2 (p j))) else s)
    (0, c)

/-- The state of the compaction before index `j`: the kept cells so far are the first `t` ones and
the cells from `j` on are untouched. -/
structure CompactInv (p : ℕ → κ) (keep : α → Bool) (n : ℕ) (c : κ → α) (j : ℕ) (s : ℕ × (κ → α)) : Prop where
  le : s.1 ≤ j
  kept : slice (fun x => s.2 (p x)) s.1 = (slice (fun x => c (p x)) j).filter keep
  rest : ∀ x, j ≤ x → x < n → s.2 (p x) = c (p x)

theorem compact_inv {p : ℕ → κ} {n : ℕ} (hp : ∀ a < n, ∀ b < n, p a = p b → a = b) (keep : α → Bool)
    (c : κ → α) : CompactInv p keep n c n (compact p keep n c) := by
  refine forRange_inv (CompactInv p keep n c) (Nat.zero_le n) ⟨le_rfl, rfl, fun _ _ _ => rfl⟩ ?_
  rintro j ⟨t, d⟩ - hjn ⟨hle, hkept, hrest⟩
  simp only at hle hkept hrest
  have hj : d (p j) = c (p j) := hrest j le_rfl hjn
  by_cases hk : keep (d (p j)) = true
  · simp only [hk, if_true]
    have hne : ∀ x < n, x ≠ t → p x ≠ p t := fun x hx hxt h => hxt (hp x hx t (by omega) h)
    refine ⟨by simp only; omega, ?_, fun x hx hxn => ?_⟩
    · simp only [slice_succ, Function.update_self, List.filter_append]
      rw [← hkept, hj]
      congr 1
      · exact slice_congr fun x hx => Function.update_of_ne (hne x (by omega) (by omega)) _ _
      · rw [← hj]; simp [hk]
    · simp only
      rw [Function.update_of_ne (hne x hxn (by omega)), hrest x (by omega) hxn]
  · simp only [hk]
    refine ⟨by simp only [Bool.false_eq_true, if_false]; omega, ?_, fun x hx hxn => hrest x (by omega) hxn⟩
    rw [hj] at hk
    simp [slice_succ, hkept, hk]

/-- Compaction keeps exactly the cells passing the test, in order. -/
theorem slice_compact {p : ℕ → κ} {n : ℕ} (hp : ∀ a < n, ∀ b < n, p a = p b → a = b) (keep : α → Bool)
    (c : κ → α) :
    slice (fun x => (compact p keep n c).2 (p x)) (compact p keep n c).1 =
      (slice (fun x => c (p x)) n).filter keep :=
  (compact_inv hp keep c).kept

theorem compact_le {p : ℕ → κ} {n : ℕ} (hp : ∀ a < n, ∀ b < n, p a = p b → a = b) (keep : α → Bool)
    (c : κ → α) : (compact p keep n c).1 ≤ n :=
  (compact_inv hp keep c).le

end Compact

/-! ## Writing loops -/

section Write

variable {α : Type*}

/-- A loop that writes cells `a + i, …, a + n - 1` in order, the value for a cell depending only on
cells the loop has not written yet. -/
theorem forRange_write {a i n : ℕ} {v : ℕ → (ℕ → α) → α} {f w : ℕ → α}
    (hv : ∀ k d, i ≤ k → k < n → (∀ x, x < a + i ∨ a + k ≤ x → d x = f x) → v k d = w (a + k)) (x : ℕ) :
    forRange i n (fun k d => Function.update d (a + k) (v k d)) f x =
      if a + i ≤ x ∧ x < a + n then w x else f x := by
  rcases Nat.lt_or_ge n i with hni | hin
  · rw [forRange_of_le (by omega), if_neg (by omega)]
  have key := forRange_inv (s := f) (f := fun k d => Function.update d (a + k) (v k d))
    (fun k d => ∀ x, d x = if a + i ≤ x ∧ x < a + k then w x else f x) hin
    (fun x => by rw [if_neg (by omega)])
    (fun k d hik hkn ih x => by
      by_cases hx : x = a + k
      · subst hx
        rw [Function.update_self, if_pos (by omega)]
        exact hv k d hik hkn fun y hy => by rw [ih, if_neg (by omega)]
      · rw [Function.update_of_ne hx, ih]
        congr 1; apply propext; omega)
  exact key x

/-- The same for a row-major matrix of `m` columns: rows `i, …, n - 1`, each left to right. -/
theorem forRange_rows {m i n : ℕ} {v : ℕ → ℕ → (ℕ → α) → α} {f w : ℕ → α}
    (hv : ∀ j k d, i ≤ j → j < n → k < m → (∀ x, x < m * i ∨ m * j + k ≤ x → d x = f x) →
      v j k d = w (m * j + k)) (x : ℕ) :
    forRange i n (fun j d => forRange 0 m (fun k d => Function.update d (m * j + k) (v j k d)) d) f x =
      if m * i ≤ x ∧ x < m * n then w x else f x := by
  rcases Nat.lt_or_ge n i with hni | hin
  · have := Nat.mul_le_mul_left m hni.le
    rw [forRange_of_le (by omega), if_neg (by omega)]
  have key := forRange_inv (s := f)
    (f := fun j d => forRange 0 m (fun k d => Function.update d (m * j + k) (v j k d)) d)
    (fun j d => ∀ x, d x = if m * i ≤ x ∧ x < m * j then w x else f x) hin
    (fun x => by rw [if_neg (by omega)])
    (fun j d hij hjn ih x => by
      have hle : m * i ≤ m * j := Nat.mul_le_mul_left m hij
      have hsucc : m * (j + 1) = m * j + m := Nat.mul_succ m j
      rw [forRange_write (w := w) fun k e _ hkm he => hv j k e hij hjn hkm fun y hy => by
        rw [he y (by omega), ih, if_neg (by omega)]]
      by_cases hx : m * j ≤ x ∧ x < m * j + m
      · rw [if_pos (by omega), if_pos (by omega)]
      · rw [if_neg (by omega), ih]
        congr 1; apply propext; omega)
  exact key x

end Write

end CS330.Lib
