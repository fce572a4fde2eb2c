/-
`strtok`, over lists of any type: each call skips delimiters and takes what is before the next one. Called again and
again from where it stopped it gives the nonempty fields between the delimiters, and then nothing any more.
-/
import Mathlib.Tactic

namespace CS330.Lib

variable {α : Type*} [DecidableEq α] {delim : α} {s : List α}

/-- The token from a position on, and the position behind the delimiter that ends it. -/
def strtok (delim : α) (s : List α) : Option (List α) × List α :=
  match s.dropWhile (· == delim) with
  | [] => (none, [])
  | c :: r => (some ((c :: r).takeWhile (· != delim)), ((c :: r).dropWhile (· != delim)).tail)

/-- What is between the delimiters, without the empty fields. -/
def fields (delim : α) (s : List α) : List (List α) := (s.splitOn delim).filter fun t => !t.isEmpty

@[simp] theorem fields_nil (delim : α) : fields delim [] = [] := rfl

@[simp] theorem strtok_nil (delim : α) : strtok delim [] = (none, []) := rfl

theorem strtok_delim (delim : α) (s : List α) : strtok delim (delim :: s) = strtok delim s := by
  simp [strtok]

theorem fields_delim (delim : α) (s : List α) : fields delim (delim :: s) = fields delim s := by
  simp [fields, List.splitOn_cons_eq_if_modifyHead]

theorem strtok_cons {c : α} (h : c ≠ delim) (s : List α) :
    strtok delim (c :: s) = (some (c :: s.takeWhile (· != delim)), (s.dropWhile (· != delim)).tail) := by
  simp [strtok, h]

/-- A field of its own. -/
theorem fields_cons {c : α} (h : c ≠ delim) (s : List α) : fields delim (c :: s) =
    (c :: s.takeWhile (· != delim)) :: fields delim (s.dropWhile (· != delim)).tail := by
  have hfree : delim ∉ c :: s.takeWhile (· != delim) := by
    intro hm
    rcases List.mem_cons.1 hm with rfl | hm
    · exact h rfl
    · simpa using List.all_eq_true.1 List.all_takeWhile delim hm
  have hsplit : c :: s = (c :: s.takeWhile (· != delim)) ++ s.dropWhile (· != delim) := by
    rw [List.cons_append, List.takeWhile_append_dropWhile]
  unfold fields
  cases hrest : s.dropWhile (· != delim) with
  | nil =>
    rw [hrest, List.append_nil] at hsplit
    rw [hsplit, List.splitOn_eq_singleton hfree]
    simp
  | cons d rest =>
    have hd : d = delim := by
      have := List.head_dropWhile_not (· != delim) (l := s) (by rw [hrest]; simp)
      simpa [hrest] using this
    subst hd
    rw [hrest] at hsplit
    rw [hsplit, List.splitOn_append_cons_self_of_not_mem hfree]
    simp

/-- A call gives the first field that is left, or says that there is none, at the end of the list. -/
theorem strtok_fields (delim : α) (s : List α) :
    (strtok delim s = (none, []) ∧ fields delim s = []) ∨
      ∃ t r, strtok delim s = (some t, r) ∧ fields delim s = t :: fields delim r := by
  induction s with
  | nil => exact Or.inl ⟨rfl, rfl⟩
  | cons c s ih =>
    by_cases h : c = delim
    · subst h
      rw [strtok_delim, fields_delim]
      exact ih
    · exact Or.inr ⟨_, _, strtok_cons h s, fields_cons h s⟩

theorem strtok_of_nil (h : fields delim s = []) : strtok delim s = (none, []) := by
  rcases strtok_fields delim s with ⟨hs, -⟩ | ⟨t, r, -, hf⟩
  · exact hs
  · rw [h] at hf
    cases hf

theorem strtok_of_cons {t : List α} {ts : List (List α)} (h : fields delim s = t :: ts) :
    ∃ r, strtok delim s = (some t, r) ∧ fields delim r = ts := by
  rcases strtok_fields delim s with ⟨-, hf⟩ | ⟨t', r, hs, hf⟩
  · rw [h] at hf
    cases hf
  · rw [h] at hf
    obtain ⟨rfl, rfl⟩ := List.cons.inj hf
    exact ⟨r, hs, rfl⟩

/-- The first field of a list with what is before and behind it. -/
theorem fields_split {t : List α} {ts : List (List α)} (h : fields delim s = t :: ts) :
    ∃ pre tail, s = pre ++ (t ++ tail) ∧ (∀ c ∈ pre, c = delim) ∧ t ≠ [] ∧ delim ∉ t ∧
      (tail = [] ∧ ts = [] ∨ ∃ r, tail = delim :: r ∧ fields delim r = ts) := by
  induction s with
  | nil => cases h
  | cons c s ih =>
    by_cases hc : c = delim
    · subst hc
      rw [fields_delim] at h
      obtain ⟨pre, tail, rfl, hpre, hrest⟩ := ih h
      exact ⟨c :: pre, tail, rfl, List.forall_mem_cons.2 ⟨rfl, hpre⟩, hrest⟩
    · rw [fields_cons hc] at h
      obtain ⟨rfl, rfl⟩ := List.cons.inj h
      refine ⟨[], s.dropWhile (· != delim), ?_, by simp, List.cons_ne_nil _ _, ?_, ?_⟩
      · rw [List.nil_append, List.cons_append, List.takeWhile_append_dropWhile]
      · intro hm
        rcases List.mem_cons.1 hm with rfl | hm
        · exact hc rfl
        · simpa using List.all_eq_true.1 List.all_takeWhile delim hm
      · cases hd : s.dropWhile (· != delim) with
        | nil => exact Or.inl ⟨rfl, rfl⟩
        | cons d r =>
          have hdelim : d = delim := by
            have := List.head_dropWhile_not (· != delim) (l := s) (by rw [hd]; simp)
            simpa [hd] using this
          exact Or.inr ⟨r, by rw [hdelim], rfl⟩

theorem eq_delim_of_fields_nil (h : fields delim s = []) :
    ∀ c ∈ s, c = delim := by
  induction s with
  | nil => simp
  | cons c s ih =>
    by_cases hc : c = delim
    · subst hc
      rw [fields_delim] at h
      exact List.forall_mem_cons.2 ⟨rfl, ih h⟩
    · rw [fields_cons hc] at h
      cases h

/-- Nothing is lost but the delimiters. -/
theorem flatten_fields (delim : α) (s : List α) : (fields delim s).flatten = s.filter (· != delim) := by
  induction h : s.length using Nat.strong_induction_on generalizing s with
  | _ n ih =>
    subst h
    cases hf : fields delim s with
    | nil =>
      rw [List.flatten_nil, eq_comm, List.filter_eq_nil_iff]
      exact fun c hc => by simp [eq_delim_of_fields_nil hf c hc]
    | cons t ts =>
      obtain ⟨pre, tail, rfl, hpre, hne, hfree, htail⟩ := fields_split hf
      have hskip : pre.filter (· != delim) = [] := List.filter_eq_nil_iff.2 fun c hc => by simp [hpre c hc]
      have hkeep : t.filter (· != delim) = t := List.filter_eq_self.2 fun c hc => by
        simpa using fun he : c = delim => hfree (he ▸ hc)
      rw [List.flatten_cons, List.filter_append, List.filter_append, hskip, hkeep, List.nil_append]
      rcases htail with ⟨rfl, rfl⟩ | ⟨r, rfl, rfl⟩
      · rfl
      · rw [ih r.length (by simp only [List.length_append, List.length_cons]; omega) r rfl]
        simp

theorem mem_of_mem_fields {t : List α} (h : t ∈ fields delim s) {c : α} (hc : c ∈ t) : c ∈ s := by
  have hm : c ∈ (fields delim s).flatten := List.mem_flatten.2 ⟨t, h, hc⟩
  rw [flatten_fields] at hm
  exact (List.mem_filter.1 hm).1

theorem length_le_of_mem_fields {t : List α} (h : t ∈ fields delim s) : t.length ≤ s.length := by
  have hsub := (List.sublist_flatten_of_mem h).length_le
  rw [flatten_fields] at hsub
  exact hsub.trans (List.length_filter_le ..)

/-- Delimiters at the end make no field. -/
theorem fields_append_delim (delim : α) (s : List α) : fields delim (s ++ [delim]) = fields delim s := by
  have hsplit : (s ++ [delim]).splitOn delim = s.splitOn delim ++ [[]] := by
    induction s with
    | nil => simp [List.splitOn_cons_eq_if_modifyHead]
    | cons c s ih =>
      rw [List.cons_append, List.splitOn_cons_eq_if_modifyHead, List.splitOn_cons_eq_if_modifyHead, ih]
      split
      · rfl
      · cases hs : s.splitOn delim with
        | nil => exact absurd hs (List.splitOn_ne_nil _ _)
        | cons t ts => rfl
  unfold fields
  rw [hsplit, List.filter_append]
  simp

theorem fields_append_replicate (delim : α) (s : List α) (k : ℕ) :
    fields delim (s ++ List.replicate k delim) = fields delim s := by
  induction k with
  | zero => simp
  | succ k ih => rw [List.replicate_succ', ← List.append_assoc, fields_append_delim, ih]

theorem length_fields_le (delim : α) (s : List α) : (fields delim s).length ≤ s.length := by
  induction h : s.length using Nat.strong_induction_on generalizing s with
  | _ n ih =>
    subst h
    cases s with
    | nil => exact le_rfl
    | cons c s =>
      by_cases hc : c = delim
      · subst hc
        rw [fields_delim]
        exact (ih s.length (Nat.lt_succ_self _) s rfl).trans (Nat.le_succ _)
      · -- what is behind the field and its delimiter is no longer than what is behind the first element
        have hrest : ((s.dropWhile (· != delim)).tail).length ≤ s.length := by
          rw [List.length_tail]
          exact (Nat.sub_le ..).trans (List.dropWhile_suffix _).length_le
        have htail := ih _ (Nat.lt_succ_of_le hrest) _ rfl
        rw [fields_cons hc, List.length_cons, List.length_cons]
        omega

end CS330.Lib
