/-
`while` loops whose test and body may fail: with as many turns as they are given, they end in a state, or there
is none. The rules: what every turn keeps holds where the loop ends; a loop whose size falls ends, unless it reaches
a state from which there is no next one; a loop whose test never says no does not end.
-/
import Mathlib.Tactic

namespace CS330.Lib

variable {σ : Type*}

/-- `while (cond s) s = body s`, for at most `fuel` turns. -/
def whileLoop (cond : σ → Option Bool) (body : σ → Option σ) : ℕ → σ → Option σ
  | 0, s => if cond s = some false then some s else none
  | fuel + 1, s =>
    match cond s with
    | none => none
    | some false => some s
    | some true => (body s).bind (whileLoop cond body fuel)

section

variable {cond : σ → Option Bool} {body : σ → Option σ} {s s' : σ} {fuel : ℕ}

theorem whileLoop_stop (h : cond s = some false) (fuel : ℕ) : whileLoop cond body fuel s = some s := by
  cases fuel <;> simp [whileLoop, h]

theorem whileLoop_go (h : cond s = some true) (fuel : ℕ) :
    whileLoop cond body (fuel + 1) s = (body s).bind (whileLoop cond body fuel) := by
  simp [whileLoop, h]

theorem whileLoop_turn (h : cond s = some true) (hs : body s = some s') (fuel : ℕ) :
    whileLoop cond body (fuel + 1) s = whileLoop cond body fuel s' := by
  simp [whileLoop, h, hs]

theorem whileLoop_fault (h : cond s = some true) (hs : body s = none) (fuel : ℕ) :
    whileLoop cond body fuel s = none := by
  cases fuel <;> simp [whileLoop, h, hs]

theorem whileLoop_stuck (h : cond s = none) (fuel : ℕ) : whileLoop cond body fuel s = none := by
  cases fuel <;> simp [whileLoop, h]

/-- One turn of a loop: the test says no, or the body keeps the invariant and makes the state smaller. -/
def Turns (cond : σ → Option Bool) (body : σ → Option σ) (P : σ → Prop) (size : σ → ℕ) (s : σ) : Prop :=
  cond s = some false ∨ cond s = some true ∧ ∃ s', body s = some s' ∧ P s' ∧ size s' < size s

/-- The rule of total correctness. -/
theorem whileLoop_ends (P : σ → Prop) (size : σ → ℕ) (hturn : ∀ s, P s → Turns cond body P size s) (h : P s)
    (hfuel : size s ≤ fuel) : ∃ s', whileLoop cond body fuel s = some s' ∧ P s' ∧ cond s' = some false := by
  induction fuel generalizing s with
  | zero =>
    rcases hturn s h with hstop | ⟨-, s', -, -, hlt⟩
    · exact ⟨s, whileLoop_stop hstop 0, h, hstop⟩
    · omega
  | succ fuel ih =>
    rcases hturn s h with hstop | ⟨hgo, s', hs', h', hlt⟩
    · exact ⟨s, whileLoop_stop hstop _, h, hstop⟩
    · obtain ⟨t, ht, hP, hstop⟩ := ih h' (by omega)
      exact ⟨t, by rw [whileLoop_turn hgo hs', ht], hP, hstop⟩

/-- A turn that is gone through. -/
def Turn (cond : σ → Option Bool) (body : σ → Option σ) (s s' : σ) : Prop := cond s = some true ∧ body s = some s'

/-- The rule of partial correctness. -/
theorem whileLoop_holds {P : σ → Prop} (hkeep : ∀ s s', P s → Turn cond body s s' → P s') (h0 : P s)
    (h : whileLoop cond body fuel s = some s') : P s' ∧ cond s' = some false := by
  induction fuel generalizing s with
  | zero =>
    unfold whileLoop at h
    split at h
    · rename_i hstop
      obtain rfl := Option.some.inj h
      exact ⟨h0, hstop⟩
    · cases h
  | succ fuel ih =>
    rcases hc : cond s with _ | _ | _
    · simp only [whileLoop, hc] at h
      cases h
    · rw [whileLoop_stop hc] at h
      obtain rfl := Option.some.inj h
      exact ⟨h0, hc⟩
    · cases hb : body s with
      | none =>
        rw [whileLoop_fault hc hb] at h
        cases h
      | some t =>
        rw [whileLoop_turn hc hb] at h
        exact ih (hkeep s t h0 ⟨hc, hb⟩) h

/-- From every state it goes through the loop comes to the same end. -/
theorem whileLoop_reached {t : σ} (h : whileLoop cond body fuel s = some s')
    (hr : Relation.ReflTransGen (Turn cond body) s t) : ∃ fuel, whileLoop cond body fuel t = some s' := by
  induction hr with
  | refl => exact ⟨fuel, h⟩
  | tail _ hturn ih =>
    obtain ⟨fuel, hend⟩ := ih
    cases fuel with
    | zero => simp [whileLoop, hturn.1] at hend
    | succ fuel => exact ⟨fuel, whileLoop_turn hturn.1 hturn.2 fuel ▸ hend⟩

/-- A loop whose size falls ends exactly if it can go on from every state it reaches. -/
theorem whileLoop_ends_iff (P : σ → Prop) (size : σ → ℕ)
    (hkeep : ∀ s s', P s → Turn cond body s s' → P s' ∧ size s' < size s) (h0 : P s) (hfuel : size s ≤ fuel) :
    (∃ s', whileLoop cond body fuel s = some s') ↔
      ∀ t, Relation.ReflTransGen (Turn cond body) s t → cond t = some false ∨ ∃ t', Turn cond body t t' := by
  constructor
  · rintro ⟨s', h⟩ t hr
    obtain ⟨fuel, hend⟩ := whileLoop_reached h hr
    rcases hc : cond t with _ | _ | _
    · cases fuel <;> simp [whileLoop, hc] at hend
    · exact Or.inl rfl
    · cases hb : body t with
      | none =>
        rw [whileLoop_fault hc hb] at hend
        cases hend
      | some t' => exact Or.inr ⟨t', hc, hb⟩
  · intro h
    have hturns : ∀ t, P t ∧ Relation.ReflTransGen (Turn cond body) s t →
        Turns cond body (fun t => P t ∧ Relation.ReflTransGen (Turn cond body) s t) size t := by
      rintro t ⟨ht, hr⟩
      rcases h t hr with hstop | ⟨t', hturn⟩
      · exact Or.inl hstop
      · obtain ⟨ht', hlt⟩ := hkeep t t' ht hturn
        exact Or.inr ⟨hturn.1, t', hturn.2, ⟨ht', hr.tail hturn⟩, hlt⟩
    obtain ⟨s', hend, -⟩ := whileLoop_ends _ size hturns ⟨h0, .refl⟩ hfuel
    exact ⟨s', hend⟩

/-- As long as the invariant holds the test does not say no: there is no state the loop ends in. -/
theorem whileLoop_never (P : σ → Prop) (hgo : ∀ s, P s → cond s ≠ some false)
    (hbody : ∀ s s', P s → body s = some s' → P s') (h : P s) : whileLoop cond body fuel s = none := by
  induction fuel generalizing s with
  | zero => simp [whileLoop, hgo s h]
  | succ fuel ih =>
    unfold whileLoop
    rcases hc : cond s with _ | _ | _
    · rfl
    · exact absurd hc (hgo s h)
    · cases hs : body s with
      | none => rfl
      | some s' => exact ih (hbody s s' h hs)

end

end CS330.Lib
