/-
Runs of a labelled system: a step relation `step s l s'` and the states it reaches from a start
state together with the labels of the steps taken, with the rule by which every invariant is
carried from one step to a whole run.
-/
import Mathlib.Tactic

namespace CS330.Lib

variable {σ σ' ℓ ε : Type*}

/-- `s` is reached from `s₀` by steps labelled, in order, by the list. -/
inductive Run (step : σ → ℓ → σ → Prop) (s₀ : σ) : List ℓ → σ → Prop
  | start : Run step s₀ [] s₀
  | snoc {ls : List ℓ} {s : σ} {l : ℓ} {s' : σ} :
      Run step s₀ ls s → step s l s' → Run step s₀ (ls ++ [l]) s'

namespace Run

variable {step : σ → ℓ → σ → Prop} {s₀ s s' : σ} {ls ms : List ℓ}

/-- An invariant of labels so far and current state: true at the start and kept by every step. -/
theorem inv {P : List ℓ → σ → Prop} (h0 : P [] s₀)
    (hstep : ∀ ls s l s', Run step s₀ ls s → P ls s → step s l s' → P (ls ++ [l]) s')
    (h : Run step s₀ ls s) : P ls s := by
  induction h with
  | start => exact h0
  | snoc hr hs ih => exact hstep _ _ _ _ hr ih hs

/-- An invariant of the state alone. -/
theorem invariant {P : σ → Prop} (h0 : P s₀) (hstep : ∀ s l s', P s → step s l s' → P s')
    (h : Run step s₀ ls s) : P s :=
  h.inv (P := fun _ => P) h0 fun _ s l s' _ => hstep s l s'

/-- An invariant that counts: each label stands for so many steps of what the run is compared with. -/
theorem counted {R : ℕ → σ → Prop} {w : ℓ → ℕ} (h0 : R 0 s₀)
    (hstep : ∀ n s l s', R n s → step s l s' → R (n + w l) s') (h : Run step s₀ ls s) : R (ls.map w).sum s := by
  refine h.inv (P := fun ls s => R (ls.map w).sum s) h0 ?_
  intro ls s l s' _ hR hs
  rw [List.map_append, List.sum_append, List.map_singleton, List.sum_singleton]
  exact hstep _ s l s' hR hs

theorem single {l : ℓ} (h : step s l s') : Run step s [l] s' := .snoc .start h

theorem append (h : Run step s₀ ls s) (h' : Run step s ms s') : Run step s₀ (ls ++ ms) s' := by
  induction h' with
  | start => simpa using h
  | snoc _ hs ih => rw [← List.append_assoc]; exact ih.snoc hs

/-- Every run can be cut at its first step. -/
theorem cons {l : ℓ} (h : step s₀ l s) (h' : Run step s ms s') : Run step s₀ (l :: ms) s' :=
  (single h).append h'

/-- Steps that are steps of another system. -/
theorem mono {step' : σ → ℓ → σ → Prop} (hstep : ∀ s l s', step s l s' → step' s l s') (h : Run step s₀ ls s) :
    Run step' s₀ ls s := by
  induction h with
  | start => exact .start
  | snoc _ hs ih => exact ih.snoc (hstep _ _ _ hs)

/-- A run of one system is a run of another, if each of its steps can be followed. -/
theorem simulates {step' : σ' → ℓ → σ' → Prop} {R : σ → σ' → Prop} {m₀ : σ'} (h0 : R s₀ m₀)
    (hstep : ∀ s m l s', R s m → step s l s' → ∃ m', step' m l m' ∧ R s' m') (h : Run step s₀ ls s) :
    ∃ m, Run step' m₀ ls m ∧ R s m := by
  refine h.inv (P := fun ls s => ∃ m, Run step' m₀ ls m ∧ R s m) ⟨m₀, .start, h0⟩ ?_
  rintro ls s l s' - ⟨m, hrun, hR⟩ hs
  obtain ⟨m', hs', hR'⟩ := hstep s m l s' hR hs
  exact ⟨m', hrun.snoc hs', hR'⟩

theorem of_nil (h : Run step s₀ [] s) : s₀ = s := by
  generalize hls : ([] : List ℓ) = ls at h
  cases h with
  | start => rfl
  | snoc _ _ => simp at hls

theorem of_cons {l : ℓ} (h : Run step s₀ (l :: ls) s) : ∃ s₁, step s₀ l s₁ ∧ Run step s₁ ls s := by
  generalize hks : l :: ls = ks at h
  induction h generalizing ls with
  | start => cases hks
  | @snoc ks t k s hr hs ih =>
    rcases List.append_eq_cons_iff.1 hks.symm with ⟨rfl, hk⟩ | ⟨ms, rfl, rfl⟩
    · -- the first step is the last one
      obtain ⟨rfl, rfl⟩ := List.cons.inj hk
      obtain rfl := hr.of_nil
      exact ⟨s, hs, .start⟩
    · obtain ⟨s₁, hfirst, hrest⟩ := ih rfl
      exact ⟨s₁, hfirst, hrest.snoc hs⟩

end Run

/-! ## Scripts -/

section Script

variable {κ : Type*} (next : σ → κ → ℓ × σ) (ok : σ → κ → Prop)

/-- The labels and the last state when commands are carried out one after the other. -/
def script (s : σ) : List κ → List ℓ × σ
  | [] => ([], s)
  | k :: ks => ((next s k).1 :: (script (next s k).2 ks).1, (script (next s k).2 ks).2)

/-- Every command may be carried out where it is its turn. -/
def Scripted (s : σ) : List κ → Prop
  | [] => True
  | k :: ks => ok s k ∧ Scripted (next s k).2 ks

instance decidableScripted [∀ s k, Decidable (ok s k)] : ∀ s ks, Decidable (Scripted next ok s ks)
  | _, [] => .isTrue trivial
  | s, k :: ks =>
    have := decidableScripted (next s k).2 ks
    inferInstanceAs (Decidable (ok s k ∧ Scripted next ok (next s k).2 ks))

/-- Commands that may be carried out make a run. -/
theorem Run.script {step : σ → ℓ → σ → Prop} (hstep : ∀ s k, ok s k → step s (next s k).1 (next s k).2) :
    ∀ {ks : List κ} {s : σ}, Scripted next ok s ks → Run step s (script next s ks).1 (script next s ks).2
  | [], _, _ => .start
  | _ :: _, _, ⟨hk, hks⟩ => .cons (hstep _ _ hk) (Run.script hstep hks)

end Script

end CS330.Lib
