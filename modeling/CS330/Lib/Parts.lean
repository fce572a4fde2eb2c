/-
Systems whose parts come and go while they run. A step makes a part new, hands it a step of its own, or leaves it
alone; so what a part has been through is a run of its own, whatever the others did meanwhile.
-/
import CS330.Lib.Run

namespace CS330.Lib

/-- What became of a part: how it started, and the steps it took since. -/
structure Past (β κ : Type*) where
  origin : β
  steps : List κ

/-- The parts that are there in a state, those a step makes, and the steps it hands to others. -/
structure Parts (σ ℓ ι β τ κ : Type*) where
  part : σ → ι → Option τ
  start : β → τ
  made : σ → ℓ → ι → Option β
  turn : σ → ℓ → ι → Option κ

namespace Parts

variable {σ ℓ ι β τ κ : Type*} (S : Parts σ ℓ ι β τ κ)

/-- Enter a step in the pasts of the parts. -/
def enter (s : σ) (l : ℓ) (past : ι → Option (Past β κ)) (i : ι) : Option (Past β κ) :=
  (S.made s l i).elim ((S.turn s l i).elim (past i) fun k => (past i).map fun r => ⟨r.origin, r.steps ++ [k]⟩)
    fun b => some ⟨b, []⟩

/-- A step of the system, entered. -/
structure Entered (sys : σ → ℓ → σ → Prop) (s : σ × (ι → Option (Past β κ))) (l : ℓ)
    (s' : σ × (ι → Option (Past β κ))) : Prop where
  step : sys s.1 l s'.1
  past : s'.2 = S.enter s.1 l s.2

/-- How a part that is there after a step came to be what it is. -/
inductive Follows (own : τ → κ → τ → Prop) (s : σ) (l : ℓ) (i : ι) (t' : τ) : Prop
  | made {b : β} : S.made s l i = some b → t' = S.start b → Follows own s l i t'
  | turn {k : κ} {t : τ} : S.made s l i = none → S.turn s l i = some k → S.part s i = some t → own t k t' →
      Follows own s l i t'
  | still : S.made s l i = none → S.turn s l i = none → S.part s i = some t' → Follows own s l i t'

variable {S} {sys : σ → ℓ → σ → Prop} {own : τ → κ → τ → Prop} {s s' : σ × (ι → Option (Past β κ))} {l : ℓ}
  {ls : List ℓ} {i : ι} {t t' : τ}

/-- The past of a part leads to it. -/
def Leads (S : Parts σ ℓ ι β τ κ) (own : τ → κ → τ → Prop) (s : σ × (ι → Option (Past β κ))) : Prop :=
  ∀ i t, S.part s.1 i = some t → ∃ r, s.2 i = some r ∧ Run own (S.start r.origin) r.steps t

theorem Leads.step (h : S.Leads own s) (hs : S.Entered sys s l s')
    (hfollow : ∀ i t', S.part s'.1 i = some t' → S.Follows own s.1 l i t') : S.Leads own s' := by
  intro i t' ht'
  rw [hs.past]
  unfold enter
  cases hfollow i t' ht' with
  | made hb ht =>
    subst ht
    exact ⟨⟨_, []⟩, by rw [hb]; rfl, .start⟩
  | turn hb hk ht hown =>
    obtain ⟨r, hr, hrun⟩ := h i _ ht
    exact ⟨⟨r.origin, r.steps ++ [_]⟩, by rw [hb, hk, hr]; rfl, hrun.snoc hown⟩
  | still hb hk ht =>
    obtain ⟨r, hr, hrun⟩ := h i _ ht
    exact ⟨r, by rw [hb, hk]; exact hr, hrun⟩

/-- Where no part is there at the start, each part there later has come to be by a run of its own. -/
theorem run_leads (inv : σ → Prop) {s₀ : σ} (h₀ : inv s₀) (hnone : ∀ i, S.part s₀ i = none)
    (hinv : ∀ s l s', inv s → sys s l s' → inv s')
    (hfollow : ∀ s l s', inv s → sys s l s' → ∀ i t', S.part s' i = some t' → S.Follows own s l i t')
    (h : Run (S.Entered sys) (s₀, fun _ => none) ls s) : inv s.1 ∧ S.Leads own s := by
  refine h.invariant (P := fun s => inv s.1 ∧ S.Leads own s) ⟨h₀, fun i t ht => ?_⟩ ?_
  · rw [hnone i] at ht
    cases ht
  · rintro s l s' ⟨hs, hleads⟩ hstep
    exact ⟨hinv _ _ _ hs hstep.step, hleads.step hstep (hfollow _ _ _ hs hstep.step)⟩

end Parts

end CS330.Lib
