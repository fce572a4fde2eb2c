/-
Systems in which several parties take their turns in any order, and a turn of one leaves the turns of the others as
they were. If there is an order in which such a system comes to a halt, then it does in every order: in the same
state, and with as many turns of each party.
-/
import CS330.Lib.Run
import Mathlib.Data.List.Perm.Basic

namespace CS330.Lib

variable {σ ι : Type*}

/-- The steps of a system whose next state is determined by whose turn it is, if it can be their turn at all. -/
def Takes (next : σ → ι → Option σ) (s : σ) (p : ι) (s' : σ) : Prop := next s p = some s'

/-- It is nobody's turn. -/
def Halted (next : σ → ι → Option σ) (s : σ) : Prop := ∀ p, next s p = none

/-- In the states with `P`, which are not left, turns of two parties can be taken in both orders. -/
structure Diamond (next : σ → ι → Option σ) (P : σ → Prop) : Prop where
  kept : ∀ s p t, P s → Takes next s p t → P t
  meets : ∀ s p q t u, P s → p ≠ q → Takes next s p t → Takes next s q u →
    ∃ v, Takes next t q v ∧ Takes next u p v

section

variable {next : σ → ι → Option σ} {P : σ → Prop} {s t u : σ} {ls ms : List ι}

/-- A run to a halt can be rearranged so that whoever can take a turn at first does. -/
theorem Diamond.first [DecidableEq ι] (h : Diamond next P) (hs : P s) (hrun : Run (Takes next) s ls t)
    (hhalt : Halted next t) {p : ι} (hp : Takes next s p u) :
    ∃ ns, Run (Takes next) u ns t ∧ ls.Perm (p :: ns) := by
  induction ls generalizing s u with
  | nil =>
    obtain rfl := hrun.of_nil
    rw [Takes, hhalt p] at hp
    cases hp
  | cons q ls ih =>
    obtain ⟨s', hq, hrest⟩ := hrun.of_cons
    by_cases hpq : p = q
    · subst hpq
      obtain rfl : s' = u := Option.some.inj (hq.symm.trans hp)
      exact ⟨ls, hrest, .refl _⟩
    · -- the turn of `p` is still there behind the one of `q`, and comes first in the rest
      obtain ⟨v, hv, hv'⟩ := h.meets s q p s' u hs (Ne.symm hpq) hq hp
      obtain ⟨ns, hns, hperm⟩ := ih (h.kept s q s' hs hq) hrest hv
      exact ⟨q :: ns, .cons hv' hns, (hperm.cons q).trans (.swap ..)⟩

/-- Every run can be carried on to the halt that one run comes to. -/
theorem Diamond.halts [DecidableEq ι] (h : Diamond next P) (hs : P s) (hrun : Run (Takes next) s ls t)
    (hhalt : Halted next t) (hother : Run (Takes next) s ms u) :
    ∃ ns, Run (Takes next) u ns t ∧ ls.Perm (ms ++ ns) := by
  induction ms generalizing s ls with
  | nil =>
    obtain rfl := hother.of_nil
    exact ⟨ls, hrun, .refl _⟩
  | cons p ms ih =>
    obtain ⟨s', hp, hrest⟩ := hother.of_cons
    obtain ⟨ls', hls', hperm⟩ := h.first hs hrun hhalt hp
    obtain ⟨ns, hns, hperm'⟩ := ih (h.kept s p s' hs hp) hls' hrest
    exact ⟨ns, hns, hperm.trans (hperm'.cons p)⟩

end

end CS330.Lib
