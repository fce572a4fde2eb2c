/-
Spans of addresses: half-open intervals that objects occupy, and what follows for them from the pages
they are carved out of.
-/
import Mathlib.Tactic

namespace CS330.Lib

/-- The addresses from `base` on, `size` of them. -/
structure Span where
  base : ℕ
  size : ℕ
deriving DecidableEq

namespace Span

variable {s s' t t' : Span} {n a b : ℕ}

def Has (s : Span) (a : ℕ) : Prop := s.base ≤ a ∧ a < s.base + s.size

def Within (s t : Span) : Prop := ∀ a, s.Has a → t.Has a

/-- No address in common. -/
def Apart (s t : Span) : Prop := ∀ a, s.Has a → ¬ t.Has a

theorem has_base (h : 0 < s.size) : s.Has s.base := by
  unfold Has; omega

theorem within_refl (s : Span) : s.Within s := fun _ h => h

theorem within_of (h : t.base ≤ s.base) (h' : s.base + s.size ≤ t.base + t.size) : s.Within t := by
  unfold Within Has; omega

theorem Apart.symm (h : s.Apart t) : t.Apart s := fun a ht hs => h a hs ht

theorem Apart.within (h : s'.Apart t') (hs : s.Within s') (ht : t.Within t') : s.Apart t :=
  fun a ha hb => h a (hs a ha) (ht a hb)

theorem apart_of_le (h : s.base + s.size ≤ t.base) : s.Apart t := by
  unfold Apart Has; omega

/-- Two pages are one page or have no address in common. -/
theorem apart_pages (ha : n ∣ a) (hb : n ∣ b) (hne : a ≠ b) : Span.Apart ⟨a, n⟩ ⟨b, n⟩ := by
  obtain ⟨i, rfl⟩ := ha
  obtain ⟨j, rfl⟩ := hb
  rcases Nat.lt_or_gt_of_ne fun h : i = j => hne (by rw [h]) with h | h
  · have hle : n * (i + 1) ≤ n * j := Nat.mul_le_mul_left n h
    exact apart_of_le hle
  · have hle : n * (j + 1) ≤ n * i := Nat.mul_le_mul_left n h
    exact (apart_of_le (s := ⟨n * j, n⟩) hle).symm

/-- The page an address lies in is determined. -/
theorem page_unique (ha : n ∣ a) (hb : n ∣ b) {c : ℕ} (h : Has ⟨a, n⟩ c) (h' : Has ⟨b, n⟩ c) : a = b := by
  by_contra hne
  exact apart_pages ha hb hne c h h'

end Span

end CS330.Lib
