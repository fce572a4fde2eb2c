/-
Numerals: the value of a list of digits, most significant first, and the numeral of a number, which has no digit in
front that it could do without.
-/
import Mathlib.Data.Nat.Digits.Lemmas
import Mathlib.Tactic

namespace CS330.Lib

variable {b n : ℕ}

/-- The value of digits in base `b`. -/
def evalDigits (b : ℕ) (ds : List ℕ) : ℕ := ds.foldl (fun v d => b * v + d) 0

theorem evalDigits_eq_ofDigits (b : ℕ) (ds : List ℕ) : evalDigits b ds = Nat.ofDigits b ds.reverse := by
  rw [Nat.ofDigits_eq_foldr, List.foldr_reverse]
  unfold evalDigits
  refine List.foldl_ext _ _ _ fun v d _ => ?_
  simp only [Nat.cast_id]
  ring

/-- The digits of a number, most significant first, have its value. -/
theorem evalDigits_digits (b n : ℕ) : evalDigits b (Nat.digits b n).reverse = n := by
  rw [evalDigits_eq_ofDigits, List.reverse_reverse, Nat.ofDigits_digits]

/-- The numeral of a number. -/
structure IsNumeral (b : ℕ) (ds : List ℕ) (n : ℕ) : Prop where
  nonempty : ds ≠ []
  digit : ∀ d ∈ ds, d < b
  lead : ds.head? = some 0 → ds = [0]
  value : evalDigits b ds = n

theorem isNumeral_zero (hb : 0 < b) : IsNumeral b [0] 0 :=
  ⟨List.cons_ne_nil _ _, fun _ hd => (List.mem_singleton.1 hd).symm ▸ hb, fun _ => rfl, by simp [evalDigits]⟩

theorem isNumeral_digits (hb : 1 < b) (hn : n ≠ 0) : IsNumeral b (Nat.digits b n).reverse n := by
  have hne : Nat.digits b n ≠ [] := Nat.digits_ne_nil_iff_ne_zero.2 hn
  refine ⟨List.reverse_eq_nil_iff.not.2 hne, fun d hd => ?_, fun hlead => ?_, evalDigits_digits b n⟩
  · exact Nat.digits_lt_base hb (List.mem_reverse.1 hd)
  · rw [List.head?_reverse, List.getLast?_eq_getLast_of_ne_nil hne, Option.some.injEq] at hlead
    exact absurd hlead (Nat.getLast_digit_ne_zero b hn)

end CS330.Lib
