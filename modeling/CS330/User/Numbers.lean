/-
lib.c: the numbers that `vuprintf` puts into its buffer. The digits come out of an array of 20 characters, from the
last one to the first.

The buffer is what has been put into it so far, and the number of cells it has; a store behind the last cell is
nothing. Integers wrap when they are negated.
-/
import CS330.Lib.CInt
import CS330.Lib.Numeral
import CS330.Lib.While

namespace CS330.User

open CS330.Lib

/-! ## Storing -/

/-- Conversion to a character. -/
def byte (x : ℤ) : UInt8 := UInt8.ofNat (x % 256).toNat

/-- `buf[out++] = c`, with a buffer of `size` cells. -/
def store (size : ℕ) (out : List UInt8) (c : UInt8) : Option (List UInt8) :=
  if out.length < size then some (out ++ [c]) else none

/-! ## Digits -/

/-- What the loop over the digits works on. -/
structure Digits where
  tmp : ℤ
  chars : List UInt8

def digitTest (d : Digits) : Option Bool := some (d.tmp != 0)

def digitTurn (base : ℕ) (digit : ℤ → UInt8) (d : Digits) : Option Digits :=
  if d.chars.length < 20 then some ⟨d.tmp.tdiv base, d.chars ++ [digit (d.tmp.tmod base)]⟩ else none

/-- The loop over the digits, and the one that puts them into the buffer. -/
def putDigits (size base : ℕ) (digit : ℤ → UInt8) (tmp : ℤ) (out : List UInt8) : Option (List UInt8) := do
  let d ← whileLoop digitTest (digitTurn base digit) 20 ⟨tmp, []⟩
  d.chars.reverse.foldlM (store size) out

def decDigit (r : ℤ) : UInt8 := byte (48 + r)

def hexDigit (r : ℤ) : UInt8 := if r > 9 then byte (65 + (r - 10)) else byte (48 + r)

/-- `case 'd'` and `case 'u'`. -/
def putInt (size : ℕ) (num : ℤ) (out : List UInt8) : Option (List UInt8) :=
  if num = 0 then store size out 48
  else if num < 0 then do
    let out ← store size out 45
    putDigits size 10 decDigit (i32 (-num)) out
  else putDigits size 10 decDigit num out

/-- `case 'x'`. -/
def putLong (size : ℕ) (num : ℤ) (out : List UInt8) : Option (List UInt8) := do
  let (num, out) ← if num < 0 then (store size out 45).map (i64 (-num), ·) else some (num, out)
  let out ← store size out 48
  let out ← store size out 120
  if num = 0 then store size out 48
  else putDigits size 16 hexDigit num out

/-! ## What is written -/

/-- The digit of a value, `0` to `9` and `A` to `F`. -/
def digitChar (d : ℕ) : UInt8 := if d ≤ 9 then UInt8.ofNat (48 + d) else UInt8.ofNat (65 + (d - 10))

/-- A minus sign or none, the prefix, and the numeral of the absolute value. -/
def Spells (base : ℕ) (pre text : List UInt8) (v : ℤ) : Prop :=
  ∃ (neg : Bool) (ds : List ℕ) (n : ℕ), text = (if neg then [45] else []) ++ (pre ++ ds.map digitChar) ∧
    IsNumeral base ds n ∧ v = if neg then -(n : ℤ) else n

/-- A text that is put into the buffer, if there is room for all of it. -/
def emit (size : ℕ) (out text : List UInt8) : Option (List UInt8) :=
  if out.length + text.length ≤ size then some (out ++ text) else none

/-- What comes out of the array; every digit has the sign of `tmp`. -/
def digitsText (base : ℕ) (digit : ℤ → UInt8) (tmp : ℤ) : List UInt8 :=
  (Nat.digits base tmp.natAbs).reverse.map fun d : ℕ => digit ((if tmp < 0 then -1 else 1) * d)

def intText (num : ℤ) : List UInt8 :=
  if num = 0 then [48]
  else if num < 0 then 45 :: digitsText 10 decDigit (i32 (-num))
  else digitsText 10 decDigit num

def longText (num : ℤ) : List UInt8 :=
  (if num < 0 then [45] else []) ++ ([48, 120] ++
    if num = 0 then [48] else digitsText 16 hexDigit (if num < 0 then i64 (-num) else num))

section Emit

variable {size base : ℕ} {out out' text text' : List UInt8}

/-! ## Texts -/

theorem store_eq (size : ℕ) (out : List UInt8) (c : UInt8) : store size out c = emit size out [c] := rfl

theorem emit_nil (h : out.length ≤ size) : emit size out [] = some out := by
  rw [emit, List.length_nil, Nat.add_zero, if_pos h, List.append_nil]

theorem emit_bind (size : ℕ) (out text text' : List UInt8) :
    (emit size out text).bind (emit size · text') = emit size out (text ++ text') := by
  unfold emit
  by_cases h : out.length + text.length ≤ size
  · simp only [if_pos h, Option.bind_some, List.length_append, List.append_assoc, Nat.add_assoc]
  · rw [if_neg h, if_neg (by rw [List.length_append]; omega), Option.bind_none]

theorem length_of_emit (h : emit size out text = some out') : out' = out ++ text ∧ out'.length ≤ size := by
  unfold emit at h
  split at h
  · rename_i hroom
    obtain rfl := Option.some.inj h
    exact ⟨rfl, by rwa [List.length_append]⟩
  · cases h

/-- One text after the other. -/
theorem emit_then (text : List UInt8) {f : List UInt8 → Option (List UInt8)}
    (hf : ∀ out, out.length ≤ size → f out = emit size out text') :
    (emit size out text).bind f = emit size out (text ++ text') := by
  rw [← emit_bind]
  cases h : emit size out text with
  | none => rfl
  | some out' => exact hf out' (length_of_emit h).2

theorem foldlM_store (h : out.length ≤ size) (text : List UInt8) :
    text.foldlM (store size) out = emit size out text := by
  induction text generalizing out with
  | nil => exact (emit_nil h).symm
  | cons c text ih =>
    rw [List.foldlM_cons, ← List.singleton_append, store_eq]
    exact emit_then [c] fun out hout => ih hout

/-! ## The loop over the digits -/

theorem tdiv_tmod_signed {σ : ℤ} (hσ : σ = 1 ∨ σ = -1) (n base : ℕ) :
    (σ * n).tdiv base = σ * (n / base : ℕ) ∧ (σ * n).tmod base = σ * (n % base : ℕ) := by
  rcases hσ with rfl | rfl
  · simp only [one_mul]
    exact ⟨rfl, rfl⟩
  · simp only [neg_mul, one_mul, Int.neg_tdiv, Int.neg_tmod]
    exact ⟨rfl, rfl⟩

/-- The loop takes the digits off from the last one on, and ends within the array if there are not too many. -/
theorem whileLoop_digits (hb : 1 < base) (digit : ℤ → UInt8) {σ : ℤ} (hσ : σ = 1 ∨ σ = -1) {n fuel : ℕ}
    {chars : List UInt8} (hroom : chars.length + (Nat.digits base n).length ≤ 20)
    (hf : (Nat.digits base n).length ≤ fuel) :
    whileLoop digitTest (digitTurn base digit) fuel ⟨σ * n, chars⟩ =
      some ⟨0, chars ++ (Nat.digits base n).map fun d : ℕ => digit (σ * d)⟩ := by
  have hend : ∀ (fuel : ℕ) (chars : List UInt8), whileLoop digitTest (digitTurn base digit) fuel ⟨σ * (0 : ℕ), chars⟩ =
      some ⟨0, chars ++ (Nat.digits base 0).map fun d : ℕ => digit (σ * d)⟩ := by
    intro fuel chars
    have hstop : digitTest ⟨σ * (0 : ℕ), chars⟩ = some false := by simp [digitTest]
    rw [whileLoop_stop hstop]
    simp
  induction fuel generalizing n chars with
  | zero =>
    have hn : n = 0 := by
      by_contra hne
      exact Nat.digits_ne_nil_iff_ne_zero.2 hne (List.length_eq_zero_iff.1 (Nat.le_zero.1 hf))
    subst hn
    exact hend 0 chars
  | succ fuel ih =>
    by_cases hn : n = 0
    · subst hn
      exact hend (fuel + 1) chars
    · have hdigits : Nat.digits base n = n % base :: Nat.digits base (n / base) := Nat.digits_def' hb (by omega)
      rw [hdigits, List.length_cons] at hroom hf
      have hσ0 : σ ≠ 0 := by rcases hσ with rfl | rfl <;> decide
      have htest : digitTest ⟨σ * n, chars⟩ = some true := by simp [digitTest, hn, hσ0]
      obtain ⟨hdiv, hmod⟩ := tdiv_tmod_signed hσ n base
      have hturn : digitTurn base digit ⟨σ * n, chars⟩ =
          some ⟨σ * (n / base : ℕ), chars ++ [digit (σ * (n % base : ℕ))]⟩ := by
        simp only [digitTurn, if_pos (show chars.length < 20 by omega), hdiv, hmod]
      rw [whileLoop_turn htest hturn, ih (by rw [List.length_append, List.length_singleton]; omega) (by omega), hdigits,
        List.map_cons, List.append_assoc, List.singleton_append]

theorem putDigits_eq (hb : 1 < base) (digit : ℤ → UInt8) {tmp : ℤ} (hlen : tmp.natAbs < base ^ 20)
    (hout : out.length ≤ size) :
    putDigits size base digit tmp out = emit size out (digitsText base digit tmp) := by
  have hdigits : (Nat.digits base tmp.natAbs).length ≤ 20 := (Nat.digits_length_le_iff hb _).2 hlen
  have hσ : (if tmp < 0 then -1 else 1 : ℤ) = 1 ∨ (if tmp < 0 then -1 else 1 : ℤ) = -1 := by
    split <;> simp
  have htmp : (if tmp < 0 then -1 else 1 : ℤ) * tmp.natAbs = tmp := by
    split <;> omega
  have hloop : whileLoop digitTest (digitTurn base digit) 20 ⟨(if tmp < 0 then -1 else 1) * tmp.natAbs, []⟩ =
      some ⟨0, [] ++ (Nat.digits base tmp.natAbs).map fun d : ℕ => digit ((if tmp < 0 then -1 else 1) * d)⟩ :=
    whileLoop_digits hb digit hσ (by simpa using hdigits) hdigits
  rw [htmp] at hloop
  unfold putDigits
  rw [hloop]
  simp only [Option.bind_eq_bind, Option.bind_some, List.nil_append]
  rw [foldlM_store hout, digitsText, List.map_reverse]

/-! ## The two cases -/

theorem i64_of_range {x : ℤ} (h : -2 ^ 63 ≤ x) (h' : x < 2 ^ 63) : i64 x = x := by
  unfold i64; omega

/-- The absolute value of the smallest number is too large by one. -/
theorem i32_neg_bound {num : ℤ} : (i32 (-num)).natAbs < 10 ^ 20 := by
  unfold i32; omega

theorem i64_neg_bound {num : ℤ} : (i64 (-num)).natAbs < 16 ^ 20 := by
  unfold i64; omega

theorem i64_neg_ne_zero {num : ℤ} (hlo : -2 ^ 63 ≤ num) (hneg : num < 0) : i64 (-num) ≠ 0 := by
  unfold i64; omega

theorem putInt_eq {num : ℤ} (hlo : -2 ^ 31 ≤ num) (hhi : num < 2 ^ 31) (hout : out.length ≤ size) :
    putInt size num out = emit size out (intText num) := by
  unfold putInt intText
  by_cases hzero : num = 0
  · rw [if_pos hzero, if_pos hzero, store_eq]
  · rw [if_neg hzero, if_neg hzero]
    by_cases hneg : num < 0
    · rw [if_pos hneg, if_pos hneg, store_eq, ← List.singleton_append]
      exact emit_then [45] fun out hout => putDigits_eq (by decide : 1 < 10) decDigit i32_neg_bound hout
    · rw [if_neg hneg, if_neg hneg]
      exact putDigits_eq (by decide : 1 < 10) decDigit (by omega) hout

theorem putLong_eq {num : ℤ} (hlo : -2 ^ 63 ≤ num) (hhi : num < 2 ^ 63) (hout : out.length ≤ size) :
    putLong size num out = emit size out (longText num) := by
  -- behind the sign
  have hrest : ∀ (tmp : ℤ) (out : List UInt8), tmp.natAbs < 16 ^ 20 → out.length ≤ size →
      ((store size out 48).bind fun out => (store size out 120).bind fun out =>
        if tmp = 0 then store size out 48 else putDigits size 16 hexDigit tmp out) =
        emit size out ([48, 120] ++ if tmp = 0 then [48] else digitsText 16 hexDigit tmp) := by
    intro tmp out htmp _
    refine emit_then [48] fun out _ => emit_then [120] fun out hout => ?_
    by_cases hzero : tmp = 0
    · rw [if_pos hzero, if_pos hzero, store_eq]
    · rw [if_neg hzero, if_neg hzero]
      exact putDigits_eq (by decide) hexDigit htmp hout
  unfold putLong longText
  by_cases hneg : num < 0
  · have hne := i64_neg_ne_zero hlo hneg
    simp only [if_pos hneg, Option.bind_eq_bind, if_neg hneg.ne, Option.bind_map, Function.comp_def]
    refine emit_then [45] fun out hout => ?_
    rw [hrest _ out i64_neg_bound hout, if_neg hne]
  · simp only [if_neg hneg, Option.bind_eq_bind, Option.bind_some, List.nil_append]
    exact hrest num out (by omega) hout

end Emit

/-! ## Reading the numbers -/

section Spells

variable {base : ℕ} {pre text rest : List UInt8} {v : ℤ}

theorem decDigit_eq {d : ℕ} (h : d < 10) : decDigit d = digitChar d := by
  interval_cases d <;> rfl

theorem hexDigit_eq {d : ℕ} (h : d < 16) : hexDigit d = digitChar d := by
  interval_cases d <;> rfl

/-- The characters before `0` are not digits. -/
theorem le_digitChar {d : ℕ} (h : d < 16) : 48 ≤ digitChar d := by
  interval_cases d <;> decide

/-- The digits of a number that is not negative are its numeral. -/
theorem digitsText_eq {digit : ℤ → UInt8} (hb : 1 < base) (hdigit : ∀ d : ℕ, d < base → digit d = digitChar d) {tmp : ℤ}
    (h : 0 ≤ tmp) : digitsText base digit tmp = (Nat.digits base tmp.natAbs).reverse.map digitChar := by
  refine List.map_congr_left fun d hd => ?_
  rw [if_neg (not_lt.2 h), one_mul]
  exact hdigit d (Nat.digits_lt_base hb (List.mem_reverse.1 hd))

theorem first_digit {ds : List ℕ} {n : ℕ} (h : IsNumeral base ds n) (hb : base ≤ 16) :
    ∃ c tail, ds.map digitChar = c :: tail ∧ 48 ≤ c := by
  obtain ⟨d, ds, rfl⟩ := List.exists_cons_of_ne_nil h.nonempty
  have hd := h.digit d List.mem_cons_self
  exact ⟨digitChar d, ds.map digitChar, rfl, le_digitChar (by omega)⟩

/-- A text that begins with a minus sign can only spell a number that is not positive, with a digit behind the
prefix. -/
theorem Spells.of_minus (hb : base ≤ 16) (hpre : pre.head? ≠ some 45) (h : Spells base pre (45 :: rest) v) :
    v ≤ 0 ∧ ∃ c tail, rest = pre ++ c :: tail ∧ 48 ≤ c := by
  obtain ⟨neg, ds, n, htext, hds, hv⟩ := h
  obtain ⟨c, tail, hmap, hc⟩ := first_digit hds hb
  rw [hmap] at htext
  cases neg with
  | true =>
    rw [if_pos rfl] at hv
    exact ⟨by omega, c, tail, (List.cons.inj htext).2, hc⟩
  | false =>
    rw [if_neg Bool.false_ne_true, List.nil_append] at htext
    cases pre with
    | cons x pre => exact absurd (congrArg some (List.cons.inj htext).1.symm) hpre
    | nil =>
      obtain rfl := (List.cons.inj htext).1
      exact absurd hc (by decide)

theorem spells_zero (hb : 0 < base) (pre : List UInt8) : Spells base pre (pre ++ [48]) 0 :=
  ⟨false, [0], 0, rfl, isNumeral_zero hb, rfl⟩

theorem spells_digits {digit : ℤ → UInt8} (hb : 1 < base) (hdigit : ∀ d : ℕ, d < base → digit d = digitChar d)
    (neg : Bool)
    {tmp : ℤ} (h : 0 < tmp) (pre : List UInt8) :
    Spells base pre ((if neg then [45] else []) ++ (pre ++ digitsText base digit tmp)) (if neg then -tmp else tmp) := by
  rw [digitsText_eq hb hdigit h.le]
  exact ⟨neg, _, tmp.natAbs, rfl, isNumeral_digits hb (by omega), by split <;> omega⟩

/-- An int is spelled by what `%d` writes, the smallest one apart. -/
theorem intText_spells_iff (hlo : -2 ^ 31 ≤ v) (hhi : v < 2 ^ 31) : Spells 10 [] (intText v) v ↔ v ≠ -2 ^ 31 := by
  constructor
  · rintro h rfl
    have htext : intText (-2 ^ 31) = [45, 46, 47, 44, 41, 44, 40, 45, 42, 44, 40] := by decide +kernel
    rw [htext] at h
    obtain ⟨-, c, tail, hrest, hc⟩ := h.of_minus (by decide) (by decide)
    obtain rfl := (List.cons.inj hrest).1
    exact absurd hc (by decide)
  · intro hne
    unfold intText
    rcases lt_trichotomy v 0 with hneg | rfl | hpos
    · rw [if_neg hneg.ne, if_pos hneg, i32_of_range (by omega) (by omega)]
      have h := spells_digits (by decide : 1 < 10) (fun d => decDigit_eq) true (neg_pos.2 hneg) []
      simpa using h
    · exact spells_zero (by decide) []
    · rw [if_neg hpos.ne', if_neg (not_lt.2 hpos.le)]
      exact spells_digits (by decide : 1 < 10) (fun d => decDigit_eq) false hpos []

/-- An unsigned number is spelled as long as it is an int too. -/
theorem intText_spells_unsigned_iff (hlo : 0 ≤ v) (hhi : v < 2 ^ 32) :
    Spells 10 [] (intText (i32 v)) v ↔ v < 2 ^ 31 := by
  constructor
  · intro h
    by_contra hlarge
    have hneg : i32 v < 0 := by unfold i32; omega
    rw [intText, if_neg hneg.ne, if_pos hneg] at h
    have hle := (h.of_minus (by decide) (by decide)).1
    omega
  · intro hlt
    rw [i32_of_range (by omega) hlt]
    exact (intText_spells_iff (by omega) hlt).2 (by omega)

theorem longText_spells_iff (hlo : -2 ^ 63 ≤ v) (hhi : v < 2 ^ 63) :
    Spells 16 [48, 120] (longText v) v ↔ v ≠ -2 ^ 63 := by
  constructor
  · rintro h rfl
    have htext : longText (-2 ^ 63) = 45 :: ([48, 120] ++ 40 :: List.replicate 15 48) := by decide +kernel
    rw [htext] at h
    obtain ⟨-, c, tail, hrest, hc⟩ := h.of_minus (by decide) (by decide)
    obtain rfl := (List.cons.inj (List.append_cancel_left hrest)).1
    exact absurd hc (by decide)
  · intro hne
    unfold longText
    rcases lt_trichotomy v 0 with hneg | rfl | hpos
    · rw [if_pos hneg, if_neg hneg.ne, if_pos hneg, i64_of_range (by omega) (by omega)]
      have h := spells_digits (by decide : 1 < 16) (fun d => hexDigit_eq) true (neg_pos.2 hneg) [48, 120]
      simpa using h
    · exact spells_zero (by decide) [48, 120]
    · rw [if_neg (not_lt.2 hpos.le), if_neg hpos.ne', if_neg (not_lt.2 hpos.le)]
      exact spells_digits (by decide : 1 < 16) (fun d => hexDigit_eq) false hpos [48, 120]

/-! ## How long they are -/

theorem length_digitsText_le {digit : ℤ → UInt8} {tmp : ℤ} {k : ℕ} (hb : 1 < base) (h : tmp.natAbs < base ^ k) :
    (digitsText base digit tmp).length ≤ k := by
  rw [digitsText, List.length_map, List.length_reverse]
  exact (Nat.digits_length_le_iff hb _).2 h

theorem length_intText_le (hlo : -2 ^ 31 ≤ v) (hhi : v < 2 ^ 31) : (intText v).length ≤ 11 := by
  unfold intText
  split
  · decide
  · split
    · have hlen : (digitsText 10 decDigit (i32 (-v))).length ≤ 10 :=
        length_digitsText_le (by decide) (by unfold i32; omega)
      rw [List.length_cons]
      omega
    · exact length_digitsText_le (by decide) (by omega)

theorem length_longText_le (hlo : -2 ^ 63 ≤ v) (hhi : v < 2 ^ 63) : (longText v).length ≤ 19 := by
  have hsign : (if v < 0 then [45] else [] : List UInt8).length ≤ 1 := by split <;> decide
  have hlen : (if v = 0 then [48] else digitsText 16 hexDigit (if v < 0 then i64 (-v) else v)).length ≤ 16 := by
    split
    · decide
    · refine length_digitsText_le (by decide) ?_
      split
      · unfold i64; omega
      · omega
  unfold longText
  simp only [List.length_append, List.length_cons, List.length_nil]
  omega

end Spells

end CS330.User
