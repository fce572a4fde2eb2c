/-
Words and strings in a memory of bytes: 32-bit words, least significant byte first, and C strings, which end at
their first zero byte.
-/
import CS330.Lib.Region
import Mathlib.Data.List.GetD

namespace CS330.Lib

variable {m m' : ℕ → UInt8} {a b v : ℕ}

/-! ## Words -/

/-- The word at an address. -/
def load32 (m : ℕ → UInt8) (a : ℕ) : ℕ :=
  (m a).toNat + 256 * (m (a + 1)).toNat + 256 ^ 2 * (m (a + 2)).toNat + 256 ^ 3 * (m (a + 3)).toNat

/-- A word put at an address. -/
def store32 (m : ℕ → UInt8) (a v : ℕ) : ℕ → UInt8 :=
  fun x => if a ≤ x ∧ x < a + 4 then UInt8.ofNat (v / 256 ^ (x - a)) else m x

theorem load32_congr (h : ∀ x, a ≤ x → x < a + 4 → m x = m' x) : load32 m a = load32 m' a := by
  unfold load32
  rw [h a (by omega) (by omega), h (a + 1) (by omega) (by omega), h (a + 2) (by omega) (by omega),
    h (a + 3) (by omega) (by omega)]

theorem load32_lt (m : ℕ → UInt8) (a : ℕ) : load32 m a < 2 ^ 32 := by
  have h0 := (m a).toNat_lt
  have h1 := (m (a + 1)).toNat_lt
  have h2 := (m (a + 2)).toNat_lt
  have h3 := (m (a + 3)).toNat_lt
  unfold load32
  omega

/-- A store changes no byte outside its word. -/
theorem store32_of_outside {x : ℕ} (h : x < a ∨ a + 4 ≤ x) (m : ℕ → UInt8) (v : ℕ) : store32 m a v x = m x :=
  if_neg (by omega)

theorem load32_store32 (hv : v < 2 ^ 32) (m : ℕ → UInt8) (a : ℕ) : load32 (store32 m a v) a = v := by
  have hbyte : ∀ i < 4, store32 m a v (a + i) = UInt8.ofNat (v / 256 ^ i) := by
    intro i hi
    unfold store32
    rw [if_pos (by omega), Nat.add_sub_cancel_left]
  have h0 := hbyte 0 (by omega)
  rw [Nat.add_zero] at h0
  unfold load32
  rw [h0, hbyte 1 (by omega), hbyte 2 (by omega), hbyte 3 (by omega)]
  simp only [UInt8.toNat_ofNat']
  omega

theorem load32_store32_of_apart (h : b + 4 ≤ a ∨ a + 4 ≤ b) (m : ℕ → UInt8) (v : ℕ) :
    load32 (store32 m a v) b = load32 m b :=
  load32_congr fun x hx hx' => store32_of_outside (by omega) m v

/-! ## Strings -/

/-- `s` and a zero byte behind it are at an address. -/
structure CStr (m : ℕ → UInt8) (a : ℕ) (s : List UInt8) : Prop where
  bytes : ∀ j < s.length, m (a + j) = s.getD j 0
  ended : m (a + s.length) = 0

/-- `strcmp(a, s) == 0`, for a string `s` beside the memory. -/
def strEq (m : ℕ → UInt8) (a : ℕ) (s : List UInt8) : Bool :=
  (List.range s.length).all (fun j => m (a + j) == s.getD j 0) && m (a + s.length) == 0

theorem strEq_iff {s : List UInt8} : strEq m a s = true ↔ CStr m a s := by
  unfold strEq
  simp only [Bool.and_eq_true, List.all_eq_true, List.mem_range, beq_iff_eq]
  exact ⟨fun h => ⟨h.1, h.2⟩, fun h => ⟨h.1, h.2⟩⟩

theorem CStr.congr {s : List UInt8} (h : CStr m a s) (he : ∀ x, a ≤ x → x ≤ a + s.length → m' x = m x) :
    CStr m' a s := by
  refine ⟨fun j hj => ?_, ?_⟩
  · rw [he (a + j) (by omega) (by omega)]
    exact h.bytes j hj
  · rw [he (a + s.length) (by omega) (by omega)]
    exact h.ended

/-- A string that is shorter than another at the same address would end inside it. -/
theorem CStr.not_shorter {s t : List UInt8} (hs : CStr m a s) (ht : CStr m a t) (hzero : (0 : UInt8) ∉ t) :
    t.length ≤ s.length := by
  by_contra hlt
  push Not at hlt
  have hend := ht.bytes s.length hlt
  rw [hs.ended, List.getD_eq_getElem _ _ hlt] at hend
  exact hzero (hend ▸ List.getElem_mem hlt)

/-- There is one string at an address. -/
theorem CStr.unique {s t : List UInt8} (hs : CStr m a s) (ht : CStr m a t) (hs0 : (0 : UInt8) ∉ s)
    (ht0 : (0 : UInt8) ∉ t) : s = t := by
  have hlen : s.length = t.length := le_antisymm (ht.not_shorter hs hs0) (hs.not_shorter ht ht0)
  apply List.ext_getElem hlen
  intro j hj hj'
  have hbyte := (hs.bytes j hj).symm.trans (ht.bytes j hj')
  rwa [List.getD_eq_getElem _ _ hj, List.getD_eq_getElem _ _ hj'] at hbyte

/-- The loop that copies a string up to its end, and the zero byte behind it. -/
def storeStr (m : ℕ → UInt8) (a : ℕ) (s : List UInt8) : ℕ → UInt8 :=
  Function.update (copyIn m a s.length fun i => s.getD i 0) (a + s.length) 0

theorem storeStr_of_outside {x : ℕ} {s : List UInt8} (h : x < a ∨ a + s.length < x) (m : ℕ → UInt8) :
    storeStr m a s x = m x := by
  unfold storeStr
  rw [Function.update_of_ne (by omega), copyIn_apply, if_neg (by omega)]

theorem cstr_storeStr (m : ℕ → UInt8) (a : ℕ) (s : List UInt8) : CStr (storeStr m a s) a s := by
  refine ⟨fun j hj => ?_, Function.update_self ..⟩
  unfold storeStr
  rw [Function.update_of_ne (by omega), copyIn_apply, if_pos (by omega), Nat.add_sub_cancel_left]

theorem load32_storeStr_of_apart {s : List UInt8} (h : b + 4 ≤ a ∨ a + s.length < b) (m : ℕ → UInt8) :
    load32 (storeStr m a s) b = load32 m b :=
  load32_congr fun x hx hx' => storeStr_of_outside (by omega) m

end CS330.Lib
