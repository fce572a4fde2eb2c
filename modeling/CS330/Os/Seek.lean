/-
do_lseek: the position asked for is a sum in 64 bits, compared with the 32-bit size of the file. A sum that
wraps around comes out negative, so it is refused like the position it stands for.
-/
import CS330.Os.Turns

namespace CS330.Os

open CS330.Lib CS330.Fs

/-- The position a seek asks for, as an integer; none where `whence` is none of the three. -/
def seekTarget (offp size : ℕ) (offset whence : ℤ) : Option ℤ :=
  if whence = seekSet then some offset
  else if whence = seekCur then some (offp + offset)
  else if whence = seekEnd then some (size + offset)
  else none

/-- The position `do_lseek_regular` computes, in a `long`. -/
def seekSum (offp size : ℕ) (offset whence : ℤ) : ℤ :=
  if whence = seekSet then offset else if whence = seekCur then i64 (offp + offset) else i64 (size + offset)

/-! ## The sums -/

/-- A 32-bit base and a 64-bit offset: the sum is either exact or wrapped to a negative number. -/
theorem i64_add {n : ℕ} {offset : ℤ} (hn : n < 2 ^ 32) (hlow : -2 ^ 63 ≤ offset) (hhigh : offset < 2 ^ 63) :
    i64 (n + offset) = n + offset ∨ (i64 (n + offset) < 0 ∧ 2 ^ 63 ≤ n + offset) := by
  unfold i64
  omega

theorem seekTarget_none {offp size : ℕ} {offset whence : ℤ} :
    seekTarget offp size offset whence = none ↔ ¬ (whence = seekSet ∨ whence = seekCur ∨ whence = seekEnd) := by
  unfold seekTarget
  split_ifs <;> simp_all

/-- The bound check accepts exactly the positions inside the file, and accepts no wrapped sum. -/
theorem seekSum_accepted {offp size : ℕ} {offset whence t : ℤ} (ho : offp < 2 ^ 32) (hs : size < 2 ^ 32)
    (hlow : -2 ^ 63 ≤ offset) (hhigh : offset < 2 ^ 63) (ht : seekTarget offp size offset whence = some t) :
    (seekSum offp size offset whence > size ∨ seekSum offp size offset whence < 0 ↔ t < 0 ∨ size < t) ∧
    (0 ≤ t → t ≤ size → seekSum offp size offset whence = t) := by
  have hcur := i64_add ho hlow hhigh
  have hend := i64_add hs hlow hhigh
  unfold seekTarget at ht
  unfold seekSum
  split_ifs at ht ⊢ <;> obtain rfl := Option.some.inj ht <;> constructor <;> omega

namespace Kernel

variable {k : Kernel} {x : Ptr} {f : File} {i : ℕ} {offset whence : ℤ}

theorem doLseekRegular_eq (hf : k.files x = some f) (hi : f.inode = some i) (offset : ℤ)
    (hw : whence = seekSet ∨ whence = seekCur ∨ whence = seekEnd) :
    k.doLseekRegular x offset whence =
      let sum := seekSum f.offp (k.sb.inode i).fileSize offset whence
      if sum > (k.sb.inode i).fileSize ∨ sum < 0 then .ok (-einval, k)
      else .ok (u32 sum, k.setFile x { f with offp := u32 sum }) := by
  simp only [doLseekRegular, file_eq hf, bind, Except.bind, if_pos hw, hi]
  rfl

theorem doLseekRegular_other (hf : k.files x = some f) (offset : ℤ)
    (hw : ¬ (whence = seekSet ∨ whence = seekCur ∨ whence = seekEnd)) :
    k.doLseekRegular x offset whence = .ok (-einval, k) := by
  simp only [doLseekRegular, file_eq hf, bind, Except.bind, if_neg hw]

theorem doLseek_eq {p : Proc} {fd : Fd} (hs : k.table p fd = some x) (hf : k.files x = some f)
    (hops : f.fops = regularOps) (offset whence : ℤ) :
    k.doLseek p fd offset whence = k.doLseekRegular x offset whence := by
  simp only [doLseek, hs, file_eq hf, bind, Except.bind, hops, regularOps]

end Kernel

open Kernel

/-- For every cursor and size of 32 bits, every 64-bit offset and every `whence`: a seek on an open regular
file, through any of its descriptors, is refused and leaves everything as it was if and only if `whence` is
none of the three or the position asked for, as an integer, is outside the file; and otherwise it moves the
cursor to that position and returns it. -/
theorem seek_exact {k : Kernel} {x : Ptr} {f : File} {i : ℕ} {offset : ℤ} (hf : k.files x = some f)
    (hi : f.inode = some i) (ho : f.offp < 2 ^ 32) (hs : (k.sb.inode i).fileSize < 2 ^ 32)
    (hlow : -2 ^ 63 ≤ offset) (hhigh : offset < 2 ^ 63) (whence : ℤ) :
    ∃ ret k', k.doLseekRegular x offset whence = .ok (ret, k') ∧
      (ret = -einval ∧ k' = k ↔ ∀ t, seekTarget f.offp (k.sb.inode i).fileSize offset whence = some t →
        t < 0 ∨ (k.sb.inode i).fileSize < t) ∧
      (∀ t, seekTarget f.offp (k.sb.inode i).fileSize offset whence = some t → 0 ≤ t → t ≤ (k.sb.inode i).fileSize →
        ret = t ∧ k' = k.setFile x { f with offp := t.toNat }) ∧
      ∀ p fd, k.table p fd = some x → f.fops = regularOps → k.doLseek p fd offset whence = .ok (ret, k') := by
  cases ht : seekTarget f.offp (k.sb.inode i).fileSize offset whence with
  | none =>
    have hcall := doLseekRegular_other hf offset (seekTarget_none.1 ht)
    refine ⟨-einval, k, hcall, by simp, by simp, fun p fd hslot hops => ?_⟩
    rw [doLseek_eq hslot hf hops, hcall]
  | some t =>
    have hw := not_not.1 (mt seekTarget_none.2 (by rw [ht]; simp))
    obtain ⟨hrefused, hexact⟩ := seekSum_accepted ho hs hlow hhigh ht
    have hcall := doLseekRegular_eq hf hi offset hw
    simp only [hrefused] at hcall
    -- the sum of the code is the position asked for where that is inside the file
    by_cases hout : t < 0 ∨ (k.sb.inode i).fileSize < t
    · rw [if_pos hout] at hcall
      refine ⟨-einval, k, hcall, by simpa using hout, ?_, fun p fd hslot hops => ?_⟩
      · rintro s hs h0 hle
        obtain rfl := Option.some.inj hs
        omega
      · rw [doLseek_eq hslot hf hops, hcall]
    · have hsum := hexact (by omega) (by omega)
      have hval : (u32 t : ℤ) = t := u32_of_range (by omega) (by omega)
      rw [if_neg hout, hsum, hval] at hcall
      refine ⟨t, k.setFile x { f with offp := u32 t }, hcall, ⟨?_, fun h => absurd (h t rfl) hout⟩, ?_,
        fun p fd hslot hops => by rw [doLseek_eq hslot hf hops, hcall]⟩
      · rintro ⟨hret, -⟩
        simp only [einval] at hret
        omega
      · rintro s hs - -
        obtain rfl := Option.some.inj hs
        have hnat : u32 t = t.toNat := by omega
        exact ⟨rfl, by rw [hnat]⟩

/-- The largest offset from a cursor at 2: the sum wraps around, and is refused. -/
theorem seek_exact_of_five :
    ∃ ret k', fiveBytes.doLseekRegular 4096 (2 ^ 63 - 1) seekCur = .ok (ret, k') ∧
      (ret = -einval ∧ k' = fiveBytes ↔
        ∀ t, seekTarget 2 (fiveBytes.sb.inode 0).fileSize (2 ^ 63 - 1) seekCur = some t →
          t < 0 ∨ (fiveBytes.sb.inode 0).fileSize < t) ∧
      (∀ t, seekTarget 2 (fiveBytes.sb.inode 0).fileSize (2 ^ 63 - 1) seekCur = some t → 0 ≤ t →
        t ≤ (fiveBytes.sb.inode 0).fileSize →
        ret = t ∧ k' = fiveBytes.setFile 4096 ⟨.regular, 3, t.toNat, 1, some 0, regularOps, none⟩) ∧
      ∀ p fd, fiveBytes.table p fd = some 4096 → regularOps = regularOps →
        fiveBytes.doLseek p fd (2 ^ 63 - 1) seekCur = .ok (ret, k') :=
  seek_exact regular_fiveBytes.file rfl (by decide) (by decide +kernel) (by decide) (by decide) seekCur

end CS330.Os
