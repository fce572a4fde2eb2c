/-
How often the copy loops of `flat_read` and `flat_write` turn, for every `int` count and offset. The
guards compare signed numbers, the loops count to a `u64`: a negative count passes the guards and is a
number near 2^64 to the loop.
-/
import CS330.Fs.Flat

namespace CS330.Fs

open CS330.Lib

variable {inode : Inode} {mem : Mem} {buf : ℕ → UInt8} {count off : ℤ}

/-! ## Reading -/

/-- `size`, up to which the loop of `flat_read` counts; none where it is not entered. -/
def readTurns (inode : Inode) (count off : ℤ) : ℕ :=
  if (inode.fileSize : ℤ) - off ≤ 0 then 0 else u64 (min count (inode.fileSize - off))

/-- The address the loop of `flat_read` copies from in turn `j`. -/
def readAddr (inode : Inode) (off : ℤ) (j : ℕ) : ℕ := u64 (inode.sPos + off + j)

/-- A read is its turns. -/
theorem flatRead_turns (inode : Inode) (mem : Mem) (buf : ℕ → UInt8) (count off : ℤ) :
    flatRead inode mem buf count off = (i32 (readTurns inode count off),
      forRange 0 (readTurns inode count off) (fun j b => Function.update b j (mem (readAddr inode off j))) buf) := by
  unfold flatRead readTurns
  by_cases h : (inode.fileSize : ℤ) - off ≤ 0
  · simp only [if_pos h]
    rfl
  · have hmin : (if count > (inode.fileSize : ℤ) - off then (inode.fileSize : ℤ) - off else count) =
        min count (inode.fileSize - off) := by
      rw [min_def]
      split <;> split <;> omega
    simp only [if_neg h, hmin]
    rfl

/-- How many bytes there are to read for a count. -/
def readable (inode : Inode) (count off : ℤ) : ℤ := max 0 (min count (inode.fileSize - off))

theorem readTurns_of_nonneg (h : 0 ≤ count) (h' : count < 2 ^ 31) (inode : Inode) (off : ℤ) :
    (readTurns inode count off : ℤ) = readable inode count off := by
  unfold readTurns readable
  split
  · omega
  · unfold u64
    omega

theorem flatRead_fst (h : 0 ≤ count) (h' : count < 2 ^ 31) (inode : Inode) (mem : Mem) (buf : ℕ → UInt8) (off : ℤ) :
    (flatRead inode mem buf count off).1 = readable inode count off := by
  rw [flatRead_turns, readTurns_of_nonneg h h']
  unfold readable
  exact i32_of_range (by omega) (by omega)

/-- Asking for what there is gets what any larger count gets. -/
theorem flatRead_readable (h : 0 ≤ count) (inode : Inode) (mem : Mem) (buf : ℕ → UInt8) (off : ℤ) :
    flatRead inode mem buf (readable inode count off) off = flatRead inode mem buf count off := by
  have hturns : readTurns inode (readable inode count off) off = readTurns inode count off := by
    unfold readTurns readable
    split
    · rfl
    · congr 1
      omega
  rw [flatRead_turns, flatRead_turns, hturns]

/-- With a negative count the loop turns once for each byte of the address space but a few. -/
theorem readTurns_of_neg (h : count < 0) (h' : -2 ^ 31 ≤ count) (hoff : off < inode.fileSize) :
    2 ^ 63 < readTurns inode count off := by
  unfold readTurns
  rw [if_neg (by omega), min_eq_left (by omega)]
  unfold u64
  omega

/-! ## Writing -/

/-- How much of the region of an inode lies behind an offset. -/
def roomAt (inode : Inode) (off : ℤ) : ℤ := inode.ePos - off - inode.sPos

/-- How far the loop of `flat_write` counts; none where it is not entered. -/
def writeTurns (inode : Inode) (count off : ℤ) : ℕ := if count > roomAt inode off then 0 else u64 count

/-- What a write stores are its turns. -/
theorem flatWrite_turns (inode : Inode) (mem : Mem) (buf : ℕ → UInt8) (count off : ℤ) :
    (flatWrite inode mem buf count off).2.2 = forRange 0 (writeTurns inode count off)
      (fun j m => Function.update m (u64 (inode.sPos + off + j)) (buf j)) mem := by
  unfold flatWrite writeTurns roomAt
  simp only
  split <;> rfl

theorem flatWrite_fst (inode : Inode) (mem : Mem) (buf : ℕ → UInt8) (count off : ℤ) :
    (flatWrite inode mem buf count off).1 = if count > roomAt inode off then -1 else count := by
  unfold flatWrite roomAt
  simp only
  split <;> rfl

theorem flatWrite_failed (h : count > roomAt inode off) : flatWrite inode mem buf count off = (-1, inode, mem) := by
  unfold roomAt at h
  unfold flatWrite
  simp only [if_pos h]

theorem writeTurns_of_neg (h : count < 0) (h' : -2 ^ 31 ≤ count) (hroom : 0 ≤ roomAt inode off) :
    2 ^ 63 < writeTurns inode count off := by
  unfold writeTurns
  rw [if_neg (by omega)]
  unfold u64
  omega

/-- A write reports no error where its count fits. -/
theorem flatWrite_neg_iff :
    (flatWrite inode mem buf count off).1 < 0 ↔ count < 0 ∨ count > roomAt inode off := by
  rw [flatWrite_fst]
  split
  · rename_i hgt
    exact iff_of_true (by decide) (.inr hgt)
  · rename_i hle
    simp only [hle, or_false]

end CS330.Fs
