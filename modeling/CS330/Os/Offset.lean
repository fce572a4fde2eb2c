/-
do_sendfile with an explicit offset: of the 64-bit offset only the low half reaches the file system, as an
`int`.
-/
import CS330.Os.Sendfile

namespace CS330.Os

open CS330.Lib CS330.Fs

namespace Kernel

variable {k k' : Kernel} {p : Proc} {outfd infd : Fd} {x y : Ptr} {f g : File} {i j : ℕ} {off count : ℤ}
  {buff : Option (ℕ → UInt8)}

/-- The bytes between an offset and the end of a file, `count` of them at most; none where the offset is
outside the file. -/
def bytesFrom (k : Kernel) (i : ℕ) (off count : ℤ) : List UInt8 :=
  if 0 ≤ off ∧ off ≤ (k.sb.inode i).fileSize then
    ((content (k.sb.inode i) k.mem).drop off.toNat).take count.toNat
  else []

/-- Exactly the bytes from the offset on are copied to the cursor of the output, and added to the offset; no
other cursor moves, nothing before the start of the input is read, and no more than a page is filled. -/
structure SendsFrom (k k' : Kernel) (y : Ptr) (g : File) (i j : ℕ) (off count ret : ℤ) (offset : Option ℤ) : Prop where
  ret : ret = (k.bytesFrom i off count).length
  offset : offset = some (off + (k.bytesFrom i off count).length)
  written : content (k'.sb.inode j) k'.mem = splice (content (k.sb.inode j) k.mem) g.offp (k.bytesFrom i off count)
  output : k'.files y = some { g with offp := g.offp + (k.bytesFrom i off count).length }
  others : ∀ z ≠ y, k'.files z = k.files z
  start : ∀ t < readTurns (k.sb.inode i) count (i32 off), (k.sb.inode i).sPos ≤ readAddr (k.sb.inode i) (i32 off) t
  page : readTurns (k.sb.inode i) count (i32 off) ≤ pageSize

/-- The sendfile returns, having copied what is at the offset. -/
def SendsAt (k : Kernel) (p : Proc) (outfd infd : Fd) (y : Ptr) (g : File) (i j : ℕ) (off count : ℤ)
    (buff : Option (ℕ → UInt8)) : Prop :=
  ∃ ret offset k', k.doSendfile p outfd infd (some off) count buff = .ok (ret, offset, k') ∧
    SendsFrom k k' y g i j off count ret offset

/-! ## The call -/

theorem doSendfile_at (hin : k.OpenAt p infd x f) (hout : k.OpenAt p outfd y g) (hr : f.mode &&& oRead ≠ 0)
    (hw : g.mode &&& oWrite ≠ 0) (hi : f.inode = some i) {n ret : ℤ} {page : ℕ → UInt8}
    (hread : flatRead (k.sb.inode i) k.mem (tempPage buff) count (i32 off) = (n, page)) (hpage : ¬ NoPage buff f g n)
    (hwrite : k.doWriteRegular y page (u32 n) = .ok (ret, k')) :
    k.doSendfile p outfd infd (some off) count buff = .ok (ret, some (i64 (off + n)), k') := by
  unfold tempPage at hread
  unfold NoPage at hpage
  simp only [doSendfile, hin.slot, hout.slot, file_eq hin.file, file_eq hout.file, bind, Except.bind, if_neg hr,
    if_neg hw, sendfileRead, hi, hread]
  rw [hi] at hpage
  simp only [if_neg hpage, hwrite]

theorem doSendfile_at_crash (hin : k.OpenAt p infd x f) (hout : k.OpenAt p outfd y g) (hr : f.mode &&& oRead ≠ 0)
    (hw : g.mode &&& oWrite ≠ 0) (hi : f.inode = some i) {n : ℤ} {page : ℕ → UInt8}
    (hread : flatRead (k.sb.inode i) k.mem (tempPage buff) count (i32 off) = (n, page)) (hpage : NoPage buff f g n) :
    k.doSendfile p outfd infd (some off) count buff = .error .nullDeref := by
  unfold tempPage at hread
  unfold NoPage at hpage
  simp only [doSendfile, hin.slot, hout.slot, file_eq hin.file, file_eq hout.file, bind, Except.bind, if_neg hr,
    if_neg hw, sendfileRead, hi, hread]
  rw [hi] at hpage
  simp only [if_pos hpage]

/-! ## What is copied -/

theorem length_bytesFrom (h : 0 ≤ off ∧ off ≤ (k.sb.inode i).fileSize) (count : ℤ) :
    (k.bytesFrom i off count).length = min count.toNat ((k.sb.inode i).fileSize - off.toNat) := by
  unfold bytesFrom
  rw [if_pos h, List.length_take, List.length_drop, length_content]

/-- Where the file system finds nothing to read there is nothing to copy. -/
theorem bytesFrom_eq_nil (h : count = 0 ∨ ((k.sb.inode i).fileSize : ℤ) ≤ i32 off) (hl : Laid (k.sb.inode i)) :
    k.bytesFrom i off count = [] := by
  have hfits := hl.fits
  simp only [maxFileSize] at hfits
  by_cases hin : 0 ≤ off ∧ off ≤ (k.sb.inode i).fileSize
  · have hoff : i32 off = off := i32_of_range (by omega) (by omega)
    have hlen := length_bytesFrom hin count
    exact List.eq_nil_of_length_eq_zero (by omega)
  · exact if_neg hin

/-- The bytes a sendfile reads where it reads at the offset: as many as there are, out of the file, and no
more than a page. -/
structure ReadsAt (k : Kernel) (i : ℕ) (off count : ℤ) (page page' : ℕ → UInt8) (n : ℕ) : Prop where
  read : flatRead (k.sb.inode i) k.mem page count (i32 off) = ((n : ℤ), page')
  length : (k.bytesFrom i off count).length = n
  bytes : slice page' n = k.bytesFrom i off count
  small : n ≤ maxFileSize
  sum : i64 (off + n) = off + n
  turns : readTurns (k.sb.inode i) count (i32 off) = n
  start : ∀ t < n, (k.sb.inode i).sPos ≤ readAddr (k.sb.inode i) (i32 off) t

/-- Nothing is asked for, or the offset is beyond the end for the file system. -/
theorem reads_nothing (hl : Laid (k.sb.inode i)) (h : 0 ≤ count) (h' : count < 2 ^ 31) (hlow : -2 ^ 63 ≤ off)
    (hhigh : off < 2 ^ 63) (hno : count = 0 ∨ ((k.sb.inode i).fileSize : ℤ) ≤ i32 off) (page : ℕ → UInt8) :
    ∃ page', ReadsAt k i off count page page' 0 := by
  have hnil := bytesFrom_eq_nil hno hl
  have hzero : readable (k.sb.inode i) count (i32 off) = 0 := by
    unfold readable
    omega
  refine ⟨(flatRead (k.sb.inode i) k.mem page count (i32 off)).2, ?_, ?_, ?_, Nat.zero_le _, ?_, ?_, ?_⟩
  · exact Prod.ext ((flatRead_fst h h' (k.sb.inode i) k.mem page (i32 off)).trans hzero) rfl
  · rw [hnil]
    rfl
  · rw [hnil, slice_zero]
  · rw [Nat.cast_zero, add_zero]
    unfold i64
    omega
  · have hturns := readTurns_of_nonneg h h' (k.sb.inode i) (i32 off)
    omega
  · intro t ht
    omega

/-- The offset is inside the file. -/
theorem reads_inside (hl : Laid (k.sb.inode i)) (h : 0 ≤ count) (h' : count < 2 ^ 31)
    (hin : 0 ≤ off ∧ off ≤ (k.sb.inode i).fileSize) (page : ℕ → UInt8) :
    ∃ page', ReadsAt k i off count page page' (min count.toNat ((k.sb.inode i).fileSize - off.toNat)) := by
  obtain ⟨o, rfl⟩ := Int.eq_ofNat_of_zero_le hin.1
  obtain ⟨c, rfl⟩ := Int.eq_ofNat_of_zero_le h
  have hfits := hl.fits
  have hroom := hl.room
  have hbound := hl.bound
  simp only [maxFileSize] at hfits hroom
  -- files are small, so an offset inside one is the same as an `int`
  have hoff : i32 (o : ℤ) = o := i32_of_range (by omega) (by omega)
  simp only [Int.toNat_natCast]
  refine ⟨copyIn page 0 (min c ((k.sb.inode i).fileSize - o)) fun t => k.mem ((k.sb.inode i).sPos + o + t), ?_, ?_, ?_,
    ?_, ?_, ?_, ?_⟩
  · rw [hoff]
    exact flatRead_eq hl k.mem page o c
  · have hlen := length_bytesFrom hin (c : ℤ)
    simpa only [Int.toNat_natCast] using hlen
  · rw [slice_read]
    unfold bytesFrom
    rw [if_pos hin, Int.toNat_natCast, Int.toNat_natCast]
  · simp only [maxFileSize]
    omega
  · unfold i64
    omega
  · have hturns := readTurns_of_nonneg h h' (k.sb.inode i) (i32 o)
    unfold readable at hturns
    rw [hoff] at hturns ⊢
    omega
  · intro t ht
    rw [hoff]
    unfold readAddr u64
    omega

/-- Reading where the offset says, and writing what was read. -/
theorem ReadsAt.sends (hin : k.OpenAt p infd x f) (hi : f.inode = some i) (hout : k.OpenAt p outfd y g)
    (hreg : k.Regular y g j) (hr : f.mode &&& oRead ≠ 0) (hw : g.mode &&& oWrite ≠ 0) {page' : ℕ → UInt8} {n : ℕ}
    (hread : ReadsAt k i off count (tempPage buff) page' n) (hpage : buff.isSome = true ∨ n = 0)
    (hroom : g.offp + n ≤ maxFileSize) : k.SendsAt p outfd infd y g i j off count buff := by
  have hsmall := hread.small
  have hinode : f.inode.isSome = true := by rw [hi]; rfl
  have hno : ¬ NoPage buff f g n := by
    rw [noPage_iff hinode, not_not]
    exact hpage.imp_right fun hzero => by rw [hzero]; rfl
  have hwrite := doWriteRegular_some hreg.file hreg.inode hw page' (u32 (n : ℤ))
  simp only [maxFileSize] at hsmall hroom
  rw [i32_u32 (by omega) (by omega), hreg.offp.2, flatWrite_of_le hreg.laid k.mem page' hroom] at hwrite
  have hlen := hread.length
  -- the write fits, so the cursor does not wrap around
  have hoff : u32 ((g.offp : ℤ) + n) = g.offp + n := by
    unfold u32
    omega
  have hgrown : ∀ r : ℤ × Inode × Mem, (k.written y g j r).sb.inode j = r.2.1 := fun r => Function.update_self ..
  refine ⟨_, _, _, doSendfile_at hin hout hr hw hi hread.read hno hwrite, ?_, ?_, ?_, ?_, ?_, ?_, ?_⟩
  · rw [hlen]
  · rw [hlen, hread.sum]
  · rw [hgrown, mem_written, content_grown _ _ _ hreg.cursor, hread.bytes]
  · rw [files_written, Function.update_self, hlen, hoff]
  · intro z hz
    rw [files_written, Function.update_of_ne hz]
  · rw [hread.turns]
    exact hread.start
  · rw [hread.turns]
    exact hread.small

/-- Where the low half of the offset leads into or before the file and the offset does not, bytes are read
and counted. -/
theorem not_sendsAt (hin : k.OpenAt p infd x f) (hi : f.inode = some i) (hout : k.OpenAt p outfd y g)
    (hj : g.inode = some j) (hr : f.mode &&& oRead ≠ 0) (hw : g.mode &&& oWrite ≠ 0) (h : 0 ≤ count)
    (h' : count < 2 ^ 31) (hcount : count ≠ 0) (hoff : i32 off < (k.sb.inode i).fileSize)
    (hbad : ¬ (buff.isSome = true ∧ 0 ≤ off ∧ off ≤ (k.sb.inode i).fileSize)) :
    ¬ k.SendsAt p outfd infd y g i j off count buff := by
  have hpos : 0 < readable (k.sb.inode i) count (i32 off) ∧ readable (k.sb.inode i) count (i32 off) ≤ count := by
    unfold readable
    omega
  have hret := flatRead_fst h h' (k.sb.inode i) k.mem (tempPage buff) (i32 off)
  have hread : flatRead (k.sb.inode i) k.mem (tempPage buff) count (i32 off) =
      (readable (k.sb.inode i) count (i32 off), (flatRead (k.sb.inode i) k.mem (tempPage buff) count (i32 off)).2) :=
    Prod.ext hret rfl
  generalize readable (k.sb.inode i) count (i32 off) = n at *
  rintro ⟨ret, offset, k', hsend, hs⟩
  by_cases hpage : NoPage buff f g n
  · rw [doSendfile_at_crash hin hout hr hw hi hread hpage] at hsend
    cases hsend
  · have hserved : buff.isSome = true ∨ n = 0 := by
      by_contra hno
      exact hpage ((noPage_iff (by rw [hi]; rfl)).2 hno)
    have hsome : buff.isSome = true := hserved.resolve_right (by omega)
    -- something is read and added to the offset, where there is nothing to copy
    have hnil : k.bytesFrom i off count = [] := if_neg fun hin => hbad ⟨hsome, hin⟩
    rw [doSendfile_at hin hout hr hw hi hread hpage (doWriteRegular_some hout.file hj hw ..)] at hsend
    obtain ⟨-, hrest⟩ := Prod.mk.inj (Except.ok.inj hsend)
    obtain ⟨rfl, -⟩ := Prod.mk.inj hrest
    have hsum := Option.some.inj hs.offset
    rw [hnil] at hsum
    simp only [List.length_nil, Nat.cast_zero, add_zero] at hsum
    unfold i64 at hsum
    omega

end Kernel

open Kernel

/-- For every 64-bit offset and every count: with room in the output, a sendfile copies exactly the bytes
from the offset on if and only if nothing is asked for, or the low half of the offset is beyond the end of
the input, or there is a page to copy through and the offset is inside the input. -/
theorem sendsAt_iff {k : Kernel} {p : Proc} {outfd infd : Fd} {x y : Ptr} {f g : File} {i j : ℕ} {off count : ℤ}
    (hin : k.OpenAt p infd x f) (hi : f.inode = some i) (hl : Laid (k.sb.inode i)) (hout : k.OpenAt p outfd y g)
    (hreg : k.Regular y g j) (hr : f.mode &&& oRead ≠ 0) (hw : g.mode &&& oWrite ≠ 0) (h : 0 ≤ count)
    (h' : count < 2 ^ 31) (hlow : -2 ^ 63 ≤ off) (hhigh : off < 2 ^ 63)
    (hroom : g.offp + (k.bytesFrom i off count).length ≤ maxFileSize) (buff : Option (ℕ → UInt8)) :
    k.SendsAt p outfd infd y g i j off count buff ↔
      count = 0 ∨ ((k.sb.inode i).fileSize : ℤ) ≤ i32 off ∨
        buff.isSome = true ∧ 0 ≤ off ∧ off ≤ (k.sb.inode i).fileSize := by
  by_cases hno : count = 0 ∨ ((k.sb.inode i).fileSize : ℤ) ≤ i32 off
  · obtain ⟨page', hread⟩ := reads_nothing hl h h' hlow hhigh hno (tempPage buff)
    rw [hread.length] at hroom
    refine iff_of_true (hread.sends hin hi hout hreg hr hw (.inr rfl) hroom) ?_
    exact hno.elim .inl fun hle => .inr (.inl hle)
  · obtain ⟨hcount, hoff⟩ := not_or.1 hno
    by_cases hgood : buff.isSome = true ∧ 0 ≤ off ∧ off ≤ (k.sb.inode i).fileSize
    · obtain ⟨page', hread⟩ := reads_inside hl h h' hgood.2 (tempPage buff)
      rw [hread.length] at hroom
      exact iff_of_true (hread.sends hin hi hout hreg hr hw (.inl hgood.1) hroom) (.inr (.inr hgood))
    · refine iff_of_false ?_ (not_or.2 ⟨hcount, not_or.2 ⟨hoff, hgood⟩⟩)
      exact not_sendsAt hin hi hout hreg.inode hr hw h h' hcount (not_le.1 hoff) hgood

theorem regular_fourOpen : fourOpen.Regular 16384 ⟨.regular, 3, 0, 1, some 1, regularOps, none⟩ 1 := by
  refine ⟨?_, rfl, rfl, ⟨?_, ?_, ?_, ?_⟩, ?_⟩ <;> decide +kernel

theorem laid_fourOpen : Laid (fourOpen.sb.inode 0) := by
  refine ⟨?_, ?_, ?_, ?_⟩ <;> decide +kernel

/-- From the third byte of a file of five, ten bytes at most. -/
theorem sendsAt_iff_of_files :
    fourOpen.SendsAt 1 4 3 16384 ⟨.regular, 3, 0, 1, some 1, regularOps, none⟩ 0 1 2 10 (some fun _ => 0) ↔
      (10 : ℤ) = 0 ∨ ((fourOpen.sb.inode 0).fileSize : ℤ) ≤ i32 2 ∨
        (some fun _ : ℕ => (0 : UInt8)).isSome = true ∧ (0 : ℤ) ≤ 2 ∧ (2 : ℤ) ≤ (fourOpen.sb.inode 0).fileSize :=
  sendsAt_iff full_fourOpen rfl laid_fourOpen empty_fourOpen regular_fourOpen (by decide) (by decide) (by decide)
    (by decide) (by decide) (by decide) (by decide +kernel) (some fun _ => 0)

/-- At offset 2^32, far beyond the end, the first three bytes are copied; at offset -4 three of the four bytes
before the file are; at offset -8192 the temporary page gets 8197 bytes. -/
theorem offset_is_truncated :
    let send := fun off count => fourOpen.doSendfile 1 4 3 (some off) count (some fun _ => 0)
    ((send (2 ^ 32) 3).toOption.map fun r => r.1) = some 3 ∧
      ((send (2 ^ 32) 3).toOption.map fun r => content (r.2.2.sb.inode 1) r.2.2.mem) = some [5, 6, 7] ∧
      ((send (-4) 3).toOption.map fun r => r.1) = some 3 ∧
      readAddr (fourOpen.sb.inode 0) (i32 (-4)) 0 + 4 = (fourOpen.sb.inode 0).sPos ∧
      readTurns (fourOpen.sb.inode 0) 10000 (i32 (-8192)) = 8197 ∧
      ¬ fourOpen.SendsAt 1 4 3 16384 ⟨.regular, 3, 0, 1, some 1, regularOps, none⟩ 0 1 (2 ^ 32) 3
        (some fun _ => 0) := by
  intro send
  refine ⟨by decide +kernel, by decide +kernel, by decide +kernel, by decide +kernel, by decide +kernel, ?_⟩
  exact not_sendsAt full_fourOpen rfl empty_fourOpen rfl (by decide) (by decide) (by decide) (by decide) (by decide)
    (by decide +kernel) (by decide +kernel)

end CS330.Os
