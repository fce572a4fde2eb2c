/-
What reading and writing through a descriptor copy, against what they report, for every 64-bit count. A
count is converted to `u32` and to `int` on its way down.
-/
import CS330.Fs.Turns
import CS330.Os.Cursor

namespace CS330.Os

open CS330.Lib CS330.Fs

/-- The operations `do_regular_file_open` gives a file object. -/
def regularOps : FileOps where
  read := some .doReadRegular
  write := some .doWriteRegular
  lseek := some .doLseekRegular
  close := some .doFileClose

/-- The `int` that a count given to a system call becomes. -/
def countInt (count : ℕ) : ℤ := i32 (u32 count)

theorem countInt_range (count : ℕ) : -2 ^ 31 ≤ countInt count ∧ countInt count < 2 ^ 31 := by
  unfold countInt i32
  omega

/-- A count that stays non-negative has not grown. -/
theorem countInt_le {count : ℕ} (h : 0 ≤ countInt count) : countInt count ≤ count := by
  unfold countInt i32 u32 at *
  omega

namespace Kernel

/-- An open regular file, its cursor inside the content. -/
structure Regular (k : Kernel) (x : Ptr) (f : File) (i : ℕ) : Prop where
  file : k.files x = some f
  inode : f.inode = some i
  ops : f.fops = regularOps
  laid : Laid (k.sb.inode i)
  cursor : f.offp ≤ (k.sb.inode i).fileSize

variable {k : Kernel} {p : Proc} {fd : Fd} {x : Ptr} {f : File} {i : ℕ}

theorem Regular.offp (h : k.Regular x f i) : f.offp ≤ maxFileSize ∧ i32 f.offp = f.offp := by
  have hcur := h.cursor
  have hfits := h.laid.fits
  simp only [maxFileSize] at hfits ⊢
  exact ⟨by omega, i32_of_range (by omega) (by omega)⟩

theorem Regular.room (h : k.Regular x f i) : roomAt (k.sb.inode i) f.offp = maxFileSize - f.offp := by
  have hroom := h.laid.room
  unfold roomAt
  omega

/-- How often the loop of `flat_read` turns in a `do_file_read`. -/
def fileReadTurns (k : Kernel) (p : Proc) (fd : Fd) (count : ℕ) : ℕ :=
  match (k.table p fd).bind k.files with
  | none => 0
  | some f =>
    if f.mode &&& oRead ≠ oRead then 0
    else match f.fops.read, f.inode with
      | some .doReadRegular, some i => readTurns (k.sb.inode i) (countInt count) (i32 f.offp)
      | _, _ => 0

/-- How often the loop of `flat_write` turns in a `do_file_write`. -/
def fileWriteTurns (k : Kernel) (p : Proc) (fd : Fd) (count : ℕ) : ℕ :=
  match (k.table p fd).bind k.files with
  | none => 0
  | some f =>
    if f.mode &&& oWrite = 0 then 0
    else match f.fops.write, f.inode with
      | some .doWriteRegular, some i => writeTurns (k.sb.inode i) (countInt count) (i32 f.offp)
      | _, _ => 0

theorem Regular.turns (h : k.Regular x f i) (hs : k.table p fd = some x) (count : ℕ) :
    k.fileReadTurns p fd count = (if f.mode &&& oRead ≠ oRead then 0
      else readTurns (k.sb.inode i) (countInt count) f.offp) ∧
    k.fileWriteTurns p fd count = if f.mode &&& oWrite = 0 then 0
      else writeTurns (k.sb.inode i) (countInt count) f.offp := by
  constructor
  · simp only [fileReadTurns, hs, Option.bind_some, h.file, h.ops, h.inode, regularOps, h.offp.2]
  · simp only [fileWriteTurns, hs, Option.bind_some, h.file, h.ops, h.inode, regularOps, h.offp.2]

theorem oRead_ne_zero {mode : UInt32} (h : mode &&& oRead = oRead) : mode &&& oRead ≠ 0 := by
  rw [h]
  decide

theorem Regular.doFileWrite_written (h : k.Regular x f i) (hs : k.table p fd = some x) (hm : f.mode &&& oWrite ≠ 0)
    (buff : ℕ → UInt8) (count : ℕ) (console : ℤ) :
    k.doFileWrite p fd buff count console = .ok ((flatWrite (k.sb.inode i) k.mem buff (countInt count) f.offp).1,
      k.written x f i (flatWrite (k.sb.inode i) k.mem buff (countInt count) f.offp)) := by
  have hwrite := doWriteRegular_some h.file h.inode hm buff (u32 count)
  rw [h.offp.2] at hwrite
  simp only [doFileWrite, hs, file_eq h.file, bind, Except.bind, h.ops, regularOps, if_neg hm]
  exact hwrite

/-- A read through a descriptor of a regular file is refused, or consists of the turns of its loop. -/
theorem Regular.doFileRead_eq (h : k.Regular x f i) (hs : k.table p fd = some x) (buff : ℕ → UInt8) (count : ℕ)
    (kbd : ℕ → UInt8) :
    ∃ buff' k', k.doFileRead p fd buff count kbd = .ok (if f.mode &&& oRead ≠ oRead then -eacces
      else i32 (readTurns (k.sb.inode i) (countInt count) f.offp), buff', k') ∧
      buff' = forRange 0 (k.fileReadTurns p fd count)
        (fun j b => Function.update b j (k.mem (readAddr (k.sb.inode i) f.offp j))) buff := by
  rw [(h.turns hs count).1]
  simp only [doFileRead, hs, file_eq h.file, bind, Except.bind, h.ops, regularOps]
  split
  · exact ⟨buff, k, rfl, rfl⟩
  · rename_i hmode
    rw [doReadRegular_some h.file h.inode (oRead_ne_zero (not_not.1 hmode)), h.offp.2, flatRead_turns]
    exact ⟨_, _, rfl, rfl⟩

/-- A write through a descriptor of a regular file is refused, or consists of the turns of its loop. -/
theorem Regular.doFileWrite_eq (h : k.Regular x f i) (hs : k.table p fd = some x) (buff : ℕ → UInt8) (count : ℕ)
    (console : ℤ) :
    ∃ k', k.doFileWrite p fd buff count console = .ok (if f.mode &&& oWrite = 0 then -eacces
      else (flatWrite (k.sb.inode i) k.mem buff (countInt count) f.offp).1, k') ∧
      k'.mem = forRange 0 (k.fileWriteTurns p fd count)
        (fun j m => Function.update m (u64 ((k.sb.inode i).sPos + f.offp + j)) (buff j)) k.mem := by
  rw [(h.turns hs count).2]
  by_cases hm : f.mode &&& oWrite = 0
  · rw [if_pos hm, if_pos hm]
    refine ⟨k, ?_, rfl⟩
    simp only [doFileWrite, hs, file_eq h.file, bind, Except.bind, if_pos hm]
  · rw [if_neg hm, if_neg hm]
    exact ⟨_, h.doFileWrite_written hs hm buff count console, (mem_written ..).trans (flatWrite_turns ..)⟩

/-! ## What is reported -/

/-- `turns` of a copy loop against the value reported for a count: as many as are reported, none with an
error or with a count that is negative as `int`, and no more than asked for and than there is room. -/
structure Reports (count room : ℕ) (ret : ℤ) (turns : ℕ) : Prop where
  exact : 0 ≤ ret → (turns : ℤ) = ret
  failed : ret < 0 → turns = 0
  asked : ret ≤ count
  room : ret ≤ room
  negative : countInt count < 0 → turns = 0 ∧ ret ≤ 0
  ends : turns ≤ maxFileSize

theorem reports_none {count room : ℕ} {ret : ℤ} (h : ret ≤ 0) : Reports count room ret 0 :=
  ⟨fun h0 => by omega, fun _ => rfl, by omega, by omega, fun _ => ⟨rfl, h⟩, Nat.zero_le _⟩

theorem reports_turns {count room turns : ℕ} (h : (turns : ℤ) ≤ countInt count) (hroom : turns ≤ room)
    (hends : turns ≤ maxFileSize) : Reports count room turns turns := by
  have hle : countInt count ≤ count := countInt_le (by omega)
  exact ⟨fun _ => rfl, fun h0 => by omega, by omega, by omega, fun hneg => by omega, hends⟩

theorem not_reports {count room turns : ℕ} {ret : ℤ} (h : maxFileSize < turns) : ¬ Reports count room ret turns :=
  fun hr => absurd hr.ends (not_le.2 h)

/-- A `do_file_read` copies what it reports. -/
def ReadReports (k : Kernel) (p : Proc) (fd : Fd) (buff : ℕ → UInt8) (count : ℕ) (kbd : ℕ → UInt8) (avail : ℕ) : Prop :=
  ∃ ret buff' k', k.doFileRead p fd buff count kbd = .ok (ret, buff', k') ∧
    Reports count avail ret (k.fileReadTurns p fd count)

/-- A `do_file_write` copies what it reports. -/
def WriteReports (k : Kernel) (p : Proc) (fd : Fd) (buff : ℕ → UInt8) (count : ℕ) (console : ℤ) (room : ℕ) : Prop :=
  ∃ ret k', k.doFileWrite p fd buff count console = .ok (ret, k') ∧
    Reports count room ret (k.fileWriteTurns p fd count)

theorem Regular.readReports_iff (h : k.Regular x f i) (hs : k.table p fd = some x) (buff : ℕ → UInt8) (count : ℕ)
    (kbd : ℕ → UInt8) :
    k.ReadReports p fd buff count kbd ((k.sb.inode i).fileSize - f.offp) ↔
      f.mode &&& oRead ≠ oRead ∨ f.offp = (k.sb.inode i).fileSize ∨ 0 ≤ countInt count := by
  obtain ⟨buff', k', hread, -⟩ := h.doFileRead_eq hs buff count kbd
  have hturns := (h.turns hs count).1
  have hcur := h.cursor
  have hfits := h.laid.fits
  obtain ⟨hlow, hhigh⟩ := countInt_range count
  unfold ReadReports
  rw [hread, hturns]
  by_cases hmode : f.mode &&& oRead ≠ oRead
  · rw [if_pos hmode, if_pos hmode]
    exact iff_of_true ⟨_, _, _, rfl, reports_none (by decide)⟩ (.inl hmode)
  · rw [if_neg hmode, if_neg hmode]
    by_cases hend : f.offp = (k.sb.inode i).fileSize
    · -- at the end nothing is left, whatever the count
      have hzero : readTurns (k.sb.inode i) (countInt count) f.offp = 0 := if_pos (by omega)
      rw [hzero]
      exact iff_of_true ⟨_, _, _, rfl, reports_none le_rfl⟩ (.inr (.inl hend))
    · by_cases hpos : 0 ≤ countInt count
      · have hle := readTurns_of_nonneg hpos hhigh (k.sb.inode i) f.offp
        unfold readable at hle
        have hret : i32 (readTurns (k.sb.inode i) (countInt count) f.offp) =
            readTurns (k.sb.inode i) (countInt count) f.offp := i32_of_range (by omega) (by omega)
        rw [hret]
        refine iff_of_true ⟨_, _, _, rfl, reports_turns (by omega) (by omega) (by omega)⟩ (.inr (.inr hpos))
      · -- the guard compares the count as it is, the loop as a `u64`
        have hmany : 2 ^ 63 < readTurns (k.sb.inode i) (countInt count) f.offp :=
          readTurns_of_neg (not_le.1 hpos) hlow (by omega)
        refine iff_of_false ?_ (not_or.2 ⟨hmode, not_or.2 ⟨hend, hpos⟩⟩)
        rintro ⟨ret, b, k₁, -, hreports⟩
        exact not_reports (lt_trans (by decide) hmany) hreports

theorem Regular.writeReports_iff (h : k.Regular x f i) (hs : k.table p fd = some x) (buff : ℕ → UInt8) (count : ℕ)
    (console : ℤ) :
    k.WriteReports p fd buff count console (maxFileSize - f.offp) ↔ f.mode &&& oWrite = 0 ∨ 0 ≤ countInt count := by
  obtain ⟨k', hwrite, -⟩ := h.doFileWrite_eq hs buff count console
  have hturns := (h.turns hs count).2
  have hroom := h.room
  have hoff := h.offp.1
  obtain ⟨hlow, hhigh⟩ := countInt_range count
  unfold WriteReports
  rw [hwrite, hturns]
  by_cases hmode : f.mode &&& oWrite = 0
  · rw [if_pos hmode, if_pos hmode]
    exact iff_of_true ⟨_, _, rfl, reports_none (by decide)⟩ (.inl hmode)
  · rw [if_neg hmode, if_neg hmode, flatWrite_fst]
    by_cases hpos : 0 ≤ countInt count
    · refine iff_of_true ?_ (.inr hpos)
      unfold writeTurns
      by_cases hgt : countInt count > roomAt (k.sb.inode i) f.offp
      · rw [if_pos hgt, if_pos hgt]
        exact ⟨_, _, rfl, reports_none (by decide)⟩
      · rw [if_neg hgt, if_neg hgt]
        obtain ⟨n, hn⟩ := Int.eq_ofNat_of_zero_le hpos
        have hturn : u64 (countInt count) = n := by
          rw [hn]
          exact u64_natCast (by omega)
        rw [hturn, hn]
        exact ⟨_, _, rfl, reports_turns hn.ge (by omega) (by omega)⟩
    · -- a negative count passes the guard and is a large `u64` to the loop
      have hmany : 2 ^ 63 < writeTurns (k.sb.inode i) (countInt count) f.offp :=
        writeTurns_of_neg (not_le.1 hpos) hlow (by omega)
      refine iff_of_false ?_ (not_or.2 ⟨hmode, hpos⟩)
      rintro ⟨ret, k₁, -, hreports⟩
      exact not_reports (lt_trans (by decide) hmany) hreports

end Kernel

open Kernel

/-- For every count: a read of a regular file copies exactly what it reports, no more than is asked for or
left and nothing with an error, if and only if it is refused, is at the end of the file, or has a count
that is non-negative as `int`; and a write if and only if it is refused or has such a count. -/
theorem reports_iff {k : Kernel} {p : Proc} {fd : Fd} {x : Ptr} {f : File} {i : ℕ} (h : k.Regular x f i)
    (hs : k.table p fd = some x) (buff : ℕ → UInt8) (count : ℕ) (kbd : ℕ → UInt8) (console : ℤ) :
    (k.ReadReports p fd buff count kbd ((k.sb.inode i).fileSize - f.offp) ↔
      f.mode &&& oRead ≠ oRead ∨ f.offp = (k.sb.inode i).fileSize ∨ 0 ≤ countInt count) ∧
    (k.WriteReports p fd buff count console (maxFileSize - f.offp) ↔ f.mode &&& oWrite = 0 ∨ 0 ≤ countInt count) :=
  ⟨h.readReports_iff hs buff count kbd, h.writeReports_iff hs buff count console⟩

/-- Process 1 after writing five bytes to a new file and seeking to the third. -/
def fiveBytes : Kernel :=
  (script (Call.next 1) first [.openFile 1 [97] 11 3 (some (4096, zeroPage)),
    .write 1 3 (fun j => [5, 6, 7, 8, 9].getD j 0) 5 0,
    .lseek 1 3 2 0]).2

theorem regular_fiveBytes : fiveBytes.Regular 4096 ⟨.regular, 3, 2, 1, some 0, regularOps, none⟩ 0 := by
  refine ⟨?_, rfl, rfl, ⟨?_, ?_, ?_, ?_⟩, ?_⟩ <;> decide +kernel

/-- A count of ten for the three bytes left and for the room behind the third byte. -/
theorem reports_iff_of_five :
    (fiveBytes.ReadReports 1 3 (fun _ => 0) 10 (fun _ => 0) ((fiveBytes.sb.inode 0).fileSize - 2) ↔
      (3 : UInt32) &&& oRead ≠ oRead ∨ 2 = (fiveBytes.sb.inode 0).fileSize ∨ 0 ≤ countInt 10) ∧
    (fiveBytes.WriteReports 1 3 (fun _ => 0) 10 0 (maxFileSize - 2) ↔
      (3 : UInt32) &&& oWrite = 0 ∨ 0 ≤ countInt 10) :=
  reports_iff regular_fiveBytes (by decide +kernel) (fun _ => 0) 10 (fun _ => 0) 0

/-- A count of 2^31, the first that is negative as `int`: reading and writing turn 2^64 - 2^31 times and
report -2^31. -/
theorem negative_count_overruns :
    ((fiveBytes.doFileRead 1 3 (fun _ => 0) (2 ^ 31) fun _ => 0).toOption.map fun r => r.1) = some (-2 ^ 31) ∧
    ((fiveBytes.doFileWrite 1 3 (fun _ => 0) (2 ^ 31) 0).toOption.map fun r => r.1) = some (-2 ^ 31) ∧
    fiveBytes.fileReadTurns 1 3 (2 ^ 31) = 2 ^ 64 - 2 ^ 31 ∧ fiveBytes.fileWriteTurns 1 3 (2 ^ 31) = 2 ^ 64 - 2 ^ 31 ∧
    ¬ fiveBytes.ReadReports 1 3 (fun _ => 0) (2 ^ 31) (fun _ => 0) 3 ∧
    ¬ fiveBytes.WriteReports 1 3 (fun _ => 0) (2 ^ 31) 0 4094 := by
  have hread : fiveBytes.fileReadTurns 1 3 (2 ^ 31) = 2 ^ 64 - 2 ^ 31 := by decide +kernel
  have hwrite : fiveBytes.fileWriteTurns 1 3 (2 ^ 31) = 2 ^ 64 - 2 ^ 31 := by decide +kernel
  refine ⟨by decide +kernel, by decide +kernel, hread, hwrite, ?_, ?_⟩
  · rintro ⟨ret, buff', k', -, hreports⟩
    exact not_reports (by rw [hread]; decide) hreports
  · rintro ⟨ret, k', -, hreports⟩
    exact not_reports (by rw [hwrite]; decide) hreports

end CS330.Os
