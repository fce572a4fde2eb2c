/-
What a failed write leaves behind. The value a write returns is added to the cursor whatever it is, so an
error moves it back; runs that go on from there are compared with runs in which the write was not made.
-/
import CS330.Os.Turns

namespace CS330.Os

open CS330.Lib CS330.Fs

/-! ## Runs of reads, writes and seeks -/

/-- A read, write or seek through a descriptor. -/
inductive Access where
  | read (p : Proc) (fd : Fd) (buff : ℕ → UInt8) (count : ℕ) (kbd : ℕ → UInt8)
  | write (p : Proc) (fd : Fd) (buff : ℕ → UInt8) (count : ℕ) (console : ℤ)
  | lseek (p : Proc) (fd : Fd) (offset whence : ℤ)

/-- What the caller gets: the return value, and the buffer where there is one to fill. -/
structure Answer where
  ret : ℤ
  buff : Option (ℕ → UInt8)

namespace Access

def exec (k : Kernel) : Access → Except Fault (Answer × Kernel)
  | read p fd buff count kbd => (fun r => (⟨r.1, some r.2.1⟩, r.2.2)) <$> k.doFileRead p fd buff count kbd
  | write p fd buff count console => (fun r => (⟨r.1, none⟩, r.2)) <$> k.doFileWrite p fd buff count console
  | lseek p fd offset whence => (fun r => (⟨r.1, none⟩, r.2)) <$> k.doLseek p fd offset whence

/-- What a sequence of accesses answers, up to a fault. -/
def answers (k : Kernel) : List Access → List (Except Fault Answer)
  | [] => []
  | a :: as => match a.exec k with
    | .ok (r, k') => .ok r :: answers k' as
    | .error e => [.error e]

end Access

namespace Kernel

variable {k k' : Kernel} {p : Proc} {fd : Fd} {x : Ptr} {f : File} {i : ℕ}

/-- No cursor, no inode and no byte differs. -/
structure Untouched (k k' : Kernel) : Prop where
  cursors : ∀ x, (k'.files x).map File.offp = (k.files x).map File.offp
  inodes : ∀ i, k'.sb.inode i = k.sb.inode i
  bytes : k'.mem = k.mem

theorem Untouched.refl (k : Kernel) : Untouched k k := ⟨fun _ => rfl, fun _ => rfl, rfl⟩

/-- No sequence of reads, writes and seeks tells the two apart. -/
def Alike (k k' : Kernel) : Prop := ∀ as, Access.answers k' as = Access.answers k as

/-- A write that fails changes nothing. -/
def FailsUntouched (k : Kernel) (p : Proc) (fd : Fd) (buff : ℕ → UInt8) (count : ℕ) (console : ℤ) : Prop :=
  ∃ ret k', k.doFileWrite p fd buff count console = .ok (ret, k') ∧ (ret < 0 → Untouched k k')

/-- A write that fails is as if it had not been made, for all that comes after it. -/
def FailsAlike (k : Kernel) (p : Proc) (fd : Fd) (buff : ℕ → UInt8) (count : ℕ) (console : ℤ) : Prop :=
  ∃ ret k', k.doFileWrite p fd buff count console = .ok (ret, k') ∧ (ret < 0 → Alike k k')

/-! ## The cursor tells -/

/-- Asking for the cursor of a regular file: its value, or an error where it is not inside the file. -/
theorem doLseek_cur (hs : k.table p fd = some x) (hf : k.files x = some f) (hi : f.inode = some i)
    (hop : f.fops.lseek = some .doLseekRegular) (hoff : f.offp < 2 ^ 32) :
    ∃ ret k', k.doLseek p fd 0 seekCur = .ok (ret, k') ∧ (ret = f.offp ∨ ret = -einval) ∧
      (f.offp ≤ (k.sb.inode i).fileSize → ret = f.offp) := by
  have hcur : seekCur ≠ seekSet := by decide
  have hi64 : i64 ((f.offp : ℤ) + 0) = f.offp := by
    unfold i64
    omega
  have hu32 : (u32 (f.offp : ℤ) : ℤ) = f.offp := u32_of_range (by omega) (by omega)
  simp only [doLseek, hs, file_eq hf, bind, Except.bind, hop, doLseekRegular, hi, if_neg hcur, if_true, hi64]
  rw [if_pos (by simp)]
  split
  · rename_i hout
    exact ⟨_, _, rfl, .inr rfl, fun hle => by omega⟩
  · exact ⟨_, _, rfl, .inl hu32, fun _ => hu32⟩

/-- Kernels that differ in the cursor of a regular file are told apart by a seek. -/
theorem not_alike (h : k.Regular x f i) (hs : k.table p fd = some x) (ht : k'.table = k.table) {n : ℕ}
    (hf : k'.files x = some { f with offp := n }) (hn : n < 2 ^ 32) (hne : n ≠ f.offp) : ¬ Alike k k' := by
  intro hall
  have hop : f.fops.lseek = some .doLseekRegular := by rw [h.ops]; rfl
  have hoff := h.offp.1
  simp only [maxFileSize] at hoff
  obtain ⟨ret, k₁, hret, -, hhere⟩ := doLseek_cur hs h.file h.inode hop (by omega)
  obtain ⟨ret', k₂, hret', hthere, -⟩ :=
    doLseek_cur (k := k') (f := { f with offp := n }) (by rw [ht]; exact hs) hf h.inode hop hn
  have hans := hall [.lseek p fd 0 seekCur]
  simp only [Access.answers, Access.exec, hret, hret', Functor.map, Except.map, List.cons.injEq, Except.ok.injEq,
    Answer.mk.injEq, and_true] at hans
  have heinval : einval = 1 := rfl
  have hcur := hhere h.cursor
  rcases hthere with hr | hr
  · simp only at hr
    omega
  · omega

/-! ## Writes that fail -/

/-- Any error moves the cursor. -/
theorem written_moves {r : ℤ × Inode × Mem} (hneg : r.1 < 0) (hlow : -2 ^ 31 ≤ r.1) (k : Kernel)
    (x : Ptr) (i : ℕ) : (k.written x f i r).table = k.table ∧
      ∃ n, (k.written x f i r).files x = some { f with offp := n } ∧ n < 2 ^ 32 ∧ n ≠ f.offp := by
  refine ⟨rfl, u32 (f.offp + r.1), ?_, u32_lt _, ?_⟩
  · rw [files_written, Function.update_self]
  · unfold u32
    omega

/-- A write that may be made and that fails leaves another cursor. -/
theorem Regular.failed (h : k.Regular x f i) (hs : k.table p fd = some x) (hm : f.mode &&& oWrite ≠ 0)
    (buff : ℕ → UInt8) {count : ℕ} (console : ℤ)
    (hfail : ¬ (0 ≤ countInt count ∧ f.offp + countInt count ≤ maxFileSize)) :
    ∃ ret k', k.doFileWrite p fd buff count console = .ok (ret, k') ∧ ret < 0 ∧ k'.table = k.table ∧
      ∃ n, k'.files x = some { f with offp := n } ∧ n < 2 ^ 32 ∧ n ≠ f.offp := by
  have hoff := h.offp.1
  simp only [maxFileSize] at hoff hfail
  obtain ⟨hlow, -⟩ := countInt_range count
  have hroom := h.room
  simp only [maxFileSize] at hroom
  have hneg : (flatWrite (k.sb.inode i) k.mem buff (countInt count) f.offp).1 < 0 := flatWrite_neg_iff.2 (by omega)
  have hbound : -2 ^ 31 ≤ (flatWrite (k.sb.inode i) k.mem buff (countInt count) f.offp).1 := by
    rw [flatWrite_fst]
    split <;> omega
  have hwrite := h.doFileWrite_written hs hm buff count console
  exact ⟨_, _, hwrite, hneg, written_moves hneg hbound k x i⟩

/-- A write that may be made and fails is noticed, in the state and by what comes after. -/
theorem Regular.not_fails (h : k.Regular x f i) (hs : k.table p fd = some x) (hm : f.mode &&& oWrite ≠ 0)
    (buff : ℕ → UInt8) {count : ℕ} (console : ℤ)
    (hfail : ¬ (0 ≤ countInt count ∧ f.offp + countInt count ≤ maxFileSize)) :
    ¬ k.FailsUntouched p fd buff count console ∧ ¬ k.FailsAlike p fd buff count console := by
  obtain ⟨ret, k', hwrite, hneg, ht, n, hf, hn, hne⟩ := h.failed hs hm buff console hfail
  constructor
  · rintro ⟨ret', k'', hwrite', hclean⟩
    obtain ⟨rfl, rfl⟩ := Prod.mk.inj (Except.ok.inj (hwrite.symm.trans hwrite'))
    have hcursor := (hclean hneg).cursors x
    rw [hf, h.file] at hcursor
    exact hne (Option.some.inj hcursor)
  · rintro ⟨ret', k'', hwrite', halike⟩
    obtain ⟨rfl, rfl⟩ := Prod.mk.inj (Except.ok.inj (hwrite.symm.trans hwrite'))
    exact not_alike h hs ht hf hn hne (halike hneg)

/-- A write that is refused changes nothing, and one that fits does not fail. -/
theorem Regular.clean (h : k.Regular x f i) (hs : k.table p fd = some x) (buff : ℕ → UInt8) {count : ℕ} (console : ℤ)
    (hok : f.mode &&& oWrite = 0 ∨ 0 ≤ countInt count ∧ f.offp + countInt count ≤ maxFileSize) :
    ∃ ret k', k.doFileWrite p fd buff count console = .ok (ret, k') ∧ (ret < 0 → k' = k) := by
  by_cases hm : f.mode &&& oWrite = 0
  · refine ⟨-eacces, k, ?_, fun _ => rfl⟩
    simp only [doFileWrite, hs, file_eq h.file, bind, Except.bind, if_pos hm]
  · obtain ⟨hpos, hfit⟩ := hok.resolve_left hm
    obtain ⟨k', hwrite, -⟩ := h.doFileWrite_eq hs buff count console
    have hroom := h.room
    rw [if_neg hm, flatWrite_fst, if_neg (by omega)] at hwrite
    exact ⟨_, k', hwrite, fun hneg => by omega⟩

end Kernel

open Kernel

/-- For every regular file with its cursor inside, and every count: a write that fails changes nothing, and
nothing that comes after tells that it was made, each if and only if it is refused before it reaches the
file system or does not fail there. -/
theorem failed_write_iff {k : Kernel} {p : Proc} {fd : Fd} {x : Ptr} {f : File} {i : ℕ} (h : k.Regular x f i)
    (hs : k.table p fd = some x) (buff : ℕ → UInt8) (count : ℕ) (console : ℤ) :
    (k.FailsUntouched p fd buff count console ↔
      f.mode &&& oWrite = 0 ∨ 0 ≤ countInt count ∧ f.offp + countInt count ≤ maxFileSize) ∧
    (k.FailsAlike p fd buff count console ↔
      f.mode &&& oWrite = 0 ∨ 0 ≤ countInt count ∧ f.offp + countInt count ≤ maxFileSize) := by
  by_cases hok : f.mode &&& oWrite = 0 ∨ 0 ≤ countInt count ∧ f.offp + countInt count ≤ maxFileSize
  · obtain ⟨ret, k', hwrite, hsame⟩ := h.clean hs buff console hok
    refine ⟨iff_of_true ⟨ret, k', hwrite, fun hneg => ?_⟩ hok, iff_of_true ⟨ret, k', hwrite, fun hneg => ?_⟩ hok⟩
    · rw [hsame hneg]
      exact .refl k
    · rw [hsame hneg]
      exact fun _ => rfl
  · obtain ⟨hm, hfail⟩ := not_or.1 hok
    obtain ⟨huntouched, halike⟩ := h.not_fails hs hm buff console hfail
    exact ⟨iff_of_false huntouched hok, iff_of_false halike hok⟩

/-- A write of 5000 bytes to a file of five, with the cursor at the third. -/
theorem failed_write_iff_of_five :
    (fiveBytes.FailsUntouched 1 3 (fun _ => 7) 5000 0 ↔
      (3 : UInt32) &&& oWrite = 0 ∨ 0 ≤ countInt 5000 ∧ ((2 : ℕ) : ℤ) + countInt 5000 ≤ maxFileSize) ∧
    (fiveBytes.FailsAlike 1 3 (fun _ => 7) 5000 0 ↔
      (3 : UInt32) &&& oWrite = 0 ∨ 0 ≤ countInt 5000 ∧ ((2 : ℕ) : ℤ) + countInt 5000 ≤ maxFileSize) :=
  failed_write_iff regular_fiveBytes (by decide +kernel) (fun _ => 7) 5000 0

/-- It fails and takes the cursor back by one, as a seek then tells. -/
theorem failed_write_moves_cursor :
    let k := fiveBytes
    let r := k.doFileWrite 1 3 (fun _ => 7) 5000 0
    (r.toOption.map fun r => r.1) = some (-1) ∧ (k.files 4096).map File.offp = some 2 ∧
      (r.toOption.map fun r => (r.2.files 4096).map File.offp) = some (some 1) ∧
      ((k.doLseek 1 3 0 seekCur).toOption.map fun r => r.1) = some 2 ∧
      (r.toOption.map fun r => ((r.2.doLseek 1 3 0 seekCur).toOption.map fun r => r.1)) = some (some 1) ∧
      ¬ k.FailsUntouched 1 3 (fun _ => 7) 5000 0 ∧ ¬ k.FailsAlike 1 3 (fun _ => 7) 5000 0 := by
  intro k r
  have hs : fiveBytes.table 1 3 = some 4096 := by decide +kernel
  have hlong : ¬ (0 ≤ countInt 5000 ∧ ((2 : ℕ) : ℤ) + countInt 5000 ≤ maxFileSize) := by decide
  have hnot := regular_fiveBytes.not_fails hs (by decide) (fun _ => 7) 0 hlong
  exact ⟨by decide +kernel, by decide +kernel, by decide +kernel, by decide +kernel, by decide +kernel, hnot⟩

end CS330.Os
