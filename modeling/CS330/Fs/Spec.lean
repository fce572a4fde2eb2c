/-
The flat file store is an array of bytes per inode: the list stored in `[s_pos, s_pos + file_size)`
goes through exactly the reads and writes of a byte array of `FILE_SIZE` bytes at most.
-/
import CS330.Fs.Flat
import CS330.Lib.Run

namespace CS330.Fs

open CS330.Lib

/-! ## The abstract byte array -/

/-- A call on a file: write `data` at `off`, or read `n` bytes from `off` into `buf`. -/
inductive FileOp where
  | write (off : ℕ) (data : List UInt8)
  | read (off n : ℕ) (buf : ℕ → UInt8)

/-- What a call answers: its return value and, for a read, the bytes it delivered. -/
structure Reply where
  ret : ℤ
  bytes : List UInt8

/-- A call and its answer. -/
structure Done where
  op : FileOp
  reply : Reply

/-- A byte array of at most `cap` bytes. -/
def FileOp.apply (cap : ℕ) (l : List UInt8) : FileOp → Reply × List UInt8
  | .write off data =>
    if off + data.length > cap then (⟨-1, []⟩, l) else (⟨data.length, []⟩, splice l off data)
  | .read off n _ => (⟨(min n (l.length - off) : ℕ), (l.drop off).take n⟩, l)

/-- One step of the byte array. -/
def ArrayStep (cap : ℕ) (l : List UInt8) (d : Done) (l' : List UInt8) : Prop := d.op.apply cap l = (d.reply, l')

/-! ## The layout -/

/-- The frame `alloc_inodes` uses for inode `i`, when the first one it takes is `k`. -/
def frameOf (k i : ℕ) : ℕ := if i = 0 then k else k + i + 1

theorem inode_allocInodes (pfn : ℕ → ℕ) (sb : SuperBlock) (d : Disk) {i : ℕ} (hi : i < numInodes) :
    (allocInodes pfn sb d).1.inode i = freshInode (u64 (pfn (frameOf d.next i) * pageSize)) maxFileSize := by
  unfold allocInodes
  refine (forRange_inv (fun j (s : SuperBlock × Disk) => s.2.next = d.next + 1 + j ∧ ∀ i < j,
      s.1.inode i = freshInode (u64 (pfn (frameOf d.next i) * pageSize)) maxFileSize)
    (Nat.zero_le numInodes) ⟨rfl, fun i h => absurd h (Nat.not_lt_zero i)⟩ ?_).2 i hi
  rintro j ⟨s, e⟩ - - ⟨hnext, hdone⟩
  simp only at hnext hdone
  by_cases hj : j = 0
  · rw [if_pos hj]
    refine ⟨by simp only [getContigousPages, hnext, hj]; rfl, fun i hij => ?_⟩
    have hi0 : i = 0 := by omega
    simp only [hi0, hj, Function.update_self]
    rfl
  · rw [if_neg hj]
    refine ⟨by simp only [getContigousPages, hnext]; rfl, fun i hij => ?_⟩
    rcases Nat.lt_succ_iff_lt_or_eq.1 hij with h | rfl
    · simp only [Function.update_of_ne (by omega : i ≠ j)]
      exact hdone i h
    · simp only [Function.update_self, getContigousPages, hnext, frameOf, if_neg hj,
        show d.next + i + 1 = d.next + 1 + i by omega]
      rfl

theorem inode_initFileSystem (pfn : ℕ → ℕ) (sb : SuperBlock) (d : Disk) {i : ℕ} (hi : i < numInodes) :
    (initFileSystem pfn sb d).1.inode i = freshInode (u64 (pfn (frameOf d.next i) * pageSize)) maxFileSize :=
  inode_allocInodes pfn sb d hi

/-- The region of an inode: `FILE_SIZE` bytes below the 32-bit bound, filled from the start. -/
structure Laid (f : Inode) : Prop where
  room : f.ePos = f.sPos + maxFileSize
  bound : f.ePos < 2 ^ 32
  maxPos : f.maxPos = f.sPos + f.fileSize
  fits : f.fileSize ≤ maxFileSize

theorem laid_fresh {pos : ℕ} (h : pos + maxFileSize < 2 ^ 32) : Laid (freshInode pos maxFileSize) := by
  have hpos : u32 pos = pos := u32_natCast (by omega)
  have hend : u32 ((pos + maxFileSize : ℕ) : ℤ) = pos + maxFileSize := u32_natCast h
  push_cast at hend
  constructor
  · simp only [freshInode, hpos, hend]
  · simp only [freshInode, hend]; exact h
  · simp only [freshInode, hpos]; rfl
  · exact Nat.zero_le _

/-- `alloc_inodes` lays out every inode whose frame lies below the 32-bit bound. -/
theorem laid_initFileSystem {pfn : ℕ → ℕ} (sb : SuperBlock) {d : Disk} {i : ℕ} (hi : i < numInodes)
    (hp : (pfn (frameOf d.next i) + 1) * pageSize < 2 ^ 32) : Laid ((initFileSystem pfn sb d).1.inode i) := by
  rw [inode_initFileSystem pfn sb d hi]
  apply laid_fresh
  simp only [pageSize, maxFileSize] at hp ⊢
  unfold u64
  omega

/-! ## Reading and writing -/

/-- What a file holds. -/
def content (f : Inode) (mem : Mem) : List UInt8 := region mem f.sPos f.fileSize

@[simp] theorem length_content (f : Inode) (mem : Mem) : (content f mem).length = f.fileSize := length_region ..

theorem flatWrite_of_gt {f : Inode} (h : Laid f) (mem : Mem) (buf : ℕ → UInt8) {off count : ℕ}
    (hgt : off + count > maxFileSize) : flatWrite f mem buf count off = (-1, f, mem) := by
  have hroom := h.room
  unfold flatWrite
  exact if_pos (by omega)

/-- The inode after a write of `count` bytes at `off` that fits. -/
def grown (f : Inode) (off count : ℕ) : Inode :=
  { f with maxPos := f.sPos + max f.fileSize (off + count), fileSize := max f.fileSize (off + count) }

theorem flatWrite_of_le {f : Inode} (h : Laid f) (mem : Mem) (buf : ℕ → UInt8) {off count : ℕ}
    (hle : off + count ≤ maxFileSize) :
    flatWrite f mem buf count off = ((count : ℤ), grown f off count, copyIn mem (f.sPos + off) count buf) := by
  have hroom := h.room
  have hbound := h.bound
  have hmax := h.maxPos
  have hfits := h.fits
  simp only [maxFileSize] at hle hroom hfits
  have hcount : u64 (count : ℤ) = count := u64_natCast (by omega)
  have hpos : u32 ((f.sPos : ℤ) + off + count) = f.sPos + (off + count) := by unfold u32; omega
  -- no address of the copy wraps
  have hcopy : forRange 0 count (fun i m => Function.update m (u64 (f.sPos + off + i)) (buf i)) mem =
      copyIn mem (f.sPos + off) count buf := by
    refine forRange_congr (fun i m _ hi => ?_) mem
    have haddr : u64 ((f.sPos : ℤ) + off + i) = f.sPos + off + i := by unfold u64; omega
    rw [haddr]
  have hgrow : (if f.sPos + (off + count) > f.maxPos then f.sPos + (off + count) else f.maxPos) =
      f.sPos + max f.fileSize (off + count) := by
    split <;> omega
  have hsize : u32 (((f.sPos + max f.fileSize (off + count) : ℕ) : ℤ) - f.sPos) = max f.fileSize (off + count) := by
    unfold u32; omega
  unfold flatWrite
  simp only [hcount, hpos, hcopy, hgrow, hsize]
  exact if_neg (by omega)

theorem laid_grown {f : Inode} (h : Laid f) {off count : ℕ} (hle : off + count ≤ maxFileSize) :
    Laid (grown f off count) :=
  ⟨h.room, h.bound, rfl, max_le h.fits hle⟩

/-- A write inside or right behind the content splices its bytes into it. -/
theorem content_grown (f : Inode) (mem : Mem) (buf : ℕ → UInt8) {off : ℕ} (ho : off ≤ f.fileSize) (count : ℕ) :
    content (grown f off count) (copyIn mem (f.sPos + off) count buf) =
      splice (content f mem) off (slice buf count) :=
  region_copyIn buf ho

/-- A read returns how many of the bytes asked for there are, puts them at the front of the buffer,
and leaves the rest of the buffer alone. -/
theorem flatRead_eq {f : Inode} (h : Laid f) (mem : Mem) (buf : ℕ → UInt8) (off count : ℕ) :
    flatRead f mem buf count off = (((min count (f.fileSize - off) : ℕ) : ℤ),
      copyIn buf 0 (min count (f.fileSize - off)) fun i => mem (f.sPos + off + i)) := by
  have hroom := h.room
  have hbound := h.bound
  have hfits := h.fits
  simp only [maxFileSize] at hroom hfits
  unfold flatRead
  by_cases hrem : (f.fileSize : ℤ) - off ≤ 0
  · have hzero : min count (f.fileSize - off) = 0 := by omega
    simp only [if_pos hrem, hzero]
    rfl
  · have hsize : u64 (if (count : ℤ) > f.fileSize - off then (f.fileSize : ℤ) - off else count) =
        min count (f.fileSize - off) := by
      unfold u64; split <;> omega
    simp only [if_neg hrem, hsize]
    have hret : i32 ((min count (f.fileSize - off) : ℕ) : ℤ) = (min count (f.fileSize - off) : ℕ) :=
      i32_of_range (by omega) (by omega)
    rw [hret]
    refine congrArg (Prod.mk _) (forRange_congr (fun i b _ hi => ?_) buf)
    have haddr : u64 ((f.sPos : ℤ) + off + i) = f.sPos + off + i := by unfold u64; omega
    rw [haddr, Nat.zero_add]

/-- The bytes a read delivers. -/
theorem slice_read (f : Inode) (mem : Mem) (buf : ℕ → UInt8) (off count : ℕ) :
    slice (copyIn buf 0 (min count (f.fileSize - off)) fun i => mem (f.sPos + off + i)) (min count (f.fileSize - off)) =
      ((content f mem).drop off).take count := by
  unfold content
  rw [region_drop_take]
  refine slice_congr fun i hi => ?_
  rw [copyIn_apply, if_pos (by omega), Nat.sub_zero, add_assoc]

/-! ## The simulation -/

/-- A call as the code runs it, on an inode and memory. -/
def FileOp.exec (s : Inode × Mem) : FileOp → Reply × Inode × Mem
  | .write off data =>
    let r := flatWrite s.1 s.2 (fun i => data.getD i 0) data.length off
    (⟨r.1, []⟩, r.2)
  | .read off n buf =>
    let r := flatRead s.1 s.2 buf n off
    (⟨r.1, slice r.2 r.1.toNat⟩, s)

/-- A call that can be made: counts and offsets are non-negative as `int`, and a write starts inside
or right behind the content. -/
def FileOp.Legal (s : Inode × Mem) : FileOp → Prop
  | .write off data => off ≤ s.1.fileSize ∧ data.length < 2 ^ 31
  | .read off n _ => off < 2 ^ 31 ∧ n < 2 ^ 31

instance (s : Inode × Mem) : DecidablePred (FileOp.Legal s) := fun op => by
  cases op <;> unfold FileOp.Legal <;> infer_instance

structure FileStep (s : Inode × Mem) (d : Done) (s' : Inode × Mem) : Prop where
  legal : d.op.Legal s
  exec : d.op.exec s = (d.reply, s')

/-- Carry out a call. -/
def next (s : Inode × Mem) (op : FileOp) : Done × Inode × Mem := (⟨op, (op.exec s).1⟩, (op.exec s).2)

theorem run_script {s : Inode × Mem} {ops : List FileOp} (h : Scripted next (fun s op => op.Legal s) s ops) :
    Run FileStep s (script next s ops).1 (script next s ops).2 :=
  Run.script next _ (fun _ _ h => ⟨h, rfl⟩) h

theorem slice_getD (data : List UInt8) : slice (fun i => data.getD i 0) data.length = data := by
  apply List.ext_getElem
  · simp
  · intro i h1 h2
    simp [h2]

/-- Each call answers as the byte array does and leaves the content the array would hold. -/
theorem exec_apply {s : Inode × Mem} (h : Laid s.1) {op : FileOp} (hl : op.Legal s) :
    (op.exec s).1 = (op.apply maxFileSize (content s.1 s.2)).1 ∧
    content (op.exec s).2.1 (op.exec s).2.2 = (op.apply maxFileSize (content s.1 s.2)).2 ∧
    Laid (op.exec s).2.1 ∧ (op.exec s).2.1.sPos = s.1.sPos := by
  cases op with
  | write off data =>
    simp only [FileOp.exec, FileOp.apply]
    by_cases hgt : off + data.length > maxFileSize
    · rw [flatWrite_of_gt h s.2 _ hgt, if_pos hgt]
      exact ⟨rfl, rfl, h, rfl⟩
    · rw [flatWrite_of_le h s.2 _ (not_lt.1 hgt), if_neg hgt]
      refine ⟨rfl, ?_, laid_grown h (not_lt.1 hgt), rfl⟩
      rw [content_grown s.1 s.2 _ hl.1, slice_getD]
  | read off n buf =>
    simp only [FileOp.exec, FileOp.apply, flatRead_eq h, Int.toNat_natCast, slice_read, length_content]
    exact ⟨trivial, trivial, h, trivial⟩

/-- A call that answers `-1` changes neither the inode nor memory. -/
theorem exec_neg {s : Inode × Mem} (h : Laid s.1) {op : FileOp} (hr : (op.exec s).1.ret = -1) :
    (op.exec s).2 = s := by
  cases op with
  | write off data =>
    simp only [FileOp.exec] at hr ⊢
    by_cases hgt : off + data.length > maxFileSize
    · rw [flatWrite_of_gt h s.2 _ hgt]
    · rw [flatWrite_of_le h s.2 _ (not_lt.1 hgt)] at hr
      omega
  | read off n buf => rfl

/-- Refinement, for every inode the store lays out and every sequence of calls: the answers and the
content are those of a byte array of `FILE_SIZE` bytes at most that starts empty, the region stays
where it is with `max_pos` at the end of the content, and a call that answers `-1` changes nothing. -/
theorem run_refines {pfn : ℕ → ℕ} {sb : SuperBlock} {d : Disk} {i : ℕ} (hi : i < numInodes)
    (hp : (pfn (frameOf d.next i) + 1) * pageSize < 2 ^ 32) {mem : Mem} {ds : List Done} {s : Inode × Mem}
    (h : Run FileStep ((initFileSystem pfn sb d).1.inode i, mem) ds s) :
    Run (ArrayStep maxFileSize) [] ds (content s.1 s.2) ∧
    Laid s.1 ∧ s.1.sPos = ((initFileSystem pfn sb d).1.inode i).sPos ∧
    ∀ op : FileOp, (op.exec s).1.ret = -1 → (op.exec s).2 = s := by
  set f := (initFileSystem pfn sb d).1.inode i with hf
  have h0 : Laid f := laid_initFileSystem sb hi hp
  have hinv : Run (ArrayStep maxFileSize) [] ds (content s.1 s.2) ∧ Laid s.1 ∧ s.1.sPos = f.sPos := by
    refine h.inv (P := fun ds s => Run (ArrayStep maxFileSize) [] ds (content s.1 s.2) ∧ Laid s.1 ∧ s.1.sPos = f.sPos)
      ?_ ?_
    · have hempty : content f mem = [] := by
        rw [hf, inode_initFileSystem pfn sb d hi]; rfl
      rw [hempty]
      exact ⟨.start, h0, rfl⟩
    · rintro ds s ⟨op, reply⟩ s' - ⟨hrun, hlaid, hpos⟩ hs
      obtain ⟨h1, h2, h3, h4⟩ := exec_apply hlaid hs.legal
      have hexec : op.exec s = (reply, s') := hs.exec
      rw [hexec] at h1 h2 h3 h4
      exact ⟨hrun.snoc (Prod.ext h1.symm h2.symm), h3, h4.trans hpos⟩
  exact ⟨hinv.1, hinv.2.1, hinv.2.2, fun op => exec_neg hinv.2.1⟩

/-- Calls on inode 2: a write, one that overlaps it and extends the file, and a read across the end. -/
theorem run_refines_of_three :
    let s₀ := ((initFileSystem (· + 8) ⟨0, fun _ => freshInode 0 0⟩ ⟨0, fun _ => 0⟩).1.inode 2, fun _ => 0)
    let r := script next s₀ [.write 0 [7, 9], .write 1 [3, 4, 5], .read 2 9 fun _ => 0]
    Run (ArrayStep maxFileSize) [] r.1 (content r.2.1 r.2.2) ∧ Laid r.2.1 ∧ r.2.1.sPos = s₀.1.sPos ∧
      ∀ op : FileOp, (op.exec r.2).1.ret = -1 → (op.exec r.2).2 = r.2 := by
  intro s₀ r
  have h : Run FileStep s₀ r.1 r.2 := run_script (by decide)
  exact @run_refines (· + 8) ⟨0, fun _ => freshInode 0 0⟩ ⟨0, fun _ => 0⟩ 2 (by decide) (by decide) _ _ _ h

end CS330.Fs
