/-
fs.c: the flat file store. Each of the 32 inodes owns a fixed region `[s_pos, e_pos)` of memory, laid
out once when the store is initialised; reads and writes copy between a caller's buffer and that
region. Frames come from `os_pfn_alloc`, which is not part of the repository: its answers for the
file store region are a stream `pfn`.

Addresses and the `u32` fields are numbers below the bound of their type; `*offp` and `count` are
`int` values. Only fields that some modelled function reads are kept.
-/
import CS330.Headers
import CS330.Lib.CInt
import CS330.Lib.Region

namespace CS330.Fs

open CS330.Lib

/-- `NUM_FILES`. -/
def numInodes : ℕ := 32

/-- `FILE_SIZE`. -/
def maxFileSize : ℕ := 0x1000

abbrev Mem := ℕ → UInt8

/-- `struct inode`; the filename is the bytes before its NUL. -/
structure Inode where
  isValid : Bool
  filename : List UInt8
  mode : UInt32
  refCount : ℕ
  sPos : ℕ
  ePos : ℕ
  maxPos : ℕ
  fileSize : ℕ

/-- `struct super_block`; an inode pointer is an index into `inode`. -/
structure SuperBlock where
  numFiles : ℤ
  inode : ℕ → Inode

/-! ## Reading and writing -/

/-- `flat_read`: the return value and the buffer afterwards. -/
def flatRead (inode : Inode) (mem : Mem) (buf : ℕ → UInt8) (count off : ℤ) : ℤ × (ℕ → UInt8) :=
  let remainLen := (inode.fileSize : ℤ) - off
  if remainLen ≤ 0 then (0, buf)
  else
    let size := u64 (if count > remainLen then remainLen else count)
    (i32 size, forRange 0 size (fun i b => Function.update b i (mem (u64 (inode.sPos + off + i)))) buf)

/-- `flat_write`: the return value, and the inode and memory afterwards. -/
def flatWrite (inode : Inode) (mem : Mem) (buf : ℕ → UInt8) (count off : ℤ) : ℤ × Inode × Mem :=
  let maxLen := (inode.ePos : ℤ) - off - inode.sPos
  if count > maxLen then (-1, inode, mem)
  else
    let mem := forRange 0 (u64 count) (fun i m => Function.update m (u64 (inode.sPos + off + i)) (buf i)) mem
    let pos := u32 (inode.sPos + off + count)
    let maxPos := if pos > inode.maxPos then pos else inode.maxPos
    (count, { inode with maxPos := maxPos, fileSize := u32 (maxPos - inode.sPos) }, mem)

/-! ## Laying out the inodes -/

/-- The frames handed out so far and memory. -/
structure Disk where
  next : ℕ
  mem : Mem

/-- `get_contigous_pages` on the file store region: take one frame and then `n - 1` more, return the
address of the first and clear `n` pages from there on. -/
def getContigousPages (pfn : ℕ → ℕ) (n : ℕ) (d : Disk) : ℕ × Disk :=
  let firstPage := u64 (pfn d.next * pageSize)
  (firstPage, ⟨d.next + 1 + (n - 1), copyIn d.mem firstPage (pageSize * n) fun _ => 0⟩)

/-- The inode `alloc_inodes` writes over a region of `size` bytes from `pos` on. -/
def freshInode (pos size : ℕ) : Inode where
  isValid := false
  filename := []
  mode := 0
  refCount := 0
  sPos := u32 pos
  ePos := u32 (pos + size)
  maxPos := u32 pos
  fileSize := 0

/-- `alloc_inodes`. -/
def allocInodes (pfn : ℕ → ℕ) (sb : SuperBlock) (d : Disk) : SuperBlock × Disk :=
  let (startReg, d) := getContigousPages pfn 1 d
  let numPages := maxFileSize / pageSize
  let fileSize := numPages * pageSize
  forRange 0 numInodes (fun i (s : SuperBlock × Disk) =>
    if i = 0 then
      -- the region is the page taken before the loop; the one taken here is not used
      let (_, d) := getContigousPages pfn (numPages - 1) s.2
      ({ s.1 with inode := Function.update s.1.inode i (freshInode startReg fileSize) }, d)
    else
      let (filePfn, d) := getContigousPages pfn numPages s.2
      ({ s.1 with inode := Function.update s.1.inode i (freshInode filePfn fileSize) }, d)) (sb, d)

/-- The inode half of `init_file_system`. -/
def initFileSystem (pfn : ℕ → ℕ) (sb : SuperBlock) (d : Disk) : SuperBlock × Disk :=
  let (sb, d) := allocInodes pfn sb d
  ({ sb with numFiles := 0 }, d)

/-! ## The directory -/

/-- `flat_lookup_inode`. -/
def flatLookupInode (sb : SuperBlock) (filename : List UInt8) : Option ℕ :=
  firstIdx numInodes fun i => (sb.inode i).isValid && (sb.inode i).filename == filename

/-- `flat_get_inode_no`. -/
def flatGetInodeNo (sb : SuperBlock) (name : List UInt8) : ℤ :=
  match firstIdx numInodes fun i => (sb.inode i).isValid && (sb.inode i).filename == name with
  | some i => i
  | none => -1

/-- `get_free_inode`. -/
def getFreeInode (sb : SuperBlock) : Option ℕ := firstIdx numInodes fun i => !(sb.inode i).isValid

/-- `flat_create_inode`, for names that fit `filename[256]`; `none` is `-1`. -/
def flatCreateInode (sb : SuperBlock) (fileName : List UInt8) (mode : UInt32) : Option ℕ × SuperBlock :=
  let inodeNo := getFreeInode sb
  if (flatLookupInode sb fileName).isSome then (none, sb)
  else match inodeNo with
    | some i =>
      let inode := sb.inode i
      (some i, { sb with
        inode := Function.update sb.inode i { inode with
          isValid := true, mode := mode, filename := fileName, maxPos := inode.sPos, fileSize := 0, refCount := 0 }
        numFiles := sb.numFiles + 1 })
    | none => (none, sb)

/-- `flat_remove_inode`; `none` is a NULL pointer followed. Its check is made of NULL and of a count read through
NULL, so it holds back no inode. -/
def flatRemoveInode (sb : SuperBlock) (inode : Option ℕ) : Option (ℤ × SuperBlock) :=
  match inode with
  | none => none
  | some i => some (0, { sb with
      inode := Function.update sb.inode i { sb.inode i with
        isValid := false, filename := [], maxPos := (sb.inode i).sPos, fileSize := 0, mode := 0 }
      numFiles := sb.numFiles - 1 })

/-- `flat_open`. -/
def flatOpen (sb : SuperBlock) (i : ℕ) : ℤ × SuperBlock :=
  (0, { sb with inode := Function.update sb.inode i { sb.inode i with refCount := u32 ((sb.inode i).refCount + 1) } })

/-- `flat_close`. -/
def flatClose (sb : SuperBlock) (i : ℕ) : ℤ × SuperBlock :=
  (0, { sb with inode := Function.update sb.inode i { sb.inode i with refCount := u32 ((sb.inode i).refCount - 1) } })

end CS330.Fs
