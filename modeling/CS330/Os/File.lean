/-
file.c: open, read, write, seek, duplicate and copy through descriptors, and the system calls of
entry.c in front of them. A call returns its value and the kernel it leaves, or the fault it runs
into.

What code outside the repository answers is an argument: the page of `os_page_alloc`, what
`kbd_read` leaves in the caller's buffer, what the console's `do_write` returns. Buffers are memory
of their own.
-/
import CS330.Os.State

namespace CS330.Os

open CS330.Lib CS330.Fs

/-! ## file.h -/

def oRead : UInt32 := 0x1
def oWrite : UInt32 := 0x2
def oRdwr : UInt32 := oRead ||| oWrite
def oExec : UInt32 := 0x4
def oCreat : UInt32 := 0x8

def seekSet : ℤ := 0
def seekCur : ℤ := 1
def seekEnd : ℤ := 2

namespace Kernel

/-! ## Standard I/O -/

/-- `STDIN`, `STDOUT`, `STDERR` are the first file types and the descriptors of the same number. -/
abbrev StdType := Fin 3

instance : NeZero 3 := ⟨by decide⟩

def stdFd (type : StdType) : Fd := type.castLE (by decide)

def stdFileType (type : StdType) : FileType :=
  match type with
  | 0 => .stdin
  | 1 => .stdout
  | 2 => .stderr

/-- `create_standard_IO`. -/
def createStandardIo (type : StdType) (page : Option (Ptr × File)) (k : Kernel) : Except Fault (Ptr × Kernel) := do
  let (x, k) ← k.allocFile page
  let f ← k.file x
  let fops : FileOps := if type = 0 then { f.fops with read := some .doReadKbd }
    else { f.fops with write := some .doWriteConsole }
  .ok (x, k.setFile x { f with
    type := stdFileType type
    mode := if type = 0 then oRead else oWrite
    fops := { fops with close := some .stdClose } })

/-- `open_standard_IO`: the search for a free descriptor is not bounded by the table. -/
def openStandardIo (p : Proc) (type : StdType) (page : Option (Ptr × File)) (k : Kernel) :
    Except Fault (ℤ × Kernel) := do
  match k.table p (stdFd type) with
  | none =>
    let (x, k) ← k.createStandardIo type page
    .ok (type.val, k.setSlot p (stdFd type) (some x))
  | some x =>
    let k ← k.addRef x 1
    match firstFree (k.table p) with
    | some fd => .ok (fd.val, k.setSlot p fd (some x))
    | none => .error .pastTable

/-! ## Regular files -/

/-- `do_read_regular`; also returns the buffer afterwards. -/
def doReadRegular (x : Ptr) (buff : ℕ → UInt8) (count : ℕ) (k : Kernel) :
    Except Fault (ℤ × (ℕ → UInt8) × Kernel) := do
  let f ← k.file x
  match f.inode with
  | none => .ok (-einval, buff, k)
  | some i =>
    if f.mode &&& oRead = 0 then .ok (-eacces, buff, k)
    else
      let r := flatRead (k.sb.inode i) k.mem buff (i32 count) (i32 f.offp)
      .ok (r.1, r.2, k.setFile x { f with offp := u32 (f.offp + r.1) })

/-- `do_write_regular`. -/
def doWriteRegular (x : Ptr) (buff : ℕ → UInt8) (count : ℕ) (k : Kernel) : Except Fault (ℤ × Kernel) := do
  let f ← k.file x
  match f.inode with
  | none => .ok (-einval, k)
  | some i =>
    if f.mode &&& oWrite = 0 then .ok (-eacces, k)
    else
      let r := flatWrite (k.sb.inode i) k.mem buff (i32 count) (i32 f.offp)
      let k := { k with sb := { k.sb with inode := Function.update k.sb.inode i r.2.1 }, mem := r.2.2 }
      -- the return value is added to the cursor whatever it is
      .ok (r.1, k.setFile x { f with offp := u32 (f.offp + r.1) })

/-- `do_lseek_regular`. -/
def doLseekRegular (x : Ptr) (offset whence : ℤ) (k : Kernel) : Except Fault (ℤ × Kernel) := do
  let f ← k.file x
  if whence = seekSet ∨ whence = seekCur ∨ whence = seekEnd then
    match f.inode with
    | none => .error .nullDeref
    | some i =>
      let size := (k.sb.inode i).fileSize
      let foffset := if whence = seekSet then offset
        else if whence = seekCur then i64 (f.offp + offset) else i64 (size + offset)
      if foffset > size ∨ foffset < 0 then .ok (-einval, k)
      else .ok (u32 foffset, k.setFile x { f with offp := u32 foffset })
  else .ok (-einval, k)

/-- The file object `do_regular_file_open` fills in. -/
def regularFile (f : File) (inode : ℕ) (flags : UInt32) : File :=
  { f with
    inode := some inode
    mode := flags
    fops := { close := some .doFileClose, lseek := some .doLseekRegular, read := some .doReadRegular,
              write := some .doWriteRegular }
    type := .regular }

/-- The second half of `do_regular_file_open`, once the inode is found or created; `flags` has been
toggled by `O_CREAT`. -/
def openInode (p : Proc) (inode : ℕ) (flags : UInt64) (page : Option (Ptr × File)) (k : Kernel) :
    Except Fault (ℤ × Kernel) := do
  -- `!=` binds tighter than `&`
  if (k.sb.inode inode).mode &&& (if flags ≠ flags then 1 else 0) ≠ 0 then .ok (-eacces, k)
  else
    let (x, k) ← k.allocFile page
    let f ← k.file x
    let k := k.setFile x (regularFile f inode flags.toUInt32)
    match firstFree (k.table p) with
    | some fd => .ok (fd.val, k.setSlot p fd (some x))
    | none => .ok (-enomem, k)

/-- `do_regular_file_open`. A new name that does not fit `filename[256]` runs into the fields behind
it, where there is an inode for it. -/
def doRegularFileOpen (p : Proc) (filename : List UInt8) (flags mode : UInt64) (page : Option (Ptr × File))
    (k : Kernel) : Except Fault (ℤ × Kernel) :=
  if flags &&& (oRead ||| oRdwr).toUInt64 = 0 then .ok (-einval, k)
  else match flatLookupInode k.sb filename with
    | some i => k.openInode p i (flags ^^^ oCreat.toUInt64) page
    | none =>
      if flags &&& oCreat.toUInt64 = 0 then .ok (-einval, k)
      else match flatCreateInode k.sb filename mode.toUInt32 with
        | (none, sb) => .ok (-enomem, { k with sb := sb })
        | (some i, sb) =>
          if 256 ≤ filename.length then .error .pastName
          else { k with sb := sb }.openInode p i (flags ^^^ oCreat.toUInt64) page

/-! ## Descriptors -/

/-- `fd_dup2`: the target is closed before the new reference is taken. -/
def fdDup2 (p : Proc) (oldfd newfd : Fd) (k : Kernel) : Except Fault (ℤ × Kernel) :=
  match k.table p oldfd with
  | none => .ok (-einval, k)
  | some x => do
    let k ← match k.table p newfd with
      | some y => (·.2) <$> k.doFileClose y
      | none => .ok k
    let k ← (k.setSlot p newfd (some x)).addRef x 1
    .ok (newfd.val, k)

/-- `do_close`: what a successful call returns is not set by the code. -/
def doClose (p : Proc) (fd : Fd) (unset : ℤ) (k : Kernel) : Except Fault (ℤ × Kernel) :=
  match k.table p fd with
  | none => .ok (-einval, k)
  | some x => do
    let f ← k.file x
    match f.fops.close with
    | none => .ok (-einval, k)
    | some .stdClose =>
      let r ← (k.setSlot p fd none).stdClose x
      .ok (unset, r.2)
    | some .doFileClose =>
      let r ← (k.setSlot p fd none).doFileClose x
      .ok (unset, r.2)

/-- One descriptor of the loop of `do_file_exit`. -/
def exitAt (p : Proc) (k : Kernel) (fd : Fd) : Except Fault Kernel :=
  match k.table p fd with
  | some x => k.dropRef x
  | none => .ok k

/-- `do_file_exit`. -/
def doFileExit (p : Proc) (k : Kernel) : Except Fault Kernel :=
  (List.finRange maxOpenFiles).foldlM (exitAt p) k

/-! ## Reading and writing through descriptors -/

/-- `do_file_read`; also returns the buffer afterwards. -/
def doFileRead (p : Proc) (fd : Fd) (buff : ℕ → UInt8) (count : ℕ) (kbd : ℕ → UInt8) (k : Kernel) :
    Except Fault (ℤ × (ℕ → UInt8) × Kernel) :=
  match k.table p fd with
  | none => .ok (-einval, buff, k)
  | some x => do
    let f ← k.file x
    if f.mode &&& oRead ≠ oRead then .ok (-eacces, buff, k)
    else match f.fops.read with
      | some .doReadRegular => k.doReadRegular x buff (u32 count)
      | some .doReadKbd => .ok (1, kbd, k)
      | none => .ok (-einval, buff, k)

/-- `do_file_write`. -/
def doFileWrite (p : Proc) (fd : Fd) (buff : ℕ → UInt8) (count : ℕ) (console : ℤ) (k : Kernel) :
    Except Fault (ℤ × Kernel) :=
  match k.table p fd with
  | none => .ok (-einval, k)
  | some x => do
    let f ← k.file x
    if f.mode &&& oWrite = 0 then .ok (-eacces, k)
    else match f.fops.write with
      | some .doWriteRegular => k.doWriteRegular x buff (u32 count)
      | some .doWriteConsole => .ok (console, k)
      | none => .ok (-einval, k)

/-- `do_lseek`. -/
def doLseek (p : Proc) (fd : Fd) (offset whence : ℤ) (k : Kernel) : Except Fault (ℤ × Kernel) :=
  match k.table p fd with
  | none => .ok (-einval, k)
  | some x => do
    let f ← k.file x
    match f.fops.lseek with
    | some .doLseekRegular => k.doLseekRegular x offset whence
    | none => .ok (-einval, k)

/-- The reading half of `do_sendfile`: the count, the temporary page, the offset and the kernel
afterwards. Only the low 32 bits of an explicit offset reach `flat_read`. -/
def sendfileRead (x : Ptr) (f : File) (offset : Option ℤ) (count : ℤ) (page : ℕ → UInt8) (k : Kernel) :
    Except Fault (ℤ × (ℕ → UInt8) × Option ℤ × Kernel) :=
  match offset with
  | some off =>
    match f.inode with
    | none => .error .nullDeref
    | some i =>
      let r := flatRead (k.sb.inode i) k.mem page count (i32 off)
      .ok (r.1, r.2, some (i64 (off + r.1)), k)
  | none => do
    let (n, page, k) ← k.doReadRegular x page (u32 count)
    .ok (n, page, none, k)

/-- `do_sendfile`; also returns the offset afterwards. `buff` is what the temporary page holds, if
there is one. -/
def doSendfile (p : Proc) (outfd infd : Fd) (offset : Option ℤ) (count : ℤ) (buff : Option (ℕ → UInt8))
    (k : Kernel) : Except Fault (ℤ × Option ℤ × Kernel) :=
  match k.table p infd, k.table p outfd with
  | none, _ => .ok (-einval, offset, k)
  | _, none => .ok (-einval, offset, k)
  | some x, some y => do
    let f ← k.file x
    if f.mode &&& oRead = 0 then .ok (-eacces, offset, k)
    else
      let g ← k.file y
      if g.mode &&& oWrite = 0 then .ok (-eacces, offset, k)
      else
        let page := buff.getD fun _ => 0
        let (readCount, page, offset, k) ← k.sendfileRead x f offset count page
        -- without an inode on either side no byte is copied, whatever the count
        if buff.isNone ∧ readCount ≠ 0 ∧ (f.inode.isSome ∨ g.inode.isSome) then .error .nullDeref
        else
          let (writeCount, k) ← k.doWriteRegular y page (u32 readCount)
          .ok (writeCount, offset, k)

end Kernel

end CS330.Os
