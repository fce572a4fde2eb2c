/-
The kernel state behind the file and message queue system calls: the files tables of the processes,
the file objects and queues they refer to, and the file store.

Objects live on pages of `os_page_alloc`, which is not part of the repository: which page it
answers, and what the page held, are arguments of the calls that allocate. A freed page is gone:
following a pointer to it is a fault, and so is freeing it again. Every object is memory of its own.
-/
import CS330.Fs.Flat
import CS330.Lib.Slots
import CS330.Queue.MsgQueue

namespace CS330.Os

open CS330.Lib CS330.Fs CS330.Queue

abbrev Ptr := ℕ

/-- A process, by its place in the context list, which is its pid. -/
abbrev Proc := Fin maxProcesses

instance : NeZero maxProcesses := ⟨by decide⟩

def pid (p : Proc) : Pid := UInt32.ofNat p

theorem pid_inj {p q : Proc} (h : pid p = pid q) : p = q := by
  have hp : p.val < 7 := p.isLt
  have hq : q.val < 7 := q.isLt
  have hv := congrArg UInt32.toNat h
  simp only [pid, UInt32.toNat_ofNat'] at hv
  exact Fin.ext (by omega)

/-- A descriptor inside the files table. -/
abbrev Fd := Fin maxOpenFiles

instance : NeZero maxOpenFiles := ⟨by decide⟩

instance : LawfulBEq Fd := inferInstance

abbrev Table := Fd → Option Ptr

/-! ## File objects -/

inductive FileType where
  | stdin | stdout | stderr | regular | pipe | msgQueue
deriving DecidableEq

inductive ReadFn where
  | doReadKbd | doReadRegular
deriving DecidableEq

inductive WriteFn where
  | doWriteConsole | doWriteRegular
deriving DecidableEq

inductive LseekFn where
  | doLseekRegular
deriving DecidableEq

inductive CloseFn where
  | stdClose | doFileClose
deriving DecidableEq

/-- `struct fileops`; `none` is NULL. -/
structure FileOps where
  read : Option ReadFn
  write : Option WriteFn
  lseek : Option LseekFn
  close : Option CloseFn
deriving DecidableEq

/-- `bzero` on a `struct fileops`. -/
def FileOps.zero : FileOps := ⟨none, none, none, none⟩

/-- `struct file`; an inode pointer is an index into the super block. -/
structure File where
  type : FileType
  mode : UInt32
  offp : ℕ
  refCount : ℕ
  inode : Option ℕ
  fops : FileOps
  msgQueue : Option Ptr
deriving DecidableEq

/-! ## The state -/

inductive Fault where
  | nullDeref | useAfterFree | doubleFree | pastTable | pastName
deriving DecidableEq

structure Kernel where
  ctx : Proc → Option Table
  files : Ptr → Option File
  queues : Ptr → Option MsgQueue
  buffers : Ptr → Bool
  fileObjects : ℤ
  sb : SuperBlock
  mem : Mem

namespace Kernel

/-- The files table of a process; an unused context has none of its slots filled. -/
def table (k : Kernel) (p : Proc) : Table := (k.ctx p).getD fun _ => none

def setTable (k : Kernel) (p : Proc) (t : Table) : Kernel := { k with ctx := Function.update k.ctx p (some t) }

/-- `ctx->files[fd] = v`. -/
def setSlot (k : Kernel) (p : Proc) (fd : Fd) (v : Option Ptr) : Kernel :=
  k.setTable p (Function.update (k.table p) fd v)

/-- Follow a pointer to a file object. -/
def file (k : Kernel) (x : Ptr) : Except Fault File :=
  match k.files x with
  | some f => .ok f
  | none => .error .useAfterFree

def setFile (k : Kernel) (x : Ptr) (f : File) : Kernel := { k with files := Function.update k.files x (some f) }

/-- Follow a pointer to a queue. -/
def queue (k : Kernel) (q : Ptr) : Except Fault MsgQueue :=
  match k.queues q with
  | some m => .ok m
  | none => .error .useAfterFree

def setQueue (k : Kernel) (q : Ptr) (m : MsgQueue) : Kernel := { k with queues := Function.update k.queues q (some m) }

/-- Nothing is open and nothing is allocated. -/
structure Idle (k : Kernel) : Prop where
  table : ∀ p fd, k.table p fd = none
  files : ∀ x, k.files x = none
  queues : ∀ q, k.queues q = none
  buffers : ∀ b, k.buffers b = false

/-- A machine on which one process runs. -/
def boot (p : Proc) (sb : SuperBlock) (mem : Mem) : Kernel where
  ctx := Function.update (fun _ => none) p (some fun _ => none)
  files _ := none
  queues _ := none
  buffers _ := false
  fileObjects := 0
  sb := sb
  mem := mem

theorem idle_boot (p : Proc) (sb : SuperBlock) (mem : Mem) : (boot p sb mem).Idle := by
  refine ⟨fun q fd => ?_, fun _ => rfl, fun _ => rfl, fun _ => rfl⟩
  by_cases h : q = p
  · subst h; simp [table, boot]
  · simp [table, boot, h]

/-- A page that is not allocated. -/
def Fresh (k : Kernel) (x : Ptr) : Prop :=
  x ≠ 0 ∧ (k.files x).isNone = true ∧ (k.queues x).isNone = true ∧ k.buffers x = false

instance (k : Kernel) (x : Ptr) : Decidable (k.Fresh x) := by unfold Fresh; infer_instance

theorem Fresh.files {k : Kernel} {x : Ptr} (h : k.Fresh x) : k.files x = none := Option.isNone_iff_eq_none.1 h.2.1

theorem table_of_unused {k : Kernel} {p : Proc} (h : (k.ctx p).isNone = true) (fd : Fd) : k.table p fd = none := by
  unfold table
  rw [Option.isNone_iff_eq_none.1 h]
  rfl

section Access

variable {k : Kernel} {x y : Ptr} {p : Proc}

theorem file_eq {f : File} (h : k.files x = some f) : k.file x = .ok f := by
  unfold file; rw [h]

theorem queue_eq {m : MsgQueue} (h : k.queues x = some m) : k.queue x = .ok m := by
  unfold queue; rw [h]

@[simp] theorem table_setTable (k : Kernel) (p : Proc) (t : Table) :
    (k.setTable p t).table = Function.update k.table p t := by
  funext q
  by_cases h : q = p
  · subst h; simp [table, setTable]
  · simp [table, setTable, h]

@[simp] theorem table_setSlot (k : Kernel) (p : Proc) (fd : Fd) (v : Option Ptr) :
    (k.setSlot p fd v).table = Function.update k.table p (Function.update (k.table p) fd v) :=
  table_setTable ..

@[simp] theorem table_setFile (k : Kernel) (x : Ptr) (f : File) : (k.setFile x f).table = k.table := rfl
@[simp] theorem files_setFile (k : Kernel) (x : Ptr) (f : File) :
    (k.setFile x f).files = Function.update k.files x (some f) := rfl
@[simp] theorem files_setSlot (k : Kernel) (p : Proc) (fd : Fd) (v : Option Ptr) :
    (k.setSlot p fd v).files = k.files := rfl

/-- How many slots refer to an object. -/
def used (k : Kernel) (x : Ptr) : ℕ := uses k.table x

theorem used_pos : 0 < k.used x ↔ ∃ p fd, k.table p fd = some x := uses_pos

/-- The queue behind a file object. -/
def queueOf (k : Kernel) (x : Ptr) : Option Ptr := (k.files x).bind File.msgQueue

theorem queueOf_eq {f : File} (h : k.files x = some f) : k.queueOf x = f.msgQueue := by
  unfold queueOf; rw [h]; rfl

end Access

/-! ## file.c: allocation -/

/-- `free_file_object`. -/
def freeFileObject (x : Ptr) (k : Kernel) : Except Fault Kernel :=
  match k.files x with
  | some _ => .ok { k with files := Function.update k.files x none, fileObjects := k.fileObjects - 1 }
  | none => .error .doubleFree

/-- `alloc_file`: the page is written to without a look at whether there is one. -/
def allocFile (page : Option (Ptr × File)) (k : Kernel) : Except Fault (Ptr × Kernel) :=
  match page with
  | some (x, held) => .ok (x, { k with
      files := Function.update k.files x (some { held with fops := .zero, refCount := 1, offp := 0 })
      fileObjects := k.fileObjects + 1 })
  | none => .error .nullDeref

/-- The body `std_close` and `do_file_close` share, and one turn of `do_file_exit`: give up a
reference, and free the object with the last one. -/
def dropRef (x : Ptr) (k : Kernel) : Except Fault Kernel := do
  let f ← k.file x
  let n := u32 (f.refCount - 1)
  let k := k.setFile x { f with refCount := n }
  if n = 0 then k.freeFileObject x else .ok k

/-- `std_close`. -/
def stdClose (x : Ptr) (k : Kernel) : Except Fault (ℤ × Kernel) := do
  let k ← k.dropRef x
  .ok (0, k)

/-- `do_file_close`. -/
def doFileClose (x : Ptr) (k : Kernel) : Except Fault (ℤ × Kernel) := do
  let k ← k.dropRef x
  .ok (0, k)

/-- Take a reference. -/
def addRef (x : Ptr) (n : ℕ) (k : Kernel) : Except Fault Kernel := do
  let f ← k.file x
  .ok (k.setFile x { f with refCount := u32 (f.refCount + n) })

end Kernel

/-- The first free descriptor from 3 on. -/
def firstFree (t : Table) : Option Fd :=
  (List.finRange maxOpenFiles).find? fun fd => decide (3 ≤ fd.val) && (t fd).isNone

end CS330.Os
