/-
The descriptor side of msg_queue.c, and fork and exit of entry.c: a queue is created behind a
descriptor, joined by the children its members fork, and left by closing or exiting.

`setup_child_context` is not part of the repository: how many references it takes for each slot a
child inherits is the parameter `bump`. The pages a queue's creation asks for are arguments.
-/
import CS330.Os.File

namespace CS330.Os

open CS330.Lib CS330.Queue

namespace Kernel

/-! ## msg_queue.c -/

/-- `free_msg_queue_buffer`. -/
def freeMsgQueueBuffer (b : Ptr) (k : Kernel) : Except Fault Kernel :=
  if k.buffers b then .ok { k with buffers := Function.update k.buffers b false } else .error .doubleFree

/-- `free_msg_queue_info`. -/
def freeMsgQueueInfo (q : Ptr) (k : Kernel) : Except Fault Kernel :=
  match k.queues q with
  | some _ => .ok { k with queues := Function.update k.queues q none }
  | none => .error .doubleFree

/-- `do_create_msg_queue`; a missing buffer page goes unnoticed. -/
def doCreateMsgQueue (p : Proc) (info : Option (Ptr × MsgQueue)) (buffer : Option Ptr) (page : Option (Ptr × File))
    (k : Kernel) : Except Fault (ℤ × Kernel) :=
  match firstFree (k.table p) with
  | none => .ok (-enomem, k)
  | some fd =>
    match info with
    | none => .ok (-enomem, k)
    | some (q, held) => do
      let k := k.setQueue q (MsgQueue.create (pid p) (buffer.getD 0) held)
      let k := match buffer with
        | some b => { k with buffers := Function.update k.buffers b true }
        | none => k
      let (x, k) ← k.allocFile page
      let f ← k.file x
      .ok (fd.val, (k.setFile x { f with fops := .zero, msgQueue := some q, type := .msgQueue }).setSlot p fd (some x))

/-- One descriptor of the loop of `do_add_child_to_msg_queue`. -/
def addChildAt (child : Proc) (k : Kernel) (fd : Fd) : Except Fault Kernel :=
  match k.table child fd with
  | none => .ok k
  | some x => do
    let f ← k.file x
    match f.msgQueue with
    | none => .ok k
    | some q => do
      let m ← k.queue q
      .ok (k.setQueue q (m.addChild (pid child)))

/-- `do_add_child_to_msg_queue`. -/
def doAddChildToMsgQueue (child : Proc) (k : Kernel) : Except Fault Kernel :=
  (List.finRange maxOpenFiles).foldlM (addChildAt child) k

/-- `do_msg_queue_close`. -/
def doMsgQueueClose (p : Proc) (fd : Fd) (k : Kernel) : Except Fault (ℤ × Kernel) :=
  match k.table p fd with
  | none => .ok (-einval, k)
  | some x => do
    let f ← k.file x
    match f.msgQueue with
    | none => .ok (-einval, k)
    | some q =>
      let m ← k.queue q
      let r := m.close (pid p)
      if r.1 = 0 then
        let k := k.setQueue q r.2
        let k ← if r.2.memberCount = 0 then do
            let k ← k.freeMsgQueueBuffer (r.2.slot 0)
            let k ← k.freeMsgQueueInfo q
            k.freeFileObject x
          else .ok k
        .ok (0, k.setSlot p fd none)
      else .ok (r.1, k)

/-- One descriptor of the loop of `do_msg_queue_cleanup`. -/
def cleanupAt (p : Proc) (k : Kernel) (fd : Fd) : Except Fault Kernel :=
  match k.table p fd with
  | none => .ok k
  | some x => do
    let f ← k.file x
    if f.msgQueue.isSome then (·.2) <$> k.doMsgQueueClose p fd else .ok k

/-- `do_msg_queue_cleanup`. -/
def doMsgQueueCleanup (p : Proc) (k : Kernel) : Except Fault Kernel :=
  (List.finRange maxOpenFiles).foldlM (cleanupAt p) k

/-- The calls that only read and write a queue. -/
inductive MsgCall where
  | send (msg : Option Message)
  | rcv (buf : Bool)
  | count
  | block (target : Int32)
  | memberInfo

def MsgCall.exec (p : Pid) (m : MsgQueue) : MsgCall → ℤ × MsgQueue
  | .send msg => m.send p msg
  | .rcv buf => ((m.rcv p buf).1, (m.rcv p buf).2.2)
  | .count => (m.getMsgCount p, m)
  | .block target => m.block p target
  | .memberInfo => (0, m)

/-- `call_msg_queue_send`, `call_msg_queue_rcv`, `call_get_msg_count`, `call_msg_queue_block`,
`do_get_member_info`. -/
def callMsgQueue (p : Proc) (fd : Fd) (c : MsgCall) (k : Kernel) : Except Fault (ℤ × Kernel) :=
  match k.table p fd with
  | none => .ok (-einval, k)
  | some x => do
    let f ← k.file x
    match f.msgQueue with
    | none => .ok (-einval, k)
    | some q =>
      let m ← k.queue q
      let r := c.exec (pid p) m
      .ok (r.1, k.setQueue q r.2)

/-! ## entry.c -/

/-- A slot the child inherits. -/
def inheritAt (bump : ℕ) (child : Proc) (k : Kernel) (fd : Fd) : Except Fault Kernel :=
  match k.table child fd with
  | some x => k.addRef x bump
  | none => .ok k

/-- `setup_child_context`, as far as files go. -/
def setupChildContext (bump : ℕ) (child : Proc) (k : Kernel) : Except Fault Kernel :=
  (List.finRange maxOpenFiles).foldlM (inheritAt bump child) k

/-- `do_fork`; `child` is the context `get_new_ctx` answers. -/
def doFork (bump : ℕ) (p child : Proc) (k : Kernel) : Except Fault (ℤ × Kernel) := do
  let k ← (k.setTable child (k.table p)).setupChildContext bump child
  let k ← k.doAddChildToMsgQueue child
  .ok (child.val, k)

/-- `do_exit`. -/
def doExit (p : Proc) (k : Kernel) : Except Fault Kernel := do
  let k ← k.doMsgQueueCleanup p
  let k ← k.doFileExit p
  .ok { k with ctx := Function.update k.ctx p none }

end Kernel

/-! ## System calls -/

/-- A system call by a process, with what code outside the repository answers to it. -/
inductive Call where
  | openFile (p : Proc) (filename : List UInt8) (flags mode : UInt64) (page : Option (Ptr × File))
  | openStd (p : Proc) (type : Kernel.StdType) (page : Option (Ptr × File))
  | read (p : Proc) (fd : Fd) (buff : ℕ → UInt8) (count : ℕ) (kbd : ℕ → UInt8)
  | write (p : Proc) (fd : Fd) (buff : ℕ → UInt8) (count : ℕ) (console : ℤ)
  | lseek (p : Proc) (fd : Fd) (offset whence : ℤ)
  | sendfile (p : Proc) (outfd infd : Fd) (offset : Option ℤ) (count : ℤ) (buff : Option (ℕ → UInt8))
  | dup2 (p : Proc) (oldfd newfd : Fd)
  | close (p : Proc) (fd : Fd) (unset : ℤ)
  | createQueue (p : Proc) (info : Option (Ptr × MsgQueue)) (buffer : Option Ptr) (page : Option (Ptr × File))
  | msg (p : Proc) (fd : Fd) (c : Kernel.MsgCall)
  | closeQueue (p : Proc) (fd : Fd)
  | fork (p child : Proc)
  | exit (p : Proc)

namespace Call

open Kernel

def exec (bump : ℕ) (k : Kernel) : Call → Except Fault (ℤ × Kernel)
  | openFile p filename flags mode page => k.doRegularFileOpen p filename flags mode page
  | openStd p type page => k.openStandardIo p type page
  | read p fd buff count kbd => (fun r => (r.1, r.2.2)) <$> k.doFileRead p fd buff count kbd
  | write p fd buff count console => k.doFileWrite p fd buff count console
  | lseek p fd offset whence => k.doLseek p fd offset whence
  | sendfile p outfd infd offset count buff =>
    (fun r => (r.1, r.2.2)) <$> k.doSendfile p outfd infd offset count buff
  | dup2 p oldfd newfd => k.fdDup2 p oldfd newfd
  | close p fd unset => k.doClose p fd unset
  | createQueue p info buffer page => k.doCreateMsgQueue p info buffer page
  | msg p fd c => k.callMsgQueue p fd c
  | closeQueue p fd => k.doMsgQueueClose p fd
  | fork p child => k.doFork bump p child
  | exit p => (fun k => (0, k)) <$> k.doExit p

def caller : Call → Proc
  | openFile p .. | openStd p .. | read p .. | write p .. | lseek p .. | sendfile p .. | dup2 p .. | close p ..
  | createQueue p .. | msg p .. | closeQueue p .. | fork p _ | exit p => p

/-- The pages a call may be given are not in use; what is on them is whatever was left there. -/
def Pages (k : Kernel) : Call → Prop
  | openFile _ _ _ _ page | openStd _ _ page => ∀ x ∈ page, k.Fresh x.1
  | createQueue _ info buffer page =>
    (∀ x ∈ info, k.Fresh x.1) ∧ (∀ b ∈ buffer, k.Fresh b) ∧ (∀ x ∈ page, k.Fresh x.1)
  | _ => True

/-- A forked child is a context that is not in use. -/
def Child (k : Kernel) : Call → Prop
  | fork _ child => (k.ctx child).isNone = true
  | _ => True

/-- A call that can be made: by a running process, given fresh pages. -/
structure Legal (k : Kernel) (c : Call) : Prop where
  running : (k.ctx c.caller).isSome = true
  pages : c.Pages k
  child : c.Child k

instance (k : Kernel) (c : Call) : Decidable (c.Pages k) := by
  rcases c <;> unfold Pages <;> infer_instance

instance (k : Kernel) (c : Call) : Decidable (c.Child k) := by
  rcases c <;> unfold Child <;> infer_instance

instance (k : Kernel) (c : Call) : Decidable (c.Legal k) :=
  decidable_of_iff ((k.ctx c.caller).isSome = true ∧ c.Pages k ∧ c.Child k)
    ⟨fun h => ⟨h.1, h.2.1, h.2.2⟩, fun h => ⟨h.1, h.2, h.3⟩⟩

/-- Whether a call comes back. -/
def returns (bump : ℕ) (k : Kernel) (c : Call) : Bool := (c.exec bump k).isOk

/-- Carry a call out: itself as its label, and the kernel it leaves. -/
def next (bump : ℕ) (k : Kernel) (c : Call) : Call × Kernel :=
  (c, match c.exec bump k with | .ok r => r.2 | .error _ => k)

theorem exec_next {bump : ℕ} {k : Kernel} {c : Call} (h : c.returns bump k = true) :
    ∃ ret, c.exec bump k = .ok (ret, (c.next bump k).2) := by
  unfold returns at h
  unfold next
  cases he : c.exec bump k with
  | ok r => exact ⟨r.1, rfl⟩
  | error e => rw [he] at h; cases h

end Call

end CS330.Os
