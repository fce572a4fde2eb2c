/-
msg_queue.c: the message queue of one descriptor, and what each system call does to it. The calls
are modelled from the point where the descriptor has been resolved to its queue; `pid` is the
caller's `ctx->pid`.

Arrays are memory from their first cell on, so an index past the end reads and writes what lies
there: `block_process` is row-major (`[i][j]` is cell `4 * i + j`, and `j` past a row runs into the
next one), and its memory continues into the rest of the page. The slot pointers of `msg_buffer`
are 8 bytes each and the matrix starts where the 128th ends, so slot pointer `128 + k` is matrix
cells `2 * k` and `2 * k + 1`. Message cells are memory of their own, keyed by address (a number).
-/
import CS330.Headers
import CS330.Lib.Loop

namespace CS330.Queue

open CS330.Lib

structure Message where
  fromPid : Pid
  toPid : Pid
  msgTxt : Vector UInt8 maxTxtSize
deriving DecidableEq

/-- `struct msg_queue_info` with the `struct msg_queue_member_info` and the message cells it
points to. -/
structure MsgQueue where
  memberCount : ℕ
  memberPid : ℕ → Pid
  msgCount : ℕ
  msgBuffer : ℕ → ℕ
  blockProcess : ℕ → Int32
  cells : ℕ → Message

namespace MsgQueue

/-- Zeroed pages. -/
def zero : MsgQueue where
  memberCount := 0
  memberPid _ := 0
  msgCount := 0
  msgBuffer _ := 0
  blockProcess _ := 0
  cells _ := ⟨0, 0, .replicate _ 0⟩

/-! ## Slot pointers -/

/-- Read `msg_buffer[k]`. -/
def slot (q : MsgQueue) (k : ℕ) : ℕ :=
  if k < msgSlots then q.msgBuffer k
  else (q.blockProcess (2 * (k - msgSlots))).toUInt32.toNat +
    2 ^ 32 * (q.blockProcess (2 * (k - msgSlots) + 1)).toUInt32.toNat

/-- Write `msg_buffer[k]`. -/
def setSlot (q : MsgQueue) (k : ℕ) (a : ℕ) : MsgQueue :=
  if k < msgSlots then { q with msgBuffer := Function.update q.msgBuffer k a }
  else
    let b := Function.update q.blockProcess (2 * (k - msgSlots)) (Int32.ofNat (a % 2 ^ 32))
    { q with blockProcess := Function.update b (2 * (k - msgSlots) + 1) (Int32.ofNat (a / 2 ^ 32)) }

/-- The message in slot `k`. -/
def msg (q : MsgQueue) (k : ℕ) : Message := q.cells (q.slot k)

/-- Store one message behind the last one: point `msg_buffer[msg_count]` at `msg_buffer[0]` plus
`msg_count * sizeof(struct message)` elements of `struct message`, copy the message there, count
it. -/
def append (m : Message) (q : MsgQueue) : MsgQueue :=
  let q := q.setSlot q.msgCount (q.slot 0 + q.msgCount * sizeofMessage * sizeofMessage)
  { q with cells := Function.update q.cells (q.slot q.msgCount) m, msgCount := q.msgCount + 1 }

/-! ## Members and blocks -/

/-- The membership check every call starts with. -/
def isMember (q : MsgQueue) (pid : Pid) : Bool :=
  (firstIdx q.memberCount fun i => q.memberPid i == pid).isSome

/-- Whether one of the first `bound` cells from `block_process[i]` on names `pid`. -/
def blockCheck (q : MsgQueue) (i bound : ℕ) (pid : Pid) : Bool :=
  (List.range bound).any fun j => (q.blockProcess (maxMembers * i + j)).toUInt32 == pid

/-- The last index below `n` passing the test: a scan that runs to its end. -/
def lastIdx (n : ℕ) (p : ℕ → Bool) : Option ℕ :=
  forRange 0 n (fun i o => if p i then some i else o) none

/-! ## System calls -/

/-- The queue half of `do_create_msg_queue`; `page` is what the fresh pages hold. -/
def create (pid : Pid) (buffer : ℕ) (page : MsgQueue) : MsgQueue :=
  { page with
    memberCount := 1
    memberPid := Function.update page.memberPid 0 pid
    msgBuffer := Function.update page.msgBuffer 0 buffer
    msgCount := 0
    blockProcess := forRange 0 maxMembers (fun i b =>
      forRange 0 maxMembers (fun j b => Function.update b (maxMembers * i + j) (-1)) b) page.blockProcess }

/-- One descriptor of the loop of `do_add_child_to_msg_queue`. -/
def addChild (child : Pid) (q : MsgQueue) : MsgQueue :=
  { q with
    memberCount := q.memberCount + 1
    memberPid := Function.update q.memberPid (q.memberCount + 1 - 1) child }

/-- `do_msg_queue_rcv`; `buf` says whether the caller passed a message to fill. Returns the message
copied there, if any. -/
def rcv (pid : Pid) (buf : Bool) (q : MsgQueue) : Int × Option Message × MsgQueue :=
  if !buf then (-einval, none, q)
  else if !q.isMember pid then (-einval, none, q)
  else match firstIdx q.msgCount fun i => (q.msg i).toPid == pid with
    | some i => (1, some (q.msg i),
        { q with cells := shiftDown q.slot i (q.msgCount - 1) q.cells, msgCount := q.msgCount - 1 })
    | none => (0, none, q)

/-- `do_msg_queue_send`; `none` is a NULL message. -/
def send (pid : Pid) (msg : Option Message) (q : MsgQueue) : Int × MsgQueue :=
  match msg with
  | none => (-einval, q)
  | some msg =>
    if !q.isMember pid then (-einval, q)
    else if msg.fromPid ≠ pid ∨ msg.fromPid = msg.toPid then (-einval, q)
    else if msg.toPid = broadcastPid then
      forRange 0 q.memberCount (fun i s =>
        if s.2.memberPid i ≠ pid then
          if s.2.blockCheck i maxMembers pid then s
          else (s.1 + 1, s.2.append { msg with toPid := s.2.memberPid i })
        else s) (0, q)
    else match firstIdx q.memberCount fun i => q.memberPid i == msg.toPid with
      -- this scan of the block matrix is bounded by the number of processes, not of members
      | some i => if q.blockCheck i maxProcesses pid then (-einval, q) else (1, q.append msg)
      | none => (-einval, q)

/-- `do_get_msg_count`. -/
def getMsgCount (pid : Pid) (q : MsgQueue) : Int :=
  if !q.isMember pid then -einval
  else forRange 0 q.msgCount (fun i n => if (q.msg i).toPid = pid then n + 1 else n) 0

/-- `do_msg_queue_block`: `pid` asks not to hear from `target`. -/
def block (pid : Pid) (target : Int32) (q : MsgQueue) : Int × MsgQueue :=
  if target < 0 then (-einval, q)
  else match lastIdx q.memberCount fun i => q.memberPid i == pid,
      lastIdx q.memberCount fun i => q.memberPid i == target.toUInt32 with
    | some idxCtx, some idxPid =>
      if idxCtx = idxPid then (-einval, q)
      else if (firstIdx maxMembers fun j => q.blockProcess (maxMembers * idxCtx + j) == target).isSome then (0, q)
      else match firstIdx maxMembers fun j => q.blockProcess (maxMembers * idxCtx + j) == -1 with
        | some j => (0, { q with
            blockProcess := Function.update q.blockProcess (maxMembers * idxCtx + j) target })
        | none => (-einval, q)
    | _, _ => (-einval, q)

/-- The matrix rows from `i` on take the content of the row after them. -/
def shiftRows (i : ℕ) (b : ℕ → Int32) : ℕ → Int32 :=
  forRange i (maxMembers - 1) (fun j b => forRange 0 maxMembers (fun k b =>
    Function.update b (maxMembers * j + k) (b (maxMembers * (j + 1) + k))) b) b

/-- Fill row `j` with `-1`. -/
def clearRow (j : ℕ) (b : ℕ → Int32) : ℕ → Int32 :=
  forRange 0 maxMembers (fun k b => Function.update b (maxMembers * j + k) (-1)) b

/-- Replace `pid` by `-1` in all rows. -/
def purge (pid : Pid) (b : ℕ → Int32) : ℕ → Int32 :=
  forRange 0 maxMembers (fun j b => forRange 0 maxMembers (fun k b =>
    if (b (maxMembers * j + k)).toUInt32 = pid then Function.update b (maxMembers * j + k) (-1) else b) b) b

/-- The part of `do_msg_queue_close` that takes the member at index `i` out of the two tables: shift
the pids and the matrix rows down over it, clear the row this freed, remove the leaver from all
rows. -/
def closeTables (pid : Pid) (i : ℕ) (q : MsgQueue) : MsgQueue :=
  { q with
    memberPid := shiftDown id i (maxMembers - 1) q.memberPid
    memberCount := q.memberCount - 1
    blockProcess := purge pid (clearRow (q.memberCount - 1) (shiftRows i q.blockProcess)) }

/-- The part that drops the leaver's messages, compacting the others in place. -/
def closeMessages (pid : Pid) (q : MsgQueue) : MsgQueue :=
  let r := compact q.slot (fun m => m.toPid ≠ pid) q.msgCount q.cells
  { q with cells := r.2, msgCount := r.1 }

/-- `do_msg_queue_close`; the caller frees the queue when no member is left. -/
def close (pid : Pid) (q : MsgQueue) : Int × MsgQueue :=
  match firstIdx q.memberCount fun i => q.memberPid i == pid with
  | some i => (0, (q.closeTables pid i).closeMessages pid)
  | none => (-einval, q)

/-- `do_msg_queue_get_member_info`: the struct it copies holds `MAX_MEMBERS` pids. -/
def getMemberInfo (q : MsgQueue) : ℕ × (Fin maxMembers → Pid) := (q.memberCount, fun i => q.memberPid i)

end MsgQueue

end CS330.Queue
