/-
do_create_msg_queue as a transaction over its three pages: the first is looked at when it is asked for, the
other two are not.
-/
import CS330.Os.Open
import CS330.Os.Queues
import CS330.Queue.Block

namespace CS330.Os

open CS330.Lib CS330.Queue

namespace Kernel

/-- A new queue is behind the smallest free descriptor: the caller is its only member, nothing is pending, nobody is
blocked, and it has a buffer. -/
structure NewQueue (k k' : Kernel) (p : Proc) (fd : Fd) : Prop where
  lowest : LowestFree (k.table p) fd
  queue : ∃ x q m, k'.table = Function.update k.table p (Function.update (k.table p) fd (some x)) ∧
    k'.queueOf x = some q ∧ k'.queues q = some m ∧ m.members = [pid p] ∧ m.pending = [] ∧
    (∀ i < maxMembers, ∀ j < maxMembers, m.blockProcess (maxMembers * i + j) = -1) ∧
    m.slot 0 ≠ 0 ∧ k'.buffers (m.slot 0) = true

/-- The tables are as they were, and the pages in use are the same. -/
structure NothingKept (k k' : Kernel) : Prop where
  table : k'.table = k.table
  files : ∀ x, (k'.files x).isSome = (k.files x).isSome
  queues : ∀ q, (k'.queues q).isSome = (k.queues q).isSome
  buffers : k'.buffers = k.buffers

/-- The creation makes a queue, or answers `-ENOMEM` and keeps no page. -/
def CreatesOrNot (k : Kernel) (p : Proc) (info : Option (Ptr × MsgQueue)) (buffer : Option Ptr)
    (page : Option (Ptr × File)) : Prop :=
  ∃ ret k', k.doCreateMsgQueue p info buffer page = .ok (ret, k') ∧
    ((∃ fd : Fd, ret = fd.val ∧ NewQueue k k' p fd) ∨ (ret = -enomem ∧ NothingKept k k'))

variable {k : Kernel} {p : Proc} {fd : Fd} {info : Option (Ptr × MsgQueue)} {buffer : Option Ptr}
  {page : Option (Ptr × File)}

theorem NothingKept.refl (k : Kernel) : NothingKept k k := ⟨rfl, fun _ => rfl, fun _ => rfl, rfl⟩

/-! ## The three pages -/

/-- With all three pages the queue is made. -/
theorem createsOrNot_served (hfd : firstFree (k.table p) = some fd) (o : Ptr × MsgQueue) {b : Ptr} (hb : b ≠ 0)
    {f : Ptr × File} (hx : k.files f.1 = none) : k.CreatesOrNot p (some o) (some b) (some f) := by
  obtain ⟨q, held⟩ := o
  obtain ⟨x, g⟩ := f
  have hst : (k.founded p fd x q b held (queueFile g q)).Stands x q _ := stands_founded hx b held g
  refine ⟨fd.val, _, doCreateMsgQueue_eq hfd q b x held g, Or.inl ⟨fd, rfl, firstFree_eq_some.1 hfd, x, q,
    MsgQueue.create (pid p) b held, table_setSlot .., hst.object, hst.info, MsgQueue.members_create .., rfl, ?_, ?_,
    hst.buffer⟩⟩
  · intro i hi j hj
    rw [MsgQueue.blockProcess_create, if_pos (cell_lt hi hj)]
  · rwa [slot_create]

/-- What is made without a buffer. -/
def bare (p : Proc) (fd : Fd) (x q : Ptr) (page : MsgQueue) (f : File) (k : Kernel) : Kernel :=
  ((k.setQueue q (MsgQueue.create (pid p) 0 page)).alloced x (queueFile f q)).setSlot p fd (some x)

theorem doCreateMsgQueue_bare (hfd : firstFree (k.table p) = some fd) (q x : Ptr) (page : MsgQueue) (f : File) :
    k.doCreateMsgQueue p (some (q, page)) none (some (x, f)) = .ok (fd.val, k.bare p fd x q page f) := by
  simp only [doCreateMsgQueue, hfd, allocFile, bind, Except.bind, file, Function.update_self, setFile,
    Function.update_idem, Option.getD_none]
  rfl

theorem queues_bare (q x : Ptr) (page : MsgQueue) (f : File) :
    (k.bare p fd x q page f).queues q = some (MsgQueue.create (pid p) 0 page) :=
  Function.update_self ..

theorem queueOf_bare (q x : Ptr) (page : MsgQueue) (f : File) : (k.bare p fd x q page f).queueOf x = some q := by
  have hfile : (k.bare p fd x q page f).files x = some (queueFile f q) :=
    Function.update_self ..
  rw [queueOf_eq hfile]
  rfl

/-- Without a buffer the queue is made all the same, and `msg_buffer[0]` is NULL. -/
theorem not_createsOrNot_bare (hfd : firstFree (k.table p) = some fd) (o : Ptr × MsgQueue) (f : Ptr × File) :
    ¬ k.CreatesOrNot p (some o) none (some f) := by
  rintro ⟨ret, k', he, hmade⟩
  obtain ⟨q, held⟩ := o
  obtain ⟨x, g⟩ := f
  rw [doCreateMsgQueue_bare hfd] at he
  obtain ⟨rfl, rfl⟩ := Prod.mk.inj (Except.ok.inj he)
  rcases hmade with ⟨fd', hfd', -, x', q', m, htable, hqueue, hm, -, -, -, hnull, -⟩ | ⟨hret, -⟩
  · obtain rfl : fd = fd' := Fin.ext (by omega)
    obtain rfl : x = x' := by
      have hslot := congrFun (congrFun htable p) fd
      rw [bare, table_setSlot] at hslot
      simpa using hslot
    obtain rfl : q = q' := Option.some.inj ((queueOf_bare ..).symm.trans hqueue)
    obtain rfl : MsgQueue.create (pid p) 0 held = m := Option.some.inj ((queues_bare ..).symm.trans hm)
    exact hnull (slot_create ..)
  · simp only [enomem] at hret
    omega

/-- `alloc_file` writes to its page before anything is checked. -/
theorem doCreateMsgQueue_noPage (hfd : firstFree (k.table p) = some fd) (o : Ptr × MsgQueue) (buffer : Option Ptr) :
    k.doCreateMsgQueue p (some o) buffer none = .error .nullDeref := by
  obtain ⟨q, held⟩ := o
  simp only [doCreateMsgQueue, hfd, allocFile, bind, Except.bind]

end Kernel

open Kernel

end CS330.Os
