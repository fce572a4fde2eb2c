/-
The system calls as a user makes them: descriptors are 64-bit values that the handlers of entry.c take
as `u64` or as `int` and use as indices into `files[]`, mostly without a look at their range. A
descriptor call of the kernel model is such a call with its descriptors inside the table; outside of
it a handler reaches memory that is not the table's.
-/
import CS330.Os.Process

namespace CS330.Os

open CS330.Lib CS330.Fs CS330.Queue Kernel

/-! ## Indices -/

/-- An index of `files[]`. -/
def InTable (i : ℤ) : Prop := 0 ≤ i ∧ i < maxOpenFiles

instance : DecidablePred InTable := fun i => by unfold InTable; infer_instance

def InTable.fd {i : ℤ} (h : InTable i) : Fd := ⟨i.toNat, by unfold InTable at h; omega⟩

/-- Go on with `files[i]`. -/
def within {α : Type} (i : ℤ) (f : Fd → Except Fault α) : Except Fault α :=
  if h : InTable i then f h.fd else .error .pastTable

/-- What is in `files[i]`, inside the table. -/
def slotAt (k : Kernel) (p : Proc) (i : ℤ) : Option Ptr := if h : InTable i then k.table p h.fd else none

/-- A parameter taken as `u64`. -/
def asU64 (v : UInt64) : ℤ := v.toNat

/-- A parameter taken as `int`. -/
def asInt (v : UInt64) : ℤ := i32 v.toNat

/-! ## Calls -/

/-- The system calls that take a descriptor, and the opening of a standard stream; `msg` stands for
`do_get_member_info`, `call_msg_queue_send`, `call_msg_queue_rcv`, `call_get_msg_count` and
`call_msg_queue_block`. -/
inductive UserCall where
  | read (fd : UInt64) (buff : ℕ → UInt8) (count : ℕ) (kbd : ℕ → UInt8)
  | write (fd : UInt64) (buff : ℕ → UInt8) (count : ℕ) (console : ℤ)
  | close (fd : UInt64) (unset : ℤ)
  | lseek (fd : UInt64) (offset whence : ℤ)
  | dup2 (oldfd newfd : UInt64)
  | sendfile (outfd infd : UInt64) (offset : Option ℤ) (count : ℤ) (buff : Option (ℕ → UInt8))
  | msg (fd : UInt64) (c : MsgCall)
  | closeQueue (fd : UInt64)
  | openStd (type : StdType) (page : Option (Ptr × File))

/-- The search of `open_standard_IO` for a free slot: the indices it looks at. -/
def searched (t : Table) : List ℤ :=
  match firstFree t with
  | some fd => (List.range' 3 (fd.val - 3 + 1)).map (↑)
  | none => (List.range' 3 (maxOpenFiles - 3 + 1)).map (↑)

namespace UserCall

/-- The call, as far as its descriptors lead into the table. -/
def exec (p : Proc) (k : Kernel) : UserCall → Except Fault (ℤ × Kernel)
  | read fd buff count kbd =>
    within (asU64 fd) fun fd => (fun r => (r.1, r.2.2)) <$> k.doFileRead p fd buff count kbd
  | write fd buff count console => within (asU64 fd) fun fd => k.doFileWrite p fd buff count console
  | close fd unset => within (asInt fd) fun fd => k.doClose p fd unset
  | lseek fd offset whence => within (asInt fd) fun fd => k.doLseek p fd offset whence
  | dup2 oldfd newfd => within (asInt oldfd) fun oldfd =>
    match k.table p oldfd with
    | none => .ok (-einval, k)
    | some _ => within (asInt newfd) fun newfd => k.fdDup2 p oldfd newfd
  | sendfile outfd infd offset count buff => within (asInt infd) fun infd =>
    match k.table p infd with
    | none => .ok (-einval, k)
    | some _ => within (asInt outfd) fun outfd =>
      (fun r => (r.1, r.2.2)) <$> k.doSendfile p outfd infd offset count buff
  | msg fd c => within (asU64 fd) fun fd => k.callMsgQueue p fd c
  | closeQueue fd => if asInt fd < 0 then .ok (-einval, k) else within (asInt fd) fun fd => k.doMsgQueueClose p fd
  | openStd type page => k.openStandardIo p type page

/-- The indices a call uses into `files[]`, in the order of the source; an index outside the table ends
the list. -/
def indices (p : Proc) (k : Kernel) : UserCall → List ℤ
  | read fd .. | write fd .. | msg fd _ => [asU64 fd]
  | close fd _ | lseek fd .. => [asInt fd]
  | dup2 oldfd newfd => asInt oldfd :: if (slotAt k p (asInt oldfd)).isSome then [asInt newfd] else []
  | sendfile outfd infd .. => asInt infd :: if (slotAt k p (asInt infd)).isSome then [asInt outfd] else []
  | closeQueue fd => if asInt fd < 0 then [] else [asInt fd]
  | openStd type _ => (type.val : ℤ) :: if (k.table p (stdFd type)).isSome then searched (k.table p) else []

/-- A descriptor is outside the table, or the table is full for a call that needs a slot. -/
def Strays (p : Proc) (k : Kernel) : UserCall → Prop
  | read fd .. | write fd .. | msg fd _ => ¬ InTable (asU64 fd)
  | close fd _ | lseek fd .. | closeQueue fd => ¬ InTable (asInt fd)
  | dup2 oldfd newfd => ¬ InTable (asInt oldfd) ∨ ¬ InTable (asInt newfd)
  | sendfile outfd infd .. => ¬ InTable (asInt infd) ∨ ¬ InTable (asInt outfd)
  | openStd .. => ∀ fd, (k.table p fd).isSome = true

/-- The descriptors a call gets to use are inside the table, and there is a slot where one is looked
for. -/
def Tame (p : Proc) (k : Kernel) : UserCall → Prop
  | read fd .. | write fd .. | msg fd _ => InTable (asU64 fd)
  | close fd _ | lseek fd .. => InTable (asInt fd)
  | dup2 oldfd newfd => InTable (asInt oldfd) ∧ (slotAt k p (asInt oldfd) = none ∨ InTable (asInt newfd))
  | sendfile outfd infd .. => InTable (asInt infd) ∧ (slotAt k p (asInt infd) = none ∨ InTable (asInt outfd))
  | closeQueue fd => asInt fd < maxOpenFiles
  | openStd type _ => k.table p (stdFd type) = none ∨ ∃ fd : Fd, 3 ≤ fd.val ∧ k.table p fd = none

end UserCall

/-- The table is guarded: no index outside of it is used, and a call that strays is refused with nothing
changed. -/
structure Guarded (p : Proc) (k : Kernel) (c : UserCall) : Prop where
  inside : ∀ i ∈ c.indices p k, InTable i
  refused : c.Strays p k → ∃ ret, c.exec p k = .ok (ret, k) ∧ ret < 0

/-! ## The calls of the model -/

theorem within_of_inTable {α : Type} {i : ℤ} (h : InTable i) (f : Fd → Except Fault α) : within i f = f h.fd :=
  dif_pos h

theorem slotAt_of_inTable {k : Kernel} {p : Proc} {i : ℤ} (h : InTable i) : slotAt k p i = k.table p h.fd := dif_pos h

/-- A descriptor as a parameter. -/
def param (fd : Fd) : UInt64 := UInt64.ofNat fd.val

theorem asU64_param (fd : Fd) : asU64 (param fd) = fd.val := by
  have hlt : fd.val < 16 := fd.isLt
  simp only [asU64, param, UInt64.toNat_ofNat']
  omega

theorem asInt_param (fd : Fd) : asInt (param fd) = fd.val := by
  have hlt : fd.val < 16 := fd.isLt
  have h := asU64_param fd
  unfold asU64 at h
  unfold asInt
  rw [h, i32_of_range (by omega) (by omega)]

theorem inTable_val (fd : Fd) : InTable fd.val := by
  have hlt : fd.val < 16 := fd.isLt
  unfold InTable maxOpenFiles
  omega

theorem within_val {α : Type} (fd : Fd) (f : Fd → Except Fault α) : within (fd.val : ℤ) f = f fd :=
  within_of_inTable (inTable_val fd) f

/-- The user's form of a descriptor call of the model. -/
def UserCall.ofCall : Call → Option UserCall
  | .read _ fd buff count kbd => some (.read (param fd) buff count kbd)
  | .write _ fd buff count console => some (.write (param fd) buff count console)
  | .close _ fd unset => some (.close (param fd) unset)
  | .lseek _ fd offset whence => some (.lseek (param fd) offset whence)
  | .dup2 _ oldfd newfd => some (.dup2 (param oldfd) (param newfd))
  | .sendfile _ outfd infd offset count buff => some (.sendfile (param outfd) (param infd) offset count buff)
  | .msg _ fd c => some (.msg (param fd) c)
  | .closeQueue _ fd => some (.closeQueue (param fd))
  | .openStd _ type page => some (.openStd type page)
  | _ => none

/-- A descriptor call of the model is the user's call. -/
theorem exec_ofCall {c : Call} {u : UserCall} (h : UserCall.ofCall c = some u) (bump : ℕ) (k : Kernel) :
    u.exec c.caller k = c.exec bump k := by
  -- a descriptor in the table passes through the parameter as it is
  cases c with
  | read p fd buff count kbd =>
    cases h
    simp only [UserCall.exec, asU64_param, within_val]
    rfl
  | write p fd buff count console =>
    cases h
    simp only [UserCall.exec, asU64_param, within_val]
    rfl
  | close p fd unset =>
    cases h
    simp only [UserCall.exec, asInt_param, within_val]
    rfl
  | lseek p fd offset whence =>
    cases h
    simp only [UserCall.exec, asInt_param, within_val]
    rfl
  | dup2 p oldfd newfd =>
    cases h
    simp only [UserCall.exec, asInt_param, within_val, Call.caller, Call.exec, fdDup2]
    cases k.table p oldfd <;> rfl
  | sendfile p outfd infd offset count buff =>
    cases h
    simp only [UserCall.exec, asInt_param, within_val, Call.caller, Call.exec, doSendfile]
    cases k.table p infd <;> rfl
  | msg p fd c =>
    cases h
    simp only [UserCall.exec, asU64_param, within_val]
    rfl
  | closeQueue p fd =>
    cases h
    have hneg : ¬ (fd.val : ℤ) < 0 := by omega
    simp only [UserCall.exec, asInt_param, within_val, if_neg hneg]
    rfl
  | openStd p type page =>
    cases h
    rfl
  | openFile => cases h
  | createQueue => cases h
  | fork => cases h
  | exit => cases h

/-! ## Which calls are guarded -/

section Guards

variable {p : Proc} {k : Kernel}

theorem neg_einval : (-einval : ℤ) < 0 := by decide

/-- A call that uses one descriptor and looks at nothing before it. -/
theorem guarded_single {c : UserCall} {i : ℤ} (hi : c.indices p k = [i]) (hs : c.Strays p k ↔ ¬ InTable i) :
    Guarded p k c ↔ InTable i := by
  constructor
  · intro h
    exact h.inside i (by rw [hi]; exact List.mem_singleton_self i)
  · intro h
    constructor
    · intro j hj
      rw [hi, List.mem_singleton] at hj
      rw [hj]
      exact h
    · intro hst
      exact absurd h (hs.1 hst)

/-- A call that uses a second descriptor where the first is open, and is refused where it is not. -/
theorem guarded_pair {c : UserCall} {i j : ℤ}
    (hi : c.indices p k = i :: if (slotAt k p i).isSome then [j] else [])
    (hs : c.Strays p k ↔ ¬ InTable i ∨ ¬ InTable j)
    (hnone : InTable i → slotAt k p i = none → c.exec p k = .ok (-einval, k)) :
    Guarded p k c ↔ InTable i ∧ (slotAt k p i = none ∨ InTable j) := by
  constructor
  · intro h
    have hin := h.inside
    rw [hi] at hin
    refine ⟨hin i (List.mem_cons_self ..), ?_⟩
    cases hslot : slotAt k p i with
    | none => exact .inl rfl
    | some x =>
      right
      refine hin j (List.mem_cons_of_mem _ ?_)
      rw [hslot]
      exact List.mem_singleton_self j
  -- the second descriptor is looked at only where the first is open
  · rintro ⟨hti, hj⟩
    constructor
    · intro l hl
      rw [hi] at hl
      rcases List.mem_cons.1 hl with rfl | hl
      · exact hti
      · cases hslot : slotAt k p i with
        | none =>
          rw [hslot] at hl
          cases hl
        | some x =>
          rw [hslot] at hl hj
          rw [List.mem_singleton.1 hl]
          exact hj.resolve_left (Option.some_ne_none x)
    · intro hst
      rcases hj with hslot | hj
      · exact ⟨_, hnone hti hslot, neg_einval⟩
      · rcases hs.1 hst with hst | hst
        · exact absurd hti hst
        · exact absurd hj hst

/-- The search stays in the table where it ends at a free slot. -/
theorem searched_inTable {t : Table} : (∀ i ∈ searched t, InTable i) ↔ ∃ fd : Fd, 3 ≤ fd.val ∧ t fd = none := by
  unfold searched
  cases hf : firstFree t with
  | some fd =>
    have hp := List.find?_some hf
    simp only [Bool.and_eq_true, decide_eq_true_eq, Option.isNone_iff_eq_none] at hp
    refine iff_of_true ?_ ⟨fd, hp⟩
    intro i hi
    obtain ⟨n, hn, rfl⟩ := List.mem_map.1 hi
    have hlt : fd.val < 16 := fd.isLt
    have h3 := hp.1
    rw [List.mem_range'_1] at hn
    unfold InTable maxOpenFiles
    omega
  | none =>
    refine iff_of_false ?_ ?_
    · intro h
      have := (h 16 (List.mem_map.2 ⟨16, by decide, rfl⟩)).2
      exact absurd this (by decide)
    · rintro ⟨fd, h3, hn⟩
      have := List.find?_eq_none.1 hf fd (List.mem_finRange fd)
      simp [h3, hn] at this

/-- `do_msg_queue_close` refuses a negative descriptor before it looks. -/
theorem guarded_closeQueue (p : Proc) (k : Kernel) (fd : UInt64) :
    Guarded p k (.closeQueue fd) ↔ (UserCall.closeQueue fd).Tame p k := by
  by_cases hneg : asInt fd < 0
  · have hexec : (UserCall.closeQueue fd).exec p k = .ok (-einval, k) := by
      simp only [UserCall.exec, if_pos hneg]
    have htame : (UserCall.closeQueue fd).Tame p k := by
      simp only [UserCall.Tame]
      omega
    refine iff_of_true ⟨?_, fun _ => ⟨_, hexec, neg_einval⟩⟩ htame
    intro i hi
    simp only [UserCall.indices, if_pos hneg] at hi
    cases hi
  · have htame : (UserCall.closeQueue fd).Tame p k ↔ InTable (asInt fd) :=
      ⟨fun h => ⟨not_lt.1 hneg, h⟩, fun h => h.2⟩
    have hind : (UserCall.closeQueue fd).indices p k = [asInt fd] := by
      simp only [UserCall.indices, if_neg hneg]
    rw [htame]
    exact guarded_single hind Iff.rfl

/-- `open_standard_IO` uses its own descriptor, or searches from 3 on if that one is taken. -/
theorem guarded_openStd (p : Proc) (k : Kernel) (type : StdType) (page : Option (Ptr × File)) :
    Guarded p k (.openStd type page) ↔ (UserCall.openStd type page).Tame p k := by
  have htype : InTable (type.val : ℤ) := inTable_val (stdFd type)
  -- the table is searched only where the slot of the stream is taken
  cases hslot : k.table p (stdFd type) with
  | none =>
    refine iff_of_true ⟨?_, ?_⟩ (.inl hslot)
    · intro i hi
      simp only [UserCall.indices, hslot, Option.isSome_none, Bool.false_eq_true, if_false, List.mem_singleton] at hi
      rw [hi]
      exact htype
    · intro hfull
      have := hfull (stdFd type)
      rw [hslot] at this
      cases this
  | some x =>
    have hind : (UserCall.openStd type page).indices p k = (type.val : ℤ) :: searched (k.table p) := by
      simp only [UserCall.indices, hslot, Option.isSome_some, if_true]
    constructor
    · intro h
      right
      refine searched_inTable.1 fun i hi => h.inside i ?_
      rw [hind]
      exact List.mem_cons_of_mem _ hi
    · intro ht
      obtain ⟨fd, h3, hfree⟩ : ∃ fd : Fd, 3 ≤ fd.val ∧ k.table p fd = none := by
        rcases ht with hn | ht
        · rw [hslot] at hn
          cases hn
        · exact ht
      constructor
      · intro i hi
        rw [hind] at hi
        rcases List.mem_cons.1 hi with rfl | hi
        · exact htype
        · exact searched_inTable.2 ⟨fd, h3, hfree⟩ i hi
      · intro hfull
        have := hfull fd
        rw [hfree] at this
        cases this

/-- For every state, process and call with any parameter values: the table is guarded exactly if every
descriptor the call gets to use is inside the table after its conversion, and a slot is free where
`open_standard_IO` looks for one. Only `do_msg_queue_close` checks anything, one bound. -/
theorem guarded_iff (p : Proc) (k : Kernel) (c : UserCall) : Guarded p k c ↔ c.Tame p k := by
  cases c with
  | read fd buff count kbd => exact guarded_single rfl Iff.rfl
  | write fd buff count console => exact guarded_single rfl Iff.rfl
  | close fd unset => exact guarded_single rfl Iff.rfl
  | lseek fd offset whence => exact guarded_single rfl Iff.rfl
  | msg fd c => exact guarded_single rfl Iff.rfl
  | dup2 oldfd newfd =>
    refine guarded_pair rfl Iff.rfl ?_
    intro h hslot
    rw [slotAt_of_inTable h] at hslot
    simp only [UserCall.exec, within_of_inTable h, hslot]
  | sendfile outfd infd offset count buff =>
    refine guarded_pair rfl Iff.rfl ?_
    intro h hslot
    rw [slotAt_of_inTable h] at hslot
    simp only [UserCall.exec, within_of_inTable h, hslot]
  | closeQueue fd => exact guarded_closeQueue p k fd
  | openStd type page => exact guarded_openStd p k type page

end Guards

/-- Process 1 with all 16 slots taken by one file object. -/
def fullTable : Kernel :=
  { Kernel.boot 1 ⟨0, fun _ => freshInode 0 0⟩ fun _ => 0 with
    ctx := Function.update (fun _ => none) 1 (some fun _ => some 4096)
    files := Function.update (fun _ => none) 4096 (some ⟨.stdin, oRead, 0, 16, none, .zero, none⟩) }

/-- A read through descriptor 16 and a close through descriptor -1 go outside the table, and opening a
standard stream with a full table searches beyond its end. -/
theorem descriptor_leaves_table :
    (UserCall.read 16 (fun _ => 0) 1 fun _ => 0).indices 1 fullTable = [16] ∧
    ¬ Guarded 1 fullTable (.read 16 (fun _ => 0) 1 fun _ => 0) ∧
    (UserCall.close 0xffffffffffffffff 0).indices 1 fullTable = [-1] ∧
    ¬ Guarded 1 fullTable (.close 0xffffffffffffffff 0) ∧
    (16 : ℤ) ∈ (UserCall.openStd 0 none).indices 1 fullTable ∧ ¬ Guarded 1 fullTable (.openStd 0 none) := by
  refine ⟨by decide, ?_, by decide, ?_, by decide, ?_⟩
  · intro h
    exact absurd (h.inside 16 (by decide)) (by decide)
  · intro h
    exact absurd (h.inside (-1) (by decide)) (by decide)
  · intro h
    exact absurd (h.inside 16 (by decide)) (by decide)

end CS330.Os
