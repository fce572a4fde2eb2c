/-
The indices with which the calls on a queue reach into `member_pid` and select rows of
`block_process`, in the order of the source. They stay inside the tables as long as the queue has no
more than `MAX_MEMBERS` members; only a join looks behind the last one.
-/
import CS330.Queue.Spec

namespace CS330.Queue

open CS330.Lib

/-- The indices below `n` that a search for the first hit looks at. -/
def scanned (n : ℕ) (p : ℕ → Bool) : List ℕ :=
  match firstIdx n p with
  | some i => List.range (i + 1)
  | none => List.range n

theorem lt_of_mem_scanned {n i : ℕ} {p : ℕ → Bool} (h : i ∈ scanned n p) : i < n := by
  unfold scanned at h
  cases hfirst : firstIdx n p with
  | none =>
    rw [hfirst] at h
    exact List.mem_range.1 h
  | some j =>
    rw [hfirst] at h
    have hj := (firstIdx_some hfirst).1
    have := List.mem_range.1 h
    omega

/-- Indices into `member_pid` and of rows of `block_process`. -/
structure Indices where
  pids : List ℕ
  rows : List ℕ

/-- The calls on a queue. -/
inductive QueueOp where
  | addChild
  | send (msg : Option Message)
  | rcv (buf : Bool)
  | count
  | block (target : Int32)
  | close

namespace MsgQueue

/-- The membership check every call starts with. -/
def memberIndices (q : MsgQueue) (pid : Pid) : List ℕ := scanned q.memberCount fun i => q.memberPid i == pid

def sendIndices (pid : Pid) (msg : Option Message) (q : MsgQueue) : Indices :=
  match msg with
  | none => ⟨[], []⟩
  | some msg =>
    if !q.isMember pid then ⟨q.memberIndices pid, []⟩
    else if msg.fromPid ≠ pid ∨ msg.fromPid = msg.toPid then ⟨q.memberIndices pid, []⟩
    else if msg.toPid = broadcastPid then
      ⟨q.memberIndices pid ++ List.range q.memberCount,
        (List.range q.memberCount).filter fun i => q.memberPid i ≠ pid⟩
    else
      ⟨q.memberIndices pid ++ q.memberIndices msg.toPid,
        (firstIdx q.memberCount fun i => q.memberPid i == msg.toPid).toList⟩

/-- The search runs over all members, without a stop at the first hit. -/
def blockIndices (pid : Pid) (target : Int32) (q : MsgQueue) : Indices :=
  if target < 0 then ⟨[], []⟩
  else match lastIdx q.memberCount fun i => q.memberPid i == pid,
      lastIdx q.memberCount fun i => q.memberPid i == target.toUInt32 with
    | some idxCtx, some idxPid => ⟨List.range q.memberCount, if idxCtx = idxPid then [] else [idxCtx]⟩
    | _, _ => ⟨List.range q.memberCount, []⟩

/-- Pids and rows move down over the leaver's, the last row is cleared, then all rows are searched. -/
def closeIndices (pid : Pid) (q : MsgQueue) : Indices :=
  match firstIdx q.memberCount fun i => q.memberPid i == pid with
  | some i =>
    let moved := (List.range (maxMembers - 1)).filter (i ≤ ·)
    ⟨q.memberIndices pid ++ moved ++ moved.map (· + 1),
      moved ++ moved.map (· + 1) ++ [q.memberCount - 1] ++ List.range maxMembers⟩
  | none => ⟨q.memberIndices pid, []⟩

def indices (q : MsgQueue) (pid : Pid) : QueueOp → Indices
  | .addChild => ⟨[q.memberCount + 1 - 1], []⟩
  | .send msg => q.sendIndices pid msg
  | .rcv buf => ⟨if buf then q.memberIndices pid else [], []⟩
  | .count => ⟨q.memberIndices pid, []⟩
  | .block target => q.blockIndices pid target
  | .close => q.closeIndices pid

/-- All of a call's indices are inside the tables. -/
def Inside (q : MsgQueue) (pid : Pid) (op : QueueOp) : Prop :=
  (∀ i ∈ (q.indices pid op).pids, i < maxMembers) ∧ ∀ i ∈ (q.indices pid op).rows, i < maxMembers

/-- The members fit their table: calls other than joins stay inside it, and the struct that
`do_msg_queue_get_member_info` copies holds as many pids as it reports. -/
structure Fits (q : MsgQueue) : Prop where
  count : q.memberCount ≤ maxMembers
  inside : ∀ pid op, op ≠ .addChild → q.Inside pid op
  info : ∀ j < q.getMemberInfo.1, ∃ i : Fin maxMembers, i.val = j ∧ q.getMemberInfo.2 i = q.memberPid j

variable {q : MsgQueue} {pid : Pid}

theorem memberIndices_lt (h : q.memberCount ≤ maxMembers) {i : ℕ} (hi : i ∈ q.memberIndices pid) : i < maxMembers :=
  (lt_of_mem_scanned hi).trans_le h

theorem inside_send (h : q.memberCount ≤ maxMembers) (pid : Pid) (msg : Option Message) : q.Inside pid (.send msg) := by
  have hnone : ∀ i ∈ ([] : List ℕ), i < maxMembers := fun i hi => by cases hi
  have hscan : ∀ i ∈ q.memberIndices pid, i < maxMembers := fun i hi => memberIndices_lt h hi
  unfold Inside indices sendIndices
  cases msg with
  | none => exact ⟨hnone, hnone⟩
  | some msg =>
    simp only
    split
    · exact ⟨hscan, hnone⟩
    · split
      · exact ⟨hscan, hnone⟩
      · split
        · constructor
          · intro i hi
            rcases List.mem_append.1 hi with hi | hi
            · exact hscan i hi
            · exact (List.mem_range.1 hi).trans_le h
          · intro i hi
            exact (List.mem_range.1 (List.mem_filter.1 hi).1).trans_le h
        · constructor
          · intro i hi
            rcases List.mem_append.1 hi with hi | hi
            · exact hscan i hi
            · exact memberIndices_lt h hi
          · intro i hi
            exact (firstIdx_some (Option.mem_toList.1 hi)).1.trans_le h

theorem inside_block (h : q.memberCount ≤ maxMembers) (pid : Pid) (target : Int32) : q.Inside pid (.block target) := by
  have hnone : ∀ i ∈ ([] : List ℕ), i < maxMembers := fun i hi => by cases hi
  have hall : ∀ i ∈ List.range q.memberCount, i < maxMembers := fun i hi => (List.mem_range.1 hi).trans_le h
  unfold Inside indices blockIndices
  simp only
  split
  · exact ⟨hnone, hnone⟩
  · split
    · rename_i idxCtx idxPid hctx hpid
      refine ⟨hall, fun i hi => ?_⟩
      have hlt := ((lastIdx_spec q.memberCount fun i => q.memberPid i == pid).1 idxCtx hctx).1
      split at hi
      · cases hi
      · rw [List.mem_singleton] at hi
        subst hi
        exact hlt.trans_le h
    · exact ⟨hall, hnone⟩

theorem inside_close (h : q.memberCount ≤ maxMembers) (pid : Pid) : q.Inside pid .close := by
  unfold Inside indices closeIndices
  simp only
  split
  · rename_i i hi
    have hlt := (firstIdx_some hi).1
    have hmoved : ∀ j ∈ (List.range (maxMembers - 1)).filter (i ≤ ·), j + 1 < maxMembers := by
      intro j hj
      have := List.mem_range.1 (List.mem_filter.1 hj).1
      omega
    simp only [List.mem_append, List.mem_map, List.mem_singleton, List.mem_range]
    constructor
    · rintro j ((hj | hj) | ⟨l, hl, rfl⟩)
      · exact memberIndices_lt h hj
      · exact (Nat.lt_succ_self j).trans (hmoved j hj)
      · exact hmoved l hl
    · rintro j (((hj | ⟨l, hl, rfl⟩) | rfl) | hj)
      · exact (Nat.lt_succ_self j).trans (hmoved j hj)
      · exact hmoved l hl
      · omega
      · exact hj
  · exact ⟨fun j hj => memberIndices_lt h hj, fun j hj => by cases hj⟩

/-- As many members as the table has cells is all it takes. -/
theorem fits_of_count (h : q.memberCount ≤ maxMembers) : q.Fits := by
  refine ⟨h, fun pid op hop => ?_, fun j hj => ⟨⟨j, lt_of_lt_of_le hj h⟩, rfl, rfl⟩⟩
  have hnone : ∀ i ∈ ([] : List ℕ), i < maxMembers := fun i hi => by cases hi
  have hscan : ∀ i ∈ q.memberIndices pid, i < maxMembers := fun i hi => memberIndices_lt h hi
  cases op with
  | addChild => exact absurd rfl hop
  | send msg => exact inside_send h pid msg
  | rcv buf =>
    cases buf with
    | false => exact ⟨hnone, hnone⟩
    | true => exact ⟨hscan, hnone⟩
  | count => exact ⟨hscan, hnone⟩
  | block target => exact inside_block h pid target
  | close => exact inside_close h pid

/-- A join stays inside the table exactly when a cell is free. -/
theorem inside_addChild : q.Inside pid .addChild ↔ q.memberCount < maxMembers := by
  simp [Inside, indices]

end MsgQueue

end CS330.Queue
