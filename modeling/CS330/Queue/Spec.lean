/-
What each message queue call does, as a change of the list of members and the list of pending
messages. Everything later about queues goes through the specifications proved here: no other
module unfolds a call.
-/
import CS330.Lib.Mailbox
import CS330.Queue.MsgQueue

namespace CS330.Queue

open CS330.Lib

namespace MsgQueue

/-! ## The two lists -/

/-- `member_pid[0 .. member_count)`. -/
def members (q : MsgQueue) : List Pid := slice q.memberPid q.memberCount

/-- The pending messages, oldest first. -/
def pending (q : MsgQueue) : List Message := slice q.msg q.msgCount

/-- The mailbox a queue is meant to be. -/
def mailbox (q : MsgQueue) : Mailbox Pid Message := ⟨q.members, q.pending⟩

theorem members_congr {q q' : MsgQueue} (h : q'.memberCount = q.memberCount) (h' : q'.memberPid = q.memberPid) :
    q'.members = q.members := by
  unfold members; rw [h, h']

theorem mailbox_eq {q : MsgQueue} {ms : List Pid} {w : List Message} (h : q.members = ms) (h' : q.pending = w) :
    q.mailbox = ⟨ms, w⟩ := by
  unfold mailbox; rw [h, h']

@[simp] theorem length_members (q : MsgQueue) : q.members.length = q.memberCount := length_slice ..
@[simp] theorem length_pending (q : MsgQueue) : q.pending.length = q.msgCount := length_slice ..

theorem slot_of_lt {q : MsgQueue} {k : ℕ} (h : k < msgSlots) : q.slot k = q.msgBuffer k := if_pos h

theorem slot_zero (q : MsgQueue) : q.slot 0 = q.msgBuffer 0 := slot_of_lt (by decide)

/-- The matrix is apart from the slot pointers. -/
theorem slot_matrix (q : MsgQueue) (b : ℕ → Int32) {k : ℕ} (h : k < msgSlots) :
    slot { q with blockProcess := b } k = q.slot k := by
  rw [slot_of_lt h, slot_of_lt h]

/-- The slot pointers in use are the ones `append` computes, and the pending messages fit the
pointer array. -/
structure Slots (q : MsgQueue) : Prop where
  le : q.msgCount ≤ msgSlots
  addr : ∀ k < q.msgCount, q.slot k = q.slot 0 + k * sizeofMessage * sizeofMessage

theorem Slots.matrix {q : MsgQueue} (h : q.Slots) (b : ℕ → Int32) : Slots { q with blockProcess := b } := by
  refine ⟨h.le, fun k hk => ?_⟩
  rw [slot_matrix q b (lt_of_lt_of_le hk h.le), slot_matrix q b (by decide)]
  exact h.addr k hk

theorem Slots.inj {q : MsgQueue} (h : q.Slots) {a b : ℕ} (ha : a < q.msgCount) (hb : b < q.msgCount)
    (he : q.slot a = q.slot b) : a = b := by
  rw [h.addr a ha, h.addr b hb] at he
  simp only [sizeofMessage, maxTxtSize] at he
  omega

theorem isMember_iff {q : MsgQueue} {pid : Pid} : q.isMember pid = true ↔ pid ∈ q.members := by
  unfold isMember members
  rw [firstIdx_isSome, mem_slice]
  simp

theorem blockCheck_iff {q : MsgQueue} {i bound : ℕ} {pid : Pid} :
    q.blockCheck i bound pid = true ↔
      ∃ j < bound, (q.blockProcess (maxMembers * i + j)).toUInt32 = pid := by
  simp [blockCheck]

/-! ## Joining -/

theorem members_create (pid : Pid) (a : ℕ) (page : MsgQueue) : (create pid a page).members = [pid] := by
  simp [members, create, slice]

theorem pending_create (pid : Pid) (a : ℕ) (page : MsgQueue) : (create pid a page).pending = [] := rfl

theorem slots_create (pid : Pid) (a : ℕ) (page : MsgQueue) : (create pid a page).Slots :=
  ⟨Nat.zero_le _, fun _ h => absurd h (Nat.not_lt_zero _)⟩

/-- A fresh matrix is `-1` everywhere; the memory behind it is what the page held. -/
theorem blockProcess_create (pid : Pid) (a : ℕ) (page : MsgQueue) (x : ℕ) :
    (create pid a page).blockProcess x = if x < maxMembers * maxMembers then -1 else page.blockProcess x := by
  have := forRange_rows (m := maxMembers) (i := 0) (n := maxMembers) (v := fun _ _ _ => (-1 : Int32))
    (f := page.blockProcess) (w := fun _ => -1) (fun _ _ _ _ _ _ _ => rfl) x
  simp only [mul_zero, zero_le, true_and] at this
  exact this

theorem members_addChild (child : Pid) (q : MsgQueue) :
    (q.addChild child).members = q.members ++ [child] := by
  unfold members addChild
  simp only [Nat.add_sub_cancel, slice_succ, Function.update_self]
  congr 1
  exact slice_congr fun j hj => Function.update_of_ne (by omega) _ _

/-! ## Appending -/

@[simp] theorem msgCount_append (m : Message) (q : MsgQueue) : (q.append m).msgCount = q.msgCount + 1 := by
  unfold append setSlot; split <;> rfl

/-- What storing one message does while a slot pointer is free. -/
structure Appended (q : MsgQueue) (m : Message) (q' : MsgQueue) : Prop where
  memberCount : q'.memberCount = q.memberCount
  memberPid : q'.memberPid = q.memberPid
  blockProcess : q'.blockProcess = q.blockProcess
  msgCount : q'.msgCount = q.msgCount + 1
  pending : q'.pending = q.pending ++ [m]
  slot : ∀ k < q.msgCount, q'.slot k = q.slot k
  base : q'.slot 0 = q.slot 0
  slots : q'.Slots

theorem append_spec {q : MsgQueue} (h : q.Slots) (hlt : q.msgCount < msgSlots) (m : Message) :
    Appended q m (q.append m) := by
  set a := q.slot 0 + q.msgCount * sizeofMessage * sizeofMessage with ha
  have hset : q.setSlot q.msgCount a = { q with msgBuffer := Function.update q.msgBuffer q.msgCount a } :=
    if_pos hlt
  have happ : q.append m = { q with
      msgBuffer := Function.update q.msgBuffer q.msgCount a
      cells := Function.update q.cells a m
      msgCount := q.msgCount + 1 } := by
    unfold append
    simp only [← ha, hset, slot_of_lt hlt, Function.update_self]
  have hslot : ∀ k < q.msgCount, (q.append m).slot k = q.slot k := fun k hk => by
    rw [happ, slot_of_lt (by omega), slot_of_lt (by omega)]
    exact Function.update_of_ne (by omega) _ _
  have hlast : (q.append m).slot q.msgCount = a := by
    rw [happ, slot_of_lt hlt]
    exact Function.update_self ..
  have hbase : (q.append m).slot 0 = q.slot 0 := by
    rcases Nat.eq_zero_or_pos q.msgCount with h0 | hpos
    · have := hlast
      rw [h0] at this
      rw [this, ha, h0]; simp
    · exact hslot 0 hpos
  -- the address of the new message is behind all others
  have hne : ∀ k < q.msgCount, q.slot k ≠ a := fun k hk => by
    rw [h.addr k hk, ha]
    simp only [sizeofMessage, maxTxtSize]; omega
  refine ⟨by rw [happ], by rw [happ], by rw [happ], msgCount_append m q, ?_, hslot, hbase, ?_⟩
  · unfold pending
    rw [msgCount_append, slice_succ]
    have hcells : (q.append m).cells = Function.update q.cells a m := by rw [happ]
    congr 1
    · refine slice_congr fun k hk => ?_
      unfold msg
      rw [hslot k hk, hcells, Function.update_of_ne (hne k hk)]
    · unfold msg
      rw [hlast, hcells, Function.update_self]
  · refine ⟨by rw [msgCount_append]; omega, fun k hk => ?_⟩
    rw [msgCount_append] at hk
    rw [hbase]
    rcases Nat.lt_succ_iff_lt_or_eq.1 hk with hk | rfl
    · rw [hslot k hk, h.addr k hk]
    · rw [hlast]

/-! ## Sending -/

/-- The member indices below `n` a broadcast by `pid` reaches: not the sender's own, and not one
whose row names the sender. -/
def reached (q : MsgQueue) (pid : Pid) (n : ℕ) : List ℕ :=
  (List.range n).filter fun i => q.memberPid i ≠ pid && !q.blockCheck i maxMembers pid

/-- The copies a broadcast of `m` by `pid` stores. -/
def copies (q : MsgQueue) (pid : Pid) (m : Message) (n : ℕ) : List Message :=
  (q.reached pid n).map fun i => { m with toPid := q.memberPid i }

@[simp] theorem length_copies (q : MsgQueue) (pid : Pid) (m : Message) (n : ℕ) :
    (q.copies pid m n).length = (q.reached pid n).length := by simp [copies]

theorem reached_succ (q : MsgQueue) (pid : Pid) (n : ℕ) :
    q.reached pid (n + 1) = q.reached pid n ++
      if q.memberPid n ≠ pid && !q.blockCheck n maxMembers pid then [n] else [] := by
  simp only [reached, List.range_succ, List.filter_append]
  congr 1
  simp only [List.filter_cons, List.filter_nil]

/-- The state of the broadcast loop before index `i`. -/
structure Broadcasting (q : MsgQueue) (pid : Pid) (m : Message) (i : ℕ) (s : Int × MsgQueue) : Prop where
  ret : s.1 = (q.reached pid i).length
  memberCount : s.2.memberCount = q.memberCount
  memberPid : s.2.memberPid = q.memberPid
  blockProcess : s.2.blockProcess = q.blockProcess
  msgCount : s.2.msgCount = q.msgCount + (q.reached pid i).length
  pending : s.2.pending = q.pending ++ q.copies pid m i
  slots : s.2.Slots
  base : s.2.slot 0 = q.slot 0

/-- The broadcast loop, as long as there are slot pointers for all its copies; without them the count
ends above their number. -/
theorem broadcast_loop {q : MsgQueue} (h : q.Slots) (pid : Pid) (m : Message) (n : ℕ) :
    let s := forRange 0 n (fun i (s : Int × MsgQueue) =>
        if s.2.memberPid i ≠ pid then
          if s.2.blockCheck i maxMembers pid then s
          else (s.1 + 1, s.2.append { m with toPid := s.2.memberPid i })
        else s) (0, q)
    (msgSlots < s.2.msgCount ∧ msgSlots < q.msgCount + (q.reached pid n).length) ∨
      Broadcasting q pid m n s := by
  have h0 : Broadcasting q pid m 0 (0, q) := ⟨rfl, rfl, rfl, rfl, rfl, (List.append_nil _).symm, h, rfl⟩
  refine forRange_inv (fun i s => (msgSlots < s.2.msgCount ∧ msgSlots < q.msgCount + (q.reached pid i).length) ∨
    Broadcasting q pid m i s) (Nat.zero_le n) (.inr h0) ?_
  rintro i ⟨r, s⟩ - hin (⟨hov, hcop⟩ | hb)
  · -- neither number goes down again
    left
    refine ⟨?_, by rw [reached_succ, List.length_append]; omega⟩
    simp only at hov ⊢
    split
    · split
      · exact hov
      · rw [msgCount_append]; omega
    · exact hov
  · obtain ⟨hr, hmc, hmp, hbp, hcnt, hpend, hsl, hbase⟩ := hb
    simp only at hr hmc hmp hbp hcnt hpend hsl hbase
    have hcheck : s.blockCheck i maxMembers pid = q.blockCheck i maxMembers pid := by
      unfold blockCheck; rw [hbp]
    simp only [hmp, hcheck]
    by_cases hp : q.memberPid i = pid
    · right
      rw [if_neg (by simpa using hp)]
      have hrs : q.reached pid (i + 1) = q.reached pid i := by rw [reached_succ]; simp [hp]
      exact ⟨by rw [hrs]; exact hr, hmc, hmp, hbp, by rw [hrs]; exact hcnt,
        by rw [copies, hrs]; exact hpend, hsl, hbase⟩
    · rw [if_pos hp]
      by_cases hc : q.blockCheck i maxMembers pid = true
      · right
        rw [if_pos hc]
        have hrs : q.reached pid (i + 1) = q.reached pid i := by rw [reached_succ]; simp [hc]
        exact ⟨by rw [hrs]; exact hr, hmc, hmp, hbp, by rw [hrs]; exact hcnt,
          by rw [copies, hrs]; exact hpend, hsl, hbase⟩
      · rw [if_neg hc]
        have hrs : q.reached pid (i + 1) = q.reached pid i ++ [i] := by rw [reached_succ]; simp [hp, hc]
        rcases Nat.lt_or_ge s.msgCount msgSlots with hlt | hge
        · right
          obtain ⟨a1, a2, a3, a4, a5, -, a6, a7⟩ := append_spec hsl hlt { m with toPid := q.memberPid i }
          refine ⟨by rw [hrs, hr]; simp, a1.trans hmc, a2.trans hmp, a3.trans hbp, ?_, ?_, a7, a6.trans hbase⟩
          · rw [a4, hcnt, hrs]; simp; omega
          · rw [a5, hpend, copies, copies, hrs]; simp
        · left
          simp only [msgCount_append, hrs, List.length_append, List.length_singleton]
          omega

/-- A call that does not go through. -/
abbrev Refused (q : MsgQueue) (r : Int × MsgQueue) : Prop := r = (-einval, q)

/-- A message whose sender is a member and which is neither forged nor self-addressed. -/
structure Sendable (q : MsgQueue) (pid : Pid) (m : Message) : Prop where
  member : pid ∈ q.members
  from_eq : m.fromPid = pid
  to_ne : m.toPid ≠ pid

theorem send_of_not_sendable {q : MsgQueue} {pid : Pid} {m : Message} (h : ¬ q.Sendable pid m) :
    Refused q (q.send pid (some m)) := by
  show q.send pid (some m) = (-einval, q)
  unfold send
  by_cases hmem : q.isMember pid = true
  · have hforge : m.fromPid ≠ pid ∨ m.fromPid = m.toPid := by
      by_contra hn
      push Not at hn
      exact h ⟨isMember_iff.1 hmem, hn.1, fun he => hn.2 (hn.1.trans he.symm)⟩
    simp only [hmem, Bool.not_true, Bool.false_eq_true, if_false, if_pos hforge]
  · simp [hmem]

theorem send_of_sendable {q : MsgQueue} {pid : Pid} {m : Message} (h : q.Sendable pid m) :
    q.send pid (some m) =
      if m.toPid = broadcastPid then
        forRange 0 q.memberCount (fun i (s : Int × MsgQueue) =>
          if s.2.memberPid i ≠ pid then
            if s.2.blockCheck i maxMembers pid then s
            else (s.1 + 1, s.2.append { m with toPid := s.2.memberPid i })
          else s) (0, q)
      else match firstIdx q.memberCount fun i => q.memberPid i == m.toPid with
        | some i => if q.blockCheck i maxProcesses pid then (-einval, q) else (1, q.append m)
        | none => (-einval, q) := by
  have hok : ¬ (m.fromPid ≠ pid ∨ m.fromPid = m.toPid) := by
    rw [not_or, not_not]
    exact ⟨h.from_eq, fun he => h.to_ne (he.symm.trans h.from_eq)⟩
  have hmem : q.isMember pid = true := isMember_iff.2 h.member
  unfold send
  exact (if_neg (by simp [hmem])).trans (if_neg hok)

/-- The index the unicast scan of `do_msg_queue_send` stops at. -/
def addressee (q : MsgQueue) (r : Pid) : Option ℕ := firstIdx q.memberCount fun i => q.memberPid i == r

theorem addressee_some {q : MsgQueue} {r : Pid} {i : ℕ} (h : q.addressee r = some i) :
    i < q.memberCount ∧ q.memberPid i = r := by
  obtain ⟨h1, h2, -⟩ := firstIdx_some h
  exact ⟨h1, by simpa using h2⟩

theorem addressee_of_mem {q : MsgQueue} {r : Pid} (h : r ∈ q.members) : ∃ i, q.addressee r = some i := by
  rw [← Option.isSome_iff_exists]
  obtain ⟨i, hi, he⟩ := mem_slice.1 h
  exact firstIdx_isSome.2 ⟨i, hi, by simpa using he⟩

/-- A unicast that the scan of the block matrix lets through. -/
def Delivers (q : MsgQueue) (pid : Pid) (m : Message) : Prop :=
  q.Sendable pid m ∧ m.toPid ≠ broadcastPid ∧
    ∃ i, q.addressee m.toPid = some i ∧ q.blockCheck i maxProcesses pid = false

theorem send_unicast {q : MsgQueue} {pid : Pid} {m : Message} (h : q.Delivers pid m) :
    q.send pid (some m) = (1, q.append m) := by
  obtain ⟨hs, hbc, i, hi, hc⟩ := h
  unfold addressee at hi
  rw [send_of_sendable hs, if_neg hbc, hi]
  simp [hc]

theorem send_unicast_refused {q : MsgQueue} {pid : Pid} {m : Message} (hbc : m.toPid ≠ broadcastPid)
    (h : ¬ q.Delivers pid m) : Refused q (q.send pid (some m)) := by
  by_cases hs : q.Sendable pid m
  · show q.send pid (some m) = (-einval, q)
    rw [send_of_sendable hs, if_neg hbc]
    rcases hi : firstIdx q.memberCount (fun i => q.memberPid i == m.toPid) with _ | i
    · rfl
    · have : q.blockCheck i maxProcesses pid = true := by
        by_contra hc
        exact h ⟨hs, hbc, i, hi, by simpa using hc⟩
      simp [this]
  · exact send_of_not_sendable hs

theorem send_broadcast {q : MsgQueue} (h : q.Slots) {pid : Pid} {m : Message} (hs : q.Sendable pid m)
    (hbc : m.toPid = broadcastPid) (hfit : (q.send pid (some m)).2.msgCount ≤ msgSlots) :
    Broadcasting q pid m q.memberCount (q.send pid (some m)) := by
  rw [send_of_sendable hs, if_pos hbc] at hfit ⊢
  exact (broadcast_loop h pid m q.memberCount).resolve_left fun hov => by omega

/-! ## How many messages a send stores -/

instance (q : MsgQueue) (pid : Pid) (m : Message) : Decidable (q.Sendable pid m) :=
  decidable_of_iff (pid ∈ q.members ∧ m.fromPid = pid ∧ m.toPid ≠ pid)
    ⟨fun h => ⟨h.1, h.2.1, h.2.2⟩, fun h => ⟨h.member, h.from_eq, h.to_ne⟩⟩

instance (q : MsgQueue) (pid : Pid) (m : Message) : Decidable (q.Delivers pid m) :=
  decidable_of_iff (q.Sendable pid m ∧ m.toPid ≠ broadcastPid ∧
      ((q.addressee m.toPid).any fun i => !q.blockCheck i maxProcesses pid) = true)
    (by simp only [Delivers, Option.any_eq_true, Bool.not_eq_true'])

/-- The number of members a send reaches. -/
def receivers (q : MsgQueue) (pid : Pid) : Option Message → ℕ
  | none => 0
  | some m =>
    if m.toPid = broadcastPid then
      if q.Sendable pid m then (q.reached pid q.memberCount).length else 0
    else if q.Delivers pid m then 1 else 0

theorem reached_length_le (q : MsgQueue) (pid : Pid) (n : ℕ) : (q.reached pid n).length ≤ n := by
  unfold reached
  exact (List.length_filter_le ..).trans (List.length_range).le

/-- While there are slot pointers for all of them, a send stores one message for each member it
reaches; one that reaches none leaves the queue as it was. -/
theorem send_receivers {q : MsgQueue} (h : q.Slots) {pid : Pid} {msg : Option Message}
    (hroom : q.msgCount + q.receivers pid msg ≤ msgSlots) :
    (q.send pid msg).2.msgCount = q.msgCount + q.receivers pid msg := by
  cases msg with
  | none => rfl
  | some m =>
    simp only [receivers] at hroom ⊢
    by_cases hbc : m.toPid = broadcastPid
    · rw [if_pos hbc] at hroom ⊢
      by_cases hs : q.Sendable pid m
      · rw [if_pos hs] at hroom ⊢
        rw [send_of_sendable hs, if_pos hbc]
        exact ((broadcast_loop h pid m q.memberCount).resolve_left fun hov => by omega).msgCount
      · rw [if_neg hs, send_of_not_sendable hs]; rfl
    · rw [if_neg hbc] at hroom ⊢
      by_cases hd : q.Delivers pid m
      · rw [if_pos hd, send_unicast hd]; exact msgCount_append m q
      · rw [if_neg hd, send_unicast_refused hbc hd]; rfl

/-- `do_msg_queue_send` either refuses and changes nothing, or stores the copies of a broadcast, or
stores the one message of a unicast. -/
theorem send_cases {q : MsgQueue} (h : q.Slots) (pid : Pid) (msg : Option Message)
    (hfit : (q.send pid msg).2.msgCount ≤ msgSlots) :
    Refused q (q.send pid msg) ∨
    (∃ m, msg = some m ∧ q.Sendable pid m ∧ m.toPid = broadcastPid ∧
      Broadcasting q pid m q.memberCount (q.send pid msg)) ∨
    ∃ m, msg = some m ∧ q.Delivers pid m ∧ (q.send pid msg).1 = 1 ∧ Appended q m (q.send pid msg).2 := by
  cases msg with
  | none => exact .inl rfl
  | some m =>
    by_cases hbc : m.toPid = broadcastPid
    · by_cases hs : q.Sendable pid m
      · exact .inr (.inl ⟨m, rfl, hs, hbc, send_broadcast h hs hbc hfit⟩)
      · exact .inl (send_of_not_sendable hs)
    · by_cases hd : q.Delivers pid m
      · rw [send_unicast hd] at hfit ⊢
        simp only [msgCount_append] at hfit
        exact .inr (.inr ⟨m, rfl, hd, rfl, append_spec h (by omega) m⟩)
      · exact .inl (send_unicast_refused hbc hd)

/-! ## Receiving and counting -/

/-- `do_msg_queue_rcv`: refused without a message to fill or to a non-member, `0` when nothing waits
for the caller, else the caller's oldest message leaves the buffer. -/
theorem rcv_cases {q : MsgQueue} (h : q.Slots) (pid : Pid) (buf : Bool) :
    (q.rcv pid buf = (-einval, none, q) ∧ (buf = false ∨ pid ∉ q.members)) ∨
    (q.rcv pid buf = (0, none, q) ∧ ∀ m ∈ q.pending, m.toPid ≠ pid) ∨
    ∃ pre m post q', q.rcv pid buf = (1, some m, q') ∧ q.pending = pre ++ m :: post ∧ m.toPid = pid ∧
      (∀ x ∈ pre, x.toPid ≠ pid) ∧ q'.pending = pre ++ post ∧ q'.Slots ∧ q'.slot = q.slot ∧
      q'.memberCount = q.memberCount ∧ q'.memberPid = q.memberPid ∧ q'.blockProcess = q.blockProcess := by
  cases buf with
  | false => exact .inl ⟨rfl, .inl rfl⟩
  | true =>
    by_cases hmem : q.isMember pid = true
    swap
    · exact .inl ⟨by simp [rcv, hmem], .inr fun hp => hmem (isMember_iff.2 hp)⟩
    right
    rcases hi : firstIdx q.msgCount (fun i => (q.msg i).toPid == pid) with _ | i
    · refine .inl ⟨by simp [rcv, hmem, hi], fun m hm => ?_⟩
      obtain ⟨j, hj, rfl⟩ := mem_slice.1 hm
      simpa using firstIdx_none.1 hi j hj
    · obtain ⟨hlt, hto, hfirst⟩ := firstIdx_some hi
      have hle := h.le
      refine .inr ⟨slice q.msg i, q.msg i, slice (fun j => q.msg (i + 1 + j)) (q.msgCount - (i + 1)),
        { q with cells := shiftDown q.slot i (q.msgCount - 1) q.cells, msgCount := q.msgCount - 1 },
        by simp only [rcv, hmem, hi, Bool.not_true, Bool.false_eq_true, if_false],
        slice_split q.msg hlt, by simpa using hto, fun x hx => ?_, ?_,
        ⟨by simp only; omega, fun k hk => h.addr k (by simp only at hk; omega)⟩, rfl, rfl, rfl, rfl⟩
      · obtain ⟨j, hj, rfl⟩ := mem_slice.1 hx
        simpa using hfirst j hj
      · have hsub : q.msgCount - (i + 1) = q.msgCount - 1 - i := by omega
        rw [hsub]
        exact slice_shiftDown (by omega) le_rfl
          (fun a ha b hb he => h.inj (by omega) (by omega) he) q.cells

/-- A member receives the oldest message that waits for it. -/
theorem rcv_inbox {q : MsgQueue} (h : q.Slots) {pid : Pid} (hmem : pid ∈ q.members) :
    (q.rcv pid true).1 = (if q.mailbox.inbox Message.toPid pid = [] then 0 else 1) ∧
      (q.rcv pid true).2.1 = (q.mailbox.inbox Message.toPid pid).head? := by
  change _ = (if q.pending.filter _ = [] then _ else _) ∧ _ = (q.pending.filter _).head?
  rcases rcv_cases h pid true with ⟨-, hno | hno⟩ | ⟨he, hnone⟩ | ⟨pre, m, post, q', he, hpend, hto, hpre, -⟩
  · cases hno
  · exact absurd hmem hno
  · have hnil : q.pending.filter (fun m => m.toPid = pid) = [] :=
      List.filter_eq_nil_iff.2 fun m hm => by simpa using hnone m hm
    rw [he, hnil]
    exact ⟨rfl, rfl⟩
  · -- what is older is for others
    have hnil : pre.filter (fun m => m.toPid = pid) = [] :=
      List.filter_eq_nil_iff.2 fun m hm => by simpa using hpre m hm
    have hsome : q.pending.filter (fun m => m.toPid = pid) = m :: post.filter fun m => m.toPid = pid := by
      rw [hpend, List.filter_append, hnil, List.nil_append, List.filter_cons_of_pos (by simpa using hto)]
    rw [he, hsome]
    exact ⟨rfl, rfl⟩

theorem getMsgCount_of_mem {q : MsgQueue} {pid : Pid} (h : pid ∈ q.members) :
    q.getMsgCount pid = (q.pending.filter fun m => m.toPid = pid).length := by
  have hmem : q.isMember pid = true := isMember_iff.2 h
  simp only [getMsgCount, hmem, Bool.not_true, Bool.false_eq_true, if_false, pending]
  refine forRange_inv (f := fun i n => if (q.msg i).toPid = pid then n + 1 else n)
    (fun i (n : Int) => n = ((slice q.msg i).filter fun m => m.toPid = pid).length) (Nat.zero_le _) rfl ?_
  rintro i n - - rfl
  by_cases hp : (q.msg i).toPid = pid <;> simp [slice_succ, hp]

/-! ## Blocking -/

theorem lastIdx_spec (n : ℕ) (p : ℕ → Bool) :
    (∀ i, lastIdx n p = some i → i < n ∧ p i = true) ∧ (lastIdx n p = none → ∀ j < n, p j = false) := by
  refine forRange_inv (fun n (o : Option ℕ) =>
      (∀ i, o = some i → i < n ∧ p i = true) ∧ (o = none → ∀ j < n, p j = false))
    (Nat.zero_le n) ⟨fun i h => (Option.some_ne_none i h.symm).elim, fun _ j hj => absurd hj (Nat.not_lt_zero j)⟩ ?_
  rintro j o - - ⟨hs, hn⟩
  by_cases hp : p j = true
  · simp only [hp, if_true]
    refine ⟨fun i hi => ?_, fun h => by cases h⟩
    cases hi; exact ⟨Nat.lt_succ_self _, hp⟩
  · simp only [hp]
    refine ⟨fun i hi => ⟨by have := (hs i hi).1; omega, (hs i hi).2⟩, fun ho k hk => ?_⟩
    rcases Nat.lt_succ_iff_lt_or_eq.1 hk with h | rfl
    · exact hn ho k h
    · simpa using hp

/-- What a `do_msg_queue_block` that returns 0 did: the caller at index `i` already has the target in
its row, or the target went into a free cell of it. -/
structure Blocked (q : MsgQueue) (pid : Pid) (target : Int32) (i : ℕ) (q' : MsgQueue) : Prop where
  lt : i < q.memberCount
  caller : q.memberPid i = pid
  mem : target.toUInt32 ∈ q.members
  ne : target.toUInt32 ≠ pid
  row : ((∃ j < maxMembers, q.blockProcess (maxMembers * i + j) = target) ∧ q' = q) ∨
    ∃ j < maxMembers, q.blockProcess (maxMembers * i + j) = -1 ∧
      q' = { q with blockProcess := Function.update q.blockProcess (maxMembers * i + j) target }

theorem Blocked.matrix {q q' : MsgQueue} {pid : Pid} {target : Int32} {i : ℕ} (h : Blocked q pid target i q') :
    ∃ b, q' = { q with blockProcess := b } := by
  rcases h.row with ⟨-, rfl⟩ | ⟨j, -, -, rfl⟩
  · exact ⟨_, rfl⟩
  · exact ⟨_, rfl⟩

theorem block_cases (q : MsgQueue) (pid : Pid) (target : Int32) :
    Refused q (q.block pid target) ∨
    (q.block pid target).1 = 0 ∧ ∃ i, Blocked q pid target i (q.block pid target).2 := by
  unfold block Refused
  by_cases hneg : target < 0
  · rw [if_pos hneg]; exact .inl rfl
  rw [if_neg hneg]
  rcases hc : lastIdx q.memberCount (fun i => q.memberPid i == pid) with _ | idxCtx
  · exact .inl rfl
  rcases hp : lastIdx q.memberCount (fun i => q.memberPid i == target.toUInt32) with _ | idxPid
  · exact .inl rfl
  obtain ⟨hclt, hceq⟩ := (lastIdx_spec _ _).1 _ hc
  obtain ⟨hplt, hpeq⟩ := (lastIdx_spec _ _).1 _ hp
  have hceq : q.memberPid idxCtx = pid := by simpa using hceq
  have hpeq : q.memberPid idxPid = target.toUInt32 := by simpa using hpeq
  simp only
  by_cases hidx : idxCtx = idxPid
  · rw [if_pos hidx]; exact .inl rfl
  rw [if_neg hidx]
  -- two different indices are two different members
  have hne : target.toUInt32 ≠ pid := fun he => hidx (by rw [he, hc] at hp; exact Option.some.inj hp)
  have hmem : target.toUInt32 ∈ q.members := mem_slice.2 ⟨idxPid, hplt, hpeq⟩
  split
  · rename_i hsome
    obtain ⟨j, hj, hje⟩ := firstIdx_isSome.1 hsome
    exact .inr ⟨rfl, idxCtx, hclt, hceq, hmem, hne, .inl ⟨⟨j, hj, by simpa using hje⟩, rfl⟩⟩
  · split
    · rename_i j hj
      obtain ⟨hjlt, hje, -⟩ := firstIdx_some hj
      exact .inr ⟨rfl, idxCtx, hclt, hceq, hmem, hne, .inr ⟨j, hjlt, by simpa using hje, rfl⟩⟩
    · exact .inl rfl

/-! ## Leaving -/

theorem shiftRows_apply (i : ℕ) (b : ℕ → Int32) (x : ℕ) :
    shiftRows i b x = if maxMembers * i ≤ x ∧ x < maxMembers * (maxMembers - 1) then b (x + maxMembers) else b x :=
  forRange_rows (w := fun x => b (x + maxMembers)) (fun j k d _ _ _ hd => by
    have hx : maxMembers * (j + 1) + k = maxMembers * j + k + maxMembers := by rw [Nat.mul_succ]; omega
    rw [hx]
    exact hd _ (.inr (Nat.le_add_right ..))) x

theorem clearRow_apply (j : ℕ) (b : ℕ → Int32) (x : ℕ) :
    clearRow j b x = if maxMembers * j ≤ x ∧ x < maxMembers * j + maxMembers then -1 else b x :=
  forRange_write (w := fun _ => (-1 : Int32)) (fun _ _ _ _ _ => rfl) x

theorem purge_apply (pid : Pid) (b : ℕ → Int32) (x : ℕ) :
    purge pid b x = if x < maxMembers * maxMembers ∧ (b x).toUInt32 = pid then -1 else b x := by
  have hbody : purge pid b = forRange 0 maxMembers (fun j b => forRange 0 maxMembers (fun k b =>
      Function.update b (maxMembers * j + k)
        (if (b (maxMembers * j + k)).toUInt32 = pid then -1 else b (maxMembers * j + k))) b) b := by
    unfold purge
    refine congrArg (forRange 0 maxMembers · b) (funext₂ fun j b =>
      congrArg (forRange 0 maxMembers · b) (funext₂ fun k b => ?_))
    split
    · rfl
    · exact (Function.update_eq_self _ _).symm
  rw [hbody, forRange_rows (w := fun x => if (b x).toUInt32 = pid then -1 else b x)
    fun j k d _ _ _ hd => by rw [hd _ (.inr le_rfl)]]
  by_cases hx : x < maxMembers * maxMembers <;> simp [hx]

theorem blockProcess_closeTables (q : MsgQueue) (pid : Pid) (i : ℕ) :
    (q.closeTables pid i).blockProcess =
      purge pid (clearRow (q.memberCount - 1) (shiftRows i q.blockProcess)) := by
  simp only [closeTables]

@[simp] theorem slot_closeTables {q : MsgQueue} {pid : Pid} {i k : ℕ} (hk : k < msgSlots) :
    (q.closeTables pid i).slot k = q.slot k := by
  rw [slot_of_lt hk, slot_of_lt hk]; rfl

theorem slots_closeTables {q : MsgQueue} (h : q.Slots) (pid : Pid) (i : ℕ) : (q.closeTables pid i).Slots :=
  ⟨h.le, fun k (hk : k < q.msgCount) => by
    have := h.le
    rw [slot_closeTables (by omega), slot_closeTables (by decide), h.addr k hk]⟩

theorem pending_closeTables {q : MsgQueue} (h : q.Slots) (pid : Pid) (i : ℕ) :
    (q.closeTables pid i).pending = q.pending :=
  slice_congr fun k hk => by
    have := h.le
    have hk : k < q.msgCount := hk
    unfold msg
    rw [slot_closeTables (by omega)]; rfl

theorem memberPid_closeTables (q : MsgQueue) (pid : Pid) (i : ℕ) {x : ℕ} (hx : x < maxMembers - 1) :
    (q.closeTables pid i).memberPid x = if i ≤ x then q.memberPid (x + 1) else q.memberPid x := by
  have := shiftDown_apply (p := id) (i := i) (fun a _ b _ he => he) q.memberPid hx.le
  simp only [id, hx, and_true] at this
  exact this

theorem members_closeTables {q : MsgQueue} (hcount : q.memberCount ≤ maxMembers) {pid : Pid} {i : ℕ}
    (hi : q.addressee pid = some i) : (q.closeTables pid i).members = q.members.erase pid := by
  obtain ⟨hlt, heq, hfirst⟩ := firstIdx_some hi
  have heq : q.memberPid i = pid := by simpa using heq
  have hpre : pid ∉ slice q.memberPid i := fun hm => by
    obtain ⟨j, hj, he⟩ := mem_slice.1 hm
    have := hfirst j hj
    simp [he] at this
  have hshift := slice_shiftDown (p := id) (i := i) (m := q.memberCount - 1) (n := maxMembers - 1) (by omega)
    (by omega) (fun a _ b _ he => he) q.memberPid
  unfold members
  rw [slice_split q.memberPid hlt, heq, List.erase_append_right _ hpre, List.erase_cons_head,
    show q.memberCount - (i + 1) = q.memberCount - 1 - i by omega]
  exact hshift

theorem blockProcess_closeMessages (q : MsgQueue) (pid : Pid) :
    (q.closeMessages pid).blockProcess = q.blockProcess := rfl

theorem slot_closeMessages (q : MsgQueue) (pid : Pid) : (q.closeMessages pid).slot = q.slot := rfl

theorem pending_closeMessages {q : MsgQueue} (h : q.Slots) (pid : Pid) :
    (q.closeMessages pid).pending = q.pending.filter fun m => m.toPid ≠ pid :=
  slice_compact (p := q.slot) (fun _ ha _ hb => h.inj ha hb) (fun m : Message => m.toPid ≠ pid) q.cells

theorem slots_closeMessages {q : MsgQueue} (h : q.Slots) (pid : Pid) : (q.closeMessages pid).Slots := by
  have hle : (q.closeMessages pid).msgCount ≤ q.msgCount :=
    compact_le (p := q.slot) (fun _ ha _ hb => h.inj ha hb) (fun m : Message => m.toPid ≠ pid) q.cells
  exact ⟨hle.trans h.le, fun k hk => by rw [slot_closeMessages]; exact h.addr k (by omega)⟩

/-- What a `do_msg_queue_close` by the member at index `i` did. -/
structure Closed (q : MsgQueue) (pid : Pid) (i : ℕ) (q' : MsgQueue) : Prop where
  lt : i < q.memberCount
  caller : q.memberPid i = pid
  memberCount : q'.memberCount = q.memberCount - 1
  memberPid : ∀ x < q'.memberCount, q'.memberPid x = if i ≤ x then q.memberPid (x + 1) else q.memberPid x
  blockProcess : q'.blockProcess = purge pid (clearRow (q.memberCount - 1) (shiftRows i q.blockProcess))
  members : q'.members = q.members.erase pid
  pending : q'.pending = q.pending.filter fun m => m.toPid ≠ pid
  base : q'.slot 0 = q.slot 0
  slots : q'.Slots

theorem close_of_not_mem {q : MsgQueue} {pid : Pid} (h : pid ∉ q.members) : Refused q (q.close pid) := by
  unfold Refused close
  rcases hi : firstIdx q.memberCount (fun i => q.memberPid i == pid) with _ | i
  · rfl
  · obtain ⟨h1, h2, -⟩ := firstIdx_some hi
    exact absurd (mem_slice.2 ⟨i, h1, by simpa using h2⟩) h

/-- `do_msg_queue_close` by a member takes it, its blocks and its messages out of the queue. -/
theorem close_of_mem {q : MsgQueue} (h : q.Slots) (hcount : q.memberCount ≤ maxMembers) {pid : Pid}
    (hmem : pid ∈ q.members) : (q.close pid).1 = 0 ∧ ∃ i, Closed q pid i (q.close pid).2 := by
  obtain ⟨i, hi⟩ := addressee_of_mem hmem
  obtain ⟨hlt, heq⟩ := addressee_some hi
  have hclose : q.close pid = (0, (q.closeTables pid i).closeMessages pid) := by
    unfold addressee at hi
    unfold close; rw [hi]
  have hsl := slots_closeTables h pid i
  rw [hclose]
  refine ⟨rfl, i, hlt, heq, rfl, fun x hx => ?_, ?_, members_closeTables hcount hi, ?_, ?_,
    slots_closeMessages hsl pid⟩
  · have hx : x < q.memberCount - 1 := hx
    exact memberPid_closeTables q pid i (by omega)
  · rw [blockProcess_closeMessages, blockProcess_closeTables]
  · rw [pending_closeMessages hsl, pending_closeTables h]
  · rw [slot_closeMessages, slot_closeTables (by decide)]

/-- What it does to the members, whatever the state of the messages. -/
theorem close_members {q : MsgQueue} (hcount : q.memberCount ≤ maxMembers) {pid : Pid} (hmem : pid ∈ q.members) :
    (q.close pid).1 = 0 ∧ (q.close pid).2.members = q.members.erase pid ∧
      (q.close pid).2.memberCount = q.memberCount - 1 ∧ (q.close pid).2.slot 0 = q.slot 0 := by
  obtain ⟨i, hi⟩ := addressee_of_mem hmem
  have hclose : q.close pid = (0, (q.closeTables pid i).closeMessages pid) := by
    unfold addressee at hi
    unfold close; rw [hi]
  rw [hclose]
  exact ⟨rfl, members_closeTables hcount hi, rfl, by rw [slot_closeMessages, slot_closeTables (by decide)]⟩

end MsgQueue

end CS330.Queue
