/-
Runs of one message queue: the calls its members make in any order, the log of what each call did,
and per-recipient delivery. The queue's two lists go through exactly the steps of a shared mailbox,
so its law, first in first out for every member, is the mailbox law.
-/
import CS330.Queue.Spec

namespace CS330.Queue

open CS330.Lib

/-- What a member can do to a queue. A fork reaches it through `do_add_child_to_msg_queue`. -/
inductive Call where
  | fork (parent child : Pid)
  | send (pid : Pid) (msg : Option Message)
  | rcv (pid : Pid) (buf : Bool)
  | count (pid : Pid)
  | block (pid : Pid) (target : Int32)
  | close (pid : Pid)

namespace Call

open MsgQueue

def caller : Call → Pid
  | fork p _ | send p _ | rcv p _ | count p | block p _ | close p => p

/-- The return value and the queue afterwards; a fork returns the child's pid. -/
def exec (q : MsgQueue) : Call → Int × MsgQueue
  | fork _ child => (child.toNat, q.addChild child)
  | send pid msg => q.send pid msg
  | rcv pid buf => ((q.rcv pid buf).1, (q.rcv pid buf).2.2)
  | count pid => (q.getMsgCount pid, q)
  | block pid target => q.block pid target
  | close pid => q.close pid

/-- What a call did, read off its return value: a unicast that returned 1 accepted its message, a
broadcast that was not refused accepted a copy for each member it reached, a receive that returned 1
gave its caller the message it filled in, a block or close happened if it returned 0. -/
def events (q : MsgQueue) : Call → List (Ev Pid Message)
  | fork _ child => [.join child]
  | send _ none => []
  | send pid (some m) =>
    if m.toPid = broadcastPid then
      if (q.send pid (some m)).1 = -einval then [] else (q.copies pid m q.memberCount).map .accept
    else if (q.send pid (some m)).1 = 1 then [.accept m] else []
  | rcv pid buf => if (q.rcv pid buf).1 = 1 then (q.rcv pid buf).2.1.toList.map (.take pid) else []
  | count _ => []
  | block pid target => if (q.block pid target).1 = 0 then [.block pid target.toUInt32] else []
  | close pid => if (q.close pid).1 = 0 then [.leave pid] else []

/-- A call a member can make; a forked child is a context with a pid of its own. -/
def Legal (q : MsgQueue) : Call → Prop
  | fork p r => p ∈ q.members ∧ r ∉ q.members ∧ r ≠ broadcastPid
  | c => c.caller ∈ q.members

instance (q : MsgQueue) : DecidablePred (Legal q) := fun c => by
  rcases c <;> unfold Legal <;> infer_instance

theorem Legal.member {q : MsgQueue} {c : Call} (h : c.Legal q) : c.caller ∈ q.members := by
  cases c <;> first | exact h.1 | exact h

end Call

/-- One step of a run: the call, what it returned and what it did. -/
structure Done where
  call : Call
  ret : Int
  events : List (Ev Pid Message)

/-- A legal call, after which at most `MAX_MEMBERS` processes are members and at most 128 messages
pending. -/
structure Step (q : MsgQueue) (d : Done) (q' : MsgQueue) : Prop where
  legal : d.call.Legal q
  exec : d.call.exec q = (d.ret, q')
  events : d.events = d.call.events q
  members : q'.memberCount ≤ maxMembers
  pending : q'.msgCount ≤ msgSlots

/-- Carry out a call. -/
def next (q : MsgQueue) (c : Call) : Done × MsgQueue := (⟨c, (c.exec q).1, c.events q⟩, (c.exec q).2)

/-- A call that makes a step. -/
def Ok (q : MsgQueue) (c : Call) : Prop :=
  c.Legal q ∧ (c.exec q).2.memberCount ≤ maxMembers ∧ (c.exec q).2.msgCount ≤ msgSlots

instance (q : MsgQueue) (c : Call) : Decidable (Ok q c) := by unfold Ok; infer_instance

/-- The steps a list of calls takes, and the queue they leave. -/
def play (q : MsgQueue) (cs : List Call) : List Done × MsgQueue := script next q cs

theorem run_play {q : MsgQueue} {cs : List Call} (h : Scripted next Ok q cs) :
    Run Step q (play q cs).1 (play q cs).2 :=
  Run.script next Ok (fun _ _ h => ⟨h.1, rfl, rfl, h.2.1, h.2.2⟩) h

/-- The log of a run of a queue created by `creator`. -/
def log (creator : Pid) (ds : List Done) : List (Ev Pid Message) := .join creator :: ds.flatMap Done.events

theorem log_snoc (creator : Pid) (ds : List Done) (d : Done) :
    log creator (ds ++ [d]) = log creator ds ++ d.events := by
  simp [log]

namespace MsgQueue

/-! ## The queue is a mailbox -/

/-- The part of the invariant that is about memory. -/
structure WF (q : MsgQueue) : Prop where
  slots : q.Slots
  members : q.memberCount ≤ maxMembers

theorem wf_create (pid : Pid) (a : ℕ) (page : MsgQueue) : (create pid a page).WF :=
  ⟨slots_create pid a page, show 1 ≤ maxMembers by decide⟩

/-- A run of accepted messages. -/
theorem run_accept {ms : List Pid} : ∀ {w xs : List Message}, (∀ m ∈ xs, m.toPid ∈ ms) →
    Run (Mailbox.Step Message.toPid) ⟨ms, w⟩ (xs.map .accept) ⟨ms, w ++ xs⟩
  | w, [], _ => by simpa using Run.start
  | w, x :: xs, h => by
    have := run_accept (w := w ++ [x]) fun m hm => h m (List.mem_cons_of_mem _ hm)
    rw [List.append_assoc] at this
    exact .cons (.accept (h x (List.mem_cons_self ..))) this

theorem mem_copies {q : MsgQueue} {pid : Pid} {m c : Message} (h : c ∈ q.copies pid m q.memberCount) :
    c.toPid ∈ q.members := by
  obtain ⟨i, hi, rfl⟩ := List.mem_map.1 h
  exact mem_slice.2 ⟨i, List.mem_range.1 (List.mem_filter.1 hi).1, rfl⟩

theorem Delivers.mem {q : MsgQueue} {pid : Pid} {m : Message} (h : q.Delivers pid m) :
    m.toPid ∈ q.members := by
  obtain ⟨-, -, i, hi, -⟩ := h
  exact mem_slice.2 ⟨i, addressee_some hi⟩

end MsgQueue

open MsgQueue

theorem einval_ne_zero : (-einval : Int) ≠ 0 := by decide
theorem einval_ne_one : (1 : Int) ≠ -einval := by decide

/-- Every call of a run keeps the slot pointers right. -/
theorem Step.wf {q q' : MsgQueue} {d : Done} (hs : Step q d q') (h : q.WF) : q'.WF := by
  obtain ⟨⟨c, ret, es⟩, hleg, hex, -, hm, hp⟩ := d, hs
  simp only at hleg hex
  refine ⟨?_, hm⟩
  cases c with
  | fork p child =>
    obtain ⟨-, rfl⟩ := Prod.mk.inj hex
    exact ⟨h.slots.le, h.slots.addr⟩
  | send pid msg =>
    have hq : (q.send pid msg).2 = q' := congrArg Prod.snd hex
    rcases send_cases h.slots pid msg (by rw [hq]; exact hp) with hr | ⟨m, -, -, -, hb⟩ | ⟨m, -, -, -, ha⟩
    · rw [← hq, hr]; exact h.slots
    · rw [← hq]; exact hb.slots
    · rw [← hq]; exact ha.slots
  | rcv pid buf =>
    obtain ⟨-, rfl⟩ := Prod.mk.inj hex
    rcases rcv_cases h.slots pid buf with ⟨hr, -⟩ | ⟨hr, -⟩ | ⟨_, _, _, q', hr, -, -, -, -, hsl, -⟩ <;> rw [hr]
    · exact h.slots
    · exact h.slots
    · exact hsl
  | count pid => obtain ⟨-, rfl⟩ := Prod.mk.inj hex; exact h.slots
  | block pid target =>
    have hq : (q.block pid target).2 = q' := congrArg Prod.snd hex
    rcases block_cases q pid target with hr | ⟨-, i, hb⟩
    · rw [← hq, hr]; exact h.slots
    · obtain ⟨b, he⟩ := hb.matrix
      rw [← hq, he]; exact h.slots.matrix b
  | close pid =>
    have hq : (q.close pid).2 = q' := congrArg Prod.snd hex
    obtain ⟨-, i, hc⟩ := close_of_mem h.slots h.members hleg.member
    rw [← hq]; exact hc.slots

/-- The events of a call take the queue's mailbox to the one it leaves behind. -/
theorem Step.simulates {q q' : MsgQueue} {d : Done} (hs : Step q d q') (h : q.WF) :
    Run (Mailbox.Step Message.toPid) q.mailbox d.events q'.mailbox := by
  obtain ⟨⟨c, ret, es⟩, hleg, hex, hes, hm, hp⟩ := d, hs
  simp only at hleg hex hes ⊢
  subst hes
  cases c with
  | fork p child =>
    obtain ⟨-, rfl⟩ := Prod.mk.inj hex
    rw [mailbox_eq (members_addChild child q) (rfl : (q.addChild child).pending = q.pending)]
    exact .single (.join hleg.2.1)
  | send pid msg =>
    have hq : (q.send pid msg).2 = q' := congrArg Prod.snd hex
    rcases send_cases h.slots pid msg (by rw [hq]; exact hp) with hr | ⟨m, rfl, -, hbc, hb⟩ | ⟨m, rfl, hd, h1, ha⟩
    · rw [← hq, hr]
      cases msg with
      | none => exact .start
      | some m =>
        have hev : Call.events q (.send pid (some m)) = [] := by
          simp only [Call.events, hr, if_true, if_neg einval_ne_one.symm, ite_self]
        rw [hev]; exact .start
    · have hne : ¬ (q.send pid (some m)).1 = -einval := by rw [hb.ret]; simp only [einval]; omega
      rw [← hq, mailbox_eq (members_congr hb.memberCount hb.memberPid) hb.pending]
      simp only [Call.events, if_pos hbc, if_neg hne]
      exact run_accept fun x hx => mem_copies hx
    · rw [← hq, mailbox_eq (members_congr ha.memberCount ha.memberPid) ha.pending]
      simp only [Call.events, if_neg hd.2.1, if_pos h1]
      exact .single (.accept hd.mem)
  | rcv pid buf =>
    obtain ⟨-, rfl⟩ := Prod.mk.inj hex
    simp only [Call.events]
    rcases rcv_cases h.slots pid buf with ⟨hr, -⟩ | ⟨hr, -⟩ |
      ⟨pre, m, post, q', hr, hpend, hto, hpre, hpend', -, -, h1, h2, -⟩ <;>
      rw [hr]
    · exact .start
    · exact .start
    · rw [mailbox_eq rfl hpend, mailbox_eq (members_congr h1 h2) hpend']
      exact .single (.take hto hpre)
  | count pid => obtain ⟨-, rfl⟩ := Prod.mk.inj hex; exact .start
  | block pid target =>
    have hq : (q.block pid target).2 = q' := congrArg Prod.snd hex
    rw [← hq]
    rcases block_cases q pid target with hr | ⟨h0, i, hb⟩
    · have hne : ¬ (q.block pid target).1 = 0 := by
        rw [hr]; exact einval_ne_zero
      simp only [Call.events, if_neg hne]
      rw [hr]; exact .start
    -- messages and members have no part in the matrix
    · have hbox : (q.block pid target).2.mailbox = q.mailbox := by
        obtain ⟨b, he⟩ := hb.matrix
        rw [he]
        refine mailbox_eq (members_congr rfl rfl) (slice_congr fun k hk => ?_)
        unfold msg
        rw [slot_matrix q b (lt_of_lt_of_le hk h.slots.le)]
      simp only [Call.events, if_pos h0]
      rw [hbox]; exact .single .block
  | close pid =>
    have hq : (q.close pid).2 = q' := congrArg Prod.snd hex
    have hmem : pid ∈ q.members := hleg.member
    obtain ⟨h0, i, hc⟩ := close_of_mem h.slots h.members hmem
    rw [← hq, mailbox_eq hc.members hc.pending]
    simp only [Call.events, if_pos h0]
    exact .single (.leave hmem)

/-- Along every run the slot pointers are right and the mailbox law holds. -/
theorem run_fifo {creator : Pid} {a : ℕ} {page q : MsgQueue} {ds : List Done}
    (h : Run Step (create creator a page) ds q) :
    q.WF ∧ Mailbox.Fifo Message.toPid (log creator ds) q.mailbox := by
  refine h.inv (P := fun ds q => q.WF ∧ Mailbox.Fifo Message.toPid (log creator ds) q.mailbox) ⟨wf_create .., ?_⟩ ?_
  · rw [mailbox_eq (members_create creator a page) (pending_create creator a page)]
    refine ⟨List.nodup_singleton _, fun r => ?_, by simp, fun r _ => ?_⟩
    · simp [log, Mailbox.joined, eq_comm]
    · simp [log, Mailbox.taken, Mailbox.accepted, Mailbox.inbox]
  · rintro ds q d q' - ⟨hwf, hfifo⟩ hs
    rw [log_snoc]
    exact ⟨hs.wf hwf, hfifo.run (hs.simulates hwf)⟩

/-! ## Refusals -/

/-- A refused call leaves the queue as it was. -/
theorem exec_einval {q : MsgQueue} (h : q.WF) (c : Call) (hr : (c.exec q).1 = -einval) : (c.exec q).2 = q := by
  cases c with
  | fork p child => simp only [Call.exec, einval] at hr; omega
  | send pid msg =>
    cases msg with
    | none => rfl
    | some m =>
      by_cases hbc : m.toPid = broadcastPid
      · by_cases hs : q.Sendable pid m
        · -- a broadcast returns a count
          simp only [Call.exec] at hr
          rw [send_of_sendable hs, if_pos hbc] at hr
          have hnn : 0 ≤ (-einval : Int) := by
            rw [← hr]
            refine forRange_keep (fun s : Int × MsgQueue => 0 ≤ s.1) le_rfl fun i s _ _ hs => ?_
            split
            · split
              · exact hs
              · exact Int.le_add_one hs
            · exact hs
          exact absurd hnn (by decide)
        · exact congrArg Prod.snd (send_of_not_sendable hs)
      · by_cases hd : q.Delivers pid m
        · simp only [Call.exec] at hr
          rw [send_unicast hd] at hr
          exact absurd hr einval_ne_one
        · exact congrArg Prod.snd (send_unicast_refused hbc hd)
  | rcv pid buf =>
    simp only [Call.exec] at hr ⊢
    rcases rcv_cases h.slots pid buf with ⟨he, -⟩ | ⟨he, -⟩ | ⟨_, _, _, q', he, -⟩ <;> rw [he] at hr ⊢
    exact absurd hr einval_ne_one
  | count pid => rfl
  | block pid target =>
    simp only [Call.exec] at hr ⊢
    rcases block_cases q pid target with he | ⟨h0, -⟩
    · rw [he]
    · rw [h0] at hr; exact absurd hr (by decide)
  | close pid =>
    simp only [Call.exec] at hr ⊢
    by_cases hmem : pid ∈ q.members
    · rw [(close_of_mem h.slots h.members hmem).1] at hr; exact absurd hr (by decide)
    · exact congrArg Prod.snd (close_of_not_mem hmem)

/-! ## Delivery -/

/-- What a member of a queue may count on that has gone through `es`: what it received since it
joined, followed by what is still in the buffer for it, is what was accepted for it since;
`do_get_msg_count` tells it how many messages those in the buffer are; and a receive gives it the
oldest of them and returns 1, or returns 0 where there is none. -/
structure Delivered (q : MsgQueue) (es : List (Ev Pid Message)) (r : Pid) : Prop where
  fifo : Mailbox.taken r es ++ q.pending.filter (fun m => m.toPid = r) = Mailbox.accepted Message.toPid r es
  count : q.getMsgCount r = (q.pending.filter fun m => m.toPid = r).length
  received : (q.rcv r true).1 = 1 ↔ q.getMsgCount r ≠ 0
  nothing : (q.rcv r true).1 = 0 ↔ q.getMsgCount r = 0
  oldest : (q.rcv r true).2.1 = (q.pending.filter fun m => m.toPid = r).head?
  refused : q.rcv r false = (-einval, none, q)

theorem delivered {q : MsgQueue} (h : q.WF) {es : List (Ev Pid Message)}
    (hf : Mailbox.Fifo Message.toPid es q.mailbox) {r : Pid} (hr : r ∈ q.members) : Delivered q es r := by
  have hcount := getMsgCount_of_mem hr
  obtain ⟨hret, hmsg⟩ := rcv_inbox h.slots hr
  have hempty : q.getMsgCount r = 0 ↔ q.mailbox.inbox Message.toPid r = [] := by
    rw [hcount, Int.natCast_eq_zero, List.length_eq_zero_iff]
    rfl
  refine ⟨hf.fifo r hr, hcount, ?_, ?_, hmsg, rfl⟩
  · rw [hret, ne_eq, hempty]
    split <;> simp [*]
  · rw [hret, hempty]
    split <;> simp [*]

/-- Per-recipient delivery, for every run of a queue: its members are those that have joined and not
closed; each of them gets what was accepted for it, in order, once, and is told how much still waits;
and no refused call changes the queue. -/
theorem run_delivery {creator : Pid} {a : ℕ} {page q : MsgQueue} {ds : List Done}
    (h : Run Step (create creator a page) ds q) :
    (∀ r, Mailbox.joined r (log creator ds) = true ↔ r ∈ q.members) ∧
      (∀ r, Mailbox.joined r (log creator ds) = true → Delivered q (log creator ds) r) ∧
      ∀ c : Call, (c.exec q).1 = -einval → (c.exec q).2 = q := by
  obtain ⟨hwf, hf⟩ := run_fifo h
  exact ⟨hf.present, fun r hr => delivered hwf hf ((hf.present r).1 hr), exec_einval hwf⟩

/-- A process that forked a child sends it a message and broadcasts another; the child receives
one of the two. -/
theorem run_delivery_of_two :
    let ds := play (create 1 4096 zero) [.fork 1 2, .send 1 (some ⟨1, 2, .replicate _ 7⟩),
      .send 1 (some ⟨1, broadcastPid, .replicate _ 8⟩), .rcv 2 true]
    (∀ r, Mailbox.joined r (log 1 ds.1) = true ↔ r ∈ ds.2.members) ∧
      (∀ r, Mailbox.joined r (log 1 ds.1) = true → Delivered ds.2 (log 1 ds.1) r) ∧
      ∀ c : Call, (c.exec ds.2).1 = -einval → (c.exec ds.2).2 = ds.2 :=
  run_delivery (run_play (by decide))

end CS330.Queue
