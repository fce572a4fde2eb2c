/-
Messages through the kernel. Processes open and share files, create queues, fork and exit; what is behind a queue's
descriptors is always what the members of that queue made of it, so each of them receives what was sent to it there,
in order, and nothing else.
-/
import CS330.Lib.Parts
import CS330.Os.Members
import CS330.Queue.Fifo

namespace CS330.Os

open CS330.Lib CS330.Queue

/-! ## What a call is to a queue -/

/-- How a queue began. -/
structure Founding where
  creator : Pid
  buffer : Ptr
  page : MsgQueue

def Founding.queue (f : Founding) : MsgQueue := .create f.creator f.buffer f.page

namespace Kernel

instance (k : Kernel) (p : Proc) (x : Ptr) : Decidable (k.Refers p x) := by
  unfold Refers; infer_instance

/-- The queue behind a file object, with what is in it. -/
def queueAt (k : Kernel) (x : Ptr) : Option MsgQueue := (k.queueOf x).bind k.queues

/-- What a member asks of its queue; the member list it may look at as it likes. -/
def MsgCall.onQueue (v : Pid) : MsgCall → Option Queue.Call
  | send msg => some (.send v msg)
  | rcv buf => some (.rcv v buf)
  | count => some (.count v)
  | block target => some (.block v target)
  | memberInfo => none

end Kernel

namespace Call

/-- The queue a call creates behind the object on page `x`. -/
def founds (k : Kernel) (x : Ptr) : Call → Option Founding
  | createQueue p (some info) (some b) (some page) =>
    if page.1 = x ∧ (firstFree (k.table p)).isSome = true then some ⟨pid p, b, info.2⟩ else none
  | _ => none

/-- What a call is to the queue behind `x`: a child joins by being forked, and an exit is a close. -/
def atQueue (k : Kernel) (x : Ptr) : Call → Option Queue.Call
  | msg p fd c => if k.table p fd = some x then c.onQueue (pid p) else none
  | closeQueue p fd => if k.table p fd = some x then some (.close (pid p)) else none
  | fork p child => if k.Refers p x then some (.fork (pid p) (pid child)) else none
  | exit p => if k.Refers p x then some (.close (pid p)) else none
  | _ => none

end Call

/-- The queues of the kernel, each behind its file object. -/
def queueParts : Parts Kernel Call Ptr Founding MsgQueue Done where
  part := Kernel.queueAt
  start := Founding.queue
  made k c x := c.founds k x
  turn k c x := (k.queueAt x).bind fun m => (c.atQueue k x).map fun d => (Queue.next m d).1

/-- A queue after a call that was nothing to it, or that a member made. -/
inductive Acts (m : MsgQueue) : Option Queue.Call → MsgQueue → Prop
  | idle : Acts m none m
  | act (d : Queue.Call) : d.Legal m → Acts m (some d) (d.exec m).2

namespace Kernel

variable {k k' s : Kernel} {p child : Proc} {fd old new : Fd} {x y q : Ptr} {m m' : MsgQueue} {c : Call} {bump : ℕ}
  {ret : ℤ}

theorem Stands.queueAt (h : k.Stands x q m) : k.queueAt x = some m := by
  unfold Kernel.queueAt
  rw [h.object]
  exact h.info

theorem Coherent.stands_queueAt (h : Coherent k) (hx : k.queueAt x = some m) : ∃ q, k.Stands x q m := by
  obtain ⟨q, hq, hinfo⟩ := Option.bind_eq_some_iff.1 hx
  obtain ⟨n, hst, -⟩ := h.stands x q hq
  obtain rfl := Option.some.inj (hinfo.symm.trans hst.info)
  exact ⟨q, hst⟩

/-- A queue that was there before a call had the same object then. -/
theorem Coherent.before (h : Coherent k) (h' : Coherent k') (hfrees : FreesTogether k k') (hst : k'.Stands x q m')
    (hq : k.queues q = some m) : k.Stands x q m := by
  obtain ⟨y, hy⟩ := h.owned q m hq
  by_cases hheld : ∃ p, k'.Refers p y
  · obtain ⟨n, hn, -⟩ := (hfrees y q m hy).2 hheld
    rwa [h'.owner x y q hst.object hn.object]
  · obtain ⟨-, hgone, -⟩ := (hfrees y q m hy).1 fun p hp => hheld ⟨p, hp⟩
    rw [hst.info] at hgone
    cases hgone

/-! ## One call -/

theorem Opened.queues {queue : Option Ptr} (h : Opened k p x queue k') : k'.queues = k.queues := by
  cases h <;> rfl

theorem Consistent.queues_dup2 (h : Consistent bump k) (hsole : ¬ k.Sole p old new) (hkeeps : k.DupKeeps p old new)
    (hret : k.fdDup2 p old new = .ok (ret, k')) : k'.queues = k.queues := by
  rcases h.refs.dup2_cases hsole fun x y g ho hn hg hm =>
      Option.ne_none_iff_isSome.2 (hkeeps (by rw [ho]; rfl) y hn g hg (Option.ne_none_iff_isSome.1 hm)).1 with
    he | ⟨x, f, -, -, -, he⟩ | ⟨x, y, g, f, -, -, -, -, -, he⟩
  · rw [he] at hret
    cases hret
    rfl
  · rw [he] at hret
    cases hret
    rfl
  · rw [he] at hret
    cases hret
    exact (released_queues k p new y g).1

theorem Consistent.queues_close (h : Consistent bump k) {unset : ℤ} (hret : k.doClose p fd unset = .ok (ret, k')) :
    k'.queues = k.queues := by
  cases hs : k.table p fd with
  | none =>
    simp only [doClose, hs] at hret
    cases hret
    rfl
  | some x =>
    obtain ⟨f, hf, -⟩ := h.slot hs
    rw [doClose_eq hs hf] at hret
    split at hret
    · cases hret
      rfl
    · cases hret
      exact (released_queues ..).1

/-- A queue that a call creates, or a queue that was there before. -/
theorem Consistent.acts_create (h : Consistent bump k) {info : Option (Ptr × MsgQueue)} {buffer : Option Ptr}
    {page : Option (Ptr × File)} (hlegal : (Call.createQueue p info buffer page).Legal k)
    (hserved : (Call.createQueue p info buffer page).Served)
    (hret : k.doCreateMsgQueue p info buffer page = .ok (ret, k')) (hst : k'.Stands x q m') :
    (∃ f, (Call.createQueue p info buffer page).founds k x = some f ∧ m' = f.queue) ∨
      (Call.createQueue p info buffer page).founds k x = none ∧ k.Stands x q m' := by
  cases hfd : firstFree (k.table p) with
  | none =>
    simp only [doCreateMsgQueue, hfd] at hret
    cases hret
    refine Or.inr ⟨?_, hst⟩
    unfold Call.founds
    split
    · rename_i he
      obtain ⟨rfl, -⟩ := Call.createQueue.inj he
      exact if_neg fun hand => by rw [hfd] at hand; cases hand.2
    · rfl
  | some fd =>
    cases info with
    | none =>
      simp only [doCreateMsgQueue, hfd] at hret
      cases hret
      exact Or.inr ⟨rfl, hst⟩
    | some info =>
      obtain ⟨q₀, held⟩ := info
      obtain ⟨hb, hx⟩ := hserved rfl
      obtain ⟨b, rfl⟩ := Option.isSome_iff_exists.1 hb
      obtain ⟨⟨y, f⟩, rfl⟩ := Option.isSome_iff_exists.1 hx
      obtain ⟨hinfo, -, hpage⟩ := hlegal.pages
      have hfresh : k.files y = none := (hpage _ rfl).files
      rw [doCreateMsgQueue_eq hfd] at hret
      cases hret
      rcases (queueOf_founded hfresh ..).1 hst.object with ⟨rfl, rfl⟩ | hold
      · refine Or.inl ⟨⟨pid p, b, held⟩, if_pos ⟨rfl, by rw [hfd]; rfl⟩, ?_⟩
        exact (hst.unique (stands_founded hfresh ..)).2
      · have hne : q ≠ q₀ := by
          rintro rfl
          exact h.coherent.queueOf_ne (Option.isNone_iff_eq_none.1 (hinfo _ rfl).2.2.1) x hold
        have hxy : y ≠ x := by
          rintro rfl
          exact not_object_of_fresh hfresh q hold
        obtain ⟨n, hn, -⟩ := h.coherent.stands x q hold
        obtain rfl := Option.some.inj (hst.info.symm.trans ((queues_founded b held _ hne).trans hn.info))
        exact Or.inr ⟨if_neg fun hand => hxy hand.1, hn⟩

theorem Consistent.acts_msg (h : Consistent bump k) {a : MsgCall} (hret : k.callMsgQueue p fd a = .ok (ret, k'))
    (hst : k'.Stands x q m') :
    ∃ m, k.Stands x q m ∧ Acts m (if k.table p fd = some x then a.onQueue (pid p) else none) m' := by
  cases hs : k.table p fd with
  | none =>
    simp only [callMsgQueue, hs] at hret
    cases hret
    exact ⟨m', hst, by rw [if_neg (Option.some_ne_none x).symm]; exact .idle⟩
  | some y =>
    obtain ⟨f, hf, hplain | ⟨r, n, -, hsty, hroster, -⟩⟩ := h.slot hs
    · simp only [callMsgQueue, hs, file_eq hf, hplain, bind, Except.bind] at hret
      cases hret
      refine ⟨m', hst, ?_⟩
      rw [if_neg]
      · exact .idle
      · -- a plain file has no queue
        intro hyx
        have hnone : k.queueOf x = none := Option.some.inj hyx ▸ (queueOf_eq hf).trans hplain
        rw [hst.object] at hnone
        cases hnone
    · rw [callMsgQueue_eq hs hsty] at hret
      cases hret
      have hobject : k.queueOf x = some q := hst.object
      by_cases hyx : y = x
      · subst hyx
        obtain rfl := Option.some.inj (hobject.symm.trans hsty.object)
        have hinfo : (k.setQueue q (a.exec (pid p) n).2).queues q = some (a.exec (pid p) n).2 := Function.update_self ..
        obtain rfl := Option.some.inj (hst.info.symm.trans hinfo)
        refine ⟨n, hsty, ?_⟩
        have hmem : pid p ∈ n.members := hroster.pid_mem.2 ⟨fd, hs⟩
        rw [if_pos rfl]
        cases a with
        | send msg => exact .act (.send (pid p) msg) hmem
        | rcv buf => exact .act (.rcv (pid p) buf) hmem
        | count => exact .act (.count (pid p)) hmem
        | block target => exact .act (.block (pid p) target) hmem
        | memberInfo => exact .idle
      · have hr : q ≠ r := by
          rintro rfl
          exact hyx (h.coherent.owner y x q hsty.object hobject)
        have hinfo : k.queues q = some m' := (Function.update_of_ne hr ..).symm.trans hst.info
        refine ⟨m', h.coherent.before h.coherent h.coherent.same ⟨hobject, hinfo, hst.buffer⟩ hinfo, ?_⟩
        rw [if_neg fun he => hyx (Option.some.inj he)]
        exact .idle

/-- A queue that is still there after a process has left those behind the objects `C`. -/
theorem Leaves.acts {C : Ptr → Prop} (hl : Leaves k p C k') (h : Coherent k) (h' : Coherent k')
    (hfrees : FreesTogether k k') (hC : ∀ x, C x → k.Refers p x) (hst : k'.Stands x q m') :
    ∃ m, k.Stands x q m ∧ (C x → Acts m (some (.close (pid p))) m') ∧ (¬ C x → m' = m) := by
  obtain ⟨m, hm⟩ := hl.old q m' hst.info
  have hold := h.before h' hfrees hst hm
  refine ⟨m, hold, fun hx => ?_, fun hx => ?_⟩
  · have hone : m.memberCount ≠ 1 := by
      intro hone
      have hgone := (hl.gone x q m hx hold hone).2.1
      rw [hst.info] at hgone
      cases hgone
    obtain rfl := Option.some.inj (hst.info.symm.trans (hl.away x q m hx hold hone))
    exact .act (.close (pid p)) ((h.roster hold).pid_mem.2 (hC x hx))
  · exact Option.some.inj (hst.info.symm.trans (hl.kept x q m hx hold))

theorem Consistent.acts_closeQueue (h : Consistent bump k) (h' : Coherent k') (hfrees : FreesTogether k k')
    (hret : k.doMsgQueueClose p fd = .ok (ret, k')) (hst : k'.Stands x q m') :
    ∃ m, k.Stands x q m ∧ Acts m (if k.table p fd = some x then some (.close (pid p)) else none) m' := by
  cases hs : k.table p fd with
  | none =>
    simp only [doMsgQueueClose, hs] at hret
    cases hret
    exact ⟨m', hst, by rw [if_neg (Option.some_ne_none x).symm]; exact .idle⟩
  | some y =>
    obtain ⟨f, hf, hplain | ⟨r, n, -, hsty, hroster, -⟩⟩ := h.slot hs
    · simp only [doMsgQueueClose, hs, file_eq hf, hplain, bind, Except.bind] at hret
      cases hret
      refine ⟨m', hst, ?_⟩
      rw [if_neg]
      · exact .idle
      · intro hyx
        have hnone : k.queueOf x = none := Option.some.inj hyx ▸ (queueOf_eq hf).trans hplain
        rw [hst.object] at hnone
        cases hnone
    · rw [doMsgQueueClose_member hs hf hsty hroster.count (hroster.pid_mem.2 ⟨fd, hs⟩)] at hret
      cases hret
      obtain ⟨m, hold, hleft, hkept⟩ := (h.coherent.leaves_one hsty p fd).acts h.coherent h' hfrees
        (fun z hz => hz ▸ ⟨fd, hs⟩) hst
      refine ⟨m, hold, ?_⟩
      split
      · rename_i hyx
        exact hleft (Option.some.inj hyx).symm
      · rename_i hyx
        obtain rfl := hkept fun hxy => hyx (congrArg some hxy.symm)
        exact .idle

theorem Consistent.acts_exit (h : Consistent bump k) (h' : Coherent k') (hfrees : FreesTogether k k')
    (hkeeps : k.ExitKeeps p) (hret : k.doExit p = .ok k') (hst : k'.Stands x q m') :
    ∃ m, k.Stands x q m ∧ Acts m (if k.Refers p x then some (.close (pid p)) else none) m' := by
  obtain ⟨s, objects, hs, he⟩ := h.doExit_eq hkeeps
  obtain rfl := Except.ok.inj (hret.symm.trans he)
  obtain ⟨m, hold, hleft, hkept⟩ := (hs.leaves_vacated h hkeeps objects).acts h.coherent h' hfrees
    (fun z hz => ((met_all k p z).1 hz).2) hst
  refine ⟨m, hold, ?_⟩
  have hsome : (k.queueOf x).isSome = true := by rw [hold.object]; rfl
  split
  · rename_i hx
    exact hleft ((met_all k p x).2 ⟨hsome, hx⟩)
  · rename_i hx
    obtain rfl := hkept fun hmet => hx ((met_all k p x).1 hmet).2
    exact .idle

theorem pid_ne_broadcast (p : Proc) : pid p ≠ broadcastPid := by
  revert p
  decide

theorem Consistent.acts_fork (h : Consistent bump k) (hc : (k.ctx child).isNone = true)
    (honce : ∀ fd, ∀ x ∈ k.table p fd, (k.queueOf x).isSome = true → held (k.table p) x ≤ 1)
    (hret : k.doFork bump p child = .ok (ret, k')) (hst : k'.Stands x q m') :
    ∃ m, k.Stands x q m ∧ Acts m (if k.Refers p x then some (.fork (pid p) (pid child)) else none) m' := by
  rw [h.doFork_eq honce] at hret
  cases hret
  have hobject : k.queueOf x = some q := (congrFun (queueOf_spawned bump p child k) x).symm.trans hst.object
  obtain ⟨m, hold, hroster⟩ := h.coherent.stands x q hobject
  -- the child is a member of the queue now if its parent is
  have hreached : (k.spawned bump p child).Reached child (List.finRange maxOpenFiles) q ↔ k.Refers p x := by
    rw [reached_spawned]
    constructor
    · rintro ⟨y, hy, hyq⟩
      rwa [h.coherent.owner x y q hobject hyq]
    · exact fun hx => ⟨x, hx, hobject⟩
  have hinfo : (k.queues q).map (fun m => if (k.spawned bump p child).Reached child (List.finRange maxOpenFiles) q
      then m.addChild (pid child) else m) = some m' := hst.info
  rw [hold.info, Option.map_some] at hinfo
  refine ⟨m, hold, ?_⟩
  split
  · rename_i hx
    rw [if_pos (hreached.2 hx)] at hinfo
    obtain rfl := Option.some.inj hinfo
    refine .act (.fork (pid p) (pid child)) ⟨hroster.pid_mem.2 hx, fun hmem => ?_, pid_ne_broadcast child⟩
    obtain ⟨i, hi⟩ := hroster.pid_mem.1 hmem
    rw [table_of_unused hc] at hi
    cases hi
  · rename_i hx
    rw [if_neg fun hr => hx (hreached.1 hr)] at hinfo
    obtain rfl := Option.some.inj hinfo
    exact .idle

/-- No queue behind a descriptor holds more messages than there are slots. -/
def Uncrowded (k : Kernel) : Prop :=
  ∀ p fd, ∀ x ∈ k.table p fd, ∀ m ∈ k.queueAt x, m.msgCount ≤ msgSlots

instance (k : Kernel) : Decidable k.Uncrowded := by
  unfold Uncrowded; infer_instance

end Kernel

/-- An orderly call that leaves no queue crowded. -/
structure DeliveryStep (bump : ℕ) (k : Kernel) (c : Call) (k' : Kernel) : Prop where
  orderly : OrderlyStep bump k c k'
  uncrowded : k'.Uncrowded

namespace Kernel

variable {k k' : Kernel} {p : Proc} {fd : Fd} {x q : Ptr} {m m' : MsgQueue} {c : Call} {bump : ℕ}

theorem Consistent.next (h : Consistent bump k) (hs : OrderlyStep bump k c k') :
    Consistent bump k' ∧ FreesTogether k k' := by
  obtain ⟨hcall, hroom, hord, ret, hret⟩ := hs
  obtain ⟨ret', k'', he, hk⟩ := h.step hcall hroom hord
  obtain ⟨-, rfl⟩ := Prod.mk.inj (Except.ok.inj (hret.symm.trans he))
  exact hk

/-- A queue that stands after a call was created by it, or stood before and was acted on as the call says. -/
theorem Consistent.acts (h : Consistent bump k) (hs : OrderlyStep bump k c k') (hst : k'.Stands x q m') :
    (∃ f, c.founds k x = some f ∧ m' = f.queue) ∨
      c.founds k x = none ∧ ∃ m, k.Stands x q m ∧ Acts m (c.atQueue k x) m' := by
  obtain ⟨h', hfrees⟩ := h.next hs
  obtain ⟨⟨hon, hlegal, hserved, hcounts⟩, hroom, hord, ret, hret⟩ := hs
  have hpages := hlegal.pages
  -- most calls write to no queue
  have hstill : k'.queues = k.queues → ∃ m, k.Stands x q m ∧ Acts m none m' := fun hq =>
    ⟨m', h.coherent.before h'.coherent hfrees hst (hq ▸ hst.info), .idle⟩
  cases c with
  | openFile p filename flags mode page =>
    obtain ⟨⟨y, f⟩, rfl⟩ := Option.isSome_iff_exists.1 hserved
    obtain ⟨ret', k'', he, hop⟩ := doRegularFileOpen_opened (p := p) (x := y) (f := f) (fun _ => rfl) hord.1 mode
    obtain ⟨-, rfl⟩ := Prod.mk.inj (Except.ok.inj (hret.symm.trans he))
    exact Or.inr ⟨rfl, hstill hop.queues⟩
  | openStd p type page =>
    obtain ⟨⟨y, f⟩, rfl⟩ := Option.isSome_iff_exists.1 hserved
    obtain ⟨ret', k'', he, hop⟩ := openStandardIo_opened (x := y) (f := f) (fun _ => rfl)
      (fun z hz => h.refs.live z (used_of_slot hz)) hord.1
    obtain ⟨-, rfl⟩ := Prod.mk.inj (Except.ok.inj (hret.symm.trans he))
    exact Or.inr ⟨rfl, hstill hop.queues⟩
  | dup2 p old new => exact Or.inr ⟨rfl, hstill (h.queues_dup2 hord.1 hord.2 hret)⟩
  | close p fd unset => exact Or.inr ⟨rfl, hstill (h.queues_close hret)⟩
  | createQueue p info buffer page =>
    refine (h.acts_create hlegal hserved hret hst).imp_right fun hold => ?_
    exact ⟨hold.1, m', hold.2, .idle⟩
  | msg p fd a => exact Or.inr ⟨rfl, h.acts_msg hret hst⟩
  | closeQueue p fd => exact Or.inr ⟨rfl, h.acts_closeQueue h'.coherent hfrees hret hst⟩
  | fork p child => exact Or.inr ⟨rfl, h.acts_fork hlegal.child hord hret hst⟩
  | exit p =>
    cases he : k.doExit p with
    | error e => simp only [Call.exec, he, Functor.map, Except.map] at hret; cases hret
    | ok k'' =>
      simp only [Call.exec, he, Functor.map, Except.map] at hret
      cases hret
      exact Or.inr ⟨rfl, h.acts_exit h'.coherent hfrees hord he hst⟩
  | read | write | lseek | sendfile => exact hon.elim

/-- So every queue follows a call by a step of its own. -/
theorem Consistent.follows (h : Consistent bump k) (hs : DeliveryStep bump k c k') (hx : k'.queueAt x = some m') :
    queueParts.Follows Queue.Step k c x m' := by
  have h' := (h.next hs.orderly).1.coherent
  obtain ⟨q, hst⟩ := h'.stands_queueAt hx
  rcases h.acts hs.orderly hst with ⟨f, hf, hm⟩ | ⟨hnone, m, hold, hacts⟩
  · exact .made hf hm
  generalize ho : c.atQueue k x = o at hacts
  have hturn : queueParts.turn k c x = o.map fun d => (Queue.next m d).1 := by
    change (k.queueAt x).bind _ = _
    rw [hold.queueAt, Option.bind_some, ho]
  cases hacts with
  | idle => exact .still hnone hturn hold.queueAt
  | act d hlegal =>
    obtain ⟨p, fd, hfd⟩ := h'.inUse x q hst.object
    exact .turn hnone hturn hold.queueAt ⟨hlegal, rfl, rfl, (h'.roster hst).count, hs.uncrowded p fd x hfd _ hx⟩

/-- What a process may count on that has the queue `m` open: it has joined, and what it took since, and what still waits
for it, is what was accepted for it, in order; it is told how much waits, and it is given the oldest of it. -/
structure Serves (k : Kernel) (p : Proc) (fd : Fd) (m : MsgQueue) (es : List (Ev Pid Message)) : Prop where
  joined : Mailbox.joined (pid p) es = true
  fifo : Mailbox.taken (pid p) es ++ m.mailbox.inbox Message.toPid (pid p) =
    Mailbox.accepted Message.toPid (pid p) es
  count : k.callMsgQueue p fd .count = .ok ((m.mailbox.inbox Message.toPid (pid p)).length, k)
  rcv : ∃ k', k.callMsgQueue p fd (.rcv true) =
      .ok (if m.mailbox.inbox Message.toPid (pid p) = [] then 0 else 1, k') ∧
    (m.rcv (pid p) true).2.1 = (m.mailbox.inbox Message.toPid (pid p)).head?

theorem Coherent.serves (h : Coherent k) (hst : k.Stands x q m) (hs : k.table p fd = some x) (hwf : m.WF)
    {es : List (Ev Pid Message)} (hfifo : Mailbox.Fifo Message.toPid es m.mailbox) : k.Serves p fd m es := by
  have hmem : pid p ∈ m.members := (h.roster hst).pid_mem.2 ⟨fd, hs⟩
  refine ⟨(hfifo.present _).2 hmem, hfifo.fifo (pid p) hmem, ?_, ?_⟩
  · rw [callMsgQueue_eq hs hst]
    have hsame : k.setQueue q m = k := by
      unfold Kernel.setQueue
      rw [← hst.info, Function.update_eq_self]
    simp only [MsgCall.exec, MsgQueue.getMsgCount_of_mem hmem, hsame]
    rfl
  · obtain ⟨hret, hmsg⟩ := MsgQueue.rcv_inbox hwf.slots hmem
    rw [callMsgQueue_eq hs hst]
    exact ⟨k.setQueue q (m.rcv (pid p) true).2.2, by simp only [MsgCall.exec, hret], hmsg⟩

end Kernel

/-- A kernel, and what its calls have been to its queues. -/
abbrev Chronicle := Kernel × (Ptr → Option (Past Founding Done))

/-- Carry a call out, and enter it. -/
def Call.chronicled (s : Chronicle) (c : Call) : Call × Chronicle := (c, (c.next 1 s.1).2, queueParts.enter s.1 c s.2)

theorem run_chronicled {s : Chronicle} {cs : List Call}
    (h : Scripted Call.chronicled (fun s c => ((c.OnQueues ∧ c.Legal s.1 ∧ c.Served ∧ c.Room s.1 ∧ c.Orderly s.1) ∧
      c.returns 1 s.1 = true) ∧ (c.next 1 s.1).2.Uncrowded) s cs) :
    Run (queueParts.Entered (DeliveryStep 1)) s (script Call.chronicled s cs).1 (script Call.chronicled s cs).2 := by
  refine Run.script Call.chronicled _ ?_ h
  rintro s c ⟨⟨⟨hon, hlegal, hserved, hroom, hord⟩, hret⟩, huncrowded⟩
  exact ⟨⟨⟨⟨hon, hlegal, hserved, fun _ => rfl⟩, hroom, hord, Call.exec_next hret⟩, huncrowded⟩, rfl⟩

end CS330.Os
