/-
Leaving a queue: `do_msg_queue_close` by one slot, and exit, which goes through all of them. The last
member takes the queue, its buffer and its file object along.
-/
import CS330.Os.Queues

namespace CS330.Os

open CS330.Lib CS330.Queue

namespace Kernel

variable {k k' s : Kernel} {p r : Proc} {fd : Fd} {x z q : Ptr} {f : File} {m : MsgQueue} {bump : ℕ}

/-! ## Leaving -/

/-- All three pages of a queue are freed. -/
def torn (x q b : Ptr) (k : Kernel) : Kernel :=
  { k with
    files := Function.update k.files x none
    queues := Function.update k.queues q none
    buffers := Function.update k.buffers b false
    fileObjects := k.fileObjects - 1 }

/-- A process leaves a queue: the last one takes it along. -/
def left (p : Proc) (x q : Ptr) (m : MsgQueue) (k : Kernel) : Kernel :=
  if m.memberCount = 1 then k.torn x q (m.slot 0) else k.setQueue q (m.close (pid p)).2

theorem table_left (p : Proc) (x q : Ptr) (m : MsgQueue) (k : Kernel) : (k.left p x q m).table = k.table := by
  unfold left
  split
  · rfl
  · rfl

theorem files_left (p : Proc) (x q : Ptr) (m : MsgQueue) (k : Kernel) :
    (k.left p x q m).files = if m.memberCount = 1 then Function.update k.files x none else k.files := by
  unfold left
  split
  · rfl
  · rfl

/-- What `do_msg_queue_close` does for a member. -/
theorem doMsgQueueClose_member (hs : k.table p fd = some x) (hf : k.files x = some f) (hst : k.Stands x q m)
    (hcount : m.memberCount ≤ maxMembers) (hmem : pid p ∈ m.members) :
    k.doMsgQueueClose p fd = .ok (0, (k.left p x q m).setSlot p fd none) := by
  obtain ⟨hret, -, hcount', hbase⟩ := MsgQueue.close_members hcount hmem
  have hpos : 0 < m.memberCount := by
    rw [← MsgQueue.length_members]
    exact List.length_pos_of_mem hmem
  have hm : f.msgQueue = some q := (queueOf_eq hf).symm.trans hst.object
  simp only [doMsgQueueClose, hs, file_eq hf, hm, queue_eq hst.info, bind, Except.bind, hret, if_true]
  unfold left
  by_cases hone : m.memberCount = 1
  · have hzero : (m.close (pid p)).2.memberCount = 0 := by omega
    rw [if_pos hzero, if_pos hone]
    simp only [freeMsgQueueBuffer, hbase, setQueue, hst.buffer, if_true, freeMsgQueueInfo, Function.update_self,
      freeFileObject, hf, Function.update_idem]
    rfl
  · have hne : (m.close (pid p)).2.memberCount ≠ 0 := by omega
    rw [if_neg hne, if_neg hone]

/-- For a process that is no member it does nothing. -/
theorem doMsgQueueClose_other (hs : k.table p fd = some x) (hq : k.queueOf x = some q) (hinfo : k.queues q = some m)
    (hmem : pid p ∉ m.members) : k.doMsgQueueClose p fd = .ok (-einval, k) := by
  obtain ⟨f, hf, hm⟩ := queueOf_some.1 hq
  have hclose : m.close (pid p) = (-einval, m) := MsgQueue.close_of_not_mem hmem
  simp only [doMsgQueueClose, hs, file_eq hf, hm, queue_eq hinfo, bind, Except.bind, hclose]
  rfl

/-- The objects of `C` that go because the process is the only member of their queue. -/
def Torn (k : Kernel) (C : Ptr → Prop) (x : Ptr) : Prop := C x ∧ ∃ q m, k.Stands x q m ∧ m.memberCount = 1

/-- What is left of the queues when a process has left those behind the objects `C`. -/
structure Leaves (k : Kernel) (p : Proc) (C : Ptr → Prop) (s : Kernel) : Prop where
  objects : ∀ x, ¬ k.Torn C x → s.queueOf x = k.queueOf x
  gone : ∀ x q m, C x → k.Stands x q m → m.memberCount = 1 → s.Gone x q (m.slot 0)
  away : ∀ x q m, C x → k.Stands x q m → m.memberCount ≠ 1 → s.queues q = some (m.close (pid p)).2
  kept : ∀ x q m, ¬ C x → k.Stands x q m → s.queues q = some m
  buffers : ∀ x q m, ¬ k.Torn C x → k.Stands x q m → s.buffers (m.slot 0) = true
  old : ∀ q m', s.queues q = some m' → ∃ m, k.queues q = some m

theorem Leaves.start (k : Kernel) (p : Proc) : Leaves k p (fun _ => False) k :=
  ⟨fun _ _ => rfl, fun _ _ _ h => h.elim, fun _ _ _ h => h.elim, fun _ _ _ _ hst => hst.info,
    fun _ _ _ _ hst => hst.buffer, fun _ m' h => ⟨m', h⟩⟩

theorem Stands.unique {n : MsgQueue} {r : Ptr} (h : k.Stands x q m) (h' : k.Stands x r n) : q = r ∧ m = n := by
  obtain rfl := Option.some.inj (h.object.symm.trans h'.object)
  exact ⟨rfl, Option.some.inj (h.info.symm.trans h'.info)⟩

/-- What stands for a queue has the members of the queue for its holders. -/
theorem Coherent.roster (h : Coherent k) (hst : k.Stands x q m) : k.Roster x m := by
  obtain ⟨n, hst', hr⟩ := h.stands x q hst.object
  obtain ⟨-, rfl⟩ := hst.unique hst'
  exact hr

theorem not_torn {C : Ptr → Prop} (hst : k.Stands x q m) (h : ¬ (C x ∧ m.memberCount = 1)) : ¬ k.Torn C x := by
  rintro ⟨hC, r, n, hst', hone⟩
  obtain ⟨-, rfl⟩ := hst.unique hst'
  exact h ⟨hC, hone⟩

theorem Leaves.congr {C D : Ptr → Prop} {s : Kernel} (h : Leaves k p C s) (hCD : ∀ z, D z ↔ C z) : Leaves k p D s := by
  obtain rfl : D = C := funext fun z => propext (hCD z)
  exact h

/-- Counts and tables have no part in it. -/
theorem Leaves.beside {C : Ptr → Prop} {s : Kernel} (h : Leaves k p C s) (hobjects : k'.queueOf = s.queueOf)
    (hfiles : ∀ x, s.files x = none → k'.files x = none) (hqueues : k'.queues = s.queues)
    (hbuffers : k'.buffers = s.buffers) : Leaves k p C k' := by
  constructor
  · rw [hobjects]
    exact h.objects
  · intro x q m hC hst hone
    obtain ⟨hf, hq, hb⟩ := h.gone x q m hC hst hone
    exact ⟨hfiles x hf, by rw [hqueues]; exact hq, by rw [hbuffers]; exact hb⟩
  · rw [hqueues]
    exact h.away
  · rw [hqueues]
    exact h.kept
  · rw [hbuffers]
    exact h.buffers
  · rw [hqueues]
    exact h.old

/-- Other objects stand for other queues, with other buffers. -/
theorem Coherent.other (hk : Coherent k) (hst : k.Stands x q m) {z r : Ptr} {n : MsgQueue} (hz : k.Stands z r n)
    (hne : z ≠ x) : r ≠ q ∧ n.slot 0 ≠ m.slot 0 := by
  have hr : r ≠ q := by
    rintro rfl
    exact hne (hk.owner z x r hz.object hst.object)
  exact ⟨hr, fun he => hr (hk.apart r q n m hz.info hst.info he)⟩

theorem queues_left (s : Kernel) (p : Proc) (x : Ptr) (m : MsgQueue) {q r : Ptr} (hr : r ≠ q) :
    (s.left p x q m).queues r = s.queues r := by
  unfold left
  split
  · exact Function.update_of_ne hr ..
  · exact Function.update_of_ne hr ..

theorem torn_or_of_ne {C : Ptr → Prop} {z : Ptr} (hz : z ≠ x) : k.Torn (fun z => C z ∨ z = x) z ↔ k.Torn C z := by
  simp only [Torn, hz, or_false]

/-- One queue more is left, by its only member: its three pages go. -/
theorem Leaves.step_last {C : Ptr → Prop} {s : Kernel} (h : Leaves k p C s) (hk : Coherent k) (hst : k.Stands x q m)
    (hone : m.memberCount = 1) : Leaves k p (fun z => C z ∨ z = x) (s.left p x q m) := by
  have hleft : s.left p x q m = s.torn x q (m.slot 0) := if_pos hone
  -- its file object, its page and its buffer go together
  have hgone : (s.left p x q m).Gone x q (m.slot 0) := by
    rw [hleft]
    exact ⟨Function.update_self .., Function.update_self .., Function.update_self ..⟩
  have hbuffers : ∀ b, b ≠ m.slot 0 → (s.left p x q m).buffers b = s.buffers b := by
    intro b hb
    rw [hleft]
    exact Function.update_of_ne hb ..
  have hself : k.Torn (fun z => C z ∨ z = x) x := ⟨Or.inr rfl, q, m, hst, hone⟩
  constructor
  · intro z hz
    have hzx : z ≠ x := by
      rintro rfl
      exact hz hself
    rw [← h.objects z fun ht => hz ((torn_or_of_ne hzx).2 ht)]
    unfold queueOf
    rw [hleft]
    exact congrArg (Option.bind · File.msgQueue) (Function.update_of_ne hzx ..)
  · intro z r n hCz hstz hn
    by_cases hzx : z = x
    · subst hzx
      obtain ⟨rfl, rfl⟩ := hst.unique hstz
      exact hgone
    · obtain ⟨hr, hb⟩ := hk.other hst hstz hzx
      obtain ⟨hf, hq, hbuf⟩ := h.gone z r n (hCz.resolve_right hzx) hstz hn
      refine ⟨?_, (queues_left s p x m hr).trans hq, (hbuffers _ hb).trans hbuf⟩
      rw [hleft]
      exact (Function.update_of_ne hzx ..).trans hf
  · intro z r n hCz hstz hn
    have hzx : z ≠ x := by
      rintro rfl
      obtain ⟨-, rfl⟩ := hst.unique hstz
      exact hn hone
    exact (queues_left s p x m (hk.other hst hstz hzx).1).trans (h.away z r n (hCz.resolve_right hzx) hstz hn)
  · intro z r n hCz hstz
    have hzx : z ≠ x := fun he => hCz (Or.inr he)
    exact (queues_left s p x m (hk.other hst hstz hzx).1).trans (h.kept z r n (fun hc => hCz (Or.inl hc)) hstz)
  · intro z r n hz hstz
    have hzx : z ≠ x := by
      rintro rfl
      exact hz hself
    have hnt : ¬ k.Torn C z := fun ht => hz ((torn_or_of_ne hzx).2 ht)
    exact (hbuffers _ (hk.other hst hstz hzx).2).trans (h.buffers z r n hnt hstz)
  · intro r n hn
    have hr : r ≠ q := by
      rintro rfl
      rw [hgone.2.1] at hn
      cases hn
    exact h.old r n ((queues_left s p x m hr).symm.trans hn)

/-- One queue more is left, and others stay in it. -/
theorem Leaves.step_rest {C : Ptr → Prop} {s : Kernel} (h : Leaves k p C s) (hk : Coherent k) (hst : k.Stands x q m)
    (hone : m.memberCount ≠ 1) : Leaves k p (fun z => C z ∨ z = x) (s.left p x q m) := by
  have hleft : s.left p x q m = s.setQueue q (m.close (pid p)).2 := if_neg hone
  -- only the page of the queue is written
  have hself : (s.left p x q m).queues q = some (m.close (pid p)).2 := by
    rw [hleft]
    exact Function.update_self ..
  have hstay : (s.left p x q m).queueOf = s.queueOf ∧ (s.left p x q m).buffers = s.buffers := by
    rw [hleft]
    exact ⟨rfl, rfl⟩
  have htorn : ∀ z, k.Torn C z → k.Torn (fun z => C z ∨ z = x) z := fun z ⟨hc, ht⟩ => ⟨Or.inl hc, ht⟩
  constructor
  · intro z hz
    rw [hstay.1]
    exact h.objects z fun ht => hz (htorn z ht)
  · intro z r n hCz hstz hn
    have hzx : z ≠ x := by
      rintro rfl
      obtain ⟨-, rfl⟩ := hst.unique hstz
      exact hone hn
    obtain ⟨hf, hq, hbuf⟩ := h.gone z r n (hCz.resolve_right hzx) hstz hn
    refine ⟨?_, (queues_left s p x m (hk.other hst hstz hzx).1).trans hq, by rw [hstay.2]; exact hbuf⟩
    rw [hleft]
    exact hf
  · intro z r n hCz hstz hn
    by_cases hzx : z = x
    · subst hzx
      obtain ⟨rfl, rfl⟩ := hst.unique hstz
      exact hself
    · exact (queues_left s p x m (hk.other hst hstz hzx).1).trans (h.away z r n (hCz.resolve_right hzx) hstz hn)
  · intro z r n hCz hstz
    have hzx : z ≠ x := fun he => hCz (Or.inr he)
    exact (queues_left s p x m (hk.other hst hstz hzx).1).trans (h.kept z r n (fun hc => hCz (Or.inl hc)) hstz)
  · intro z r n hz hstz
    rw [hstay.2]
    exact h.buffers z r n (fun ht => hz (htorn z ht)) hstz
  · intro r n hn
    by_cases hr : r = q
    · subst hr
      exact ⟨m, hst.info⟩
    · exact h.old r n ((queues_left s p x m hr).symm.trans hn)

/-- One queue more is left. -/
theorem Leaves.step {C : Ptr → Prop} {s : Kernel} (h : Leaves k p C s) (hk : Coherent k) (hst : k.Stands x q m) :
    Leaves k p (fun z => C z ∨ z = x) (s.left p x q m) := by
  by_cases hone : m.memberCount = 1
  · exact h.step_last hk hst hone
  · exact h.step_rest hk hst hone

/-- A queue that others stay in stands without the leaver. -/
theorem Leaves.stays {C : Ptr → Prop} (h : Leaves k p C k') (hC : ∀ x, C x → k.Refers p x)
    (hrefers : ∀ z q, k.queueOf z = some q → ∀ r, (k'.Refers r z ↔ k.Refers r z ∧ ¬ (r = p ∧ C z)))
    (hst : k.Stands x q m) (hr : k.Roster x m) (hstay : ¬ (C x ∧ m.memberCount = 1)) :
    ∃ m', k'.Stands x q m' ∧ k'.Roster x m' ∧ m'.slot 0 = m.slot 0 := by
  have htorn := not_torn hst hstay
  have hobject := (h.objects x htorn).trans hst.object
  have hbuffer := h.buffers x q m htorn hst
  by_cases hx : C x
  · have hone : m.memberCount ≠ 1 := fun hone => hstay ⟨hx, hone⟩
    obtain ⟨-, hmembers, hcount, hbase⟩ := MsgQueue.close_members hr.count (hr.pid_mem.2 (hC x hx))
    refine ⟨(m.close (pid p)).2, ⟨hobject, h.away x q m hx hst hone, by rw [hbase]; exact hbuffer⟩, ?_, hbase⟩
    refine ⟨by rw [hcount]; exact (Nat.sub_le ..).trans hr.count, by rw [hmembers]; exact hr.nodup.erase _, fun v => ?_⟩
    rw [hmembers, hr.nodup.mem_erase_iff, hr.mem]
    constructor
    · rintro ⟨hv, u, rfl, hu⟩
      exact ⟨u, rfl, (hrefers x q hst.object u).2 ⟨hu, fun hup => hv (congrArg pid hup.1)⟩⟩
    · rintro ⟨u, rfl, hu⟩
      obtain ⟨hu, hne⟩ := (hrefers x q hst.object u).1 hu
      exact ⟨fun he => hne ⟨pid_inj he, hx⟩, u, rfl, hu⟩
  · refine ⟨m, ⟨hobject, h.kept x q m hx hst, hbuffer⟩, ⟨hr.count, hr.nodup, fun v => ?_⟩, rfl⟩
    simp only [hr.mem, hrefers x q hst.object, hx, and_false, not_false_eq_true, and_true]

/-- In a queue of one, that one is everybody. -/
theorem Roster.alone (hr : k.Roster x m) (hone : m.memberCount = 1) (hp : k.Refers p x)
    (hu : k.Refers r x) : r = p := by
  rw [← MsgQueue.length_members] at hone
  obtain ⟨v, hv⟩ := List.length_eq_one_iff.1 hone
  have hpv := hr.pid_mem.2 hp
  have hrv := hr.pid_mem.2 hu
  rw [hv, List.mem_singleton] at hpv hrv
  exact pid_inj (hrv.trans hpv.symm)

/-- A queue has members, so somebody refers to its object. -/
theorem Roster.inhabited (hr : k.Roster x m) (hpos : 0 < m.memberCount) : ∃ p, k.Refers p x := by
  rw [← MsgQueue.length_members] at hpos
  obtain ⟨v, hv⟩ := List.exists_mem_of_length_pos hpos
  obtain ⟨p, -, hp⟩ := (hr.mem v).1 hv
  exact ⟨p, hp⟩

theorem Leaves.coherent {C : Ptr → Prop} (h : Leaves k p C k') (hk : Coherent k) (hC : ∀ x, C x → k.Refers p x)
    (hclose : k'.Unclosable)
    (hrefers : ∀ z q, k.queueOf z = some q → ∀ r, (k'.Refers r z ↔ k.Refers r z ∧ ¬ (r = p ∧ C z))) :
    Coherent k' ∧ FreesTogether k k' := by
  -- what is referred to afterwards has not gone
  have hsomebody : ∀ x q m, k.Stands x q m → k.Roster x m → ((∃ r, k'.Refers r x) ↔ ¬ (C x ∧ m.memberCount = 1)) := by
    intro x q m hst hr
    constructor
    · rintro ⟨r, hrx⟩ ⟨hx, hone⟩
      obtain ⟨hrx, hne⟩ := (hrefers x q hst.object r).1 hrx
      exact hne ⟨hr.alone hone (hC x hx) hrx, hx⟩
    · intro hstay
      by_cases hx : C x
      · have hone : m.memberCount ≠ 1 := fun hone => hstay ⟨hx, hone⟩
        have hmem := hr.pid_mem.2 (hC x hx)
        have hpos : 0 < m.memberCount := by
          rw [← MsgQueue.length_members]
          exact List.length_pos_of_mem hmem
        obtain ⟨-, -, hcount, -⟩ := MsgQueue.close_members hr.count hmem
        obtain ⟨m', hst', hr', -⟩ := h.stays hC hrefers hst hr hstay
        obtain rfl := Option.some.inj (hst'.info.symm.trans (h.away x q m hx hst hone))
        exact hr'.inhabited (by omega)
      · obtain ⟨r, hrx⟩ := hk.inUse x q hst.object
        exact ⟨r, (hrefers x q hst.object r).2 ⟨hrx, fun hrp => hx hrp.2⟩⟩
  have hobjects : ∀ x q, k'.queueOf x = some q →
      k.queueOf x = some q ∧ ∀ m, k.Stands x q m → ¬ (C x ∧ m.memberCount = 1) := by
    intro x q hx
    have hthere : ∀ r m, k.Stands x r m → ¬ (C x ∧ m.memberCount = 1) := by
      rintro r m hst ⟨hCx, hone⟩
      obtain ⟨g, hg, -⟩ := queueOf_some.1 hx
      rw [(h.gone x r m hCx hst hone).1] at hg
      cases hg
    have htorn : ¬ k.Torn C x := fun ⟨hCx, r, m, hst, hone⟩ => hthere r m hst ⟨hCx, hone⟩
    exact ⟨(h.objects x htorn).symm.trans hx, hthere q⟩
  constructor
  · refine hk.of_old (fun x q hx => (hobjects x q hx).1) hclose h.old (fun x q m m' hst hm' => ?_) fun x q hx => ?_
    · have hstay : ¬ (C x ∧ m.memberCount = 1) := by
        rintro ⟨hx, hone⟩
        rw [(h.gone x q m hx hst hone).2.1] at hm'
        cases hm'
      obtain ⟨n, hst', -, hbase⟩ := h.stays hC hrefers hst (hk.roster hst) hstay
      exact ⟨n, hst', hbase⟩
    · obtain ⟨hx, hstay⟩ := hobjects x q hx
      obtain ⟨m, hst, hr⟩ := hk.stands x q hx
      obtain ⟨m', hst', hr', -⟩ := h.stays hC hrefers hst hr (hstay m hst)
      exact ⟨(hsomebody x q m hst hr).2 (hstay m hst), m', hst', hr'⟩
  · intro x q m hst
    have hr := hk.roster hst
    constructor
    · intro hnone
      have hgo : C x ∧ m.memberCount = 1 := by
        by_contra hstay
        obtain ⟨r, hrx⟩ := (hsomebody x q m hst hr).2 hstay
        exact hnone r hrx
      exact h.gone x q m hgo.1 hst hgo.2
    · intro hsome
      obtain ⟨m', hst', -, hbase⟩ := h.stays hC hrefers hst hr ((hsomebody x q m hst hr).1 hsome)
      exact ⟨m', hst', hbase⟩

/-- References go, and files only where nothing refers to them any more. -/
theorem Refs.shrink (h : Refs Plain bump k) (hlive : ∀ z, 0 < k'.used z → k'.files z = k.files z ∧ 0 < k.used z)
    (hplain : ∀ z f, k.files z = some f → f.msgQueue = none → k'.used z = k.used z) : Refs Plain bump k' := by
  constructor
  · intro z hz
    obtain ⟨hf, hz⟩ := hlive z hz
    rw [hf]
    exact h.live z hz
  · intro z f hf hm hz
    obtain ⟨hfz, hz⟩ := hlive z hz
    rw [hfz] at hf
    rw [hplain z f hf hm]
    exact h.exact z f hf hm hz

theorem refers_emptied (hs : k.table p fd = some x) (honce : held (k.table p) x ≤ 1)
    (ht : k'.table = Function.update k.table p (Function.update (k.table p) fd none)) (r : Proc) (z : Ptr) :
    k'.Refers r z ↔ k.Refers r z ∧ ¬ (r = p ∧ z = x) := by
  rw [refers_setTable ht]
  split
  · subst r
    constructor
    · rintro ⟨i, hi⟩
      rw [Function.update_apply] at hi
      split at hi
      · cases hi
      · rename_i hne
        refine ⟨⟨i, hi⟩, ?_⟩
        rintro ⟨-, rfl⟩
        exact hne (held_le_one honce hi hs)
    · rintro ⟨⟨i, hi⟩, hne⟩
      have hfd : i ≠ fd := by
        rintro rfl
        exact hne ⟨rfl, Option.some.inj (hi.symm.trans hs)⟩
      exact ⟨i, (Function.update_of_ne hfd ..).trans hi⟩
  · rename_i hr
    simp only [hr, false_and, not_false_eq_true, and_true]

theorem Unclosable.left (h : k.Unclosable) (p : Proc) (x q : Ptr) (m : MsgQueue) : (k.left p x q m).Unclosable := by
  intro z g hg hm
  rw [files_left] at hg
  split at hg
  · rw [Function.update_apply] at hg
    split at hg
    · cases hg
    · exact h z g hg hm
  · exact h z g hg hm

/-- A process leaves one queue by one slot. -/
theorem Coherent.leaves_one (h : Coherent k) (hst : k.Stands x q m) (p : Proc) (fd : Fd) :
    Leaves k p (· = x) ((k.left p x q m).setSlot p fd none) :=
  (((Leaves.start k p).step h hst).congr fun z => by rw [false_or]).beside rfl (fun _ hz => hz) rfl rfl

theorem Consistent.closeQueue (h : Consistent bump k)
    (honce : ∀ x ∈ k.table p fd, (k.queueOf x).isSome = true → held (k.table p) x ≤ 1) :
    ∃ ret k', k.doMsgQueueClose p fd = .ok (ret, k') ∧
      (k'.table = k.table ∨ k'.table = Function.update k.table p (Function.update (k.table p) fd none)) ∧
      Consistent bump k' ∧ FreesTogether k k' := by
  cases hs : k.table p fd with
  | none => exact ⟨-einval, k, by simp only [doMsgQueueClose, hs], Or.inl rfl, h, h.coherent.same⟩
  | some x =>
    obtain ⟨f, hf, hplain | ⟨q, m, hm, hst, hr, -⟩⟩ := h.slot hs
    · refine ⟨-einval, k, ?_, Or.inl rfl, h, h.coherent.same⟩
      simp only [doMsgQueueClose, hs, file_eq hf, hplain, bind, Except.bind]
    · have hp : k.Refers p x := ⟨fd, hs⟩
      -- the process has one slot for the queue, so it is out without it
      have hlone := honce x hs (by rw [hst.object]; rfl)
      have htable : ((k.left p x q m).setSlot p fd none).table =
          Function.update k.table p (Function.update (k.table p) fd none) := by
        rw [table_setSlot, table_left]
      have hrefers := refers_emptied hs hlone htable
      obtain ⟨hcoh, hfrees⟩ := (h.coherent.leaves_one hst p fd).coherent h.coherent (fun z hz => hz ▸ hp)
        (h.coherent.unclosable.left p x q m) fun z r _ u => hrefers u z
      refine ⟨0, _, doMsgQueueClose_member hs hf hst hr.count (hr.pid_mem.2 hp), Or.inr htable, ⟨?_, hcoh⟩, hfrees⟩
      have hused := used_slot htable
      refine h.refs.shrink (fun z hz => ?_) fun z g hg hgm => ?_
      · obtain ⟨u, hu⟩ := used_pos.1 hz
        obtain ⟨⟨i, hi⟩, hne⟩ := (hrefers u z).1 hu
        refine ⟨?_, used_of_slot hi⟩
        rw [files_setSlot, files_left]
        split
        · rename_i hone
          refine Function.update_of_ne (fun hzx => hne ⟨?_, hzx⟩) ..
          exact hr.alone hone hp (hzx ▸ ⟨i, hi⟩)
        · rfl
      · have hzx : ¬ k.table p fd = some z := by
          intro hsz
          obtain rfl := Option.some.inj (hs.symm.trans hsz)
          obtain rfl := Option.some.inj (hf.symm.trans hg)
          rw [hm] at hgm
          cases hgm
        have huz := hused z
        rw [if_neg hzx] at huz
        simpa using huz

/-! ## Exiting -/

/-- An exiting process holds each queue once, or leaves it to others with enough references counted for
the slots that remain. -/
def ExitKeeps (k : Kernel) (p : Proc) : Prop :=
  ∀ fd, ∀ x ∈ k.table p fd, ∀ f ∈ k.files x, ∀ q ∈ f.msgQueue, ∀ m ∈ k.queues q,
    held (k.table p) x ≤ 1 ∨ 2 ≤ m.memberCount ∧ ∀ n < held (k.table p) x, (f.drop n).isSome = true

instance (k : Kernel) (p : Proc) : Decidable (k.ExitKeeps p) := by
  unfold ExitKeeps; infer_instance

/-- The object of a queue that was met in a slot of the process. -/
def Met (k : Kernel) (p : Proc) (pre : List Fd) (z : Ptr) : Prop :=
  (k.queueOf z).isSome = true ∧ ∃ fd ∈ pre, k.table p fd = some z

instance (k : Kernel) (p : Proc) (pre : List Fd) (z : Ptr) : Decidable (k.Met p pre z) := by
  unfold Met; infer_instance

theorem met_snoc (k : Kernel) (p : Proc) (pre : List Fd) (fd : Fd) (z : Ptr) :
    k.Met p (pre ++ [fd]) z ↔ k.Met p pre z ∨ (k.queueOf z).isSome = true ∧ k.table p fd = some z := by
  simp only [Met, List.mem_append, List.mem_singleton, or_and_right, exists_or, exists_eq_left, and_or_left]

/-- The loop of `do_msg_queue_cleanup` after the slots `pre`: the queues met are left, each by one slot. -/
structure Cleaning (k : Kernel) (p : Proc) (pre : List Fd) (s : Kernel) : Prop where
  leaves : Leaves k p (k.Met p pre) s
  files : ∀ z, ¬ k.Torn (k.Met p pre) z → s.files z = k.files z
  table : ∃ t, s.table = Function.update k.table p t ∧ (∀ fd ∉ pre, t fd = k.table p fd) ∧
    ∀ z, held t z + (if k.Met p pre z then 1 else 0) = held (k.table p) z

theorem Cleaning.start (k : Kernel) (p : Proc) : Cleaning k p [] k := by
  have hnone : ∀ z, ¬ k.Met p [] z := by
    rintro z ⟨-, fd, hfd, -⟩
    cases hfd
  refine ⟨(Leaves.start k p).congr fun z => iff_of_false (hnone z) id, fun _ _ => rfl, k.table p, ?_, fun _ _ => rfl,
    fun z => ?_⟩
  · rw [Function.update_eq_self]
  · rw [if_neg (hnone z), add_zero]

/-- A slot that makes nothing new met. -/
theorem Cleaning.skip {pre : List Fd} {s : Kernel} (h : Cleaning k p pre s)
    (hmet : ∀ z, k.Met p (pre ++ [fd]) z ↔ k.Met p pre z) : Cleaning k p (pre ++ [fd]) s := by
  obtain ⟨t, ht, hrest, hheld⟩ := h.table
  refine ⟨h.leaves.congr hmet, fun z hz => h.files z ?_, t, ht, fun i hi => hrest i ?_, fun z => ?_⟩
  · rintro ⟨hC, hone⟩
    exact hz ⟨(hmet z).2 hC, hone⟩
  · exact fun hpre => hi (List.mem_append_left _ hpre)
  · simp only [hmet]
    exact hheld z

theorem Cleaning.slot {pre : List Fd} {s : Kernel} (hs : Cleaning k p pre s) (hpre : fd ∉ pre) :
    s.table p fd = k.table p fd := by
  obtain ⟨t, ht, hrest, -⟩ := hs.table
  rw [ht, Function.update_self, hrest fd hpre]

theorem Cleaning.file {pre : List Fd} {s : Kernel} (hs : Cleaning k p pre s) (hf : k.files x = some f)
    (htorn : ¬ k.Torn (k.Met p pre) x) : s.files x = some f :=
  (hs.files x htorn).trans hf

/-- A slot for a file. -/
theorem Cleaning.plain {pre : List Fd} {s : Kernel} (hs : Cleaning k p pre s) (hpre : fd ∉ pre)
    (hfd : k.table p fd = some x) (hf : k.files x = some f) (hplain : f.msgQueue = none) :
    cleanupAt p s fd = .ok s ∧ Cleaning k p (pre ++ [fd]) s := by
  have hqueue : k.queueOf x = none := (queueOf_eq hf).trans hplain
  have hfile : s.files x = some f := by
    refine hs.file hf ?_
    rintro ⟨⟨hsome, -⟩, -⟩
    rw [hqueue] at hsome
    cases hsome
  constructor
  · unfold cleanupAt
    rw [hs.slot hpre, hfd]
    simp only [file_eq hfile, hplain, bind, Except.bind, Option.isSome_none, Bool.false_eq_true, if_false]
  · refine hs.skip fun z => ?_
    rw [met_snoc, or_iff_left]
    rintro ⟨hsome, hz⟩
    rw [← Option.some.inj (hfd.symm.trans hz), hqueue] at hsome
    cases hsome

/-- A second slot for a queue the process has left: others stay in it, and the close finds no member. -/
theorem Cleaning.again {pre : List Fd} {s : Kernel} (hs : Cleaning k p pre s) (hpre : fd ∉ pre) (hkeeps : k.ExitKeeps p)
    (hfd : k.table p fd = some x) (hf : k.files x = some f) (hm : f.msgQueue = some q) (hst : k.Stands x q m)
    (hr : k.Roster x m) (hmet : k.Met p pre x) : cleanupAt p s fd = .ok s ∧ Cleaning k p (pre ++ [fd]) s := by
  obtain ⟨i, hi, hix⟩ := hmet.2
  have htwo : 2 ≤ held (k.table p) x := two_le_held hix hfd fun he => hpre (he ▸ hi)
  obtain ⟨hcount, -⟩ := (hkeeps fd x hfd f hf q hm m hst.info).resolve_left (by omega)
  have hfile : s.files x = some f := hs.file hf (not_torn hst fun ht => by omega)
  have hinfo := hs.leaves.away x q m hmet hst (by omega)
  obtain ⟨-, hmembers, -, -⟩ := MsgQueue.close_members hr.count (hr.pid_mem.2 ⟨fd, hfd⟩)
  have hother : pid p ∉ (m.close (pid p)).2.members := by
    rw [hmembers, hr.nodup.mem_erase_iff]
    exact fun hne => hne.1 rfl
  have hclose := doMsgQueueClose_other ((hs.slot hpre).trans hfd) ((queueOf_eq hfile).trans hm) hinfo hother
  constructor
  · unfold cleanupAt
    rw [hs.slot hpre, hfd]
    simp only [file_eq hfile, hm, bind, Except.bind, Option.isSome_some, if_true, hclose, Functor.map, Except.map]
  · refine hs.skip fun z => ?_
    rw [met_snoc, or_iff_left_of_imp]
    rintro ⟨-, hz⟩
    rw [← Option.some.inj (hfd.symm.trans hz)]
    exact hmet

/-- The first slot for a queue: the process leaves it. -/
theorem Cleaning.first {pre : List Fd} {s : Kernel} (hs : Cleaning k p pre s) (h : Coherent k) (hpre : fd ∉ pre)
    (hfd : k.table p fd = some x) (hf : k.files x = some f) (hm : f.msgQueue = some q) (hst : k.Stands x q m)
    (hr : k.Roster x m) (hmet : ¬ k.Met p pre x) :
    cleanupAt p s fd = .ok ((s.left p x q m).setSlot p fd none) ∧
      Cleaning k p (pre ++ [fd]) ((s.left p x q m).setSlot p fd none) := by
  obtain ⟨t, ht, hrest, hheld⟩ := hs.table
  have htp : s.table p = t := by rw [ht, Function.update_self]
  have hslot : s.table p fd = k.table p fd := hs.slot hpre
  have htorn : ¬ k.Torn (k.Met p pre) x := fun ht => hmet ht.1
  have hfile : s.files x = some f := hs.file hf htorn
  have hst' : s.Stands x q m :=
    ⟨(queueOf_eq hfile).trans hm, hs.leaves.kept x q m hmet hst, hs.leaves.buffers x q m htorn hst⟩
  have hclose := doMsgQueueClose_member (hslot.trans hfd) hfile hst' hr.count (hr.pid_mem.2 ⟨fd, hfd⟩)
  have hmet' : ∀ z, k.Met p (pre ++ [fd]) z ↔ k.Met p pre z ∨ z = x := by
    intro z
    rw [met_snoc, hfd]
    constructor
    · rintro (hz | ⟨-, hz⟩)
      · exact Or.inl hz
      · exact Or.inr (Option.some.inj hz).symm
    · rintro (hz | rfl)
      · exact Or.inl hz
      · exact Or.inr ⟨by rw [hst.object]; rfl, rfl⟩
  refine ⟨?_, ?_, fun z hz => ?_, Function.update t fd none, ?_, fun i hi => ?_, fun z => ?_⟩
  · unfold cleanupAt
    rw [hslot, hfd]
    simp only [file_eq hfile, hm, bind, Except.bind, Option.isSome_some, if_true, hclose, Functor.map, Except.map]
  · exact ((hs.leaves.step h hst).congr hmet').beside rfl (fun _ hz => hz) rfl rfl
  · have hz' : ¬ k.Torn (k.Met p pre) z := fun ⟨hC, hone⟩ => hz ⟨(hmet' z).2 (Or.inl hC), hone⟩
    rw [files_setSlot, files_left, ← hs.files z hz']
    split
    · rename_i hone
      refine Function.update_of_ne ?_ ..
      rintro rfl
      exact hz ⟨(hmet' z).2 (Or.inr rfl), q, m, hst, hone⟩
    · rfl
  · rw [table_setSlot, table_left, htp, ht, Function.update_idem]
  · rw [List.mem_append, List.mem_singleton, not_or] at hi
    rw [Function.update_of_ne hi.2, hrest i hi.1]
  · -- one slot fewer, and one queue more that is met
    have htfd : t fd = some x := by rw [← htp, hslot, hfd]
    have hupd := held_update t fd none z
    have hbefore := hheld z
    rw [htfd] at hupd
    simp only [Option.some.injEq, reduceCtorEq, if_false, add_zero] at hupd
    simp only [hmet' z]
    by_cases hzx : z = x
    · subst hzx
      rw [if_neg hmet] at hbefore
      rw [if_pos rfl] at hupd
      rw [if_pos (Or.inr rfl)]
      omega
    · rw [if_neg (Ne.symm hzx)] at hupd
      simp only [hzx, or_false]
      omega

theorem Cleaning.step {pre post : List Fd} {s : Kernel} (h : Consistent bump k) (hkeeps : k.ExitKeeps p)
    (hl : List.finRange maxOpenFiles = pre ++ fd :: post) (hs : Cleaning k p pre s) :
    ∃ s', cleanupAt p s fd = .ok s' ∧ Cleaning k p (pre ++ [fd]) s' := by
  have hpre : fd ∉ pre := by
    have hnodup := List.nodup_finRange maxOpenFiles
    rw [hl, List.nodup_append] at hnodup
    exact fun hmem => hnodup.2.2 fd hmem fd (List.mem_cons_self ..) rfl
  cases hfd : k.table p fd with
  | none =>
    refine ⟨s, ?_, hs.skip fun z => by rw [met_snoc, hfd]; simp⟩
    unfold cleanupAt
    rw [hs.slot hpre, hfd]
  | some x =>
    obtain ⟨f, hf, hplain | ⟨q, m, hm, hst, hr, -⟩⟩ := h.slot hfd
    · exact ⟨s, hs.plain hpre hfd hf hplain⟩
    · by_cases hmet : k.Met p pre x
      · exact ⟨s, hs.again hpre hkeeps hfd hf hm hst hr hmet⟩
      · exact ⟨_, hs.first h.coherent hpre hfd hf hm hst hr hmet⟩

theorem queueOf_lost {n : Ptr → ℕ} (objects : ℤ)
    (hq : ∀ x f, k.files x = some f → f.msgQueue ≠ none → f.drop (n x) ≠ none) :
    (k.lost n objects).queueOf = k.queueOf := by
  funext z
  have hfiles : (k.lost n objects).files z = (k.files z).bind (File.drop (n z)) := rfl
  unfold queueOf
  rw [hfiles]
  cases hf : k.files z with
  | none => rfl
  | some f =>
    change (f.drop (n z)).bind File.msgQueue = f.msgQueue
    cases hd : f.drop (n z) with
    | some g =>
      obtain rfl := File.drop_some hd
      rfl
    | none =>
      by_contra hm
      exact hq z f hf (fun hnone => hm hnone.symm) hd

/-! ### After the loop -/

theorem met_all (k : Kernel) (p : Proc) (z : Ptr) :
    k.Met p (List.finRange maxOpenFiles) z ↔ (k.queueOf z).isSome = true ∧ k.Refers p z := by
  simp only [Met, Refers, List.mem_finRange, true_and]

/-- What is still there was there before. -/
theorem Cleaning.there {pre : List Fd} {s : Kernel} (hs : Cleaning k p pre s) (hf : s.files x = some f) :
    k.files x = some f := by
  have htorn : ¬ k.Torn (k.Met p pre) x := by
    rintro ⟨hC, q, m, hst, hone⟩
    rw [(hs.leaves.gone x q m hC hst hone).1] at hf
    cases hf
  exact (hs.files x htorn).symm.trans hf

theorem Cleaning.held_eq {pre : List Fd} {s : Kernel} (hs : Cleaning k p pre s) (z : Ptr) :
    held (s.table p) z + (if k.Met p pre z then 1 else 0) = held (k.table p) z := by
  obtain ⟨t, ht, -, hheld⟩ := hs.table
  rw [ht, Function.update_self]
  exact hheld z

/-- What a remaining slot refers to is there, with enough references counted if it is a queue's. -/
theorem Cleaning.remains (hs : Cleaning k p (List.finRange maxOpenFiles) s) (h : Consistent bump k)
    (hkeeps : k.ExitKeeps p) (hx : 0 < held (s.table p) x) :
    ∃ f, s.files x = some f ∧ ∀ n ≤ held (s.table p) x, f.msgQueue ≠ none → (f.drop n).isSome = true := by
  have hheld := hs.held_eq x
  obtain ⟨fd, hfd⟩ := held_pos.1 (show 0 < held (k.table p) x by omega)
  obtain ⟨f, hf, hplain | ⟨q, m, hm, hst, -, -⟩⟩ := h.slot hfd
  · refine ⟨f, (hs.files x ?_).trans hf, fun n _ hm => absurd hplain hm⟩
    rintro ⟨⟨hsome, -⟩, -⟩
    rw [queueOf_eq hf, hplain] at hsome
    cases hsome
  · rw [if_pos ((met_all k p x).2 ⟨by rw [hst.object]; rfl, fd, hfd⟩)] at hheld
    obtain ⟨hcount, hdrop⟩ := (hkeeps fd x hfd f hf q hm m hst.info).resolve_left (by omega)
    exact ⟨f, (hs.files x (not_torn hst fun ht => by omega)).trans hf, fun n hn _ => hdrop n (by omega)⟩

/-- None of the queues' objects loses its last counted reference to the remaining slots. -/
theorem Cleaning.drop (hs : Cleaning k p (List.finRange maxOpenFiles) s) (h : Consistent bump k)
    (hkeeps : k.ExitKeeps p) : ∀ x f, s.files x = some f → f.msgQueue ≠ none → f.drop (held (s.table p) x) ≠ none := by
  intro x f hf hm
  rcases Nat.eq_zero_or_pos (held (s.table p) x) with hzero | hpos
  · rw [hzero, File.drop_zero]
    exact Option.some_ne_none f
  · obtain ⟨g, hg, hdrop⟩ := hs.remains h hkeeps hpos
    obtain rfl := Option.some.inj (hf.symm.trans hg)
    exact Option.ne_none_iff_isSome.2 (hdrop _ le_rfl hm)

/-- An object that was torn has lost all its slots. -/
theorem Cleaning.unused (hs : Cleaning k p (List.finRange maxOpenFiles) s) (h : Consistent bump k)
    (hkeeps : k.ExitKeeps p) (hz : k.Torn (k.Met p (List.finRange maxOpenFiles)) z) : s.used z = 0 := by
  obtain ⟨hC, q, m, hst, hone⟩ := hz
  obtain ⟨-, fd, hfd⟩ := (met_all k p z).1 hC
  obtain ⟨f, hf, hfq⟩ := queueOf_some.1 hst.object
  have hr := h.coherent.roster hst
  have hlone : held (k.table p) z ≤ 1 := by
    rcases hkeeps fd z hfd f hf q hfq m hst.info with hlone | ⟨htwo, -⟩
    · exact hlone
    · omega
  have hheld := hs.held_eq z
  rw [if_pos hC] at hheld
  by_contra hused
  obtain ⟨r, i, hi⟩ := used_pos.1 (show 0 < s.used z by omega)
  by_cases hrp : r = p
  · subst hrp
    have := held_pos_of hi
    omega
  · obtain ⟨t, ht, -⟩ := hs.table
    rw [ht, Function.update_of_ne hrp] at hi
    exact hrp (hr.alone hone ⟨fd, hfd⟩ ⟨i, hi⟩)

theorem Cleaning.refs (hs : Cleaning k p (List.finRange maxOpenFiles) s) (h : Consistent bump k)
    (hkeeps : k.ExitKeeps p) : Refs Plain bump s := by
  obtain ⟨t, ht, -⟩ := hs.table
  have hused : ∀ z, s.used z + held (k.table p) z = k.used z + held (s.table p) z := by
    intro z
    have := used_update ht z
    rwa [show s.table p = t by rw [ht, Function.update_self]]
  refine h.refs.shrink (fun z hz => ⟨hs.files z fun htorn => ?_, ?_⟩) fun z f hf hm => ?_
  · rw [hs.unused h hkeeps htorn] at hz
    cases hz
  · have := hused z
    have := hs.held_eq z
    omega
  · have hz := hused z
    have hheld := hs.held_eq z
    rw [if_neg] at hheld
    · omega
    · rintro ⟨hsome, -⟩
      rw [queueOf_eq hf, hm] at hsome
      cases hsome

theorem Cleaning.live (hs : Cleaning k p (List.finRange maxOpenFiles) s) (h : Consistent bump k)
    (hkeeps : k.ExitKeeps p) : ∀ fd x, s.table p fd = some x → ∃ f, s.files x = some f ∧
      ∀ n < held (s.table p) x, (f.drop n).isSome = true := by
  intro fd x hx
  obtain ⟨f, hf, hdrop⟩ := hs.remains h hkeeps (held_pos_of hx)
  refine ⟨f, hf, fun n hn => ?_⟩
  by_cases hm : f.msgQueue = none
  · have hcount := ((hs.refs h hkeeps).exact x f hf hm (used_of_slot hx)).2
    have := held_le_used s p x
    have := s.used_le x
    rw [drop_of_lt (by omega) (by omega)]
    rfl
  · exact hdrop n hn.le hm

/-- An exit is the loop over the slots, with what is left of them given up behind it. -/
theorem Consistent.doExit_eq (h : Consistent bump k) (hkeeps : k.ExitKeeps p) :
    ∃ s objects, Cleaning k p (List.finRange maxOpenFiles) s ∧
      k.doExit p = .ok ((s.lost (held (s.table p)) objects).vacated p) := by
  obtain ⟨s, hclean, hs⟩ := foldlM_ok (l := List.finRange maxOpenFiles) (f := cleanupAt p) (s := k)
    (fun pre s => Cleaning k p pre s) (Cleaning.start k p) fun pre fd post s hl hs => hs.step h hkeeps hl
  obtain ⟨objects, hexit⟩ := doFileExit_eq (hs.live h hkeeps)
  refine ⟨s, objects, hs, ?_⟩
  have hcleanup : k.doMsgQueueCleanup p = .ok s := hclean
  simp only [doExit, hcleanup, hexit, bind, Except.bind, vacated]

/-- All queues are left by then, and the references that are dropped are to other files. -/
theorem Cleaning.leaves_vacated (hs : Cleaning k p (List.finRange maxOpenFiles) s) (h : Consistent bump k)
    (hkeeps : k.ExitKeeps p) (objects : ℤ) :
    Leaves k p (k.Met p (List.finRange maxOpenFiles)) ((s.lost (held (s.table p)) objects).vacated p) := by
  refine hs.leaves.beside (queueOf_lost objects (hs.drop h hkeeps)) (fun z hz => ?_) rfl rfl
  change (s.files z).bind (File.drop (held (s.table p) z)) = none
  rw [hz]
  rfl

theorem Consistent.exit (h : Consistent bump k) (hkeeps : k.ExitKeeps p) :
    ∃ k', k.doExit p = .ok k' ∧ k'.table = Function.update k.table p (fun _ => none) ∧ Consistent bump k' ∧
      FreesTogether k k' := by
  obtain ⟨s, objects, hs, hexit⟩ := h.doExit_eq hkeeps
  obtain ⟨t, ht, -⟩ := hs.table
  have hfiles : ∀ z, ((s.lost (held (s.table p)) objects).vacated p).files z =
      (s.files z).bind (File.drop (held (s.table p) z)) := fun z => rfl
  have htable : ((s.lost (held (s.table p)) objects).vacated p).table = Function.update k.table p fun _ => none := by
    rw [table_vacated, table_lost, ht, Function.update_idem]
  have hclose : ((s.lost (held (s.table p)) objects).vacated p).Unclosable := by
    intro z g hg hm
    rw [hfiles] at hg
    obtain ⟨f, hf, hd⟩ := Option.bind_eq_some_iff.1 hg
    obtain rfl := File.drop_some hd
    exact h.coherent.unclosable z f (hs.there hf) hm
  have hrefers : ∀ z q, k.queueOf z = some q → ∀ r, ((s.lost (held (s.table p)) objects).vacated p).Refers r z ↔
      k.Refers r z ∧ ¬ (r = p ∧ k.Met p (List.finRange maxOpenFiles) z) := by
    intro z q hz r
    rw [refers_setTable htable, met_all k p z, hz]
    by_cases hr : r = p
    · subst hr
      simp
    · simp [hr]
  obtain ⟨hcoh, hfrees⟩ := (hs.leaves_vacated h hkeeps objects).coherent h.coherent
    (fun z hz => ((met_all k p z).1 hz).2) hclose hrefers
  exact ⟨_, hexit, htable, ⟨(hs.refs h hkeeps).exit objects (hs.drop h hkeeps), hcoh⟩, hfrees⟩

end Kernel

end CS330.Os
