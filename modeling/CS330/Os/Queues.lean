/-
Queues behind descriptors: which processes are members of a queue, which tables refer to it, and which
pages it stands on, with the calls that create it, duplicate its descriptors and pass messages. Files
and standard streams may be open beside it.
-/
import CS330.Os.Lifecycle
import CS330.Queue.Spec

namespace CS330.Os

open CS330.Lib CS330.Fs CS330.Queue

namespace Kernel

/-- A process has a slot that refers to `x`. -/
def Refers (k : Kernel) (p : Proc) (x : Ptr) : Prop := ∃ fd, k.table p fd = some x

/-- The members of a queue are the processes that hold its file object, each once. -/
structure Roster (k : Kernel) (x : Ptr) (m : MsgQueue) : Prop where
  count : m.memberCount ≤ maxMembers
  nodup : m.members.Nodup
  mem : ∀ v, v ∈ m.members ↔ ∃ p, v = pid p ∧ k.Refers p x

/-- The file object, the queue and the buffer of a queue are there. -/
structure Stands (k : Kernel) (x q : Ptr) (m : MsgQueue) : Prop where
  object : k.queueOf x = some q
  info : k.queues q = some m
  buffer : k.buffers (m.slot 0) = true

/-- All three are freed. -/
def Gone (k : Kernel) (x q b : Ptr) : Prop := k.files x = none ∧ k.queues q = none ∧ k.buffers b = false

/-- `do_close` finds no operation on a queue's object. -/
def Unclosable (k : Kernel) : Prop := ∀ x f, k.files x = some f → f.msgQueue ≠ none → f.fops.close = none

/-- Every queue's object is held, and stands for a queue and a buffer of its own; the members of the
queue are its holders. -/
structure Coherent (k : Kernel) : Prop where
  inUse : ∀ x q, k.queueOf x = some q → ∃ p, k.Refers p x
  stands : ∀ x q, k.queueOf x = some q → ∃ m, k.Stands x q m ∧ k.Roster x m
  unclosable : k.Unclosable
  owner : ∀ x y q, k.queueOf x = some q → k.queueOf y = some q → x = y
  owned : ∀ q m, k.queues q = some m → ∃ x, k.Stands x q m
  apart : ∀ q r m n, k.queues q = some m → k.queues r = some n → m.slot 0 = n.slot 0 → q = r

/-- Slots refer to live objects, the other files count theirs, and queues are coherent. -/
structure Consistent (bump : ℕ) (k : Kernel) : Prop where
  refs : Refs Plain bump k
  coherent : Coherent k

/-- The three pages of a queue are freed when its last slot goes, and not before. -/
def FreesTogether (k k' : Kernel) : Prop :=
  ∀ x q m, k.Stands x q m → ((∀ p, ¬ k'.Refers p x) → k'.Gone x q (m.slot 0)) ∧
    ((∃ p, k'.Refers p x) → ∃ m', k'.Stands x q m' ∧ m'.slot 0 = m.slot 0)

variable {k k' : Kernel} {p r : Proc} {fd old new : Fd} {x y z q : Ptr} {f g : File} {m : MsgQueue} {bump : ℕ}

theorem queueOf_some : k.queueOf x = some q ↔ ∃ f, k.files x = some f ∧ f.msgQueue = some q := Option.bind_eq_some_iff

theorem Idle.consistent (h : k.Idle) : Consistent bump k := by
  have hqueue : ∀ x q, k.queueOf x ≠ some q := by
    intro x q hx
    obtain ⟨f, hf, -⟩ := queueOf_some.1 hx
    rw [h.files] at hf
    cases hf
  constructor
  · constructor
    · intro x hx
      obtain ⟨p, fd, hs⟩ := used_pos.1 hx
      rw [h.table] at hs
      cases hs
    · intro x f hf
      rw [h.files] at hf
      cases hf
  · constructor
    · exact fun x q hx => absurd hx (hqueue x q)
    · exact fun x q hx => absurd hx (hqueue x q)
    · intro x f hf
      rw [h.files] at hf
      cases hf
    · exact fun x y q hx => absurd hx (hqueue x q)
    · intro q m hm
      rw [h.queues] at hm
      cases hm
    · intro q r m n hm
      rw [h.queues] at hm
      cases hm

/-- What a slot refers to: a file that is no queue's, or the object of a standing queue. -/
theorem Consistent.slot (h : Consistent bump k) (hs : k.table p fd = some x) :
    ∃ f, k.files x = some f ∧ (f.msgQueue = none ∨
      ∃ q m, f.msgQueue = some q ∧ k.Stands x q m ∧ k.Roster x m ∧ f.fops.close = none) := by
  obtain ⟨f, hf⟩ := h.refs.live x (used_of_slot hs)
  refine ⟨f, hf, ?_⟩
  cases hm : f.msgQueue with
  | none => exact Or.inl rfl
  | some q =>
    obtain ⟨m, hst, hr⟩ := h.coherent.stands x q ((queueOf_eq hf).trans hm)
    exact Or.inr ⟨q, m, rfl, hst, hr, h.coherent.unclosable x f hf (by rw [hm]; exact Option.some_ne_none q)⟩

/-- Membership is what slots say. -/
theorem Roster.pid_mem (h : k.Roster x m) : pid p ∈ m.members ↔ k.Refers p x := by
  rw [h.mem]
  constructor
  · rintro ⟨r, hr, href⟩
    rwa [pid_inj hr]
  · intro href
    exact ⟨p, rfl, href⟩

/-- The state after a call that makes no new queue: what is left to show of it. -/
theorem Coherent.of_old (h : Coherent k) (hobjects : ∀ x q, k'.queueOf x = some q → k.queueOf x = some q)
    (hclose : k'.Unclosable) (hold : ∀ q m', k'.queues q = some m' → ∃ m, k.queues q = some m)
    (hstays : ∀ x q m m', k.Stands x q m → k'.queues q = some m' → ∃ n, k'.Stands x q n ∧ n.slot 0 = m.slot 0)
    (hroster : ∀ x q, k'.queueOf x = some q → (∃ p, k'.Refers p x) ∧ ∃ m', k'.Stands x q m' ∧ k'.Roster x m') :
    Coherent k' := by
  have howned : ∀ q m', k'.queues q = some m' → ∃ x m, k.Stands x q m ∧ k'.Stands x q m' ∧ m'.slot 0 = m.slot 0 := by
    intro q m' hm'
    obtain ⟨m, hm⟩ := hold q m' hm'
    obtain ⟨x, hst⟩ := h.owned q m hm
    obtain ⟨n, hst', hbase⟩ := hstays x q m m' hst hm'
    obtain rfl := Option.some.inj (hm'.symm.trans hst'.info)
    exact ⟨x, m, hst, hst', hbase⟩
  refine ⟨fun x q hx => (hroster x q hx).1, fun x q hx => (hroster x q hx).2, hclose, fun x y q hx hy => ?_,
    fun q m' hm' => ?_, fun q r m n hm hn he => ?_⟩
  · exact h.owner x y q (hobjects x q hx) (hobjects y q hy)
  · obtain ⟨x, m, -, hst', -⟩ := howned q m' hm'
    exact ⟨x, hst'⟩
  · obtain ⟨x, m₀, hst, -, hme⟩ := howned q m hm
    obtain ⟨y, n₀, hsty, -, hne⟩ := howned r n hn
    exact h.apart q r m₀ n₀ hst.info hsty.info (hme.symm.trans (he.trans hne))

/-- Where every queue that was held is held, nothing is freed. -/
theorem Coherent.freesNothing (h : Coherent k) (hheld : ∀ x q p, k.queueOf x = some q → k.Refers p x → k'.Refers p x)
    (hstands : ∀ x q m, k.Stands x q m → ∃ m', k'.Stands x q m' ∧ m'.slot 0 = m.slot 0) : FreesTogether k k' := by
  intro x q m hst
  constructor
  · intro hnone
    obtain ⟨p, hp⟩ := h.inUse x q hst.object
    exact absurd (hheld x q p hst.object hp) (hnone p)
  · intro _
    exact hstands x q m hst

/-! ## Sharing -/

/-- A call that moves references about, but takes no queue from or to any process. -/
theorem Coherent.shuffle (h : Coherent k) (hobjects : k'.queueOf = k.queueOf) (hclose : k'.Unclosable)
    (hrefers : ∀ x q, k.queueOf x = some q → ∀ p, (k'.Refers p x ↔ k.Refers p x))
    (hqueues : k'.queues = k.queues) (hbuffers : k'.buffers = k.buffers) : Coherent k' ∧ FreesTogether k k' := by
  have hstands : ∀ x q m, k.Stands x q m → k'.Stands x q m := by
    intro x q m hst
    exact ⟨by rw [hobjects]; exact hst.object, by rw [hqueues]; exact hst.info, by rw [hbuffers]; exact hst.buffer⟩
  constructor
  · refine h.of_old (fun x q hx => by rwa [← hobjects]) hclose (fun q m' hm => ⟨m', by rwa [← hqueues]⟩)
      (fun x q m _ hst _ => ⟨m, hstands x q m hst, rfl⟩) fun x q hx => ?_
    rw [hobjects] at hx
    obtain ⟨p, hp⟩ := h.inUse x q hx
    obtain ⟨m, hst, hr⟩ := h.stands x q hx
    refine ⟨⟨p, (hrefers x q hx p).2 hp⟩, m, hstands x q m hst, hr.count, hr.nodup, fun v => ?_⟩
    simp only [hr.mem, hrefers x q hx]
  · exact h.freesNothing (fun x q p hx hp => (hrefers x q hx p).2 hp) fun x q m hst => ⟨m, hstands x q m hst, rfl⟩

theorem Coherent.same (h : Coherent k) : FreesTogether k k :=
  (h.shuffle rfl h.unclosable (fun _ _ _ _ => Iff.rfl) rfl rfl).2

theorem Unclosable.onlyCounts (h : k.Unclosable) (hk : OnlyCounts k k') : k'.Unclosable := by
  intro x g hg hm
  obtain ⟨f, hf, c, rfl⟩ := hk.files x g hg
  exact h x f hf hm

/-- One object changes in nothing that says which queue it stands for. -/
theorem queueOf_update {o : Option File} (hfiles : k'.files = Function.update k.files x o)
    (ho : o.bind File.msgQueue = k.queueOf x) : k'.queueOf = k.queueOf := by
  funext z
  unfold queueOf
  rw [hfiles, Function.update_apply]
  split
  · subst z
    exact ho
  · rfl

theorem queueOf_acquired (hf : k.files x = some f) : (k.acquired p fd x f).queueOf = k.queueOf :=
  queueOf_update (files_acquired ..) (queueOf_eq hf).symm

theorem queueOf_released (hf : k.files x = some f) (hq : f.msgQueue ≠ none → f.drop 1 ≠ none) :
    (k.released p fd x f).queueOf = k.queueOf := by
  refine queueOf_update (files_released ..) ?_
  rw [queueOf_eq hf]
  cases hd : f.drop 1 with
  | some g =>
    obtain rfl := File.drop_some hd
    rfl
  | none =>
    by_contra hm
    exact hq (fun hnone => hm hnone.symm) hd

theorem refers_setTable {t : Table} (ht : k'.table = Function.update k.table p t) (r : Proc) (x : Ptr) :
    k'.Refers r x ↔ if r = p then ∃ fd, t fd = some x else k.Refers r x := by
  unfold Refers
  rw [ht]
  split
  · subst r
    rw [Function.update_self]
  · rename_i hr
    rw [Function.update_of_ne hr]

/-- Overwriting a slot takes `z` from no process that has no other slot for it, and gives it to none
that had no slot. -/
theorem refers_overwrite {v : Option Ptr}
    (ht : k'.table = Function.update k.table p (Function.update (k.table p) fd v)) (hin : v = some z → k.Refers p z)
    (hout : k.table p fd = some z → v = some z ∨ 2 ≤ held (k.table p) z) (r : Proc) :
    k'.Refers r z ↔ k.Refers r z := by
  rw [refers_setTable ht]
  split
  · subst r
    constructor
    · rintro ⟨i, hi⟩
      rw [Function.update_apply] at hi
      split at hi
      · exact hin hi
      · exact ⟨i, hi⟩
    · rintro ⟨i, hi⟩
      by_cases hfd : i = fd
      · subst hfd
        rcases hout hi with hv | htwo
        · exact ⟨i, by rw [Function.update_self, hv]⟩
        · obtain ⟨j, hj, hz⟩ := exists_ne_of_two_le_held htwo i
          exact ⟨j, (Function.update_of_ne hj ..).trans hz⟩
      · exact ⟨i, (Function.update_of_ne hfd ..).trans hi⟩
  · rfl

/-- A duplicate takes no queue's last slot from a process, and no queue's object its last counted
reference. -/
def DupKeeps (k : Kernel) (p : Proc) (old new : Fd) : Prop :=
  (k.table p old).isSome = true → ∀ y ∈ k.table p new, ∀ f ∈ k.files y, f.msgQueue.isSome = true →
    (f.drop 1).isSome = true ∧ (old = new ∨ 2 ≤ held (k.table p) y)

instance (k : Kernel) (p : Proc) (old new : Fd) : Decidable (k.DupKeeps p old new) := by
  unfold DupKeeps; infer_instance

theorem released_queues (k : Kernel) (p : Proc) (fd : Fd) (x : Ptr) (f : File) :
    (k.released p fd x f).queues = k.queues ∧ (k.released p fd x f).buffers = k.buffers := by
  obtain ⟨n, hn⟩ := (k.setSlot p fd none).dropped_eq x f
  unfold released
  rw [hn]
  exact ⟨rfl, rfl⟩

/-- A process takes one more slot for what it refers to. -/
theorem Coherent.acquire (h : Coherent k) (ho : k.table p old = some x) (hn : k.table p fd = none)
    (hf : k.files x = some f) : Coherent (k.acquired p fd x f) ∧ FreesTogether k (k.acquired p fd x f) :=
  h.shuffle (queueOf_acquired hf) (h.unclosable.onlyCounts (onlyCounts_acquired hf))
    (fun z q hz => refers_overwrite (table_acquired ..) (fun hxz => ⟨old, ho.trans hxz⟩)
      fun hnz => by rw [hn] at hnz; cases hnz) rfl rfl

theorem Consistent.dup2 (h : Consistent bump k) (hsole : ¬ k.Sole p old new) (hkeeps : k.DupKeeps p old new) :
    ∃ ret k', k.fdDup2 p old new = .ok (ret, k') ∧ Consistent bump k' ∧ FreesTogether k k' := by
  have hq : ∀ x y g, k.table p old = some x → k.table p new = some y → k.files y = some g → g.msgQueue ≠ none →
      g.drop 1 ≠ none ∧ (old = new ∨ 2 ≤ held (k.table p) y) := by
    intro x y g ho hn hg hm
    obtain ⟨hleft, hother⟩ := hkeeps (by rw [ho]; rfl) y hn g hg (Option.ne_none_iff_isSome.1 hm)
    exact ⟨Option.ne_none_iff_isSome.2 hleft, hother⟩
  rcases h.refs.dup2_cases hsole fun x y g ho hn hg hm => (hq x y g ho hn hg hm).1 with
    he | ⟨x, f, ho, hn, hf, he⟩ | ⟨x, y, g, f, ho, hn, hg, hf, hpos, he⟩
  · exact ⟨_, _, he, h, h.coherent.same⟩
  · obtain ⟨hcoh, hfrees⟩ := h.coherent.acquire ho hn hf
    exact ⟨_, _, he, ⟨h.refs.acquire hn hf fun _ => used_of_slot ho, hcoh⟩, hfrees⟩
  · have hgq := fun hm => (hq x y g ho hn hg hm).1
    have htable : ((k.released p new y g).acquired p new x f).table =
        Function.update k.table p (Function.update (k.table p) new (some x)) := by
      rw [table_acquired, table_released, Function.update_self, Function.update_idem, Function.update_idem]
    -- a slot of a queue is overwritten only where the process keeps another
    have hrest : ∀ z q, k.queueOf z = some q → k.table p new = some z → some x = some z ∨ 2 ≤ held (k.table p) z := by
      intro z q hz hnz
      obtain rfl := Option.some.inj (hn.symm.trans hnz)
      have hm : g.msgQueue ≠ none := by
        rw [← queueOf_eq hg, hz]
        exact Option.some_ne_none q
      rcases (hq x y g ho hn hg hm).2 with rfl | htwo
      · exact Or.inl (ho.symm.trans hn)
      · exact Or.inr htwo
    have hmove : Coherent ((k.released p new y g).acquired p new x f) ∧
        FreesTogether k ((k.released p new y g).acquired p new x f) :=
      h.coherent.shuffle ((queueOf_acquired hf).trans (queueOf_released hg hgq))
        (h.coherent.unclosable.onlyCounts ((onlyCounts_released hg).trans (onlyCounts_acquired hf)))
        (fun z q hz => refers_overwrite htable (fun hxz => ⟨old, ho.trans hxz⟩) (hrest z q hz))
        (released_queues ..).1 (released_queues ..).2
    refine ⟨_, _, he, ⟨(h.refs.release hn hg hgq).acquire ?_ hf hpos, hmove.1⟩, hmove.2⟩
    simp

theorem Consistent.close (h : Consistent bump k) (p : Proc) (fd : Fd) (unset : ℤ) :
    ∃ ret k', k.doClose p fd unset = .ok (ret, k') ∧ Consistent bump k' ∧ FreesTogether k k' := by
  cases hs : k.table p fd with
  | none => exact ⟨-einval, k, by simp only [doClose, hs], h, h.coherent.same⟩
  | some x =>
    obtain ⟨f, hf, hplain | ⟨q, m, -, -, -, hc⟩⟩ := h.slot hs
    · rw [doClose_eq hs hf]
      split
      · exact ⟨-einval, k, rfl, h, h.coherent.same⟩
      -- a queue refuses to be closed, so the file is no queue's
      · have hq : f.msgQueue ≠ none → f.drop 1 ≠ none := fun hm => absurd hplain hm
        have hrest : ∀ z q, k.queueOf z = some q → k.table p fd ≠ some z := by
          intro z q hz hsz
          obtain rfl := Option.some.inj (hs.symm.trans hsz)
          rw [queueOf_eq hf, hplain] at hz
          cases hz
        have hmove : Coherent (k.released p fd x f) ∧ FreesTogether k (k.released p fd x f) :=
          h.coherent.shuffle (queueOf_released hf hq) (h.coherent.unclosable.onlyCounts (onlyCounts_released hf))
            (fun z q hz => refers_overwrite (table_released ..) (fun hnone => by cases hnone)
              fun hsz => absurd hsz (hrest z q hz))
            (released_queues ..).1 (released_queues ..).2
        exact ⟨unset, _, rfl, ⟨h.refs.release hs hf hq, hmove.1⟩, hmove.2⟩
    · exact ⟨-einval, k, by rw [doClose_eq hs hf, if_pos hc], h, h.coherent.same⟩

/-- Opens make no queue and take no part in any. -/
theorem Consistent.opened (h : Consistent 1 k) (hx : k.files x = none) (hop : Opened k p x none k') :
    Consistent 1 k' ∧ FreesTogether k k' := by
  have hrefs := h.refs.opened hx hop
  -- no queue's object is on a fresh page
  have hqueue : k.queueOf x = none := by
    unfold queueOf
    rw [hx]
    rfl
  have hclose : ∀ e : File, e.msgQueue = none → ∀ k₁ : Kernel, k₁.files = Function.update k.files x (some e) →
      k₁.Unclosable := by
    intro e he k₁ hk₁ z g hg hm
    rw [hk₁, Function.update_apply] at hg
    split at hg
    · obtain rfl := Option.some.inj hg
      exact absurd he hm
    · exact h.coherent.unclosable z g hg hm
  cases hop with
  | same sb =>
    have hmove : Coherent { k with sb := sb } ∧ FreesTogether k { k with sb := sb } :=
      h.coherent.shuffle rfl h.coherent.unclosable (fun _ _ _ _ => Iff.rfl) rfl rfl
    exact ⟨⟨hrefs, hmove.1⟩, hmove.2⟩
  | leak sb e hm =>
    have hmove : Coherent ({ k with sb := sb }.alloced x e) ∧ FreesTogether k ({ k with sb := sb }.alloced x e) :=
      h.coherent.shuffle (queueOf_update rfl (hm.trans hqueue.symm)) (hclose e hm _ rfl)
        (fun _ _ _ _ => Iff.rfl) rfl rfl
    exact ⟨⟨hrefs, hmove.1⟩, hmove.2⟩
  | fill sb e fd hm hone hs =>
    have hmove : Coherent (({ k with sb := sb }.alloced x e).setSlot p fd (some x)) ∧
        FreesTogether k (({ k with sb := sb }.alloced x e).setSlot p fd (some x)) := by
      refine h.coherent.shuffle (queueOf_update rfl (hm.trans hqueue.symm)) (hclose e hm _ rfl)
        (fun z q hz => refers_overwrite (table_setSlot ..) (fun hxz => ?_) fun hsz => ?_) rfl rfl
      · rw [← Option.some.inj hxz, hqueue] at hz
        cases hz
      · rw [hs] at hsz
        cases hsz
    exact ⟨⟨hrefs, hmove.1⟩, hmove.2⟩
  | share y g src fd hsrc hg hs =>
    have hmove := h.coherent.acquire hsrc hs hg
    exact ⟨⟨hrefs, hmove.1⟩, hmove.2⟩

/-! ## Messages -/

/-- The two queues have the same members and the same buffer. -/
structure SameMembers (m m' : MsgQueue) : Prop where
  count : m'.memberCount = m.memberCount
  pids : m'.memberPid = m.memberPid
  base : m'.slot 0 = m.slot 0

theorem SameMembers.trans {m₁ m₂ m₃ : MsgQueue} (h : SameMembers m₁ m₂) (h' : SameMembers m₂ m₃) : SameMembers m₁ m₃ :=
  ⟨h'.count.trans h.count, h'.pids.trans h.pids, h'.base.trans h.base⟩

theorem sameMembers_append (v : Message) (m : MsgQueue) : SameMembers m (m.append v) := by
  unfold MsgQueue.append MsgQueue.setSlot
  simp only
  split
  · refine ⟨rfl, rfl, ?_⟩
    simp only [MsgQueue.slot_zero, Function.update_apply]
    split
    · rename_i hc
      rw [← hc, zero_mul, zero_mul, add_zero]
    · rfl
  · exact ⟨rfl, rfl, by simp only [MsgQueue.slot_zero]⟩

/-- Messages and blocks have no part in who the members are. -/
theorem MsgCall.sameMembers (v : Pid) (m : MsgQueue) (c : MsgCall) : SameMembers m (c.exec v m).2 := by
  have hrefl : SameMembers m m := ⟨rfl, rfl, rfl⟩
  cases c with
  | send msg =>
    simp only [MsgCall.exec, MsgQueue.send]
    cases msg with
    | none => exact hrefl
    | some msg =>
      simp only
      split
      · exact hrefl
      · split
        · exact hrefl
        · split
          -- a broadcast only appends
          · refine forRange_keep (fun s : Int × MsgQueue => SameMembers m s.2) hrefl fun i s _ _ hs => ?_
            split
            · split
              · exact hs
              · exact hs.trans (sameMembers_append ..)
            · exact hs
          · split
            · split
              · exact hrefl
              · exact sameMembers_append ..
            · exact hrefl
  | rcv buf =>
    simp only [MsgCall.exec, MsgQueue.rcv]
    split
    · exact hrefl
    · split
      · exact hrefl
      · split
        · exact ⟨rfl, rfl, rfl⟩
        · exact hrefl
  | count => exact hrefl
  | block target =>
    simp only [MsgCall.exec]
    rcases MsgQueue.block_cases m v target with hr | ⟨-, i, hb⟩
    · rw [hr]
      exact hrefl
    · obtain ⟨b, he⟩ := hb.matrix
      rw [he]
      exact ⟨rfl, rfl, MsgQueue.slot_matrix m b (by decide)⟩
  | memberInfo => exact hrefl

theorem Roster.sameMembers {m' : MsgQueue} (h : k.Roster x m) (hm : SameMembers m m')
    (hrefers : ∀ p, k'.Refers p x ↔ k.Refers p x) : k'.Roster x m' := by
  have hmembers : m'.members = m.members := MsgQueue.members_congr hm.count hm.pids
  refine ⟨by rw [hm.count]; exact h.count, by rw [hmembers]; exact h.nodup, fun v => ?_⟩
  simp only [hmembers, h.mem, hrefers]

/-- The queue behind an object is replaced by one with the same members. -/
theorem Coherent.setQueue (h : Coherent k) (hst : k.Stands x q m) {m' : MsgQueue} (hm : SameMembers m m') :
    Coherent (k.setQueue q m') ∧ FreesTogether k (k.setQueue q m') := by
  have hqueues : ∀ r n, (k.setQueue q m').queues r = some n → ∃ n₀, k.queues r = some n₀ ∧ SameMembers n₀ n := by
    intro r n hn
    have hn : Function.update k.queues q (some m') r = some n := hn
    by_cases hr : r = q
    · subst hr
      rw [Function.update_self] at hn
      obtain rfl := Option.some.inj hn
      exact ⟨m, hst.info, hm⟩
    · rw [Function.update_of_ne hr] at hn
      exact ⟨n, hn, rfl, rfl, rfl⟩
  -- the buffer of the queue is the one it had
  have hstands : ∀ z r n₀, k.Stands z r n₀ → ∃ n, (k.setQueue q m').Stands z r n ∧ SameMembers n₀ n := by
    intro z r n₀ hstz
    obtain ⟨n, hn⟩ : ∃ n, (k.setQueue q m').queues r = some n := by
      by_cases hr : r = q
      · subst hr
        exact ⟨m', Function.update_self ..⟩
      · exact ⟨n₀, (Function.update_of_ne hr ..).trans hstz.info⟩
    obtain ⟨n₁, hn₁, hsame⟩ := hqueues r n hn
    obtain rfl := Option.some.inj (hstz.info.symm.trans hn₁)
    refine ⟨n, ⟨hstz.object, hn, ?_⟩, hsame⟩
    rw [hsame.base]
    exact hstz.buffer
  constructor
  · refine h.of_old (fun _ _ hz => hz) h.unclosable (fun r n hn => ?_) (fun z r n₀ _ hstz _ => ?_)
      fun z r hz => ⟨h.inUse z r hz, ?_⟩
    · obtain ⟨n₀, hn₀, -⟩ := hqueues r n hn
      exact ⟨n₀, hn₀⟩
    · obtain ⟨n, hst', hsame⟩ := hstands z r n₀ hstz
      exact ⟨n, hst', hsame.base⟩
    · obtain ⟨n₀, hstz, hroster⟩ := h.stands z r hz
      obtain ⟨n, hst', hsame⟩ := hstands z r n₀ hstz
      exact ⟨n, hst', hroster.sameMembers hsame fun _ => Iff.rfl⟩
  · refine h.freesNothing (fun _ _ _ _ hp => hp) fun z r n₀ hstz => ?_
    obtain ⟨n, hst', hsame⟩ := hstands z r n₀ hstz
    exact ⟨n, hst', hsame.base⟩

/-- Queues and buffers have no part in the counts. -/
theorem Refs.beside {own : Option Ptr → Prop} (h : Refs own bump k) (ht : k'.table = k.table)
    (hf : k'.files = k.files) : Refs own bump k' :=
  h.congr ht fun x _ => by rw [hf]

theorem callMsgQueue_eq (hs : k.table p fd = some x) (hst : k.Stands x q m) (c : MsgCall) :
    k.callMsgQueue p fd c = .ok ((c.exec (pid p) m).1, k.setQueue q (c.exec (pid p) m).2) := by
  obtain ⟨f, hf, hm⟩ := queueOf_some.1 hst.object
  simp only [callMsgQueue, hs, file_eq hf, hm, queue_eq hst.info, bind, Except.bind]

theorem Consistent.msg (h : Consistent bump k) (p : Proc) (fd : Fd) (c : MsgCall) :
    ∃ ret k', k.callMsgQueue p fd c = .ok (ret, k') ∧ k'.table = k.table ∧ Consistent bump k' ∧
      FreesTogether k k' := by
  cases hs : k.table p fd with
  | none => exact ⟨-einval, k, by simp only [callMsgQueue, hs], rfl, h, h.coherent.same⟩
  | some x =>
    obtain ⟨f, hf, hplain | ⟨q, m, hm, hst, -, -⟩⟩ := h.slot hs
    · refine ⟨-einval, k, ?_, rfl, h, h.coherent.same⟩
      simp only [callMsgQueue, hs, file_eq hf, hplain, bind, Except.bind]
    · obtain ⟨hcoh, hfrees⟩ := h.coherent.setQueue hst (c.sameMembers (pid p) m)
      exact ⟨_, _, callMsgQueue_eq hs hst c, rfl, ⟨h.refs.beside rfl rfl, hcoh⟩, hfrees⟩

/-! ## Creating -/

/-- A queue with its buffer is put on its pages, behind an empty slot. -/
def founded (p : Proc) (fd : Fd) (x q b : Ptr) (page : MsgQueue) (f : File) (k : Kernel) : Kernel :=
  (({ k with queues := Function.update k.queues q (some (MsgQueue.create (pid p) b page))
             buffers := Function.update k.buffers b true }).alloced x f).setSlot p fd (some x)

/-- The file object of a new queue. -/
def queueFile (held : File) (q : Ptr) : File :=
  { held with fops := .zero, refCount := 1, offp := 0, msgQueue := some q, type := .msgQueue }

theorem doCreateMsgQueue_eq (hfd : firstFree (k.table p) = some fd) (q b x : Ptr) (page : MsgQueue) (f : File) :
    k.doCreateMsgQueue p (some (q, page)) (some b) (some (x, f)) =
      .ok (fd.val, k.founded p fd x q b page (queueFile f q)) := by
  simp only [doCreateMsgQueue, hfd, allocFile, bind, Except.bind, file, Function.update_self, setFile,
    Function.update_idem, setQueue, Option.getD_some]
  rfl

theorem slot_create (v : Pid) (b : ℕ) (page : MsgQueue) : (MsgQueue.create v b page).slot 0 = b := by
  rw [MsgQueue.slot_zero]
  simp [MsgQueue.create]

theorem refers_filled (hs : k.table p fd = none) (ht : k'.table = Function.update k.table p
    (Function.update (k.table p) fd (some x))) (r : Proc) (z : Ptr) :
    k'.Refers r z ↔ k.Refers r z ∨ r = p ∧ z = x := by
  rw [refers_setTable ht]
  split
  · subst r
    constructor
    · rintro ⟨i, hi⟩
      rw [Function.update_apply] at hi
      split at hi
      · exact Or.inr ⟨rfl, (Option.some.inj hi).symm⟩
      · exact Or.inl ⟨i, hi⟩
    · rintro (⟨i, hi⟩ | ⟨-, rfl⟩)
      · have hne : i ≠ fd := by
          rintro rfl
          rw [hs] at hi
          cases hi
        exact ⟨i, (Function.update_of_ne hne ..).trans hi⟩
      · exact ⟨fd, Function.update_self ..⟩
  · rename_i hr
    simp only [hr, false_and, or_false]

/-- Fresh pages belong to no queue. -/
theorem not_object_of_fresh (hx : k.files x = none) (r : Ptr) : k.queueOf x ≠ some r := by
  intro hr
  obtain ⟨g, hg, -⟩ := queueOf_some.1 hr
  rw [hx] at hg
  cases hg

theorem Coherent.queueOf_ne (h : Coherent k) (hq : k.queues q = none) (z : Ptr) : k.queueOf z ≠ some q := by
  intro hz
  obtain ⟨n, hst, -⟩ := h.stands z q hz
  have hinfo := hst.info
  rw [hq] at hinfo
  cases hinfo

theorem Coherent.buffer_ne (h : Coherent k) {b r : Ptr} {n : MsgQueue} (hb : k.buffers b = false)
    (hn : k.queues r = some n) : n.slot 0 ≠ b := by
  intro he
  obtain ⟨z, hst⟩ := h.owned r n hn
  have hbuf := hst.buffer
  rw [he, hb] at hbuf
  cases hbuf

theorem queueOf_founded (hx : k.files x = none) (b : Ptr) (page : MsgQueue) (f : File) (z r : Ptr) :
    (k.founded p fd x q b page (queueFile f q)).queueOf z = some r ↔ (z = x ∧ r = q) ∨ k.queueOf z = some r := by
  have hfiles : (k.founded p fd x q b page (queueFile f q)).files =
      Function.update k.files x (some (queueFile f q)) := rfl
  unfold queueOf
  rw [hfiles, Function.update_apply]
  split
  · subst z
    rw [hx]
    simp [queueFile, eq_comm]
  · rename_i hz
    simp [hz]

theorem queues_founded (b : Ptr) (page : MsgQueue) (f : File) {r : Ptr} (hr : r ≠ q) :
    (k.founded p fd x q b page f).queues r = k.queues r :=
  Function.update_of_ne hr ..

theorem stands_founded (hx : k.files x = none) (b : Ptr) (page : MsgQueue) (f : File) :
    (k.founded p fd x q b page (queueFile f q)).Stands x q (MsgQueue.create (pid p) b page) := by
  refine ⟨(queueOf_founded hx ..).2 (Or.inl ⟨rfl, rfl⟩), Function.update_self .., ?_⟩
  rw [slot_create]
  exact Function.update_self b true k.buffers

/-- The queues that stood still do. -/
theorem Coherent.stands_founded (h : Coherent k) (hx : k.files x = none) (hq : k.queues q = none) {b : Ptr}
    (hb : k.buffers b = false) (page : MsgQueue) (f : File) {z r : Ptr} {n : MsgQueue} (hst : k.Stands z r n) :
    (k.founded p fd x q b page (queueFile f q)).Stands z r n := by
  have hr : r ≠ q := by
    rintro rfl
    exact h.queueOf_ne hq z hst.object
  refine ⟨(queueOf_founded hx ..).2 (Or.inr hst.object), (queues_founded b page _ hr).trans hst.info, ?_⟩
  exact (Function.update_of_ne (h.buffer_ne hb hst.info) ..).trans hst.buffer

theorem Coherent.found (h : Coherent k) (hlive : ∀ p z, k.Refers p z → ∃ f, k.files z = some f)
    (hs : k.table p fd = none) (hx : k.files x = none) (hq : k.queues q = none) {b : Ptr} (hb : k.buffers b = false)
    (page : MsgQueue) (f : File) : Coherent (k.founded p fd x q b page (queueFile f q)) ∧
      FreesTogether k (k.founded p fd x q b page (queueFile f q)) := by
  set k' := k.founded p fd x q b page (queueFile f q) with hk'
  have hrefers : ∀ r z, k'.Refers r z ↔ k.Refers r z ∨ r = p ∧ z = x := refers_filled hs (table_setSlot ..)
  have hobjects : ∀ z r, k'.queueOf z = some r ↔ (z = x ∧ r = q) ∨ k.queueOf z = some r :=
    queueOf_founded hx b page f
  have hqueues : ∀ r, r ≠ q → k'.queues r = k.queues r := fun r hr => queues_founded b page _ hr
  have hnew : k'.Stands x q (MsgQueue.create (pid p) b page) := Kernel.stands_founded hx ..
  have hstands : ∀ z r n, k.Stands z r n → k'.Stands z r n := fun z r n hst => h.stands_founded hx hq hb page f hst
  -- nobody refers to the fresh page yet
  have hfreshx : ∀ r, ¬ k.Refers r x := by
    intro r hr
    obtain ⟨g, hg⟩ := hlive r x hr
    rw [hx] at hg
    cases hg
  constructor
  · constructor
    · intro z r hzr
      rcases (hobjects z r).1 hzr with ⟨rfl, rfl⟩ | hz
      · exact ⟨p, (hrefers p z).2 (Or.inr ⟨rfl, rfl⟩)⟩
      · obtain ⟨u, hu⟩ := h.inUse z r hz
        exact ⟨u, (hrefers u z).2 (Or.inl hu)⟩
    · intro z r hzr
      rcases (hobjects z r).1 hzr with ⟨rfl, rfl⟩ | hz
      · refine ⟨_, hnew, ?_, ?_, fun v => ?_⟩
        · change 1 ≤ maxMembers
          decide
        · rw [MsgQueue.members_create]
          exact List.nodup_singleton _
        · simp [MsgQueue.members_create, hrefers, hfreshx]
      · obtain ⟨n, hst, hr⟩ := h.stands z r hz
        refine ⟨n, hstands z r n hst, hr.count, hr.nodup, fun v => ?_⟩
        have hne : z ≠ x := by
          rintro rfl
          exact not_object_of_fresh hx r hz
        simp only [hr.mem, hrefers, hne, and_false, or_false]
    -- the new object refuses to be closed as the others do
    · intro z g hg hm
      have hg : Function.update k.files x (some (queueFile f q)) z = some g := hg
      rw [Function.update_apply] at hg
      split at hg
      · rw [← Option.some.inj hg]
        rfl
      · exact h.unclosable z g hg hm
    · intro z w r hzr hwr
      rcases (hobjects z r).1 hzr with ⟨hzx, hrq⟩ | hz
      · rcases (hobjects w r).1 hwr with ⟨hwx, -⟩ | hw
        · exact hzx.trans hwx.symm
        · exact absurd (hrq ▸ hw) (h.queueOf_ne hq w)
      · rcases (hobjects w r).1 hwr with ⟨-, hrq⟩ | hw
        · exact absurd (hrq ▸ hz) (h.queueOf_ne hq z)
        · exact h.owner z w r hz hw
    -- the new queue has the new object, the others have theirs
    · intro r n hn
      by_cases hr : r = q
      · subst hr
        obtain rfl := Option.some.inj (hnew.info.symm.trans hn)
        exact ⟨x, hnew⟩
      · obtain ⟨z, hst⟩ := h.owned r n ((hqueues r hr).symm.trans hn)
        exact ⟨z, hstands z r n hst⟩
    -- the new buffer is nobody else's
    · intro r u n w hn hw he
      by_cases hr : r = q <;> by_cases hu : u = q
      · rw [hr, hu]
      · subst hr
        obtain rfl := Option.some.inj (hnew.info.symm.trans hn)
        rw [slot_create] at he
        exact absurd he.symm (h.buffer_ne hb ((hqueues u hu).symm.trans hw))
      · subst hu
        obtain rfl := Option.some.inj (hnew.info.symm.trans hw)
        rw [slot_create] at he
        exact absurd he (h.buffer_ne hb ((hqueues r hr).symm.trans hn))
      · exact h.apart r u n w ((hqueues r hr).symm.trans hn) ((hqueues u hu).symm.trans hw) he
  · exact h.freesNothing (fun z _ u _ hu => (hrefers u z).2 (Or.inl hu)) fun z r n hst => ⟨n, hstands z r n hst, rfl⟩

/-- An empty slot gets an object on a fresh page. -/
def Fills (p : Proc) (k k' : Kernel) : Prop :=
  ∃ fd x, k.table p fd = none ∧ k.files x = none ∧
    k'.table = Function.update k.table p (Function.update (k.table p) fd (some x))

theorem Consistent.create (h : Consistent bump k) {info : Option (Ptr × MsgQueue)} {buffer : Option Ptr}
    {page : Option (Ptr × File)} (hinfo : ∀ i ∈ info, k.Fresh i.1) (hbuffer : ∀ b ∈ buffer, k.Fresh b)
    (hpage : ∀ i ∈ page, k.Fresh i.1) (hserved : info.isSome = true → buffer.isSome = true ∧ page.isSome = true) :
    ∃ ret k', k.doCreateMsgQueue p info buffer page = .ok (ret, k') ∧ (k'.table = k.table ∨ Fills p k k') ∧
      Consistent bump k' ∧ FreesTogether k k' := by
  cases hfd : firstFree (k.table p) with
  | none => exact ⟨-enomem, k, by simp only [doCreateMsgQueue, hfd], Or.inl rfl, h, h.coherent.same⟩
  | some fd =>
    cases info with
    | none => exact ⟨-enomem, k, by simp only [doCreateMsgQueue, hfd], Or.inl rfl, h, h.coherent.same⟩
    | some i =>
      obtain ⟨q, held⟩ := i
      obtain ⟨hb, hx⟩ := hserved rfl
      obtain ⟨b, rfl⟩ := Option.isSome_iff_exists.1 hb
      obtain ⟨⟨x, f⟩, rfl⟩ := Option.isSome_iff_exists.1 hx
      have hs := firstFree_some hfd
      have hfresh : k.files x = none := (hpage _ rfl).files
      obtain ⟨hcoh, hfrees⟩ := h.coherent.found (fun r z hz => h.refs.live z (used_pos.2 ⟨r, hz⟩)) hs hfresh
        (Option.isNone_iff_eq_none.1 (hinfo _ rfl).2.2.1) (hbuffer b rfl).2.2.2 held f
      refine ⟨fd.val, _, doCreateMsgQueue_eq hfd q b x held f, Or.inr ⟨fd, x, hs, hfresh, table_setSlot ..⟩, ⟨?_, hcoh⟩,
        hfrees⟩
      have hbase : Refs Plain bump { k with
          queues := Function.update k.queues q (some (MsgQueue.create (pid p) b held))
          buffers := Function.update k.buffers b true } := h.refs.beside rfl rfl
      exact hbase.fill hs hfresh fun hm => by cases hm

end Kernel

end CS330.Os
