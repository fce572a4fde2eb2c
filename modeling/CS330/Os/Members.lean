/-
The life of a queue, over whole runs: a process creates it, children join it, members leave it, and it
is freed with the last descriptor. Files and standard streams are opened beside it.
-/
import CS330.Os.Leave

namespace CS330.Os

open CS330.Lib CS330.Queue

namespace Kernel

variable {k k' : Kernel} {p : Proc} {fd : Fd} {x q : Ptr} {m : MsgQueue} {bump : ℕ}

/-! ## Joining -/

/-- A slot of the process among `pre` refers to the queue. -/
def Reached (k : Kernel) (p : Proc) (pre : List Fd) (q : Ptr) : Prop :=
  ∃ fd ∈ pre, (k.table p fd).bind k.queueOf = some q

instance (k : Kernel) (p : Proc) (pre : List Fd) (q : Ptr) : Decidable (k.Reached p pre q) := by
  unfold Reached; infer_instance

/-- A child is a member of the queues its slots `pre` refer to. -/
def joined (child : Proc) (pre : List Fd) (k : Kernel) : Kernel :=
  { k with queues := fun q => (k.queues q).map fun m =>
      if k.Reached child pre q then m.addChild (pid child) else m }

theorem reached_snoc (k : Kernel) (p : Proc) (pre : List Fd) (fd : Fd) (q : Ptr) :
    k.Reached p (pre ++ [fd]) q ↔ k.Reached p pre q ∨ (k.table p fd).bind k.queueOf = some q := by
  simp only [Reached, List.mem_append, List.mem_singleton, or_and_right, exists_or, exists_eq_left]

theorem reached_all (k : Kernel) (p : Proc) (q : Ptr) :
    k.Reached p (List.finRange maxOpenFiles) q ↔ ∃ x, k.Refers p x ∧ k.queueOf x = some q := by
  simp only [Reached, Refers, List.mem_finRange, true_and, Option.bind_eq_some_iff]
  constructor
  · rintro ⟨fd, x, hfd, hq⟩
    exact ⟨x, ⟨fd, hfd⟩, hq⟩
  · rintro ⟨x, ⟨fd, hfd⟩, hq⟩
    exact ⟨fd, x, hfd, hq⟩

theorem joined_skip {child : Proc} {pre : List Fd} (h : (k.table child fd).bind k.queueOf = none) :
    k.joined child (pre ++ [fd]) = k.joined child pre := by
  simp only [joined, reached_snoc, h, reduceCtorEq, or_false]

theorem joined_snoc {child : Proc} {pre : List Fd} (h : (k.table child fd).bind k.queueOf = some q)
    (hnew : ¬ k.Reached child pre q) (hm : k.queues q = some m) :
    (k.joined child pre).queues q = some m ∧
      (k.joined child pre).setQueue q (m.addChild (pid child)) = k.joined child (pre ++ [fd]) := by
  constructor
  · change (k.queues q).map _ = some m
    rw [hm, Option.map_some, if_neg hnew]
  · refine congrArg (fun Q => { k with queues := Q }) (funext fun r => ?_)
    rw [Function.update_apply]
    by_cases hr : r = q
    · subst hr
      rw [if_pos rfl, hm, Option.map_some, if_pos ((reached_snoc ..).2 (Or.inr h))]
    · have hsame : k.Reached child (pre ++ [fd]) r ↔ k.Reached child pre r := by
        rw [reached_snoc, h, or_iff_left fun he => hr (Option.some.inj he).symm]
      rw [if_neg hr]
      simp only [hsame]
      rfl

/-- A child that holds each queue once joins each once. -/
theorem doAddChildToMsgQueue_eq {child : Proc}
    (hlive : ∀ fd x, k.table child fd = some x → ∃ f, k.files x = some f ∧ ∀ q, f.msgQueue = some q →
      ∃ m, k.queues q = some m)
    (honce : ∀ i j q, (k.table child i).bind k.queueOf = some q → (k.table child j).bind k.queueOf = some q → i = j) :
    k.doAddChildToMsgQueue child = .ok (k.joined child (List.finRange maxOpenFiles)) := by
  have hempty : k = k.joined child [] := by
    have hid : ∀ o : Option MsgQueue, (o.map fun m => m) = o := by rintro (_ | _) <;> rfl
    simp only [joined, Reached, List.not_mem_nil, false_and, exists_false, if_false, hid]
  have hloop := foldlM_ok (l := List.finRange maxOpenFiles) (f := addChildAt child) (s := k)
    (fun pre s => s = k.joined child pre) hempty ?_
  · obtain ⟨s, hs, rfl⟩ := hloop
    exact hs
  · rintro pre fd post s hl rfl
    have htable : (k.joined child pre).table child fd = k.table child fd := rfl
    refine ⟨_, ?_, rfl⟩
    unfold addChildAt
    rw [htable]
    cases hfd : k.table child fd with
    | none => rw [joined_skip (by rw [hfd]; rfl)]
    | some x =>
      obtain ⟨f, hf, hqueue⟩ := hlive fd x hfd
      have hfile : (k.joined child pre).files x = some f := hf
      have hbind : (k.table child fd).bind k.queueOf = f.msgQueue := by
        rw [hfd]
        exact queueOf_eq hf
      cases hm : f.msgQueue with
      | none =>
        rw [joined_skip (hbind.trans hm)]
        simp only [file_eq hfile, hm, bind, Except.bind]
      | some q =>
        obtain ⟨m, hinfo⟩ := hqueue q hm
        -- an earlier slot for the same queue would be a second one
        have hnew : ¬ k.Reached child pre q := by
          rintro ⟨i, hi, hiq⟩
          have hnodup := List.nodup_finRange maxOpenFiles
          rw [hl, List.nodup_append] at hnodup
          exact hnodup.2.2 i hi fd (List.mem_cons_self ..) (honce i fd q hiq (hbind.trans hm))
        obtain ⟨hq, hset⟩ := joined_snoc (hbind.trans hm) hnew hinfo
        simp only [file_eq hfile, hm, queue_eq hq, bind, Except.bind, hset]

/-- The child a process has forked, before it joins the queues. -/
def spawned (bump : ℕ) (p child : Proc) (k : Kernel) : Kernel :=
  (k.setTable child (k.table p)).gained bump (held (k.table p))

theorem table_spawned (bump : ℕ) (p child : Proc) (k : Kernel) :
    (k.spawned bump p child).table = Function.update k.table child (k.table p) := table_setTable ..

theorem queueOf_spawned (bump : ℕ) (p child : Proc) (k : Kernel) : (k.spawned bump p child).queueOf = k.queueOf := by
  funext z
  have hfiles : (k.spawned bump p child).files z = (k.files z).map (File.bump bump (held (k.table p) z)) := rfl
  unfold queueOf
  rw [hfiles]
  cases k.files z with
  | none => rfl
  | some f => rfl

theorem refers_spawned {child : Proc} (hc : ∀ fd, k.table child fd = none)
    (ht : k'.table = Function.update k.table child (k.table p)) (r : Proc) (z : Ptr) :
    k'.Refers r z ↔ k.Refers r z ∨ r = child ∧ k.Refers p z := by
  rw [refers_setTable ht]
  split
  · subst r
    constructor
    · intro hz
      exact Or.inr ⟨rfl, hz⟩
    · rintro (⟨fd, hfd⟩ | ⟨-, hz⟩)
      · rw [hc] at hfd
        cases hfd
      · exact hz
  · rename_i hr
    simp only [hr, false_and, or_false]

/-- The child reaches the queues its parent refers to. -/
theorem reached_spawned (k : Kernel) (bump : ℕ) (p child : Proc) (q : Ptr) :
    (k.spawned bump p child).Reached child (List.finRange maxOpenFiles) q ↔
      ∃ x, k.Refers p x ∧ k.queueOf x = some q := by
  rw [reached_all, queueOf_spawned]
  simp only [Refers, table_spawned, Function.update_self]

/-- A process joins the queue behind `x` when it gets its first slots for it. -/
theorem Roster.join {child : Proc} (hr : k.Roster x m) (hnew : ¬ k.Refers child x) (hroom : m.memberCount < maxMembers)
    (hrefers : ∀ r, k'.Refers r x ↔ k.Refers r x ∨ r = child) : k'.Roster x (m.addChild (pid child)) := by
  refine ⟨hroom, ?_, fun v => ?_⟩
  · rw [MsgQueue.members_addChild, List.nodup_append]
    refine ⟨hr.nodup, List.nodup_singleton _, fun a ha b hb => ?_⟩
    rintro rfl
    rw [List.mem_singleton] at hb
    subst hb
    exact hnew (hr.pid_mem.1 ha)
  · rw [MsgQueue.members_addChild, List.mem_append, List.mem_singleton, hr.mem]
    constructor
    · rintro (⟨r, rfl, hr⟩ | rfl)
      · exact ⟨r, rfl, (hrefers r).2 (Or.inl hr)⟩
      · exact ⟨child, rfl, (hrefers child).2 (Or.inr rfl)⟩
    · rintro ⟨r, rfl, hr⟩
      rcases (hrefers r).1 hr with hr | rfl
      · exact Or.inl ⟨r, rfl, hr⟩
      · exact Or.inr rfl

theorem Coherent.fork (h : Coherent k) {child : Proc} (hc : ∀ fd, k.table child fd = none)
    (hroom : ∀ x q m, k.Refers p x → k.Stands x q m → m.memberCount < maxMembers) :
    Coherent ((k.spawned bump p child).joined child (List.finRange maxOpenFiles)) ∧
      FreesTogether k ((k.spawned bump p child).joined child (List.finRange maxOpenFiles)) := by
  set k' := (k.spawned bump p child).joined child (List.finRange maxOpenFiles) with hk'
  have hobjects : k'.queueOf = k.queueOf := queueOf_spawned bump p child k
  have hrefers : ∀ r z, k'.Refers r z ↔ k.Refers r z ∨ r = child ∧ k.Refers p z :=
    refers_spawned hc (table_spawned bump p child k)
  have hreached := k.reached_spawned bump p child
  have hqueues : ∀ q, k'.queues q = (k.queues q).map fun m =>
      if (k.spawned bump p child).Reached child (List.finRange maxOpenFiles) q then m.addChild (pid child) else m :=
    fun q => rfl
  -- every queue stands as before, with the child in it where the parent is
  have hstands : ∀ x q m, k.Stands x q m → k.Roster x m →
      ∃ m', k'.Stands x q m' ∧ k'.Roster x m' ∧ m'.slot 0 = m.slot 0 := by
    intro x q m hst hr
    have hqueue := hqueues q
    rw [hst.info, Option.map_some] at hqueue
    have hobject : k'.queueOf x = some q := by rw [hobjects, hst.object]
    by_cases hp : k.Refers p x
    · rw [if_pos ((hreached q).2 ⟨x, hp, hst.object⟩)] at hqueue
      refine ⟨_, ⟨hobject, hqueue, hst.buffer⟩, hr.join ?_ (hroom x q m hp hst) fun r => ?_, rfl⟩
      · rintro ⟨fd, hfd⟩
        rw [hc] at hfd
        cases hfd
      · rw [hrefers, and_iff_left hp]
    · have hno : ¬ (k.spawned bump p child).Reached child (List.finRange maxOpenFiles) q := by
        rw [hreached]
        rintro ⟨y, hy, hyq⟩
        exact hp (h.owner x y q hst.object hyq ▸ hy)
      rw [if_neg hno] at hqueue
      refine ⟨m, ⟨hobject, hqueue, hst.buffer⟩, ⟨hr.count, hr.nodup, fun v => ?_⟩, rfl⟩
      simp only [hr.mem, hrefers, hp, and_false, or_false]
  have hstays : ∀ x q m, k.Stands x q m → ∃ m', k'.Stands x q m' ∧ m'.slot 0 = m.slot 0 := by
    intro x q m hst
    obtain ⟨m', hst', -, hbase⟩ := hstands x q m hst (h.roster hst)
    exact ⟨m', hst', hbase⟩
  constructor
  · refine h.of_old (fun x q hx => by rwa [← hobjects]) ?_ (fun q m' hm' => ?_) (fun x q m _ hst _ => hstays x q m hst)
      fun x q hx => ?_
    · intro z g hg hm
      obtain ⟨f, hf, rfl⟩ := Option.map_eq_some_iff.1 (show (k.files z).map _ = some g from hg)
      exact h.unclosable z f hf hm
    -- no queue is new
    · rw [hqueues] at hm'
      obtain ⟨m, hm, -⟩ := Option.map_eq_some_iff.1 hm'
      exact ⟨m, hm⟩
    · rw [hobjects] at hx
      obtain ⟨m, hst, hr⟩ := h.stands x q hx
      obtain ⟨m', hst', hr', -⟩ := hstands x q m hst hr
      obtain ⟨r, hrx⟩ := h.inUse x q hx
      exact ⟨⟨r, (hrefers r x).2 (Or.inl hrx)⟩, m', hst', hr'⟩
  · exact h.freesNothing (fun x _ r _ hr => (hrefers r x).2 (Or.inl hr)) hstays

/-- A fork whose process holds each queue once comes back, whether the queues have room or not. -/
theorem Consistent.doFork_eq (h : Consistent bump k) {child : Proc}
    (honce : ∀ fd, ∀ x ∈ k.table p fd, (k.queueOf x).isSome = true → held (k.table p) x ≤ 1) :
    k.doFork bump p child =
      .ok (child.val, (k.spawned bump p child).joined child (List.finRange maxOpenFiles)) := by
  have htable : (k.setTable child (k.table p)).table child = k.table p := by rw [table_setTable, Function.update_self]
  have hchild : (k.spawned bump p child).table child = k.table p := by rw [table_spawned, Function.update_self]
  have hsetup : (k.setTable child (k.table p)).setupChildContext bump child = .ok (k.spawned bump p child) := by
    rw [setupChildContext_eq, htable]
    · rfl
    · intro fd x hx
      rw [htable] at hx
      exact h.refs.live x (used_of_slot hx)
  -- the child has the table of its parent, who holds every queue once
  have hadd : (k.spawned bump p child).doAddChildToMsgQueue child =
      .ok ((k.spawned bump p child).joined child (List.finRange maxOpenFiles)) := by
    refine doAddChildToMsgQueue_eq (fun fd x hx => ?_) fun i j q hi hj => ?_
    · rw [hchild] at hx
      obtain ⟨f, hf, hqueue⟩ := h.slot hx
      refine ⟨f.bump bump (held (k.table p) x), congrArg (Option.map _) hf, fun q hq => ?_⟩
      rcases hqueue with hplain | ⟨q', m, hm, hst, -, -⟩
      · rw [File.msgQueue_bump, hplain] at hq
        cases hq
      · rw [File.msgQueue_bump, hm] at hq
        obtain rfl := Option.some.inj hq
        exact ⟨m, hst.info⟩
    · rw [hchild, queueOf_spawned] at hi hj
      obtain ⟨x, hx, hxq⟩ := Option.bind_eq_some_iff.1 hi
      obtain ⟨y, hy, hyq⟩ := Option.bind_eq_some_iff.1 hj
      obtain rfl := h.coherent.owner x y q hxq hyq
      exact held_le_one (honce i x hx (by rw [hxq]; rfl)) hx hy
  simp only [doFork, hsetup, hadd, bind, Except.bind]

theorem Consistent.fork (h : Consistent bump k) {child : Proc} (hc : (k.ctx child).isNone = true)
    (honce : ∀ fd, ∀ x ∈ k.table p fd, (k.queueOf x).isSome = true → held (k.table p) x ≤ 1)
    (hroom : ∀ x q m, k.Refers p x → k.Stands x q m → m.memberCount < maxMembers) :
    ∃ ret k', k.doFork bump p child = .ok (ret, k') ∧ k'.table = Function.update k.table child (k.table p) ∧
      Consistent bump k' ∧ FreesTogether k k' := by
  have hempty := table_of_unused hc
  obtain ⟨hcoh, hfrees⟩ := @Coherent.fork k p bump h.coherent child hempty hroom
  have hrefs : Refs Plain bump (k.spawned bump p child) := h.refs.fork hempty
  exact ⟨child.val, (k.spawned bump p child).joined child (List.finRange maxOpenFiles), h.doFork_eq honce,
    table_spawned bump p child k, ⟨hrefs.beside rfl rfl, hcoh⟩, hfrees⟩

end Kernel

/-! ## Runs -/

namespace Call

open Kernel

/-- The calls that open files, and create, share, use and give up queues. -/
def OnQueues : Call → Prop
  | openFile .. | openStd .. | dup2 .. | close .. | createQueue .. | msg .. | closeQueue .. | fork .. | exit .. => True
  | _ => False

def Opens : Call → Prop
  | openFile .. | openStd .. => True
  | _ => False

/-- A child's queues have room for it. -/
def Room (k : Kernel) : Call → Prop
  | fork p _ => ∀ fd, ∀ x ∈ k.table p fd, ∀ q ∈ k.queueOf x, ∀ m ∈ k.queues q, m.memberCount < maxMembers
  | _ => True

/-- The page an open may put its object on names no queue. -/
def NamesNone (page : Option (Ptr × File)) : Prop := ∀ o ∈ page, o.2.msgQueue = none

instance (page : Option (Ptr × File)) : Decidable (NamesNone page) := by unfold NamesNone; infer_instance

/-- What calls leave to their callers: they do not look whether a process has another slot for the
queue, nor at what a page holds. -/
def Orderly (k : Kernel) : Call → Prop
  | openFile p filename flags mode page => (openFile p filename flags mode page).Careful k ∧
      (¬ k.TurnedDown filename flags → NamesNone page)
  | openStd p type page => (openStd p type page).Careful k ∧ (k.table p (stdFd type) = none → NamesNone page)
  | dup2 p old new => ¬ k.Sole p old new ∧ k.DupKeeps p old new
  | closeQueue p fd => ∀ x ∈ k.table p fd, (k.queueOf x).isSome = true → held (k.table p) x ≤ 1
  | fork p _ => ∀ fd, ∀ x ∈ k.table p fd, (k.queueOf x).isSome = true → held (k.table p) x ≤ 1
  | exit p => k.ExitKeeps p
  | _ => True

instance (c : Call) : Decidable c.OnQueues := by
  rcases c <;> unfold OnQueues <;> infer_instance

instance (c : Call) : Decidable c.Opens := by
  rcases c <;> unfold Opens <;> infer_instance

instance (k : Kernel) (c : Call) : Decidable (c.Room k) := by
  rcases c <;> unfold Room <;> infer_instance

instance (k : Kernel) (c : Call) : Decidable (c.Orderly k) := by
  rcases c <;> unfold Orderly <;> infer_instance

end Call

/-- A call the system can make, orderly or not. Files that are no queues' are counted, which takes a
`setup_child_context` with one reference a slot. -/
structure QueueCall (bump : ℕ) (k : Kernel) (c : Call) : Prop where
  onQueues : c.OnQueues
  legal : c.Legal k
  served : c.Served
  counts : c.Opens → bump = 1

namespace Kernel

variable {k : Kernel} {c : Call} {bump : ℕ}

/-- One orderly call keeps queues consistent and frees what it should. -/
theorem Consistent.step (h : Consistent bump k) (hc : QueueCall bump k c) (hroom : c.Room k) (hord : c.Orderly k) :
    ∃ ret k', c.exec bump k = .ok (ret, k') ∧ Consistent bump k' ∧ FreesTogether k k' := by
  obtain ⟨hon, hlegal, hserved, hcounts⟩ := hc
  have hpages := hlegal.pages
  cases c with
  | openFile p filename flags mode page =>
    obtain rfl := hcounts trivial
    obtain ⟨⟨x, f⟩, rfl⟩ := Option.isSome_iff_exists.1 hserved
    obtain ⟨ret, k', hk', hop⟩ :=
      doRegularFileOpen_opened (p := p) (x := x) (fun ht => hord.2 ht (x, f) rfl) hord.1 mode
    exact ⟨ret, k', hk', h.opened (hpages _ rfl).files hop⟩
  | openStd p type page =>
    obtain rfl := hcounts trivial
    obtain ⟨⟨x, f⟩, rfl⟩ := Option.isSome_iff_exists.1 hserved
    have hlive : ∀ y, k.table p (stdFd type) = some y → ∃ g, k.files y = some g := fun y hy =>
      h.refs.live y (used_of_slot hy)
    obtain ⟨ret, k', hk', hop⟩ := openStandardIo_opened (x := x) (fun hs => hord.2 hs (x, f) rfl) hlive hord.1
    exact ⟨ret, k', hk', h.opened (hpages _ rfl).files hop⟩
  | dup2 p old new => exact h.dup2 hord.1 hord.2
  | close p fd unset => exact h.close p fd unset
  | createQueue p info buffer page =>
    obtain ⟨ret, k', hk', -, hcons⟩ := h.create (p := p) hpages.1 hpages.2.1 hpages.2.2 hserved
    exact ⟨ret, k', hk', hcons⟩
  | msg p fd c =>
    obtain ⟨ret, k', hk', -, hcons⟩ := h.msg p fd c
    exact ⟨ret, k', hk', hcons⟩
  | closeQueue p fd =>
    obtain ⟨ret, k', hk', -, hcons⟩ := h.closeQueue hord
    exact ⟨ret, k', hk', hcons⟩
  | fork p child =>
    obtain ⟨ret, k', hk', -, hcons⟩ := h.fork hlegal.child hord fun x q m ⟨fd, hfd⟩ hst =>
      hroom fd x hfd q hst.object m hst.info
    exact ⟨ret, k', hk', hcons⟩
  | exit p =>
    obtain ⟨k', hk', -, hcons⟩ := h.exit (p := p) hord
    exact ⟨0, k', by simp only [Call.exec, hk', Functor.map, Except.map], hcons⟩
  | read | write | lseek | sendfile => exact hon.elim

end Kernel

/-- An orderly call that came back, in a system where queues have room for the children of their
members. -/
structure OrderlyStep (bump : ℕ) (k : Kernel) (c : Call) (k' : Kernel) : Prop where
  call : QueueCall bump k c
  room : c.Room k
  orderly : c.Orderly k
  exec : ∃ ret, c.exec bump k = .ok (ret, k')

theorem run_orderly {k : Kernel} {cs : List Call}
    (h : Scripted (Call.next 1) (fun k c => (c.OnQueues ∧ c.Legal k ∧ c.Served ∧ c.Room k ∧ c.Orderly k) ∧
      c.returns 1 k = true) k cs) :
    Run (OrderlyStep 1) k (script (Call.next 1) k cs).1 (script (Call.next 1) k cs).2 := by
  refine Run.script (Call.next 1) _ ?_ h
  rintro k c ⟨⟨hon, hlegal, hserved, hroom, hord⟩, hret⟩
  exact ⟨⟨hon, hlegal, hserved, fun _ => rfl⟩, hroom, hord, Call.exec_next hret⟩

end CS330.Os
