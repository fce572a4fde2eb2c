/-
How many members a queue gets, over whole runs of creating, forking, leaving and exiting in any family
tree: as many as its table has cells, as long as no process forks that holds a full queue.
-/
import CS330.Os.Members
import CS330.Queue.Indices

namespace CS330.Os

open CS330.Lib CS330.Queue

namespace Call

/-- The calls that create queues, use them, and change who their members are. -/
def OnMembers : Call → Prop
  | createQueue .. | msg .. | closeQueue .. | fork .. | exit .. => True
  | _ => False

instance (c : Call) : Decidable c.OnMembers := by
  rcases c <;> unfold OnMembers <;> infer_instance

/-- The child's entry in each queue it joins is inside the table. -/
def JoinsInside (k : Kernel) : Call → Prop
  | fork p child => ∀ fd, ∀ x ∈ k.table p fd, ∀ q ∈ k.queueOf x, ∀ m ∈ k.queues q, m.Inside (pid child) .addChild
  | _ => True

theorem joinsInside_iff {k : Kernel} {c : Call} : c.JoinsInside k ↔ c.Room k := by
  cases c with
  | fork p child => simp only [JoinsInside, Room, MsgQueue.inside_addChild]
  | openFile | openStd | read | write | lseek | sendfile | dup2 | close | createQueue | msg | closeQueue | exit =>
    exact Iff.rfl

end Call

/-- A call on queues that the system can make. -/
structure MemberCall (k : Kernel) (c : Call) : Prop where
  onMembers : c.OnMembers
  legal : c.Legal k
  served : c.Served

namespace Kernel

/-- The members of every queue fit its table. -/
def InTables (k : Kernel) : Prop := ∀ q m, k.queues q = some m → m.Fits

/-- No process has two slots for one object. -/
def Single (k : Kernel) : Prop := ∀ p x, held (k.table p) x ≤ 1

variable {k k' : Kernel} {p : Proc} {fd : Fd} {c : Call} {bump : ℕ}

theorem Idle.single (h : k.Idle) : Single k := by
  intro p x
  rw [held_eq_zero.2 fun fd hfd => by rw [h.table] at hfd; cases hfd]
  exact Nat.zero_le 1

theorem Single.update {t : Table} (h : Single k) (ht : k'.table = Function.update k.table p t)
    (hle : ∀ x, held t x ≤ 1) : Single k' := by
  intro r x
  rw [ht]
  by_cases hr : r = p
  · subst hr
    rw [Function.update_self]
    exact hle x
  · rw [Function.update_of_ne hr]
    exact h r x

theorem Single.fills (h : Single k) (hlive : ∀ p x, k.Refers p x → ∃ f, k.files x = some f) (hk : Fills p k k') :
    Single k' := by
  obtain ⟨fd, x, hs, hx, ht⟩ := hk
  refine h.update ht fun z => ?_
  have hupd := held_update (k.table p) fd (some x) z
  have hz := h p z
  by_cases hzx : x = z
  · subst hzx
    have hzero : held (k.table p) x = 0 := held_eq_zero.2 fun i hi => by
      obtain ⟨f, hf⟩ := hlive p x ⟨i, hi⟩
      rw [hx] at hf
      cases hf
    rw [if_pos rfl] at hupd
    omega
  · rw [if_neg fun he => hzx (Option.some.inj he)] at hupd
    omega

theorem Single.empties (h : Single k)
    (ht : k'.table = Function.update k.table p (Function.update (k.table p) fd none)) : Single k' := by
  refine h.update ht fun z => ?_
  have hupd := held_update (k.table p) fd none z
  have hz := h p z
  rw [if_neg (Option.some_ne_none z).symm] at hupd
  omega

/-- Where no process has two slots for one object, every call on queues is orderly. -/
theorem Single.orderly (h : Single k) (hon : c.OnMembers) : c.Orderly k := by
  cases c with
  | closeQueue p fd => exact fun x _ _ => h p x
  | fork p child => exact fun fd x _ _ => h p x
  | exit p => exact fun fd x _ f _ q _ m _ => Or.inl (h p x)
  | createQueue | msg => exact trivial
  | openFile | openStd | read | write | lseek | sendfile | dup2 | close => exact hon.elim

theorem Consistent.inTables (h : Consistent bump k) : InTables k := by
  intro q m hm
  obtain ⟨x, hst⟩ := h.coherent.owned q m hm
  have hr := h.coherent.roster hst
  exact MsgQueue.fits_of_count hr.count

/-- One call with room keeps queues consistent, and no process gets a second slot for an object. -/
theorem Consistent.single_step (h : Consistent bump k) (hs : Single k) (hc : MemberCall k c) (hroom : c.Room k) :
    ∃ ret k', c.exec bump k = .ok (ret, k') ∧ Consistent bump k' ∧ Single k' := by
  obtain ⟨hon, hlegal, hserved⟩ := hc
  have hord := hs.orderly hon
  have hpages := hlegal.pages
  cases c with
  | createQueue p info buffer page =>
    obtain ⟨ret, k', hk', ht, hcons, -⟩ := h.create (p := p) hpages.1 hpages.2.1
      hpages.2.2 hserved
    refine ⟨ret, k', hk', hcons, ?_⟩
    rcases ht with ht | hfills
    · intro r x
      rw [ht]
      exact hs r x
    · exact hs.fills (fun r x hx => h.refs.live x (used_pos.2 ⟨r, hx⟩)) hfills
  | msg p fd c =>
    obtain ⟨ret, k', hk', ht, hcons, -⟩ := h.msg p fd c
    exact ⟨ret, k', hk', hcons, fun r x => by rw [ht]; exact hs r x⟩
  | closeQueue p fd =>
    obtain ⟨ret, k', hk', ht, hcons, -⟩ := h.closeQueue hord
    refine ⟨ret, k', hk', hcons, ?_⟩
    rcases ht with ht | ht
    · intro r x
      rw [ht]
      exact hs r x
    · exact hs.empties ht
  | fork p child =>
    obtain ⟨ret, k', hk', ht, hcons, -⟩ := h.fork hlegal.child hord fun x q m ⟨fd, hfd⟩ hst =>
      hroom fd x hfd q hst.object m hst.info
    exact ⟨ret, k', hk', hcons, hs.update ht fun x => hs p x⟩
  | exit p =>
    obtain ⟨k', hk', ht, hcons, -⟩ := h.exit (p := p) hord
    refine ⟨0, k', by simp only [Call.exec, hk', Functor.map, Except.map], hcons, hs.update ht fun x => ?_⟩
    rw [held_empty]
    exact Nat.zero_le 1
  | openFile | openStd | read | write | lseek | sendfile | dup2 | close => exact hon.elim

/-- A fork by a process that holds a full queue makes it overfull. -/
theorem Consistent.overfull (h : Consistent bump k) (hs : Single k) {child : Proc}
    (hroom : ¬ (Call.fork p child).Room k) :
    ∃ ret k', (Call.fork p child).exec bump k = .ok (ret, k') ∧ ¬ InTables k' := by
  refine ⟨_, _, h.doFork_eq fun fd x _ _ => hs p x, fun hb => hroom ?_⟩
  intro fd x hfd q hq m hm
  have hreached : (k.spawned bump p child).Reached child (List.finRange maxOpenFiles) q := by
    rw [reached_all, queueOf_spawned]
    refine ⟨x, ⟨fd, ?_⟩, hq⟩
    rw [table_spawned, Function.update_self]
    exact hfd
  have hqueue : ((k.spawned bump p child).joined child (List.finRange maxOpenFiles)).queues q =
      some (m.addChild (pid child)) := by
    have hm : k.queues q = some m := hm
    change (k.queues q).map _ = _
    rw [hm, Option.map_some, if_pos hreached]
  exact (hb q _ hqueue).count

end Kernel

/-- A call on queues that came back, made while the queues of a forking process have room. -/
structure RoomyStep (bump : ℕ) (k : Kernel) (c : Call) (k' : Kernel) : Prop where
  call : MemberCall k c
  room : c.Room k
  exec : ∃ ret, c.exec bump k = .ok (ret, k')

/-- Members fit their tables in every state that calls with room lead to, and a next call keeps it so,
with all joins inside the tables, if and only if it has room. -/
theorem run_bounded {bump : ℕ} {k₀ k : Kernel} {cs : List Call} (h₀ : k₀.Idle) (hrun : Run (RoomyStep bump) k₀ cs k) :
    k.InTables ∧ ∀ c, MemberCall k c →
      ∃ ret k', c.exec bump k = .ok (ret, k') ∧ (k'.InTables ∧ c.JoinsInside k ↔ c.Room k) := by
  have hinv : k.Consistent bump ∧ k.Single := by
    refine Run.invariant (P := fun k => k.Consistent bump ∧ k.Single) ⟨h₀.consistent, h₀.single⟩ (fun k c k' h hs => ?_)
      hrun
    obtain ⟨ret, hret⟩ := hs.exec
    obtain ⟨ret', k'', hret', h'⟩ := h.1.single_step h.2 hs.call hs.room
    obtain ⟨-, rfl⟩ := Prod.mk.inj (Except.ok.inj (hret.symm.trans hret'))
    exact h'
  obtain ⟨hcons, hsingle⟩ := hinv
  refine ⟨hcons.inTables, fun c hc => ?_⟩
  by_cases hroom : c.Room k
  · obtain ⟨ret, k', hret, hcons', -⟩ := hcons.single_step hsingle hc hroom
    exact ⟨ret, k', hret, fun _ => hroom, fun _ => ⟨hcons'.inTables, Call.joinsInside_iff.2 hroom⟩⟩
  · cases c with
    | fork p child =>
      obtain ⟨ret, k', hret, hover⟩ := hcons.overfull hsingle hroom
      exact ⟨ret, k', hret, fun hb => absurd hb.1 hover, fun hr => absurd hr hroom⟩
    | openFile | openStd | read | write | lseek | sendfile | dup2 | close | createQueue | msg | closeQueue | exit =>
      exact absurd trivial hroom

theorem run_roomy {k : Kernel} {cs : List Call}
    (h : Scripted (Call.next 1) (fun k c => (c.OnMembers ∧ c.Legal k ∧ c.Served ∧ c.Room k) ∧ c.returns 1 k = true)
      k cs) : Run (RoomyStep 1) k (script (Call.next 1) k cs).1 (script (Call.next 1) k cs).2 := by
  refine Run.script (Call.next 1) _ ?_ h
  rintro k c ⟨⟨hon, hlegal, hserved, hroom⟩, hret⟩
  exact ⟨⟨hon, hlegal, hserved⟩, hroom, Call.exec_next hret⟩

/-- Process 1 creates a queue. -/
def founding : Call := .createQueue 1 (some (4096, .zero)) (some 8192) (some (12288, zeroPage))

/-- A queue is filled by a child and two grandchildren, the child leaves, and process 1 forks once
more. -/
theorem run_bounded_of_five :
    let cs : List Call := [founding, .fork 1 2, .fork 2 3, .fork 2 4, .exit 2, .fork 1 5]
    let k := (script (Call.next 1) first cs).2
    k.InTables ∧ ∀ c, MemberCall k c →
      ∃ ret k', c.exec 1 k = .ok (ret, k') ∧ (k'.InTables ∧ c.JoinsInside k ↔ c.Room k) := by
  intro cs k
  exact @run_bounded 1 first k (script (Call.next 1) first cs).1 (Kernel.idle_boot ..)
    (@run_roomy first cs (by decide +kernel))

/-- The fourth child of the creator is the fifth member: it is written behind the table, and the queue
reports more members than it has cells. -/
theorem fourth_fork_overfills_table :
    let cs : List Call := [founding, .fork 1 2, .fork 1 3, .fork 1 4]
    let k := (script (Call.next 1) first cs).2
    let k' := (Call.next 1 k (.fork 1 5)).2
    Run (RoomyStep 1) first cs k ∧ MemberCall k (.fork 1 5) ∧ (Call.fork 1 5).returns 1 k = true ∧
      (k'.queues 4096).map MsgQueue.memberCount = some 5 ∧
      (k.queues 4096).map (fun m => (m.indices (pid 5) .addChild).pids) = some [4] := by
  intro cs k k'
  exact ⟨@run_roomy first cs (by decide +kernel), ⟨trivial, by decide +kernel, by decide +kernel⟩, by decide +kernel,
    by decide +kernel, by decide +kernel⟩

end CS330.Os
