/-
The life of a file object, over whole runs: it is opened with one reference, shared by dup2 and
fork, given up by close, dup2 and exit, and freed with its last reference. Message queues come into
being elsewhere; but a page may still name one of another time at `msg_queue`, where `alloc_file`
leaves what it finds.
-/
import CS330.Lib.Run
import CS330.Os.Refs

namespace CS330.Os

open CS330.Lib CS330.Fs CS330.Queue

namespace Kernel

/-- All counts are exact, and there are no message queues. -/
structure Counted (k : Kernel) : Prop where
  refs : Refs Any 1 k
  queues : ∀ q, k.queues q = none

/-- What a call that shares or gives up files does: counts stay exact, what loses its last slot is
freed, and nothing else about any file changes. -/
structure Shares (k k' : Kernel) : Prop where
  counted : Counted k'
  frees : Frees Any k k'
  keeps : OnlyCounts k k'

variable {k : Kernel} {p : Proc} {fd old new : Fd} {x : Ptr} {f : File} {bump : ℕ} {own : Option Ptr → Prop}

theorem Idle.counted (h : k.Idle) : Counted k := by
  have hnone : ∀ x, k.used x = 0 := by
    intro x
    by_contra hpos
    obtain ⟨p, fd, hs⟩ := used_pos.1 (show 0 < k.used x by omega)
    rw [h.table] at hs
    cases hs
  constructor
  · constructor
    · intro x hx
      rw [hnone] at hx
      cases hx
    · intro x f hf
      rw [h.files] at hf
      cases hf
  · exact h.queues

theorem Counted.slot (h : Counted k) (hs : k.table p fd = some x) :
    ∃ f, k.files x = some f ∧ f.refCount = k.used x := by
  obtain ⟨f, hf⟩ := h.refs.live x (used_of_slot hs)
  exact ⟨f, hf, (h.refs.exact x f hf trivial (used_of_slot hs)).2⟩

theorem Counted.of_onlyCounts {k' : Kernel} (h : Counted k) (hr : Refs Any 1 k') (hk : OnlyCounts k k') :
    Counted k' := by
  refine ⟨hr, ?_⟩
  rw [hk.queues]
  exact h.queues

theorem Shares.refl (h : Counted k) : Shares k k := by
  refine ⟨h, Frees.same rfl fun x f hf => ?_, .refl k⟩
  rw [hf]
  exact Option.some_ne_none f

/-! ## Sharing and giving up -/

theorem Counted.release (h : Counted k) (hs : k.table p fd = some x) (hf : k.files x = some f) :
    Shares k (k.released p fd x f) := by
  have hq : ¬ Any f.msgQueue → f.drop 1 ≠ none := fun hm => absurd trivial hm
  have hkeep : OnlyCounts k (k.released p fd x f) := onlyCounts_released hf
  exact ⟨h.of_onlyCounts (h.refs.release hs hf hq) hkeep, h.refs.release_frees hs hf hq, hkeep⟩

theorem Shares.acquire {k₁ : Kernel} (h : Shares k k₁) (hs : k₁.table p fd = none) (hf : k₁.files x = some f)
    (hx : 0 < k₁.used x) : Shares k (k₁.acquired p fd x f) := by
  have hkeep : OnlyCounts k₁ (k₁.acquired p fd x f) := onlyCounts_acquired hf
  refine ⟨h.counted.of_onlyCounts (h.counted.refs.acquire hs hf fun _ => hx) hkeep, ?_, h.keeps.trans hkeep⟩
  refine h.frees.acquire hs (fun _ => hx) fun g hg => ?_
  obtain ⟨g', hg', c, rfl⟩ := h.keeps.files x f hf
  obtain rfl := Option.some.inj (hg.symm.trans hg')
  rfl

/-- A duplicate over the sole reference to the object it duplicates. -/
def Sole (k : Kernel) (p : Proc) (old new : Fd) : Prop :=
  old = new ∧ ∃ x ∈ k.table p old, ∃ f ∈ k.files x, f.refCount = 1

instance (k : Kernel) (p : Proc) (old new : Fd) : Decidable (k.Sole p old new) := by unfold Sole; infer_instance

/-- What a duplicate comes to when the object is still there after the target is closed. -/
theorem Refs.dup2_cases (h : Refs own bump k) (hsole : ¬ k.Sole p old new)
    (hq : ∀ x y g, k.table p old = some x → k.table p new = some y → k.files y = some g → ¬ own g.msgQueue →
      g.drop 1 ≠ none) :
    k.fdDup2 p old new = .ok (-einval, k) ∨
    (∃ x f, k.table p old = some x ∧ k.table p new = none ∧ k.files x = some f ∧
      k.fdDup2 p old new = .ok (new.val, k.acquired p new x f)) ∨
    ∃ x y g f, k.table p old = some x ∧ k.table p new = some y ∧ k.files y = some g ∧
      (k.released p new y g).files x = some f ∧ (own f.msgQueue → 0 < (k.released p new y g).used x) ∧
      k.fdDup2 p old new = .ok (new.val, (k.released p new y g).acquired p new x f) := by
  cases ho : k.table p old with
  | none => exact Or.inl (by simp only [fdDup2, ho])
  | some x =>
    have hpos := used_of_slot ho
    cases hn : k.table p new with
    | none =>
      obtain ⟨f, hf⟩ := h.live x hpos
      exact Or.inr (Or.inl ⟨x, f, rfl, rfl, hf, fdDup2_empty ho hn hf⟩)
    | some y =>
      obtain ⟨g, hg⟩ := h.live y (used_of_slot hn)
      refine Or.inr (Or.inr ?_)
      by_cases hleft : 0 < (k.released p new y g).used x
      · obtain ⟨f, hf⟩ := (h.release hn hg (hq x y g ho hn hg)).live x hleft
        exact ⟨x, y, g, f, rfl, rfl, hg, hf, fun _ => hleft, fdDup2_open ho hn hg hf⟩
      · -- the overwritten slot is the only one that refers to the object
        have hused := used_released (f := g) hn x
        have hyx : y = x := by
          by_contra hne
          rw [if_neg hne] at hused
          omega
        subst hyx
        rw [if_pos rfl] at hused
        have hfd : old = new := by
          by_contra hne
          have := two_le_held ho hn hne
          have := held_le_used k p y
          omega
        have hm : ¬ own g.msgQueue := by
          intro hm
          have hcount := (h.exact y g hg hm hpos).2
          exact hsole ⟨hfd, y, ho, g, hg, by omega⟩
        obtain ⟨f, hf⟩ := Option.ne_none_iff_exists'.1 (hq y y g ho hn hg hm)
        have hfile : (k.released p new y g).files y = some f := by
          rw [files_released, Function.update_self, hf]
        obtain rfl := File.drop_some hf
        exact ⟨y, y, g, _, rfl, rfl, hg, hfile, fun hown => absurd hown hm, fdDup2_open ho hn hg hfile⟩

theorem Counted.dup2 (h : Counted k) (hsole : ¬ k.Sole p old new) :
    ∃ ret k', k.fdDup2 p old new = .ok (ret, k') ∧ Shares k k' := by
  rcases h.refs.dup2_cases hsole fun _ _ _ _ _ _ hm => absurd trivial hm with
    he | ⟨x, f, ho, hn, hf, he⟩ | ⟨x, y, g, f, ho, hn, hg, hf, hpos, he⟩
  · exact ⟨_, _, he, .refl h⟩
  · exact ⟨_, _, he, (Shares.refl h).acquire hn hf (used_of_slot ho)⟩
  · have hrel := h.release hn hg
    refine ⟨_, _, he, hrel.acquire ?_ hf (hpos trivial)⟩
    simp

theorem dup2_fault (hsole : k.Sole p old new) : k.fdDup2 p old new = .error .useAfterFree := by
  obtain ⟨rfl, x, hx, f, hf, hone⟩ := hsole
  refine fdDup2_freed hx hx hf ?_
  rw [← hone]
  exact drop_last (by omega) (by omega)

theorem Counted.close (h : Counted k) (p : Proc) (fd : Fd) (unset : ℤ) :
    ∃ ret k', k.doClose p fd unset = .ok (ret, k') ∧ Shares k k' := by
  cases hs : k.table p fd with
  | none => exact ⟨-einval, k, by simp only [doClose, hs], .refl h⟩
  | some x =>
    obtain ⟨f, hf, -⟩ := h.slot hs
    rw [doClose_eq hs hf]
    split
    · exact ⟨_, k, rfl, .refl h⟩
    · exact ⟨_, _, rfl, h.release hs hf⟩

/-- No open file of the process names a queue. -/
def Unqueued (k : Kernel) (p : Proc) : Prop := ∀ fd, ∀ x ∈ k.table p fd, k.queueOf x = none

instance (k : Kernel) (p : Proc) : Decidable (k.Unqueued p) := by unfold Unqueued; infer_instance

/-- A loop over the descriptors that follows every queue named, where there are none. -/
theorem foldlM_unqueued {body : Kernel → Fd → Except Fault Kernel}
    (hempty : ∀ fd, k.table p fd = none → body k fd = .ok k)
    (hslot : ∀ fd x, k.table p fd = some x →
      body k fd = if k.queueOf x ≠ none then .error .useAfterFree else .ok k) :
    (List.finRange maxOpenFiles).foldlM body k = if k.Unqueued p then .ok k else .error .useAfterFree := by
  have hbad : (∃ fd ∈ List.finRange maxOpenFiles, ∃ x ∈ k.table p fd, k.queueOf x ≠ none) ↔ ¬ k.Unqueued p := by
    unfold Unqueued
    push Not
    simp only [List.mem_finRange, true_and]
  rw [foldlM_guard .useAfterFree fun fd => ∃ x ∈ k.table p fd, k.queueOf x ≠ none]
  · simp only [hbad, ite_not]
  · intro fd _
    cases hs : k.table p fd with
    | none => simpa using hempty fd hs
    | some x => simpa using hslot fd x hs

theorem doAddChildToMsgQueue_unqueued (hnone : ∀ q, k.queues q = none)
    (hlive : ∀ fd x, k.table p fd = some x → ∃ f, k.files x = some f) :
    k.doAddChildToMsgQueue p = if k.Unqueued p then .ok k else .error .useAfterFree := by
  refine foldlM_unqueued (fun fd hs => by simp only [addChildAt, hs]) fun fd x hs => ?_
  obtain ⟨f, hf⟩ := hlive fd x hs
  simp only [addChildAt, hs, file_eq hf, queueOf_eq hf, bind, Except.bind]
  cases f.msgQueue with
  | none => rfl
  | some q => simp only [queue, hnone, ne_eq, reduceCtorEq, not_false_eq_true, if_true]

theorem doMsgQueueCleanup_unqueued (hnone : ∀ q, k.queues q = none)
    (hlive : ∀ fd x, k.table p fd = some x → ∃ f, k.files x = some f) :
    k.doMsgQueueCleanup p = if k.Unqueued p then .ok k else .error .useAfterFree := by
  refine foldlM_unqueued (fun fd hs => by simp only [cleanupAt, hs]) fun fd x hs => ?_
  obtain ⟨f, hf⟩ := hlive fd x hs
  simp only [cleanupAt, doMsgQueueClose, hs, file_eq hf, queueOf_eq hf, bind, Except.bind]
  cases f.msgQueue with
  | none => rfl
  | some q =>
    simp only [queue, hnone, Option.isSome_some, ne_eq, reduceCtorEq, not_false_eq_true, if_true, Functor.map,
      Except.map]

/-- Without queues a fork copies the table and counts the child's references, unless a file of the
process names a queue. -/
theorem Counted.doFork_eq (h : Counted k) {child : Proc} :
    k.doFork 1 p child = if k.Unqueued p then
      .ok (child.val, (k.setTable child (k.table p)).gained 1 (held (k.table p))) else .error .useAfterFree := by
  set s := (k.setTable child (k.table p)).gained 1 (held (k.table p)) with hs
  have htable : (k.setTable child (k.table p)).table child = k.table p := by
    rw [table_setTable, Function.update_self]
  have hsetup : (k.setTable child (k.table p)).setupChildContext 1 child = .ok s := by
    rw [setupChildContext_eq, htable]
    intro fd x hx
    rw [htable] at hx
    obtain ⟨f, hf, -⟩ := h.slot hx
    exact ⟨f, hf⟩
  have hqueue : s.queueOf = k.queueOf := by
    funext z
    change ((k.files z).map _).bind _ = (k.files z).bind _
    rw [Option.bind_map]
    rfl
  -- the child names what its parent names
  have hun : s.Unqueued child ↔ k.Unqueued p := by
    unfold Unqueued
    rw [hqueue, hs, table_gained, htable]
  have hadd : s.doAddChildToMsgQueue child = if k.Unqueued p then .ok s else .error .useAfterFree := by
    rw [doAddChildToMsgQueue_unqueued (k := s) h.queues]
    · simp only [hun]
    · intro fd x hx
      rw [hs, table_gained, htable] at hx
      obtain ⟨f, hf, -⟩ := h.slot hx
      exact ⟨_, congrArg (Option.map _) hf⟩
  by_cases hplain : k.Unqueued p
  · rw [if_pos hplain] at hadd ⊢
    simp only [doFork, hsetup, hadd, bind, Except.bind]
  · rw [if_neg hplain] at hadd ⊢
    simp only [doFork, hsetup, hadd, bind, Except.bind]

theorem Counted.fork (h : Counted k) (hplain : k.Unqueued p) {child : Proc} (hc : (k.ctx child).isNone = true) :
    ∃ ret k', k.doFork 1 p child = .ok (ret, k') ∧ Shares k k' := by
  have hempty := table_of_unused hc
  have hkeep : OnlyCounts k ((k.setTable child (k.table p)).gained 1 (held (k.table p))) := by
    refine ⟨fun x g hg => ?_, rfl, rfl, rfl⟩
    obtain ⟨f, hf, rfl⟩ := Option.map_eq_some_iff.1 hg
    exact ⟨f, hf, _, rfl⟩
  exact ⟨child.val, _, h.doFork_eq.trans (if_pos hplain), h.of_onlyCounts (h.refs.fork hempty) hkeep,
    Frees.fork hempty, hkeep⟩

/-- Without queues an exit gives up the references of the table and the table itself, unless a file of
the process names a queue. -/
theorem Counted.doExit_eq (h : Counted k) (p : Proc) :
    ∃ objects, k.doExit p = if k.Unqueued p then .ok ((k.lost (held (k.table p)) objects).vacated p)
      else .error .useAfterFree := by
  have hclean := doMsgQueueCleanup_unqueued (p := p) h.queues fun fd x hx => (h.slot hx).imp fun _ hf => hf.1
  have hlive : ∀ fd x, k.table p fd = some x → ∃ f, k.files x = some f ∧
      ∀ n < held (k.table p) x, (f.drop n).isSome := by
    intro fd x hx
    obtain ⟨f, hf, hcount⟩ := h.slot hx
    refine ⟨f, hf, fun n hn => ?_⟩
    have := held_le_used k p x
    have := k.used_le x
    rw [drop_of_lt (by omega) (by omega)]
    rfl
  obtain ⟨objects, hexit⟩ := doFileExit_eq hlive
  refine ⟨objects, ?_⟩
  by_cases hplain : k.Unqueued p
  · rw [if_pos hplain] at hclean ⊢
    simp only [doExit, hclean, hexit, bind, Except.bind, vacated]
  · rw [if_neg hplain] at hclean ⊢
    simp only [doExit, hclean, bind, Except.bind]

theorem Counted.exit (h : Counted k) (hplain : k.Unqueued p) : ∃ k', k.doExit p = .ok k' ∧ Shares k k' := by
  obtain ⟨objects, hexit⟩ := h.doExit_eq p
  rw [if_pos hplain] at hexit
  have hq : ∀ x f, k.files x = some f → ¬ Any f.msgQueue → f.drop (held (k.table p) x) ≠ none :=
    fun _ _ _ hm => absurd trivial hm
  have hkeep : OnlyCounts k ((k.lost (held (k.table p)) objects).vacated p) := by
    refine ⟨fun x g hg => ?_, rfl, rfl, rfl⟩
    obtain ⟨f, hf, hdrop⟩ := Option.bind_eq_some_iff.1 hg
    exact ⟨f, hf, _, File.drop_some hdrop⟩
  exact ⟨_, hexit, h.of_onlyCounts (h.refs.exit objects hq) hkeep, h.refs.exit_frees objects hq, hkeep⟩

/-! ## Opening -/

/-- What an open for which `x` is the new page comes to, where `queue` is what the page holds at
`msg_queue`: nothing, an object on the page that no slot refers to, an object on the page for an empty
slot, or one more slot for an open stream. -/
inductive Opened (k : Kernel) (p : Proc) (x : Ptr) (queue : Option Ptr) : Kernel → Prop
  | same (sb : SuperBlock) : Opened k p x queue { k with sb := sb }
  | leak (sb : SuperBlock) (f : File) : f.msgQueue = queue → Opened k p x queue ({ k with sb := sb }.alloced x f)
  | fill (sb : SuperBlock) (f : File) (fd : Fd) : f.msgQueue = queue → f.refCount = 1 → k.table p fd = none →
      Opened k p x queue (({ k with sb := sb }.alloced x f).setSlot p fd (some x))
  | share (y : Ptr) (g : File) (src fd : Fd) : k.table p src = some y → k.files y = some g →
      k.table p fd = none → Opened k p x queue (k.acquired p fd y g)

theorem openInode_opened (sb : SuperBlock) (i : ℕ) (flags : UInt64) :
    ∃ ret k', { k with sb := sb }.openInode p i flags (some (x, f)) = .ok (ret, k') ∧
      Opened k p x f.msgQueue k' := by
  have he := openInode_eq { k with sb := sb } p i flags x f
  cases hfd : firstFree ({ k with sb := sb }.table p) with
  | some fd =>
    rw [hfd] at he
    exact ⟨fd.val, _, he, .fill sb (openedFile f i flags) fd rfl rfl (firstFree_some hfd)⟩
  | none =>
    rw [hfd] at he
    exact ⟨-enomem, _, he, .leak sb (openedFile f i flags) rfl⟩

theorem doRegularFileOpen_opened {filename : List UInt8} {flags : UInt64} {queue : Option Ptr}
    (hqueue : ¬ k.TurnedDown filename flags → f.msgQueue = queue) (hname : k.NameFits filename flags) (mode : UInt64) :
    ∃ ret k', k.doRegularFileOpen p filename flags mode (some (x, f)) = .ok (ret, k') ∧ Opened k p x queue k' := by
  by_cases ht : k.TurnedDown filename flags
  · obtain ⟨ret, -, he⟩ := ht.eq p mode (some (x, f))
    exact ⟨ret, k, he, .same k.sb⟩
  obtain rfl := hqueue ht
  rcases k.doRegularFileOpen_cases p filename flags mode (some (x, f)) with
    he | ⟨sb, -, he⟩ | ⟨hlong, -⟩ | ⟨i, sb, -, he⟩
  · exact ⟨-einval, k, he, .same k.sb⟩
  · exact ⟨-enomem, _, he, .same sb⟩
  · exact absurd hname hlong
  · rw [he]
    exact openInode_opened sb i _

theorem openStandardIo_opened {type : StdType} {queue : Option Ptr}
    (hqueue : k.table p (stdFd type) = none → f.msgQueue = queue)
    (hlive : ∀ y, k.table p (stdFd type) = some y → ∃ g, k.files y = some g)
    (hroom : (k.table p (stdFd type)).isSome = true → (firstFree (k.table p)).isSome = true) :
    ∃ ret k', k.openStandardIo p type (some (x, f)) = .ok (ret, k') ∧ Opened k p x queue k' := by
  cases hs : k.table p (stdFd type) with
  | none => exact ⟨type.val, _, openStandardIo_none hs x f, .fill k.sb (stdFile type f) _ (hqueue hs) rfl hs⟩
  | some y =>
    obtain ⟨g, hg⟩ := hlive y hs
    obtain ⟨fd, hfd⟩ := Option.isSome_iff_exists.1 (hroom (by rw [hs]; rfl))
    refine ⟨fd.val, _, ?_, .share y g _ fd hs hg (firstFree_some hfd)⟩
    rw [openStandardIo_some hs hg, hfd]

/-- The directory has no part in the counts. -/
theorem Refs.directory (h : Refs own bump k) (sb : SuperBlock) : Refs own bump { k with sb := sb } :=
  h.congr rfl fun _ _ => rfl

/-- Opens keep the counts. -/
theorem Refs.opened {k' : Kernel} {queue : Option Ptr} (h : Refs own 1 k) (hx : k.files x = none)
    (hop : Opened k p x queue k') : Refs own 1 k' := by
  cases hop with
  | same sb => exact h.directory sb
  | leak sb f hm => exact (h.directory sb).leak hx
  | fill sb f fd hm hone hs => exact (h.directory sb).fill hs hx fun _ => ⟨rfl, hone⟩
  | share y g src fd hsrc hg hs => exact h.acquire hs hg fun _ => used_of_slot hsrc

theorem Frees.opened {k' : Kernel} {queue : Option Ptr} (hx : k.files x = none) (hop : Opened k p x queue k') :
    Frees own k k' := by
  have hsome : ∀ z g, k.files z = some g → k.files z ≠ none := fun z g hg => by
    rw [hg]
    exact Option.some_ne_none g
  cases hop with
  | same sb => exact Frees.same rfl hsome
  | leak sb f hm =>
    refine Frees.same rfl fun z g hg => ?_
    rw [files_alloced, Function.update_apply]
    split
    · exact Option.some_ne_none f
    · exact hsome z g hg
  | fill sb f fd hm hone hs =>
    have hopen : ({ k with sb := sb } : Kernel).table p fd = none := hs
    exact Frees.fill hopen hx
  | share y g src fd hsrc hg hs =>
    refine (Frees.same rfl hsome).acquire hs (fun _ => used_of_slot hsrc) fun e he => ?_
    rw [Option.some.inj (he.symm.trans hg)]

/-- What an open does to the counts. -/
def Opens (k k' : Kernel) : Prop := Counted k' ∧ Frees Any k k'

theorem Counted.opened {k' : Kernel} {queue : Option Ptr} (h : Counted k) (hx : k.files x = none)
    (hop : Opened k p x queue k') : Opens k k' := by
  refine ⟨⟨h.refs.opened hx hop, ?_⟩, Frees.opened hx hop⟩
  cases hop with
  | same sb => exact h.queues
  | leak sb f hm => exact h.queues
  | fill sb f fd hm hone hs => exact h.queues
  | share y e src fd hsrc he hs => exact h.queues

end Kernel

/-! ## Runs -/

namespace Call

open Kernel

/-- The calls that open, share and give up files. -/
def OnFiles : Call → Prop
  | openFile .. | openStd .. | dup2 .. | close .. | fork .. | exit .. => True
  | _ => False

/-- `os_page_alloc` has a page where one is asked for: `alloc_file` does not look. -/
def Served : Call → Prop
  | openFile _ _ _ _ page | openStd _ _ page => page.isSome = true
  | createQueue _ info buffer page => info.isSome = true → buffer.isSome = true ∧ page.isSome = true
  | _ => True

/-- What the calls on files leave to their callers. -/
def Careful (k : Kernel) : Call → Prop
  | openFile _ filename flags _ _ => k.NameFits filename flags
  | openStd p type _ => (k.table p (stdFd type)).isSome = true → (firstFree (k.table p)).isSome = true
  | dup2 p old new => ¬ k.Sole p old new
  | fork p _ | exit p => k.Unqueued p
  | _ => True

instance (c : Call) : Decidable c.OnFiles := by
  rcases c <;> unfold OnFiles <;> infer_instance

instance (c : Call) : Decidable c.Served := by
  rcases c <;> unfold Served <;> infer_instance

instance (k : Kernel) (c : Call) : Decidable (c.Careful k) := by
  rcases c <;> unfold Careful NameFits <;> infer_instance

end Call

/-- A call on files that the system can make, careful or not. -/
structure FileCall (k : Kernel) (c : Call) : Prop where
  onFiles : c.OnFiles
  legal : c.Legal k
  served : c.Served

namespace Kernel

/-- Each slot refers to a live object, whose count is the number of such slots. -/
def Exact (k : Kernel) : Prop := ∀ x, 0 < k.used x → ∃ f, k.files x = some f ∧ f.refCount = k.used x

/-- The live objects that are freed are those that lose their last slot. -/
def FreesLast (k k' : Kernel) : Prop :=
  ∀ x, (k.files x).isSome = true → (k'.files x = none ↔ 0 < k.used x ∧ k'.used x = 0)

variable {k : Kernel} {c : Call}

theorem Counted.exact (h : Counted k) : k.Exact := by
  intro x hx
  obtain ⟨p, fd, hs⟩ := used_pos.1 hx
  exact h.slot hs

theorem Frees.last {k' : Kernel} (hk : Frees Any k k') : FreesLast k k' := by
  intro x hx
  obtain ⟨f, hf⟩ := Option.isSome_iff_exists.1 hx
  exact hk x f hf trivial

/-- One careful call keeps the counts exact and frees what it should. -/
theorem Counted.step (h : Counted k) (hc : FileCall k c) (hcare : c.Careful k) :
    ∃ ret k', c.exec 1 k = .ok (ret, k') ∧ Counted k' ∧ Frees Any k k' := by
  obtain ⟨hon, hlegal, hserved⟩ := hc
  have hpages := hlegal.pages
  cases c with
  | openFile p filename flags mode page =>
    obtain ⟨⟨x, f⟩, rfl⟩ := Option.isSome_iff_exists.1 hserved
    obtain ⟨ret, k', hk', hop⟩ := doRegularFileOpen_opened (p := p) (x := x) (f := f) (fun _ => rfl) hcare mode
    exact ⟨ret, k', hk', h.opened (hpages _ rfl).files hop⟩
  | openStd p type page =>
    obtain ⟨⟨x, f⟩, rfl⟩ := Option.isSome_iff_exists.1 hserved
    have hlive : ∀ y, k.table p (stdFd type) = some y → ∃ g, k.files y = some g := fun y hy =>
      h.refs.live y (used_of_slot hy)
    obtain ⟨ret, k', hk', hop⟩ := openStandardIo_opened (x := x) (f := f) (fun _ => rfl) hlive hcare
    exact ⟨ret, k', hk', h.opened (hpages _ rfl).files hop⟩
  | dup2 p old new =>
    obtain ⟨ret, k', hk', hsh⟩ := h.dup2 hcare
    exact ⟨ret, k', hk', hsh.counted, hsh.frees⟩
  | close p fd unset =>
    obtain ⟨ret, k', hk', hsh⟩ := h.close p fd unset
    exact ⟨ret, k', hk', hsh.counted, hsh.frees⟩
  | fork p child =>
    obtain ⟨ret, k', hk', hsh⟩ := h.fork hcare hlegal.child
    exact ⟨ret, k', hk', hsh.counted, hsh.frees⟩
  | exit p =>
    obtain ⟨k', hk', hsh⟩ := h.exit hcare
    exact ⟨0, k', by simp only [Call.exec, hk', Functor.map, Except.map], hsh.counted, hsh.frees⟩
  | read | write | lseek | sendfile | createQueue | msg | closeQueue => exact hon.elim

theorem doRegularFileOpen_long {p : Proc} {filename : List UInt8} {flags mode : UInt64} {page : Option (Ptr × File)}
    (h : ¬ k.NameFits filename flags) : k.doRegularFileOpen p filename flags mode page = .error .pastName := by
  unfold NameFits at h
  push Not at h
  obtain ⟨haccess, hl, hcreat, hfree, hlong⟩ := h
  obtain ⟨i, hi⟩ := Option.isSome_iff_exists.1 hfree
  simp only [doRegularFileOpen, if_neg haccess, hl, if_neg hcreat, flatCreateInode, Option.isSome_none,
    Bool.false_eq_true, if_false, hi, if_pos hlong]

/-- A careless call does not come back. -/
theorem Counted.careless (h : Counted k) (hcare : ¬ c.Careful k) : ∃ e, c.exec 1 k = .error e := by
  cases c with
  | openFile p filename flags mode page => exact ⟨_, doRegularFileOpen_long hcare⟩
  | openStd p type page =>
    have hcare : ¬ ((k.table p (stdFd type)).isSome = true → (firstFree (k.table p)).isSome = true) := hcare
    push Not at hcare
    obtain ⟨hs, hfull⟩ := hcare
    obtain ⟨x, hs⟩ := Option.isSome_iff_exists.1 hs
    obtain ⟨f, hf, -⟩ := h.slot hs
    refine ⟨.pastTable, ?_⟩
    rw [Call.exec, openStandardIo_some hs hf, Option.not_isSome_iff_eq_none.1 hfull]
  | dup2 p old new => exact ⟨_, dup2_fault (not_not.1 hcare)⟩
  | fork p child => exact ⟨_, h.doFork_eq.trans (if_neg hcare)⟩
  | exit p =>
    obtain ⟨objects, hexit⟩ := h.doExit_eq p
    have hfault : k.doExit p = .error .useAfterFree := hexit.trans (if_neg hcare)
    exact ⟨.useAfterFree, by rw [Call.exec, hfault]; rfl⟩
  | read | write | lseek | sendfile | close | createQueue | msg | closeQueue => exact absurd trivial hcare

end Kernel

/-- A careful call on files that came back. -/
structure CarefulStep (k : Kernel) (c : Call) (k' : Kernel) : Prop where
  call : FileCall k c
  careful : c.Careful k
  exec : ∃ ret, c.exec 1 k = .ok (ret, k')

/-- Counts are exact in every state that careful calls lead to, and a next call keeps them exact and
frees what it should if and only if it is careful. -/
theorem run_counts {k₀ k : Kernel} {cs : List Call} (h₀ : k₀.Idle) (hrun : Run CarefulStep k₀ cs k) :
    k.Exact ∧ ∀ c, FileCall k c →
      ((∃ ret k', c.exec 1 k = .ok (ret, k') ∧ k'.Exact ∧ k.FreesLast k') ↔ c.Careful k) := by
  have hinv : k.Counted := by
    refine hrun.invariant h₀.counted fun k c k' h hs => ?_
    obtain ⟨ret, hret⟩ := hs.exec
    obtain ⟨ret', k'', hret', h', -⟩ := h.step hs.call hs.careful
    obtain ⟨-, rfl⟩ := Prod.mk.inj (Except.ok.inj (hret.symm.trans hret'))
    exact h'
  refine ⟨hinv.exact, fun c hc => ⟨?_, fun hcare => ?_⟩⟩
  · rintro ⟨ret, k', hret, -⟩
    by_contra hcare
    obtain ⟨e, he⟩ := hinv.careless hcare
    rw [he] at hret
    cases hret
  · obtain ⟨ret, k', hret, h', hfrees⟩ := hinv.step hc hcare
    exact ⟨ret, k', hret, h'.exact, hfrees.last⟩

/-! ## A first process -/

/-- A zeroed page. -/
def zeroPage : File := ⟨.stdin, 0, 0, 0, none, .zero, none⟩

/-- The machine the examples start from: process 1, and a store of empty frames from the eighth on. -/
def first : Kernel :=
  .boot 1 (initFileSystem (· + 8) ⟨0, fun _ => freshInode 0 0⟩ ⟨0, fun _ => 0⟩).1 fun _ => 0

theorem run_careful {k : Kernel} {cs : List Call}
    (h : Scripted (Call.next 1) (fun k c => (c.OnFiles ∧ c.Legal k ∧ c.Served ∧ c.Careful k) ∧ c.returns 1 k = true)
      k cs) : Run CarefulStep k (script (Call.next 1) k cs).1 (script (Call.next 1) k cs).2 := by
  refine Run.script (Call.next 1) _ ?_ h
  rintro k c ⟨⟨hon, hlegal, hserved, hcare⟩, hret⟩
  exact ⟨⟨hon, hlegal, hserved⟩, hcare, Call.exec_next hret⟩

/-- Process 1 opens standard input and duplicates it, forks, closes one descriptor, and one of the
two exits. -/
theorem run_counts_of_two :
    let cs : List Call := [.openStd 1 0 (some (4096, zeroPage)), .dup2 1 0 5, .dup2 1 5 5, .fork 1 2, .close 2 0 0,
      .exit 1]
    let k := (script (Call.next 1) first cs).2
    k.Exact ∧ ∀ c, FileCall k c →
      ((∃ ret k', c.exec 1 k = .ok (ret, k') ∧ k'.Exact ∧ k.FreesLast k') ↔ c.Careful k) := by
  intro cs k
  exact @run_counts first k (script (Call.next 1) first cs).1 (Kernel.idle_boot ..)
    (@run_careful first cs (by decide +kernel))

/-- Process 1 opens standard input and duplicates the descriptor onto itself: the close in dup2
frees the object while the slot still refers to it, and the new reference is taken on a freed
page. -/
theorem dup2_frees_own_target :
    let k := (script (Call.next 1) first [.openStd 1 0 (some (4096, zeroPage))]).2
    let k' := match k.doFileClose 4096 with | .ok r => r.2 | .error _ => k
    Run CarefulStep first [.openStd 1 0 (some (4096, zeroPage))] k ∧ FileCall k (.dup2 1 0 0) ∧
      k'.files 4096 = none ∧ k'.table 1 0 = some 4096 ∧ (Call.dup2 1 0 0).exec 1 k = .error .useAfterFree := by
  intro k k'
  refine ⟨@run_careful first [.openStd 1 0 (some (4096, zeroPage))] (by decide +kernel),
    ⟨trivial, by decide +kernel, trivial⟩, by decide +kernel, by decide +kernel, ?_⟩
  exact @Kernel.dup2_fault k 1 0 0 (by decide +kernel)

end CS330.Os
