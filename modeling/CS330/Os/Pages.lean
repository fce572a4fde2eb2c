/-
What calls do to pages, in any state and whether or not references are counted right: those that come
back take objects away, a queue always with its buffer, or put one on the page they were given.
-/
import CS330.Os.Queues

namespace CS330.Os

open CS330.Lib CS330.Fs CS330.Queue

namespace Kernel

variable {k k' : Kernel} {p : Proc} {fd : Fd} {x q : Ptr} {f : File} {m : MsgQueue}

/-! ## Taking away -/

/-- Objects only go away, and a buffer goes with its queue. -/
structure Shrinks (k k' : Kernel) : Prop where
  files : ∀ x f', k'.files x = some f' → ∃ f, k.files x = some f
  queues : ∀ q m', k'.queues q = some m' → ∃ m, k.queues q = some m ∧ m'.slot 0 = m.slot 0
  buffers : ∀ b, k'.buffers b = true → k.buffers b = true
  kept : ∀ b, k.buffers b = true →
    k'.buffers b = true ∨ ∃ q m, k.queues q = some m ∧ m.slot 0 = b ∧ k'.queues q = none

theorem Shrinks.of_files (hfiles : ∀ x f', k'.files x = some f' → ∃ f, k.files x = some f)
    (hq : k'.queues = k.queues) (hb : k'.buffers = k.buffers) : Shrinks k k' := by
  refine ⟨hfiles, fun q m' hm => ⟨m', by rw [← hq]; exact hm, rfl⟩, fun b h => by rw [← hb]; exact h, fun b h => ?_⟩
  exact Or.inl (by rw [hb]; exact h)

theorem Shrinks.refl (k : Kernel) : Shrinks k k := .of_files (fun _ f h => ⟨f, h⟩) rfl rfl

theorem Shrinks.trans {k₁ k₂ k₃ : Kernel} (h : Shrinks k₁ k₂) (h' : Shrinks k₂ k₃) : Shrinks k₁ k₃ := by
  constructor
  · intro x f hf
    obtain ⟨g, hg⟩ := h'.files x f hf
    exact h.files x g hg
  · intro q m hm
    obtain ⟨n, hn, hslot⟩ := h'.queues q m hm
    obtain ⟨l, hl, hslot'⟩ := h.queues q n hn
    exact ⟨l, hl, hslot.trans hslot'⟩
  · exact fun b hb => h.buffers b (h'.buffers b hb)
  · intro b hb
    rcases h.kept b hb with hb | ⟨q, m, hm, hslot, hgone⟩
    · rcases h'.kept b hb with hb | ⟨q, n, hn, hslot, hgone⟩
      · exact .inl hb
      · obtain ⟨m, hm, hslot'⟩ := h.queues q n hn
        exact .inr ⟨q, m, hm, hslot'.symm.trans hslot, hgone⟩
    · refine .inr ⟨q, m, hm, hslot, ?_⟩
      rw [Option.eq_none_iff_forall_not_mem]
      intro n hn
      obtain ⟨l, hl, -⟩ := h'.queues q n hn
      rw [hgone] at hl
      cases hl
/-! ## The parts of calls -/

theorem file_ok (h : k.file x = .ok f) : k.files x = some f := by
  unfold file at h
  split at h
  · rename_i g hg
    rw [hg, Except.ok.inj h]
  · cases h

theorem queue_ok (h : k.queue q = .ok m) : k.queues q = some m := by
  unfold queue at h
  split at h
  · rename_i n hn
    rw [hn, Except.ok.inj h]
  · cases h

theorem shrinks_setFile (h : k.files x = some f) (g : File) : Shrinks k (k.setFile x g) := by
  refine .of_files (fun z f' hf' => ?_) rfl rfl
  rw [files_setFile, Function.update_apply] at hf'
  split at hf'
  · rename_i hz
    exact ⟨f, by rw [hz]; exact h⟩
  · exact ⟨f', hf'⟩

theorem shrinks_setSlot (k : Kernel) (p : Proc) (fd : Fd) (v : Option Ptr) : Shrinks k (k.setSlot p fd v) :=
  .of_files (fun _ f h => ⟨f, h⟩) rfl rfl

theorem shrinks_setQueue (h : k.queues q = some m) {n : MsgQueue} (hn : n.slot 0 = m.slot 0) :
    Shrinks k (k.setQueue q n) := by
  refine ⟨fun z f hf => ⟨f, hf⟩, fun r l hl => ?_, fun _ hb => hb, fun _ hb => .inl hb⟩
  have hl : Function.update k.queues q (some n) r = some l := hl
  rw [Function.update_apply] at hl
  split at hl
  · rename_i hr
    exact ⟨m, by rw [hr]; exact h, by rw [← Option.some.inj hl]; exact hn⟩
  · exact ⟨l, hl, rfl⟩

theorem shrinks_freeFileObject (h : k.freeFileObject x = .ok k') : Shrinks k k' := by
  unfold freeFileObject at h
  split at h
  · cases h
    refine .of_files (fun z f' hf' => ?_) rfl rfl
    have hf' : Function.update k.files x none z = some f' := hf'
    rw [Function.update_apply] at hf'
    split at hf'
    · cases hf'
    · exact ⟨f', hf'⟩
  · cases h

theorem shrinks_dropRef (h : k.dropRef x = .ok k') : Shrinks k k' := by
  obtain ⟨f, hf, h⟩ := bind_ok h
  have hset := shrinks_setFile (file_ok hf) { f with refCount := u32 (f.refCount - 1) }
  simp only at h
  split at h
  · exact hset.trans (shrinks_freeFileObject h)
  · cases h
    exact hset

theorem shrinks_addRef {n : ℕ} (h : k.addRef x n = .ok k') : Shrinks k k' := by
  obtain ⟨f, hf, h⟩ := bind_ok h
  cases h
  exact shrinks_setFile (file_ok hf) _

theorem shrinks_doFileClose {ret : ℤ} (h : k.doFileClose x = .ok (ret, k')) : Shrinks k k' := by
  obtain ⟨k₁, hdrop, h⟩ := bind_ok h
  cases h
  exact shrinks_dropRef hdrop

/-! ## Leaving, forking, exiting -/

theorem slot_close (v : Pid) (m : MsgQueue) : (m.close v).2.slot 0 = m.slot 0 := by
  rw [MsgQueue.slot_zero, MsgQueue.slot_zero]
  unfold MsgQueue.close
  split <;> rfl

/-- A queue is freed with its buffer. -/
theorem shrinks_torn (h : k.queues q = some m) :
    Shrinks k { k with
      queues := Function.update k.queues q none, buffers := Function.update k.buffers (m.slot 0) false } := by
  refine ⟨fun z f hf => ⟨f, hf⟩, fun r n hn => ?_, fun b hb => ?_, fun b hb => ?_⟩
  · have hn : Function.update k.queues q none r = some n := hn
    rw [Function.update_apply] at hn
    split at hn
    · cases hn
    · exact ⟨n, hn, rfl⟩
  · have hb : Function.update k.buffers (m.slot 0) false b = true := hb
    rw [Function.update_apply] at hb
    split at hb
    · cases hb
    · exact hb
  · by_cases he : b = m.slot 0
    · exact .inr ⟨q, m, h, he.symm, Function.update_self ..⟩
    · exact .inl ((Function.update_of_ne he ..).trans hb)

theorem shrinks_doMsgQueueClose {ret : ℤ} (h : k.doMsgQueueClose p fd = .ok (ret, k')) : Shrinks k k' := by
  unfold doMsgQueueClose at h
  split at h
  · cases h
    exact .refl k
  · rename_i x hs
    obtain ⟨f, hf, h⟩ := bind_ok h
    simp only at h
    split at h
    · cases h
      exact .refl k
    · rename_i q hq
      obtain ⟨m, hm, h⟩ := bind_ok h
      have hm := queue_ok hm
      split at h
      · split at h
        -- the last member frees the buffer, the page and the file object
        · obtain ⟨k₁, hbuf, h⟩ := bind_ok h
          obtain ⟨k₂, hinfo, h⟩ := bind_ok h
          obtain ⟨k₃, hfile, h⟩ := bind_ok h
          cases h
          refine Shrinks.trans ?_ ((shrinks_freeFileObject hfile).trans (shrinks_setSlot k₃ p fd none))
          unfold freeMsgQueueBuffer at hbuf
          split at hbuf
          · cases hbuf
            simp only [freeMsgQueueInfo, setQueue, Function.update_self, Function.update_idem, slot_close,
              Except.ok.injEq] at hinfo
            rw [← hinfo]
            exact shrinks_torn hm
          · cases hbuf
        · cases h
          exact (shrinks_setQueue hm (slot_close (pid p) m)).trans (shrinks_setSlot _ p fd none)
      · cases h
        exact .refl k

theorem shrinks_doMsgQueueCleanup (h : k.doMsgQueueCleanup p = .ok k') : Shrinks k k' := by
  refine foldlM_keep (Shrinks k) (fun k₁ fd k₂ hk he => hk.trans ?_) (.refl k) h
  unfold cleanupAt at he
  split at he
  · cases he
    exact .refl k₁
  · obtain ⟨f, -, he⟩ := bind_ok he
    split at he
    · obtain ⟨⟨r, k₃⟩, hclose, he⟩ := map_ok he
      cases he
      exact shrinks_doMsgQueueClose hclose
    · cases he
      exact .refl k₁

theorem shrinks_doFileExit (h : k.doFileExit p = .ok k') : Shrinks k k' := by
  refine foldlM_keep (Shrinks k) (fun k₁ fd k₂ hk he => hk.trans ?_) (.refl k) h
  unfold exitAt at he
  split at he
  · exact shrinks_dropRef he
  · cases he
    exact .refl k₁

theorem shrinks_doExit (h : k.doExit p = .ok k') : Shrinks k k' := by
  obtain ⟨k₁, hclean, h⟩ := bind_ok h
  obtain ⟨k₂, hexit, h⟩ := bind_ok h
  cases h
  exact (shrinks_doMsgQueueCleanup hclean).trans ((shrinks_doFileExit hexit).trans
    (.of_files (fun _ f h => ⟨f, h⟩) rfl rfl))

theorem shrinks_setupChildContext {bump : ℕ} {child : Proc} (h : k.setupChildContext bump child = .ok k') :
    Shrinks k k' := by
  refine foldlM_keep (Shrinks k) (fun k₁ fd k₂ hk he => hk.trans ?_) (.refl k) h
  unfold inheritAt at he
  split at he
  · exact shrinks_addRef he
  · cases he
    exact .refl k₁

theorem shrinks_doAddChildToMsgQueue {child : Proc} (h : k.doAddChildToMsgQueue child = .ok k') : Shrinks k k' := by
  refine foldlM_keep (Shrinks k) (fun k₁ fd k₂ hk he => hk.trans ?_) (.refl k) h
  unfold addChildAt at he
  split at he
  · cases he
    exact .refl k₁
  · obtain ⟨f, -, he⟩ := bind_ok he
    split at he
    · cases he
      exact .refl k₁
    · obtain ⟨m, hm, he⟩ := bind_ok he
      cases he
      exact shrinks_setQueue (queue_ok hm) rfl

theorem shrinks_doFork {bump : ℕ} {child : Proc} {ret : ℤ} (h : k.doFork bump p child = .ok (ret, k')) :
    Shrinks k k' := by
  obtain ⟨k₁, hsetup, h⟩ := bind_ok h
  obtain ⟨k₂, hadd, h⟩ := bind_ok h
  cases h
  have htable : Shrinks k (k.setTable child (k.table p)) := .of_files (fun _ f h => ⟨f, h⟩) rfl rfl
  exact htable.trans ((shrinks_setupChildContext hsetup).trans (shrinks_doAddChildToMsgQueue hadd))

/-! ## Calls through descriptors -/

theorem shrinks_doReadRegular {buff buff' : ℕ → UInt8} {count : ℕ} {ret : ℤ}
    (h : k.doReadRegular x buff count = .ok (ret, buff', k')) : Shrinks k k' := by
  obtain ⟨f, hf, h⟩ := bind_ok h
  simp only at h
  split at h
  · cases h
    exact .refl k
  · split at h
    · cases h
      exact .refl k
    · obtain ⟨-, rfl⟩ := Prod.mk.inj (Prod.mk.inj (Except.ok.inj h)).2
      exact shrinks_setFile (file_ok hf) _

theorem shrinks_doWriteRegular {buff : ℕ → UInt8} {count : ℕ} {ret : ℤ}
    (h : k.doWriteRegular x buff count = .ok (ret, k')) : Shrinks k k' := by
  obtain ⟨f, hf, h⟩ := bind_ok h
  simp only at h
  split at h
  · cases h
    exact .refl k
  · split at h
    · cases h
      exact .refl k
    · obtain ⟨-, rfl⟩ := Prod.mk.inj (Except.ok.inj h)
      exact .of_files (shrinks_setFile (file_ok hf) _).files rfl rfl

theorem shrinks_doLseekRegular {offset whence ret : ℤ} (h : k.doLseekRegular x offset whence = .ok (ret, k')) :
    Shrinks k k' := by
  obtain ⟨f, hf, h⟩ := bind_ok h
  simp only at h
  split at h
  · split at h
    · cases h
    · rename_i i _
      have hseek : ∀ o : ℤ, (if o > (k.sb.inode i).fileSize ∨ o < 0 then .ok (-einval, k)
          else .ok (↑(u32 o), k.setFile x { f with offp := u32 o }) : Except Fault (ℤ × Kernel)) = .ok (ret, k') →
          Shrinks k k' := by
        intro o ho
        split at ho
        · cases ho
          exact .refl k
        · cases ho
          exact shrinks_setFile (file_ok hf) _
      exact hseek _ h
  · cases h
    exact .refl k

theorem shrinks_doFileRead {buff buff' kbd : ℕ → UInt8} {count : ℕ} {ret : ℤ}
    (h : k.doFileRead p fd buff count kbd = .ok (ret, buff', k')) : Shrinks k k' := by
  unfold doFileRead at h
  split at h
  · cases h
    exact .refl k
  · obtain ⟨f, -, h⟩ := bind_ok h
    split at h
    · cases h
      exact .refl k
    · split at h
      · exact shrinks_doReadRegular h
      · cases h
        exact .refl k
      · cases h
        exact .refl k

theorem shrinks_doFileWrite {buff : ℕ → UInt8} {count : ℕ} {console ret : ℤ}
    (h : k.doFileWrite p fd buff count console = .ok (ret, k')) : Shrinks k k' := by
  unfold doFileWrite at h
  split at h
  · cases h
    exact .refl k
  · obtain ⟨f, -, h⟩ := bind_ok h
    split at h
    · cases h
      exact .refl k
    · split at h
      · exact shrinks_doWriteRegular h
      · cases h
        exact .refl k
      · cases h
        exact .refl k

theorem shrinks_doLseek {offset whence ret : ℤ} (h : k.doLseek p fd offset whence = .ok (ret, k')) : Shrinks k k' := by
  unfold doLseek at h
  split at h
  · cases h
    exact .refl k
  · obtain ⟨f, -, h⟩ := bind_ok h
    split at h
    · exact shrinks_doLseekRegular h
    · cases h
      exact .refl k

theorem shrinks_sendfileRead {offset offset' : Option ℤ} {count ret : ℤ} {page page' : ℕ → UInt8}
    (h : k.sendfileRead x f offset count page = .ok (ret, page', offset', k')) : Shrinks k k' := by
  unfold sendfileRead at h
  split at h
  · split at h
    · cases h
    · obtain ⟨-, rfl⟩ := Prod.mk.inj (Prod.mk.inj (Prod.mk.inj (Except.ok.inj h)).2).2
      exact .refl k
  · obtain ⟨⟨n, buff, k₁⟩, hread, h⟩ := bind_ok h
    cases h
    exact shrinks_doReadRegular hread

theorem shrinks_doSendfile {outfd infd : Fd} {offset offset' : Option ℤ} {count ret : ℤ} {buff : Option (ℕ → UInt8)}
    (h : k.doSendfile p outfd infd offset count buff = .ok (ret, offset', k')) : Shrinks k k' := by
  unfold doSendfile at h
  split at h
  · cases h
    exact .refl k
  · cases h
    exact .refl k
  · obtain ⟨f, -, h⟩ := bind_ok h
    split at h
    · cases h
      exact .refl k
    · obtain ⟨g, -, h⟩ := bind_ok h
      split at h
      · cases h
        exact .refl k
      · obtain ⟨⟨n, page, off, k₁⟩, hread, h⟩ := bind_ok h
        simp only at h
        split at h
        · cases h
        · obtain ⟨⟨r, k₂⟩, hwrite, h⟩ := bind_ok h
          cases h
          exact (shrinks_sendfileRead hread).trans (shrinks_doWriteRegular hwrite)

theorem shrinks_fdDup2 {old new : Fd} {ret : ℤ} (h : k.fdDup2 p old new = .ok (ret, k')) : Shrinks k k' := by
  unfold fdDup2 at h
  split at h
  · cases h
    exact .refl k
  · rename_i x _
    have htake : ∀ k₁ : Kernel, ((k₁.setSlot p new (some x)).addRef x 1 >>= fun k => .ok ((new.val : ℤ), k)) =
        (.ok (ret, k') : Except Fault (ℤ × Kernel)) → Shrinks k₁ k' := by
      intro k₁ h
      obtain ⟨k₂, hadd, h⟩ := bind_ok h
      cases h
      exact (shrinks_setSlot k₁ p new (some x)).trans (shrinks_addRef hadd)
    simp only at h
    split at h
    · rename_i y _
      obtain ⟨k₁, hclose, h⟩ := bind_ok h
      obtain ⟨⟨r, k₂⟩, hfile, he⟩ := map_ok hclose
      cases he
      exact (shrinks_doFileClose hfile).trans (htake _ h)
    · exact htake k h

theorem shrinks_doClose {unset ret : ℤ} (h : k.doClose p fd unset = .ok (ret, k')) : Shrinks k k' := by
  unfold doClose at h
  split at h
  · cases h
    exact .refl k
  · obtain ⟨f, -, h⟩ := bind_ok h
    split at h
    · cases h
      exact .refl k
    · obtain ⟨r, hclose, h⟩ := bind_ok h
      cases h
      obtain ⟨k₁, hdrop, hclose⟩ := bind_ok hclose
      cases hclose
      exact (shrinks_setSlot k p fd none).trans (shrinks_dropRef hdrop)
    · obtain ⟨r, hclose, h⟩ := bind_ok h
      cases h
      exact (shrinks_setSlot k p fd none).trans (shrinks_doFileClose hclose)

theorem shrinks_callMsgQueue {c : MsgCall} {ret : ℤ} (h : k.callMsgQueue p fd c = .ok (ret, k')) : Shrinks k k' := by
  unfold callMsgQueue at h
  split at h
  · cases h
    exact .refl k
  · obtain ⟨f, -, h⟩ := bind_ok h
    split at h
    · cases h
      exact .refl k
    · obtain ⟨m, hm, h⟩ := bind_ok h
      cases h
      exact shrinks_setQueue (queue_ok hm) (c.sameMembers (pid p) m).base

/-! ## Putting on pages -/

/-- An object is put on a page. -/
structure Puts (x : Ptr) (k k' : Kernel) : Prop where
  files : ∃ f, k'.files = Function.update k.files x (some f)
  queues : k'.queues = k.queues
  buffers : k'.buffers = k.buffers

theorem puts_openInode {i : ℕ} {flags : UInt64} {page : Option (Ptr × File)} {ret : ℤ}
    (h : k.openInode p i flags page = .ok (ret, k')) : ∃ o ∈ page, Puts o.1 k k' := by
  cases page with
  | none =>
    simp only [openInode, ne_eq, not_true_eq_false, if_false, UInt32.and_zero, allocFile] at h
    cases h
  | some o =>
    obtain ⟨x, held⟩ := o
    refine ⟨(x, held), rfl, ?_⟩
    rw [openInode_eq] at h
    split at h
    · obtain ⟨-, rfl⟩ := Prod.mk.inj (Except.ok.inj h)
      exact ⟨⟨_, rfl⟩, rfl, rfl⟩
    · obtain ⟨-, rfl⟩ := Prod.mk.inj (Except.ok.inj h)
      exact ⟨⟨_, rfl⟩, rfl, rfl⟩

theorem doRegularFileOpen_places {filename : List UInt8} {flags mode : UInt64} {page : Option (Ptr × File)} {ret : ℤ}
    (h : k.doRegularFileOpen p filename flags mode page = .ok (ret, k')) :
    Shrinks k k' ∨ ∃ o ∈ page, Puts o.1 k k' := by
  rcases k.doRegularFileOpen_cases p filename flags mode page with
    he | ⟨sb, -, he⟩ | ⟨-, he⟩ | ⟨i, sb, -, he⟩
  · rw [he] at h
    cases h
    exact .inl (.refl k)
  · rw [he] at h
    cases h
    exact .inl (.of_files (fun _ f h => ⟨f, h⟩) rfl rfl)
  · rw [he] at h
    cases h
  · rw [he] at h
    obtain ⟨o, ho, hputs⟩ := puts_openInode h
    exact .inr ⟨o, ho, hputs.files, hputs.queues, hputs.buffers⟩

theorem openStandardIo_places {type : StdType} {page : Option (Ptr × File)} {ret : ℤ}
    (h : k.openStandardIo p type page = .ok (ret, k')) : Shrinks k k' ∨ ∃ o ∈ page, Puts o.1 k k' := by
  cases hs : k.table p (stdFd type) with
  | none =>
    cases page with
    | none =>
      simp only [openStandardIo, hs, createStandardIo, allocFile] at h
      cases h
    | some o =>
      obtain ⟨x, held⟩ := o
      rw [openStandardIo_none hs] at h
      obtain ⟨-, rfl⟩ := Prod.mk.inj (Except.ok.inj h)
      exact .inr ⟨(x, held), rfl, ⟨_, rfl⟩, rfl, rfl⟩
  | some y =>
    simp only [openStandardIo, hs] at h
    obtain ⟨k₁, hadd, h⟩ := bind_ok h
    split at h
    · cases h
      exact .inl ((shrinks_addRef hadd).trans (shrinks_setSlot ..))
    · cases h

/-- A queue is put on a page, with its buffer if there is one, behind a file object. -/
structure Founds (q x : Ptr) (buffer : Option Ptr) (k k' : Kernel) : Prop where
  files : ∃ f, k'.files = Function.update k.files x (some f)
  queues : ∃ m, k'.queues = Function.update k.queues q (some m) ∧ m.slot 0 = buffer.getD 0
  buffers : ∀ b, k'.buffers b = true ↔ buffer = some b ∨ k.buffers b = true

theorem doCreateMsgQueue_founds {info : Option (Ptr × MsgQueue)} {buffer : Option Ptr} {page : Option (Ptr × File)}
    {ret : ℤ} (h : k.doCreateMsgQueue p info buffer page = .ok (ret, k')) :
    k' = k ∧ (firstFree (k.table p) = none ∨ info = none) ∨
      ∃ fd, firstFree (k.table p) = some fd ∧ ∃ i ∈ info, ∃ o ∈ page, Founds i.1 o.1 buffer k k' := by
  unfold doCreateMsgQueue at h
  split at h
  · rename_i hfull
    cases h
    exact .inl ⟨rfl, .inl hfull⟩
  · rename_i fd hfd
    split at h
    · cases h
      exact .inl ⟨rfl, .inr rfl⟩
    · rename_i q held
      -- without a page for the file object the call faults
      cases page with
      | none => cases buffer <;> cases h
      | some o =>
        obtain ⟨x, f⟩ := o
        refine .inr ⟨fd, hfd, (q, held), rfl, (x, f), rfl, ?_⟩
        cases buffer with
        | none =>
          simp only [allocFile, bind, Except.bind, file, Function.update_self, setFile, Function.update_idem,
            setQueue] at h
          obtain ⟨-, rfl⟩ := Prod.mk.inj (Except.ok.inj h)
          exact ⟨⟨_, rfl⟩, ⟨_, rfl, slot_create ..⟩, fun b => by simp only [reduceCtorEq, false_or]; rfl⟩
        | some b =>
          simp only [allocFile, bind, Except.bind, file, Function.update_self, setFile, Function.update_idem,
            setQueue] at h
          obtain ⟨-, rfl⟩ := Prod.mk.inj (Except.ok.inj h)
          refine ⟨⟨_, rfl⟩, ⟨_, rfl, slot_create ..⟩, fun c => ?_⟩
          change Function.update k.buffers b true c = true ↔ _
          rw [Option.some_inj]
          rcases eq_or_ne c b with rfl | hne
          · simp
          · simp [hne, hne.symm]

end Kernel

namespace Call

open Kernel

variable {bump : ℕ} {k k' : Kernel} {c : Call} {ret : ℤ}

/-- The page an opening call is given. -/
def page : Call → Option Ptr
  | openFile _ _ _ _ page | openStd _ _ page => page.map Prod.fst
  | _ => none

/-- A call that creates no queue only takes objects away, or puts one on the page it is given. -/
theorem exec_places (hc : ∀ p info buffer page, c ≠ createQueue p info buffer page)
    (h : c.exec bump k = .ok (ret, k')) :
    Shrinks k k' ∨ ∃ x ∈ c.page, Puts x k k' := by
  cases c with
  | openFile p filename flags mode page =>
    rcases doRegularFileOpen_places h with hs | ⟨o, ho, hputs⟩
    · exact .inl hs
    · exact .inr ⟨o.1, Option.mem_map_of_mem Prod.fst ho, hputs⟩
  | openStd p type page =>
    rcases openStandardIo_places h with hs | ⟨o, ho, hputs⟩
    · exact .inl hs
    · exact .inr ⟨o.1, Option.mem_map_of_mem Prod.fst ho, hputs⟩
  | read p fd buff count kbd =>
    obtain ⟨⟨r, buff', k₁⟩, hread, he⟩ := map_ok h
    cases he
    exact .inl (shrinks_doFileRead hread)
  | write p fd buff count console => exact .inl (shrinks_doFileWrite h)
  | lseek p fd offset whence => exact .inl (shrinks_doLseek h)
  | sendfile p outfd infd offset count buff =>
    obtain ⟨⟨r, offset', k₁⟩, hsend, he⟩ := map_ok h
    cases he
    exact .inl (shrinks_doSendfile hsend)
  | dup2 p oldfd newfd => exact .inl (shrinks_fdDup2 h)
  | close p fd unset => exact .inl (shrinks_doClose h)
  | createQueue p info buffer page => exact absurd rfl (hc p info buffer page)
  | msg p fd c => exact .inl (shrinks_callMsgQueue h)
  | closeQueue p fd => exact .inl (shrinks_doMsgQueueClose h)
  | fork p child => exact .inl (shrinks_doFork h)
  | exit p =>
    obtain ⟨k₁, hexit, he⟩ := map_ok h
    cases he
    exact .inl (shrinks_doExit hexit)

end Call

end CS330.Os
