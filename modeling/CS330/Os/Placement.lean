/-
Where objects lie. A queue's member table and a file's operations are carved out of memory by pointer
arithmetic that counts in whole structures: the operations still lie on the page of their file, the
member table lies 297 pages behind that of its queue. Whether that is a page of the queue is up to
`os_page_alloc`.
-/
import CS330.Lib.Span
import CS330.Os.Pages

namespace CS330.Os

open CS330.Lib CS330.Fs CS330.Queue

/-! ## Addresses -/

/-- `sizeof(struct file)`: four `u32` and four pointers. -/
def sizeofFile : ℕ := 4 * 4 + 4 * 8

/-- `sizeof(struct fileops)`: four pointers. -/
def sizeofFileops : ℕ := 4 * 8

/-- `sizeof(struct msg_queue_info)`: a pointer, the count with its padding, the slot pointers and the
block matrix. -/
def sizeofMsgQueueInfo : ℕ := 8 + 8 + 8 * msgSlots + 4 * (maxMembers * maxMembers)

/-- `sizeof(struct msg_queue_member_info)`: the count and the pids. -/
def sizeofMemberInfo : ℕ := 4 + 4 * maxMembers

/-- `file + sizeof(struct file)`, in elements of `struct file`. -/
def fopsAddr (x : Ptr) : ℕ := x + sizeofFile * sizeofFile

/-- `message_queue_info + sizeof(struct msg_queue_info)`, in elements of `struct msg_queue_info`. -/
def memberInfoAddr (q : Ptr) : ℕ := q + sizeofMsgQueueInfo * sizeofMsgQueueInfo

/-- How far behind a queue's page the page lies that holds its member table. -/
def tableOffset : ℕ := 297 * pageSize

def pageSpan (y : Ptr) : Span := ⟨y, pageSize⟩

/-- What has memory of its own. -/
inductive Obj where
  | file (x : Ptr)
  | fileops (x : Ptr)
  | info (q : Ptr)
  | memberInfo (q : Ptr)
  | buffer (b : Ptr)
deriving DecidableEq

namespace Obj

/-- The bytes an object uses; a message buffer is a whole page. -/
def span : Obj → Span
  | file x => ⟨x, sizeofFile⟩
  | fileops x => ⟨fopsAddr x, sizeofFileops⟩
  | info q => ⟨q, sizeofMsgQueueInfo⟩
  | memberInfo q => ⟨memberInfoAddr q, sizeofMemberInfo⟩
  | buffer b => pageSpan b

def Live (k : Kernel) : Obj → Prop
  | file x | fileops x => (k.files x).isSome = true
  | info q | memberInfo q => (k.queues q).isSome = true
  | buffer b => k.buffers b = true

/-- The object is one of the queue's own. -/
def OfQueue (q : Ptr) (m : MsgQueue) (o : Obj) : Prop := o = info q ∨ o = memberInfo q ∨ o = buffer (m.slot 0)

end Obj

/-- The `i`-th message cell of a buffer. -/
def cellSpan (b : Ptr) (i : ℕ) : Span := ⟨b + i * sizeofMessage * sizeofMessage, sizeofMessage⟩

namespace Kernel

variable {k k' : Kernel} {p : Proc} {fd : Fd} {x q : Ptr} {f : File} {m : MsgQueue}

/-- A page allocated for a queue: its own, its buffer, or that of its file object. -/
def PageOf (k : Kernel) (q : Ptr) (m : MsgQueue) (y : Ptr) : Prop :=
  y = q ∨ (y = m.slot 0 ∧ k.buffers y = true) ∨ k.queueOf y = some q

/-- The member table of a queue lies in one of its pages, overlaps no live object but the buffer that
holds it, and there none of the messages. -/
structure TableIsolated (k : Kernel) (q : Ptr) (m : MsgQueue) : Prop where
  inside : ∃ y, k.PageOf q m y ∧ (Obj.memberInfo q).span.Within (pageSpan y)
  apart : ∀ o : Obj, o.Live k → o ≠ .memberInfo q → o ≠ .buffer (m.slot 0) → (Obj.memberInfo q).span.Apart o.span
  messages : ∀ i, (i + 1) * (sizeofMessage * sizeofMessage) ≤ pageSize →
    (Obj.memberInfo q).span.Apart (cellSpan (m.slot 0) i)

/-- Whatever a call writes into a queue's page, its buffer and the table in it, joining and leaving
among them, no byte of another object changes. -/
def Undisturbed (k : Kernel) (q : Ptr) (m : MsgQueue) : Prop :=
  ∀ mem mem' : ℕ → UInt8,
    (∀ a, ¬ (pageSpan q).Has a → ¬ (pageSpan (m.slot 0)).Has a → ¬ (Obj.memberInfo q).span.Has a → mem' a = mem a) →
    ∀ o : Obj, o.Live k → ¬ o.OfQueue q m → ∀ a, o.span.Has a → mem' a = mem a

/-- Every member table is where it disturbs nobody. -/
def TablesIsolated (k : Kernel) : Prop := ∀ q m, k.queues q = some m → k.TableIsolated q m ∧ k.Undisturbed q m

/-! ## Pages -/

/-- The page an object lies in. -/
def home : Obj → Ptr
  | .file x | .fileops x => x
  | .info q => q
  | .memberInfo q => q + tableOffset
  | .buffer b => b

/-- Only the member table is not where its pointer is, but all lie in one page. -/
theorem within_home (o : Obj) : o.span.Within (pageSpan (home o)) := by
  cases o with
  | buffer b => exact Span.within_refl _
  | file | fileops | info | memberInfo =>
    refine Span.within_of ?_ ?_ <;>
      simp only [Obj.span, home, pageSpan, fopsAddr, memberInfoAddr, tableOffset, sizeofFile, sizeofFileops,
        sizeofMsgQueueInfo, sizeofMemberInfo, msgSlots, maxMembers, pageSize] <;> omega

/-- A page is used for one thing, and pages are aligned. -/
structure Paging (k : Kernel) : Prop where
  files : ∀ x f, k.files x = some f → pageSize ∣ x ∧ k.queues x = none ∧ k.buffers x = false
  queues : ∀ q m, k.queues q = some m → pageSize ∣ q ∧ k.buffers q = false
  buffers : ∀ b, k.buffers b = true → pageSize ∣ b

/-- The buffer of every queue is the page that holds its member table. -/
def Placed (k : Kernel) : Prop :=
  ∀ q m, k.queues q = some m → m.slot 0 = q + tableOffset ∧ k.buffers (q + tableOffset) = true

theorem Idle.paging (h : k.Idle) : k.Paging := by
  refine ⟨fun x f hf => ?_, fun q m hm => ?_, fun b hb => ?_⟩
  · rw [h.files] at hf
    cases hf
  · rw [h.queues] at hm
    cases hm
  · rw [h.buffers] at hb
    cases hb

theorem Idle.placed (h : k.Idle) : k.Placed := by
  intro q m hm
  rw [h.queues] at hm
  cases hm

/-- The home of a live object is an aligned page, and tells what kind of object it is. -/
theorem Paging.home_dvd (h : k.Paging) (hp : k.Placed) {o : Obj} (ho : o.Live k) : pageSize ∣ home o := by
  cases o with
  | file x | fileops x =>
    obtain ⟨f, hf⟩ := Option.isSome_iff_exists.1 ho
    exact (h.files x f hf).1
  | info q =>
    obtain ⟨m, hm⟩ := Option.isSome_iff_exists.1 ho
    exact (h.queues q m hm).1
  | memberInfo q =>
    obtain ⟨m, hm⟩ := Option.isSome_iff_exists.1 ho
    exact h.buffers _ (hp q m hm).2
  | buffer b => exact h.buffers b ho

/-- Only the buffer of a queue and the table in it are at home there. -/
theorem Paging.home_ne_buffer (h : k.Paging) (hm : k.queues q = some m) (hp : k.Placed) {o : Obj} (ho : o.Live k)
    (ht : o ≠ .memberInfo q) (hb : o ≠ .buffer (m.slot 0)) : home o ≠ q + tableOffset := by
  obtain ⟨hslot, hbuf⟩ := hp q m hm
  intro he
  cases o with
  | file x | fileops x =>
    obtain ⟨f, hf⟩ := Option.isSome_iff_exists.1 ho
    have hx := (h.files x f hf).2.2
    rw [show x = q + tableOffset from he, hbuf] at hx
    cases hx
  | info r =>
    obtain ⟨n, hn⟩ := Option.isSome_iff_exists.1 ho
    have hr := (h.queues r n hn).2
    rw [show r = q + tableOffset from he, hbuf] at hr
    cases hr
  | memberInfo r => exact ht (congrArg Obj.memberInfo (Nat.add_right_cancel he))
  | buffer b => exact hb (congrArg Obj.buffer ((show b = q + tableOffset from he).trans hslot.symm))

/-- Only a queue is at home in its page. -/
theorem Paging.home_ne_queue (h : k.Paging) (hm : k.queues q = some m) (hp : k.Placed) {o : Obj} (ho : o.Live k)
    (hi : o ≠ .info q) : home o ≠ q := by
  intro he
  have hfree := (h.queues q m hm).2
  cases o with
  | file x | fileops x =>
    obtain ⟨f, hf⟩ := Option.isSome_iff_exists.1 ho
    have hx := (h.files x f hf).2.1
    rw [show x = q from he, hm] at hx
    cases hx
  | info r => exact hi (congrArg Obj.info he)
  | memberInfo r =>
    obtain ⟨n, hn⟩ := Option.isSome_iff_exists.1 ho
    have hr := (hp r n hn).2
    rw [show r + tableOffset = q from he, hfree] at hr
    cases hr
  | buffer b =>
    have hb : k.buffers b = true := ho
    rw [show b = q from he, hfree] at hb
    cases hb

theorem Paging.isolated (h : k.Paging) (hp : k.Placed) (hm : k.queues q = some m) : k.TableIsolated q m := by
  obtain ⟨hslot, hbuf⟩ := hp q m hm
  refine ⟨⟨q + tableOffset, .inr (.inl ⟨hslot.symm, hbuf⟩), within_home (.memberInfo q)⟩, ?_, ?_⟩
  · intro o ho ht hb
    have hne := h.home_ne_buffer hm hp ho ht hb
    exact (Span.apart_pages (h.buffers _ hbuf) (h.home_dvd hp ho) hne.symm).within (within_home (.memberInfo q))
      (within_home o)
  · intro i hi
    rw [hslot]
    have hlt : i < 4 := by
      simp only [sizeofMessage, maxTxtSize, pageSize] at hi
      omega
    intro a ha
    simp only [Obj.span, Span.Has, memberInfoAddr, sizeofMsgQueueInfo, sizeofMemberInfo, maxMembers, msgSlots] at ha
    simp only [cellSpan, Span.Has, tableOffset, sizeofMessage, maxTxtSize, pageSize]
    omega

theorem Paging.undisturbed (h : k.Paging) (hp : k.Placed) (hm : k.queues q = some m) : k.Undisturbed q m := by
  obtain ⟨hslot, hbuf⟩ := hp q m hm
  intro mem mem' hmem o ho hother a ha
  have hapart : ∀ y, pageSize ∣ y → home o ≠ y → ¬ (pageSpan y).Has a := by
    intro y hy hne hya
    exact Span.apart_pages (h.home_dvd hp ho) hy hne a (within_home o a ha) hya
  have htable : ¬ (pageSpan (q + tableOffset)).Has a :=
    hapart _ (h.buffers _ hbuf) (h.home_ne_buffer hm hp ho (fun he => hother (.inr (.inl he)))
      fun he => hother (.inr (.inr he)))
  refine hmem a (hapart q (h.queues q m hm).1 (h.home_ne_queue hm hp ho fun he => hother (.inl he))) ?_ ?_
  · rw [hslot]
    exact htable
  · exact fun hin => htable (within_home (.memberInfo q) a hin)

theorem Paging.tablesIsolated (h : k.Paging) (hp : k.Placed) : k.TablesIsolated :=
  fun _ _ hm => ⟨h.isolated hp hm, h.undisturbed hp hm⟩

/-! ## Steps -/

/-- A page `os_page_alloc` may answer: aligned and not allocated. -/
def Unused (k : Kernel) (y : Ptr) : Prop := k.Fresh y ∧ pageSize ∣ y

instance (k : Kernel) (y : Ptr) : Decidable (k.Unused y) := by unfold Unused; infer_instance

theorem Paging.shrinks (h : k.Paging) (hk : Shrinks k k') : k'.Paging := by
  constructor
  · intro x f hf
    obtain ⟨g, hg⟩ := hk.files x f hf
    obtain ⟨hdvd, hqueue, hbuf⟩ := h.files x g hg
    refine ⟨hdvd, ?_, ?_⟩
    · rw [Option.eq_none_iff_forall_not_mem]
      intro m hm
      obtain ⟨n, hn, -⟩ := hk.queues x m hm
      rw [hqueue] at hn
      cases hn
    · rw [← Bool.not_eq_true]
      intro hb
      rw [hk.buffers x hb] at hbuf
      cases hbuf
  · intro q m hm
    obtain ⟨n, hn, -⟩ := hk.queues q m hm
    obtain ⟨hdvd, hbuf⟩ := h.queues q n hn
    refine ⟨hdvd, ?_⟩
    rw [← Bool.not_eq_true]
    intro hb
    rw [hk.buffers q hb] at hbuf
    cases hbuf
  · exact fun b hb => h.buffers b (hk.buffers b hb)

/-- A queue that is left keeps its buffer, as nobody else's goes with it. -/
theorem Placed.shrinks (h : k.Placed) (hk : Shrinks k k') : k'.Placed := by
  intro q m hm
  obtain ⟨n, hn, hslot⟩ := hk.queues q m hm
  obtain ⟨hplace, hbuf⟩ := h q n hn
  refine ⟨hslot.trans hplace, ?_⟩
  rcases hk.kept _ hbuf with hb | ⟨r, l, hl, hr, hgone⟩
  · exact hb
  · have hqr : r = q := Nat.add_right_cancel ((h r l hl).1.symm.trans hr)
    rw [hqr, hm] at hgone
    cases hgone

theorem Paging.puts (h : k.Paging) (hx : k.Unused x) (hk : Puts x k k') : k'.Paging := by
  obtain ⟨⟨-, -, hxq, hxb⟩, hdvd⟩ := hx
  obtain ⟨⟨g, hfiles⟩, hqueues, hbuffers⟩ := hk
  refine ⟨fun y f hf => ?_, fun r n hn => ?_, fun b hb => ?_⟩
  · rw [hqueues, hbuffers]
    rw [hfiles, Function.update_apply] at hf
    split at hf
    · rename_i hy
      rw [hy]
      exact ⟨hdvd, Option.isNone_iff_eq_none.1 hxq, hxb⟩
    · exact h.files y f hf
  · rw [hqueues] at hn
    rw [hbuffers]
    exact h.queues r n hn
  · rw [hbuffers] at hb
    exact h.buffers b hb

theorem Placed.puts (h : k.Placed) (hk : Puts x k k') : k'.Placed := by
  intro r n hn
  rw [hk.queues] at hn
  rw [hk.buffers]
  exact h r n hn

theorem Paging.founds {buffer : Option Ptr} (h : k.Paging) (hq : k.Unused q) (hx : k.Unused x)
    (hb : ∀ b ∈ buffer, k.Unused b) (hqx : q ≠ x) (hbq : buffer ≠ some q) (hbx : buffer ≠ some x)
    (hk : Founds q x buffer k k') : k'.Paging := by
  obtain ⟨⟨g, hfiles⟩, ⟨m, hqueues, -⟩, hbuffers⟩ := hk
  -- the only page that becomes a buffer is the new one
  have hsame : ∀ y, buffer ≠ some y → k.buffers y = false → k'.buffers y = false := by
    intro y hy hfree
    rw [← Bool.not_eq_true, hbuffers, hfree]
    simp [hy]
  constructor
  · intro y f hf
    rw [hfiles, Function.update_apply] at hf
    rw [hqueues, Function.update_apply]
    split at hf
    · rename_i hy
      rw [hy, if_neg (Ne.symm hqx)]
      exact ⟨hx.2, Option.isNone_iff_eq_none.1 hx.1.2.2.1, hsame x hbx hx.1.2.2.2⟩
    · obtain ⟨hdvd, hqueue, hbuf⟩ := h.files y f hf
      have hyq : y ≠ q := by
        rintro rfl
        rw [hq.1.files] at hf
        cases hf
      rw [if_neg hyq]
      refine ⟨hdvd, hqueue, hsame y (fun hy => ?_) hbuf⟩
      rw [(hb y hy).1.files] at hf
      cases hf
  · intro r n hn
    rw [hqueues, Function.update_apply] at hn
    split at hn
    · rename_i hr
      rw [hr]
      exact ⟨hq.2, hsame q hbq hq.1.2.2.2⟩
    · obtain ⟨hdvd, hbuf⟩ := h.queues r n hn
      refine ⟨hdvd, hsame r (fun hr => ?_) hbuf⟩
      rw [Option.isNone_iff_eq_none.1 (hb r hr).1.2.2.1] at hn
      cases hn
  · intro b hbuf
    rcases (hbuffers b).1 hbuf with hnew | hold
    · exact (hb b hnew).2
    · exact h.buffers b hold

theorem Placed.founds {buffer : Option Ptr} (h : k.Placed) (hk : Founds q x buffer k k')
    (hb : buffer = some (q + tableOffset)) : k'.Placed := by
  obtain ⟨-, ⟨m, hqueues, hslot⟩, hbuffers⟩ := hk
  intro r n hn
  rw [hqueues, Function.update_apply] at hn
  split at hn
  · rename_i hr
    obtain rfl := Option.some.inj hn
    rw [hslot, hr, hb]
    exact ⟨rfl, (hbuffers _).2 (.inl hb)⟩
  · obtain ⟨hplace, hbuf⟩ := h r n hn
    exact ⟨hplace, (hbuffers _).2 (.inr hbuf)⟩

theorem add_tableOffset_ne (y : ℕ) : y + tableOffset ≠ y ∧ y + tableOffset ≠ 0 := by
  have hpos : 0 < tableOffset := by decide
  constructor <;> omega

/-- A table is isolated in one page only, and that is the buffer: in the page of the queue's file it
would lie on the file's operations. -/
theorem Paging.isolated_slot (h : k.Paging) (hm : k.queues q = some m) (hi : k.TableIsolated q m) :
    m.slot 0 = q + tableOffset := by
  obtain ⟨⟨y, hy, hwithin⟩, hapart, -⟩ := hi
  have hbase := Span.has_base (s := (Obj.memberInfo q).span) (show 0 < sizeofMemberInfo by decide)
  have hqdvd := (h.queues q m hm).1
  -- whichever page it is, it starts at a page boundary, and one page only is around the table
  have hdvd : pageSize ∣ y := by
    rcases hy with rfl | ⟨-, hbuf⟩ | hfile
    · exact hqdvd
    · exact h.buffers y hbuf
    · unfold queueOf at hfile
      cases hf : k.files y with
      | some f => exact (h.files y f hf).1
      | none =>
        rw [hf] at hfile
        cases hfile
  have hpage : pageSize ∣ q + tableOffset := (Nat.dvd_add_right hqdvd).2 (Nat.dvd_mul_left ..)
  obtain rfl : y = q + tableOffset :=
    Span.page_unique hdvd hpage (hwithin _ hbase) (within_home (.memberInfo q) _ hbase)
  rcases hy with he | ⟨hslot, -⟩ | hfile
  · exact absurd he (add_tableOffset_ne q).1
  · exact hslot.symm
  · have hlive : (Obj.fileops (q + tableOffset)).Live k := by
      unfold queueOf at hfile
      cases hf : k.files (q + tableOffset) with
      | some f => exact Option.isSome_iff_exists.2 ⟨f, hf⟩
      | none =>
        rw [hf] at hfile
        cases hfile
    refine absurd ?_ (hapart _ hlive (by simp) (by simp) _ hbase)
    simp only [Obj.span, Span.Has, memberInfoAddr, fopsAddr, tableOffset, sizeofMsgQueueInfo, sizeofFile, sizeofFileops,
      maxMembers, msgSlots, pageSize]
    omega

end Kernel

namespace Call

open Kernel

/-- The pages the creation of a queue is given. -/
def given (info : Option (Ptr × MsgQueue)) (buffer : Option Ptr) (page : Option (Ptr × File)) : List Ptr :=
  (info.map Prod.fst).toList ++ buffer.toList ++ (page.map Prod.fst).toList

/-- What `os_page_alloc` promises of the pages a call is given: they are aligned and not allocated, and
none is given twice. -/
def Paged (k : Kernel) : Call → Prop
  | createQueue _ info buffer page =>
    (∀ y ∈ given info buffer page, k.Unused y) ∧ (given info buffer page).Nodup
  | c => ∀ x ∈ c.page, k.Unused x

/-- A queue that is created gets as its buffer the page its member table lies in. -/
def TableInBuffer (k : Kernel) : Call → Prop
  | createQueue p info buffer _ =>
    firstFree (k.table p) ≠ none → ∀ i ∈ info, buffer = some (i.1 + tableOffset)
  | _ => True

instance (k : Kernel) (c : Call) : Decidable (c.Paged k) := by
  rcases c <;> unfold Paged <;> infer_instance

instance (k : Kernel) (c : Call) : Decidable (c.TableInBuffer k) := by
  rcases c <;> unfold TableInBuffer <;> infer_instance

theorem Paged.page {k : Kernel} {c : Call} (h : c.Paged k) : ∀ x ∈ c.page, k.Unused x := by
  cases c with
  | createQueue => exact fun x hx => absurd hx (Option.not_mem_none x)
  | openFile | openStd | read | write | lseek | sendfile | dup2 | close | msg | closeQueue | fork | exit => exact h

end Call

/-- A call that came back, given pages that were free. -/
structure PageStep (bump : ℕ) (k : Kernel) (c : Call) (k' : Kernel) : Prop where
  paged : c.Paged k
  exec : ∃ ret, c.exec bump k = .ok (ret, k')

/-- One that gives a new queue its table's page as its buffer. -/
structure PlacedStep (bump : ℕ) (k : Kernel) (c : Call) (k' : Kernel) : Prop extends PageStep bump k c k' where
  placed : c.TableInBuffer k

section Steps

open Kernel

variable {bump : ℕ} {k k' : Kernel} {c : Call}

/-- The creation of a queue, as far as pages go. -/
theorem Kernel.Paging.create {p : Proc} {info : Option (Ptr × MsgQueue)} {buffer : Option Ptr}
    {page : Option (Ptr × File)} (h : k.Paging) (hs : PageStep bump k (.createQueue p info buffer page) k') :
    k'.Paging ∧ (k' = k ∧ (firstFree (k.table p) = none ∨ info = none) ∨
      ∃ fd, firstFree (k.table p) = some fd ∧ ∃ i ∈ info, ∃ x, Founds i.1 x buffer k k') := by
  obtain ⟨⟨hunused, hnodup⟩, ret, hexec⟩ := hs
  rcases doCreateMsgQueue_founds hexec with ⟨rfl, hnone⟩ | ⟨fd, hfd, ⟨q, held⟩, hi, ⟨x, f⟩, ho, hfounds⟩
  · exact ⟨h, .inl ⟨rfl, hnone⟩⟩
  · refine ⟨?_, .inr ⟨fd, hfd, (q, held), hi, x, hfounds⟩⟩
    obtain rfl := Option.mem_def.1 hi
    obtain rfl := Option.mem_def.1 ho
    simp only [Call.given, Option.map_some, Option.toList_some] at hunused hnodup
    have hne : q ≠ x ∧ buffer ≠ some q ∧ buffer ≠ some x := by
      cases buffer with
      | none => simpa using hnodup
      | some b =>
        simp only [Option.toList_some, List.cons_append, List.nil_append, List.nodup_cons, List.mem_cons,
          List.not_mem_nil, or_false, not_or, not_false_eq_true, List.nodup_nil, and_true] at hnodup
        simp only [ne_eq, Option.some_inj]
        exact ⟨hnodup.1.2, fun he => hnodup.1.1 he.symm, hnodup.2⟩
    exact h.founds (hunused q (by simp)) (hunused x (by simp))
      (fun b hb => hunused b (by simp [Option.mem_def.1 hb])) hne.1
      hne.2.1 hne.2.2 hfounds

/-- Calls keep pages apart, and those that create no queue leave tables where they are. -/
theorem PageStep.keeps (hs : PageStep bump k c k') (h : k.Paging) :
    k'.Paging ∧ (k.Placed → c.TableInBuffer k → k'.Placed) := by
  by_cases hc : ∃ p info buffer page, c = .createQueue p info buffer page
  · obtain ⟨p, info, buffer, page, rfl⟩ := hc
    obtain ⟨hpaging, ⟨rfl, -⟩ | ⟨fd, hfd, i, hi, x, hfounds⟩⟩ := h.create hs
    · exact ⟨hpaging, fun hp _ => hp⟩
    · refine ⟨hpaging, fun hp ht => hp.founds hfounds (ht ?_ i hi)⟩
      rw [hfd]
      exact Option.some_ne_none fd
  · obtain ⟨ret, hexec⟩ := hs.exec
    rcases Call.exec_places (fun p info buffer page he => hc ⟨p, info, buffer, page, he⟩) hexec with hk | ⟨x, hx, hk⟩
    · exact ⟨h.shrinks hk, fun hp _ => hp.shrinks hk⟩
    · exact ⟨h.puts (hs.paged.page x hx) hk, fun hp _ => hp.puts hk⟩

/-- A step after which all tables are isolated gave a new queue its table's page. -/
theorem PageStep.tableInBuffer (hs : PageStep bump k c k') (h : k.Paging) (hi : k'.TablesIsolated) :
    c.TableInBuffer k := by
  cases c with
  | createQueue p info buffer page =>
    obtain ⟨hpaging, ⟨rfl, hnone⟩ | ⟨fd, hfd, i, hmem, x, hfounds⟩⟩ := h.create hs
    · intro hfree i hmem
      rcases hnone with hn | rfl
      · exact absurd hn hfree
      · cases hmem
    · intro _ j hj
      obtain rfl : i = j := Option.mem_unique hmem hj
      obtain ⟨m, hqueues, hslot⟩ := hfounds.queues
      have hm : k'.queues i.1 = some m := by
        rw [hqueues]
        exact Function.update_self ..
      have hplace := hpaging.isolated_slot hm (hi i.1 m hm).1
      rw [hslot] at hplace
      cases buffer with
      | none => exact absurd hplace.symm (add_tableOffset_ne i.1).2
      | some b => exact congrArg some hplace
  | openFile | openStd | read | write | lseek | sendfile | dup2 | close | msg | closeQueue | fork | exit => trivial

end Steps

/-- For every sequence of calls and every choice of pages: as long as each new queue gets as its buffer the
page 297 pages behind its own, every table lies in a page of its queue, overlaps no other object and
disturbs none, and a next call keeps it so exactly if it does the same. -/
theorem run_placement {bump : ℕ} {k₀ k : Kernel} {cs : List Call} (h₀ : k₀.Idle)
    (hrun : Run (PlacedStep bump) k₀ cs k) :
    k.TablesIsolated ∧ ∀ c k', PageStep bump k c k' → (k'.TablesIsolated ↔ c.TableInBuffer k) := by
  have hinv : k.Paging ∧ k.Placed := by
    refine Run.invariant (P := fun k => k.Paging ∧ k.Placed) ⟨h₀.paging, h₀.placed⟩ (fun k c k' h hs => ?_) hrun
    obtain ⟨hpaging, hplaced⟩ := hs.toPageStep.keeps h.1
    exact ⟨hpaging, hplaced h.2 hs.placed⟩
  obtain ⟨hpaging, hplaced⟩ := hinv
  refine ⟨hpaging.tablesIsolated hplaced, fun c k' hs => ⟨hs.tableInBuffer hpaging, fun ht => ?_⟩⟩
  obtain ⟨hpaging', hplaced'⟩ := hs.keeps hpaging
  exact hpaging'.tablesIsolated (hplaced' hplaced ht)

theorem run_pages {k : Kernel} {cs : List Call}
    (h : Scripted (Call.next 1) (fun k c => (c.Legal k ∧ c.Paged k) ∧ c.returns 1 k = true) k cs) :
    Run (fun k c k' => c.Legal k ∧ PageStep 1 k c k') k (script (Call.next 1) k cs).1
      (script (Call.next 1) k cs).2 := by
  refine Run.script (Call.next 1) _ ?_ h
  rintro k c ⟨⟨hlegal, hpaged⟩, hret⟩
  exact ⟨hlegal, hpaged, Call.exec_next hret⟩

theorem run_placed {k : Kernel} {cs : List Call}
    (h : Scripted (Call.next 1) (fun k c => (c.Paged k ∧ c.TableInBuffer k) ∧ c.returns 1 k = true) k cs) :
    Run (PlacedStep 1) k (script (Call.next 1) k cs).1 (script (Call.next 1) k cs).2 := by
  refine Run.script (Call.next 1) _ ?_ h
  rintro k c ⟨⟨hpaged, hplaced⟩, hret⟩
  exact ⟨⟨hpaged, Call.exec_next hret⟩, hplaced⟩

/-- A queue whose buffer is the page 297 pages behind its own, a child that joins and leaves. -/
theorem run_placement_of_three :
    let cs : List Call := [.createQueue 1 (some (4096, .zero)) (some (4096 + tableOffset)) (some (8192, zeroPage)),
      .fork 1 2, .exit 2]
    let k := (script (Call.next 1) first cs).2
    k.TablesIsolated ∧ ∀ c k', PageStep 1 k c k' → (k'.TablesIsolated ↔ c.TableInBuffer k) := by
  intro cs k
  exact @run_placement 1 first k (script (Call.next 1) first cs).1 (Kernel.idle_boot ..)
    (@run_placed first cs (by decide +kernel))

/-- A queue whose buffer is on another page, and later a file that is opened on the page the table lies
in: the table is the file's operations. -/
theorem member_table_is_fileops :
    let cs : List Call := [.createQueue 1 (some (4096, .zero)) (some 8192) (some (12288, zeroPage)),
      .openFile 1 [97] 11 3 (some (4096 + tableOffset, zeroPage))]
    let k := (script (Call.next 1) first cs).2
    Run (fun k c k' => c.Legal k ∧ PageStep 1 k c k') first cs k ∧ ¬ k.TablesIsolated ∧
      (Obj.fileops (4096 + tableOffset)).Live k ∧
      (Obj.memberInfo 4096).span.Within (Obj.fileops (4096 + tableOffset)).span := by
  intro cs k
  have hrun : Run (fun k c k' => c.Legal k ∧ PageStep 1 k c k') first cs k := @run_pages first cs (by decide +kernel)
  have hlive : (Obj.fileops (4096 + tableOffset)).Live k := by
    change (k.files (4096 + tableOffset)).isSome = true
    decide +kernel
  have hqueue : (k.queues 4096).isSome = true := by decide +kernel
  have hwithin : (Obj.memberInfo 4096).span.Within (Obj.fileops (4096 + tableOffset)).span :=
    Span.within_of (by decide) (by decide)
  refine ⟨hrun, fun hall => ?_, hlive, hwithin⟩
  obtain ⟨m, hm⟩ := Option.isSome_iff_exists.1 hqueue
  have hbase := Span.has_base (s := (Obj.memberInfo 4096).span) (by decide)
  exact (hall 4096 m hm).1.apart _ hlive (by simp) (by simp) _ hbase (hwithin _ hbase)

end CS330.Os
