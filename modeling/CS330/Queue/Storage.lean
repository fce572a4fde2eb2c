/-
Where pending messages lie. The address of a slot is `msg_buffer[0]` plus `msg_count` times the size
of a message, counted in messages: the size enters twice, and the one page of a buffer ends behind
the fourth slot. A run keeps its messages inside the page just as long as no send would make more
than four of them pending.
-/
import CS330.Queue.Fifo

namespace CS330.Queue

open CS330.Lib MsgQueue

/-- How many messages a page holds, spaced as `append` spaces them. -/
def pageMessages : ℕ := pageSize / (sizeofMessage * sizeofMessage)

/-- The pending messages of a queue whose buffer page starts at `base`: each has a slot pointer
inside `msg_buffer`, lies at the address computed for it, inside the page, and apart from the others. -/
structure Stored (q : MsgQueue) (base : ℕ) : Prop where
  index : ∀ k < q.msgCount, k < msgSlots
  addr : ∀ k < q.msgCount, q.slot k = base + k * sizeofMessage * sizeofMessage
  inside : ∀ k < q.msgCount, base ≤ q.slot k ∧ q.slot k + sizeofMessage ≤ base + pageSize
  apart : ∀ k l, k < l → l < q.msgCount → q.slot k + sizeofMessage ≤ q.slot l

/-- With the slot pointers right, storage is right exactly while no more than a page's messages are
pending. -/
theorem stored_iff {q : MsgQueue} {base : ℕ} (h : q.Slots) (hb : q.slot 0 = base) :
    Stored q base ↔ q.msgCount ≤ pageMessages := by
  have haddr : ∀ k < q.msgCount, q.slot k = base + k * 1024 := by
    intro k hk
    rw [h.addr k hk, hb]
    simp only [sizeofMessage, maxTxtSize]
    omega
  have hle := h.le
  constructor
  · intro hst
    -- the last message is inside the page
    by_contra hlt
    have hpos : 4 < q.msgCount := not_le.1 hlt
    have hlast := (hst.inside 4 hpos).2
    rw [haddr 4 hpos] at hlast
    simp only [sizeofMessage, maxTxtSize, pageSize] at hlast
    omega
  · intro hfit
    have h4 : q.msgCount ≤ 4 := hfit
    constructor
    · intro k hk
      exact lt_of_lt_of_le hk hle
    · intro k hk
      rw [h.addr k hk, hb]
    · intro k hk
      rw [haddr k hk]
      simp only [sizeofMessage, maxTxtSize, pageSize]
      omega
    · intro k l hkl hl
      rw [haddr k (hkl.trans hl), haddr l hl]
      simp only [sizeofMessage, maxTxtSize]
      omega

/-! ## The base stays -/

/-- No call moves `msg_buffer[0]`. -/
theorem Step.base {q q' : MsgQueue} {d : Done} (hs : Step q d q') (h : q.WF) : q'.slot 0 = q.slot 0 := by
  obtain ⟨⟨c, ret, es⟩, hleg, hex, -, hm, hp⟩ := d, hs
  simp only at hleg hex
  have hq : (c.exec q).2 = q' := congrArg Prod.snd hex
  cases c with
  | fork p child => rw [← hq]; rfl
  | send pid msg =>
    rcases send_cases h.slots pid msg (by rw [show (q.send pid msg).2 = q' from hq]; exact hp) with
      hr | ⟨m, -, -, -, hb⟩ | ⟨m, -, -, -, ha⟩
    · rw [← hq]; simp only [Call.exec, hr]
    · rw [← hq]; exact hb.base
    · rw [← hq]; exact ha.base
  | rcv pid buf =>
    rw [← hq]
    simp only [Call.exec]
    rcases rcv_cases h.slots pid buf with ⟨hr, -⟩ | ⟨hr, -⟩ | ⟨_, _, _, q', hr, -, -, -, -, -, hsl, -⟩
    · rw [hr]
    · rw [hr]
    · rw [hr, hsl]
  | count pid => rw [← hq]; rfl
  | block pid target =>
    rw [← hq]
    simp only [Call.exec]
    rcases block_cases q pid target with hr | ⟨-, i, hb⟩
    · rw [hr]
    · obtain ⟨b, he⟩ := hb.matrix
      rw [he, slot_matrix q b (by decide)]
  | close pid =>
    obtain ⟨-, i, hc⟩ := close_of_mem h.slots h.members hleg.member
    rw [← hq]; exact hc.base

/-! ## Runs whose sends fit -/

/-- A call that stores no message too many for the page. -/
def Fits (q : MsgQueue) : Call → Prop
  | .send pid msg => q.msgCount + q.receivers pid msg ≤ pageMessages
  | _ => True

instance (q : MsgQueue) : DecidablePred (Fits q) := fun c => by
  rcases c <;> unfold Fits <;> infer_instance

/-- A legal call, after which at most `MAX_MEMBERS` processes are members, and which fits. -/
structure FitStep (q : MsgQueue) (d : Done) (q' : MsgQueue) : Prop where
  legal : d.call.Legal q
  exec : d.call.exec q = (d.ret, q')
  events : d.events = d.call.events q
  members : q'.memberCount ≤ maxMembers
  fits : Fits q d.call

/-- Only a send makes the number of pending messages grow. -/
theorem Call.msgCount_le {q : MsgQueue} (h : q.WF) {c : Call} (hleg : c.Legal q) {n : ℕ} (hn : n ≤ msgSlots)
    (hroom : ∀ pid msg, c = .send pid msg → q.msgCount + q.receivers pid msg ≤ n) (hc : q.msgCount ≤ n) :
    (c.exec q).2.msgCount ≤ n := by
  cases c with
  | fork p child => exact hc
  | send pid msg =>
    have hf := hroom pid msg rfl
    have hsend := send_receivers h.slots (hf.trans hn)
    simp only [Call.exec, hsend]
    exact hf
  | rcv pid buf =>
    simp only [Call.exec]
    rcases rcv_cases h.slots pid buf with ⟨hr, -⟩ | ⟨hr, -⟩ | ⟨pre, m, post, q', hr, hp, -, -, hp', -⟩
    · rw [hr]; exact hc
    · rw [hr]; exact hc
    -- one message fewer is pending
    · have hlen := congrArg List.length hp
      have hlen' := congrArg List.length hp'
      simp only [length_pending, List.length_append, List.length_cons] at hlen hlen'
      rw [hr]
      simp only
      omega
  | count pid => exact hc
  | block pid target =>
    simp only [Call.exec]
    rcases block_cases q pid target with hr | ⟨-, i, hb⟩
    · rw [hr]; exact hc
    · obtain ⟨b, he⟩ := hb.matrix
      rw [he]; exact hc
  | close pid =>
    obtain ⟨-, i, hcl⟩ := close_of_mem h.slots h.members hleg.member
    have hpend : (q.close pid).2.pending = q.pending.filter fun m => m.toPid ≠ pid := hcl.pending
    have hlen := congrArg List.length hpend
    have hle := List.length_filter_le (fun m : Message => m.toPid ≠ pid) q.pending
    rw [length_pending] at hlen hle
    simp only [Call.exec]
    omega

theorem FitStep.msgCount {q q' : MsgQueue} {d : Done} (hs : FitStep q d q') (h : q.WF)
    (hc : q.msgCount ≤ pageMessages) : q'.msgCount ≤ pageMessages := by
  have hq : (d.call.exec q).2 = q' := congrArg Prod.snd hs.exec
  rw [← hq]
  refine Call.msgCount_le h hs.legal (by decide) ?_ hc
  intro pid msg he
  have hf := hs.fits
  rw [he] at hf
  exact hf

/-- A call that fits is a step with room to spare. -/
theorem FitStep.step {q q' : MsgQueue} {d : Done} (hs : FitStep q d q') (h : q.WF)
    (hc : q.msgCount ≤ pageMessages) : Step q d q' :=
  ⟨hs.legal, hs.exec, hs.events, hs.members, (hs.msgCount h hc).trans (by decide)⟩

/-- Along a run whose sends fit, the slot pointers stay right and the messages few. -/
theorem run_fits {creator : Pid} {base : ℕ} {page q : MsgQueue} {ds : List Done}
    (h : Run FitStep (create creator base page) ds q) :
    q.WF ∧ q.slot 0 = base ∧ q.msgCount ≤ pageMessages := by
  refine h.invariant (P := fun q => q.WF ∧ q.slot 0 = base ∧ q.msgCount ≤ pageMessages)
    ⟨wf_create .., rfl, Nat.zero_le _⟩ ?_
  rintro q d q' ⟨hwf, hb, hc⟩ hs
  have hst := hs.step hwf hc
  exact ⟨hst.wf hwf, (hst.base hwf).trans hb, hs.msgCount hwf hc⟩

/-- A send is safe: it is refused and changes nothing, or what it leaves pending is stored right. -/
def SendSafe (q : MsgQueue) (base : ℕ) (pid : Pid) (msg : Option Message) : Prop :=
  Refused q (q.send pid msg) ∨ Stored (q.send pid msg).2 base

theorem sendSafe_iff {q : MsgQueue} {base : ℕ} (h : q.WF) (hb : q.slot 0 = base)
    (hc : q.msgCount ≤ pageMessages) (pid : Pid) (msg : Option Message) :
    SendSafe q base pid msg ↔ q.msgCount + q.receivers pid msg ≤ pageMessages := by
  have hc4 : q.msgCount ≤ 4 := hc
  have hrec : q.receivers pid msg ≤ 4 := by
    unfold receivers
    split
    · exact Nat.zero_le _
    · have := (q.reached_length_le pid q.memberCount).trans h.members
      simp only [maxMembers] at this
      split <;> split <;> omega
  have hroom : q.msgCount + q.receivers pid msg ≤ msgSlots := by
    simp only [msgSlots]; omega
  have hcount := send_receivers h.slots hroom
  rcases send_cases h.slots pid msg (by rw [hcount]; exact hroom) with hr | hsent
  · -- a refused send reaches nobody
    rw [hr] at hcount
    simp only at hcount
    constructor
    · intro _; rw [← hcount]; exact hc
    · intro _; exact .inl hr
  · have hsl : (q.send pid msg).2.Slots ∧ (q.send pid msg).2.slot 0 = base ∧ (q.send pid msg).1 ≠ -einval := by
      rcases hsent with ⟨m, -, -, -, hbr⟩ | ⟨m, -, -, h1, ha⟩
      · refine ⟨hbr.slots, hbr.base.trans hb, ?_⟩
        rw [hbr.ret]; simp only [einval]; omega
      · refine ⟨ha.slots, ha.base.trans hb, ?_⟩
        rw [h1]; exact einval_ne_one
    obtain ⟨hsl, hb', hne⟩ := hsl
    rw [← hcount, ← stored_iff hsl hb']
    constructor
    · rintro (hr | hst)
      · exact absurd (congrArg Prod.fst hr) hne
      · exact hst
    · exact .inr

/-- In every run whose sends fit, all pending messages are stored right; and the next send, whatever
it is, is safe if and only if it fits. -/
theorem run_storage {creator : Pid} {base : ℕ} {page q : MsgQueue} {ds : List Done}
    (h : Run FitStep (create creator base page) ds q) :
    Stored q base ∧ ∀ pid msg, SendSafe q base pid msg ↔ q.msgCount + q.receivers pid msg ≤ pageMessages := by
  obtain ⟨hwf, hb, hc⟩ := run_fits h
  exact ⟨(stored_iff hwf.slots hb).2 hc, sendSafe_iff hwf hb hc⟩

theorem run_storage_of_send :
    let m : Message := ⟨1, 2, .replicate _ 7⟩
    let q := (((create 1 4096 zero).addChild 2).send 1 m).2
    Run FitStep (create 1 4096 zero) [⟨.fork 1 2, 2, [.join 2]⟩, ⟨.send 1 m, 1, [.accept m]⟩] q ∧
      Stored q 4096 ∧
      ∀ pid msg, SendSafe q 4096 pid msg ↔ q.msgCount + q.receivers pid msg ≤ pageMessages := by
  have hfork : Run FitStep (create 1 4096 zero) [⟨.fork 1 2, 2, [.join 2]⟩] ((create 1 4096 zero).addChild 2) :=
    .single ⟨by decide, rfl, rfl, by decide, trivial⟩
  have hsend := hfork.snoc (l := ⟨.send 1 (some ⟨1, 2, .replicate _ 7⟩), 1, [.accept ⟨1, 2, .replicate _ 7⟩]⟩)
    ⟨by decide, rfl, rfl, by decide, by decide⟩
  exact ⟨hsend, run_storage hsend⟩

/-- The fifth pending message is accepted and stored behind the end of the page. -/
theorem fifth_message_leaves_page :
    let m : Message := ⟨1, 2, .replicate _ 7⟩
    let ds := play (create 1 4096 zero) [.fork 1 2, .send 1 m, .send 1 m, .send 1 m, .send 1 m]
    Run Step (create 1 4096 zero) ds.1 ds.2 ∧ (ds.2.send 1 m).1 = 1 ∧ (ds.2.send 1 m).2.msgCount = 5 ∧
      (ds.2.send 1 m).2.slot 4 = 4096 + pageSize ∧ ¬ SendSafe ds.2 4096 1 m := by
  refine ⟨run_play (by decide), by decide, by decide, by decide, ?_⟩
  rintro (h | h)
  · exact absurd (congrArg Prod.fst h) (by decide)
  · exact absurd (h.inside 4 (by decide)).2 (by decide)

end CS330.Queue
