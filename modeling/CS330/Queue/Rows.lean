/-
The rows of the block matrix as lists of pids: no pid twice, never the row's own member, only current
members, and nothing behind the last member. So a row always has a free cell for one more member, a
member that leaves takes its row and its name with it, and the next process with its pid finds
nothing of it.
-/
import CS330.Queue.Block
import CS330.Queue.Storage

namespace CS330.Queue

open CS330.Lib MsgQueue

/-! ## Runs with room -/

/-- The pids of processes are non-negative as an `int`. -/
def IntPid (pid : Pid) : Prop := pid.toNat < 2 ^ 31

instance : DecidablePred IntPid := fun pid => by unfold IntPid; infer_instance

theorem IntPid.ne_broadcast {pid : Pid} (h : IntPid pid) : pid ≠ broadcastPid := by
  rintro rfl
  exact absurd h (by decide)

def Call.Pids : Call → Prop
  | .fork _ child => IntPid child
  | _ => True

instance : DecidablePred Call.Pids := fun c => by
  rcases c <;> unfold Call.Pids <;> infer_instance

/-- There are slot pointers for all the messages a call stores. -/
def Room (q : MsgQueue) : Call → Prop
  | .send pid msg => q.msgCount + q.receivers pid msg ≤ msgSlots
  | _ => True

/-- A legal call, after which at most `MAX_MEMBERS` processes are members. -/
structure MemberStep (q : MsgQueue) (d : Done) (q' : MsgQueue) : Prop where
  legal : d.call.Legal q
  pids : d.call.Pids
  exec : d.call.exec q = (d.ret, q')
  events : d.events = d.call.events q
  members : q'.memberCount ≤ maxMembers

structure RoomStep (q : MsgQueue) (d : Done) (q' : MsgQueue) : Prop extends MemberStep q d q' where
  room : Room q d.call

theorem RoomStep.step {q q' : MsgQueue} {d : Done} (hs : RoomStep q d q') (h : q.WF) : Step q d q' := by
  refine ⟨hs.legal, hs.exec, hs.events, hs.members, ?_⟩
  have hq : (d.call.exec q).2 = q' := congrArg Prod.snd hs.exec
  rw [← hq]
  refine Call.msgCount_le h hs.legal le_rfl ?_ h.slots.le
  intro pid msg he
  have hr := hs.room
  rw [he] at hr
  exact hr

/-! ## Rows -/

/-- Cell `j` of row `i`. -/
def cell (q : MsgQueue) (i j : ℕ) : Int32 := q.blockProcess (maxMembers * i + j)

/-- The entries of row `i` that are not `-1`. -/
def named (q : MsgQueue) (i : ℕ) : List Int32 := (slice (cell q i) maxMembers).filter (· ≠ -1)

theorem mem_named {q : MsgQueue} {i : ℕ} {t : Int32} : t ∈ named q i ↔ t ≠ -1 ∧ ∃ j < maxMembers, cell q i j = t := by
  unfold named
  rw [List.mem_filter, mem_slice, and_comm]
  simp

theorem toUInt32_inj {t u : Int32} (h : t.toUInt32 = u.toUInt32) : t = u := by
  rw [← Int32.toInt32_toUInt32 t, h, Int32.toInt32_toUInt32]

theorem toUInt32_ne_broadcast {t : Int32} (h : t ≠ -1) : t.toUInt32 ≠ broadcastPid := fun he =>
  h (toUInt32_inj (he.trans (show broadcastPid = (-1 : Int32).toUInt32 from rfl)))

theorem mem_named_iff_names {q : MsgQueue} {i : ℕ} {t : Int32} :
    t ∈ named q i ↔ t.toUInt32 ≠ broadcastPid ∧ Names q i t.toUInt32 := by
  rw [mem_named]
  constructor
  · rintro ⟨hne, j, hj, he⟩
    exact ⟨toUInt32_ne_broadcast hne, j, hj, congrArg Int32.toUInt32 he⟩
  · rintro ⟨hne, j, hj, he⟩
    refine ⟨?_, j, hj, toUInt32_inj he⟩
    rintro rfl
    exact hne rfl

/-- No row names a pid twice. -/
def Distinct (q : MsgQueue) : Prop :=
  ∀ i < maxMembers, ∀ j < maxMembers, ∀ j' < maxMembers, cell q i j = cell q i j' → cell q i j ≠ -1 → j = j'

theorem nodup_named {q : MsgQueue} (h : Distinct q) {i : ℕ} (hi : i < maxMembers) : (named q i).Nodup := by
  unfold named slice
  rw [List.filter_map]
  refine List.Nodup.map_on ?_ (List.nodup_range.filter _)
  intro j hj j' hj' he
  obtain ⟨hj, hne⟩ := List.mem_filter.1 hj
  obtain ⟨hj', -⟩ := List.mem_filter.1 hj'
  exact h i hi j (List.mem_range.1 hj) j' (List.mem_range.1 hj') he (by simpa using hne)

theorem distinct_congr {q q' : MsgQueue} (h : Distinct q) (hb : q'.blockProcess = q.blockProcess) : Distinct q' := by
  unfold Distinct cell
  rw [hb]
  exact h

/-! ## What the steps do to the rows -/

/-- A block of a pid the caller's row already names changes nothing. -/
theorem block_of_named {q : MsgQueue} (hn : q.members.Nodup) {pid : Pid} {target : Int32} {i : ℕ}
    (hi : i < q.memberCount) (hp : q.memberPid i = pid) (hnamed : ∃ j < maxMembers, cell q i j = target) :
    (q.block pid target).2 = q := by
  obtain ⟨j, hj, he⟩ := hnamed
  unfold MsgQueue.block
  by_cases hneg : target < 0
  · rw [if_pos hneg]
  rw [if_neg hneg]
  rcases hc : lastIdx q.memberCount (fun k => q.memberPid k == pid) with _ | idxCtx
  · rfl
  rcases lastIdx q.memberCount (fun k => q.memberPid k == target.toUInt32) with _ | idxPid
  · rfl
  obtain ⟨hlt, heq⟩ := (lastIdx_spec _ _).1 _ hc
  have hidx : idxCtx = i := slice_nodup_inj hn hlt hi (by simpa [hp] using heq)
  simp only
  split
  · rfl
  · have hsome : (firstIdx maxMembers fun j => q.blockProcess (maxMembers * idxCtx + j) == target).isSome := by
      rw [hidx]
      exact firstIdx_isSome.2 ⟨j, hj, by simpa [cell] using he⟩
    rw [if_pos hsome]

theorem distinct_block {q : MsgQueue} (hn : q.members.Nodup) (h : Distinct q)
    {pid : Pid} {target : Int32} {i : ℕ} (hb : Blocked q pid target i (q.block pid target).2) :
    Distinct (q.block pid target).2 := by
  rcases hb.row with ⟨-, he⟩ | ⟨j, hj, hfree, he⟩
  · rw [he]; exact h
  by_cases hnamed : ∃ j < maxMembers, cell q i j = target
  · rw [block_of_named hn hb.lt hb.caller hnamed]; exact h
  -- only cell `(i, j)` changes, to a pid that was not in its row
  have hcell : ∀ k < maxMembers, ∀ l < maxMembers,
      cell (q.block pid target).2 k l = if k = i ∧ l = j then target else cell q k l := by
    intro k _ l hl
    rw [he]
    simp only [cell, Function.update_apply]
    congr 1
    refine propext ⟨fun hx => cell_inj hl hj hx, ?_⟩
    rintro ⟨rfl, rfl⟩
    rfl
  intro k hk l hl l' hl' heq hne
  rw [hcell k hk l hl] at heq hne
  rw [hcell k hk l' hl'] at heq
  by_cases hkl : k = i ∧ l = j
  · by_cases hkl' : k = i ∧ l' = j
    · exact hkl.2.trans hkl'.2.symm
    · rw [if_pos hkl, if_neg hkl', hkl.1] at heq
      exact absurd ⟨l', hl', heq.symm⟩ hnamed
  · by_cases hkl' : k = i ∧ l' = j
    · rw [if_neg hkl, if_pos hkl', hkl'.1] at heq
      exact absurd ⟨l, hl, heq⟩ hnamed
    · rw [if_neg hkl] at heq hne
      rw [if_neg hkl'] at heq
      exact h k hk l hl l' hl' heq hne

theorem distinct_leave {q q' : MsgQueue} (hle : q.memberCount ≤ maxMembers) (h : Distinct q) {pid : Pid} {i : ℕ}
    (hc : Closed q pid i q')
    (hclean : ∀ k, q'.memberCount ≤ k → k < maxMembers → ∀ j < maxMembers, cell q' k j = -1) : Distinct q' := by
  intro k hk j hj j' hj' heq hne
  have hlt : k < q'.memberCount := by
    by_contra hge
    exact hne (hclean k (not_lt.1 hge) hk j hj)
  unfold cell at heq hne
  rw [cell_closed hle hc hlt hj] at heq hne
  rw [cell_closed hle hc hlt hj'] at heq
  have hrow : (if i ≤ k then k + 1 else k) < maxMembers := by
    have := hc.memberCount
    split <;> omega
  generalize (if i ≤ k then k + 1 else k) = r at heq hne hrow
  by_cases hp : (q.blockProcess (maxMembers * r + j)).toUInt32 = pid
  · exact absurd (if_pos hp) hne
  · rw [if_neg hp] at heq hne
    by_cases hp' : (q.blockProcess (maxMembers * r + j')).toUInt32 = pid
    · rw [if_pos hp'] at heq
      exact absurd heq hne
    · rw [if_neg hp'] at heq
      exact h r hrow j hj j' hj' heq hne

/-- Filtering the holes out of a row with new holes. -/
theorem filter_punched {α : Type*} [DecidableEq α] (e : α) (p : α → Prop) [DecidablePred p] (l : List α) :
    (l.map fun x => if p x then e else x).filter (· ≠ e) = (l.filter (· ≠ e)).filter fun x => ¬ p x := by
  induction l with
  | nil => rfl
  | cons x l ih =>
    by_cases he : x = e
    · subst he
      by_cases hp : p x <;> simpa [hp] using ih
    · by_cases hp : p x <;> simpa [hp, he] using ih

/-- The row of a member that stays is its old row without the leaver, in order. -/
theorem named_closed {q q' : MsgQueue} {pid : Pid} {i : ℕ} (hle : q.memberCount ≤ maxMembers) (hc : Closed q pid i q')
    {k : ℕ} (hk : k < q'.memberCount) :
    named q' k = (named q (if i ≤ k then k + 1 else k)).filter fun t => ¬ t.toUInt32 = pid := by
  unfold named
  rw [← filter_punched]
  congr 1
  unfold slice
  rw [List.map_map]
  refine List.map_congr_left fun j hj => ?_
  exact cell_closed hle hc hk (List.mem_range.1 hj)

/-! ## The block relation -/

/-- The rows are the block relation: the row of a member lists, without repetition, exactly the pids
it has blocked, all of them other members; rows behind the last member are empty. -/
structure BlockRows (q : MsgQueue) (es : List (Ev Pid Message)) : Prop where
  row : ∀ i < q.memberCount, ∀ t, t ∈ named q i ↔ Mailbox.blocked (q.memberPid i) t.toUInt32 es = true
  nodup : ∀ i < q.memberCount, (named q i).Nodup
  others : ∀ i < q.memberCount, ∀ t ∈ named q i, t.toUInt32 ∈ q.members ∧ t.toUInt32 ≠ q.memberPid i
  clean : ∀ i, q.memberCount ≤ i → i < maxMembers → ∀ j < maxMembers, cell q i j = -1

/-- What the rows need besides the matrix being the history. -/
structure Sorted (q : MsgQueue) (es : List (Ev Pid Message)) : Prop where
  distinct : Distinct q
  others : ∀ r s, Mailbox.blocked r s es = true → r ≠ s
  pids : ∀ r ∈ q.members, IntPid r

theorem sorted_create {creator : Pid} (hc : IntPid creator) (a : ℕ) (page : MsgQueue) :
    Sorted (create creator a page) [.join creator] where
  distinct := by
    intro i hi j hj j' _ _ hne
    refine absurd ?_ hne
    unfold cell
    rw [blockProcess_create, if_pos (cell_lt hi hj)]
  others := by
    intro r s h
    cases h
  pids := by
    intro r hr
    rw [members_create, List.mem_singleton] at hr
    rw [hr]
    exact hc

/-- A step keeps the rows sorted. -/
theorem Sorted.step {q q' : MsgQueue} {es : List (Ev Pid Message)} {d : Done} (h : Sorted q es) (hwf : q.WF)
    (hn : q.members.Nodup) (hm : Matrix q es) (hs : Step q d q') (hp : d.call.Pids) : Sorted q' (es ++ d.events) := by
  rcases hs.tables hwf with ⟨h1, h2, h3, hmv⟩ | ⟨p, child, hcall, -, -, rfl, he⟩ | ⟨pid, target, i, hcall, he, hb⟩ |
    ⟨pid, i, -, he, hcl⟩
  · constructor
    · exact distinct_congr h.distinct h3
    · intro r s hrs
      rw [Mailbox.blocked_append_moves _ _ _ _ hmv] at hrs
      exact h.others r s hrs
    · rw [members_congr h1 h2]
      exact h.pids
  · rw [hcall] at hp
    rw [he]
    constructor
    · exact distinct_congr h.distinct rfl
    · intro r s hrs
      rw [Mailbox.blocked_snoc] at hrs
      exact h.others r s hrs
    · intro r hr
      rw [members_addChild] at hr
      rcases List.mem_append.1 hr with hr | hr
      · exact h.pids r hr
      · rw [List.mem_singleton.1 hr]
        exact hp
  · have hq : q' = (q.block pid target).2 := by
      have := congrArg Prod.snd hs.exec
      rw [hcall] at this
      exact this.symm
    rw [he]
    constructor
    · rw [hq] at hb ⊢
      exact distinct_block hn h.distinct hb
    · intro r s hrs
      rw [Mailbox.blocked_snoc] at hrs
      simp only [Bool.or_eq_true, Bool.and_eq_true, decide_eq_true_eq] at hrs
      rcases hrs with hrs | ⟨rfl, rfl⟩
      · exact h.others r s hrs
      · exact hb.ne.symm
    · have hmem : q'.members = q.members := by
        obtain ⟨b, rfl⟩ := hb.matrix
        exact members_congr rfl rfl
      rw [hmem]
      exact h.pids
  · -- the row that appears at the end is clean, so only shifted rows can repeat a pid
    rw [he]
    constructor
    · exact distinct_leave hwf.members h.distinct hcl fun k hk hk4 j hj => clean_closed hcl hm.clean hk hk4 hj
    · intro r s hrs
      rw [Mailbox.blocked_snoc] at hrs
      simp only [Bool.and_eq_true] at hrs
      exact h.others r s hrs.1.1
    · intro r hr
      rw [hcl.members] at hr
      exact h.pids r (List.mem_of_mem_erase hr)

theorem blockRows {q : MsgQueue} {es : List (Ev Pid Message)} (hle : q.memberCount ≤ maxMembers) (hm : Matrix q es)
    (h : Sorted q es) : BlockRows q es where
  row := by
    intro i hi t
    rw [mem_named_iff_names]
    constructor
    · rintro ⟨hne, hnames⟩
      exact (hm.row i hi _ hne).1 hnames
    · intro hb
      have hne := hm.valid _ (hm.members _ _ hb).2
      exact ⟨hne, (hm.row i hi _ hne).2 hb⟩
  nodup := fun i hi => nodup_named h.distinct (hi.trans_le hle)
  others := by
    intro i hi t ht
    obtain ⟨hne, hnames⟩ := mem_named_iff_names.1 ht
    have hb := (hm.row i hi _ hne).1 hnames
    exact ⟨(hm.members _ _ hb).2, (h.others _ _ hb).symm⟩
  clean := hm.clean

/-! ## Blocking always succeeds -/

/-- A row that does not name a member other than its own has a free cell: the row names only the
members besides these two, each once. -/
theorem free_cell {q : MsgQueue} {es : List (Ev Pid Message)} (hle : q.memberCount ≤ maxMembers)
    (h : BlockRows q es) {i : ℕ} (hi : i < q.memberCount) {target : Int32}
    (hmem : target.toUInt32 ∈ q.members) (hne : target.toUInt32 ≠ q.memberPid i) (hnot : target ∉ named q i) :
    ∃ j < maxMembers, cell q i j = -1 := by
  by_contra hfull
  push Not at hfull
  have hall : named q i = slice (cell q i) maxMembers := by
    refine List.filter_eq_self.2 fun t ht => ?_
    obtain ⟨j, hj, rfl⟩ := mem_slice.1 ht
    simpa using hfull j hj
  have hself : q.memberPid i ∈ q.members := mem_slice.2 ⟨i, hi, rfl⟩
  -- a full row would be four different pids among the members besides these two
  let others := (q.members.erase (q.memberPid i)).erase target.toUInt32
  have hsub : (named q i).map Int32.toUInt32 ⊆ others := by
    intro s hs
    obtain ⟨t, ht, rfl⟩ := List.mem_map.1 hs
    obtain ⟨hm, hself⟩ := h.others i hi t ht
    have hother : t.toUInt32 ≠ target.toUInt32 := fun he => hnot (toUInt32_inj he ▸ ht)
    exact (List.mem_erase_of_ne hother).2 ((List.mem_erase_of_ne hself).2 hm)
  have hnodup : ((named q i).map Int32.toUInt32).Nodup := (h.nodup i hi).map fun _ _ => toUInt32_inj
  have hlen := (List.subperm_of_subset hnodup hsub).length_le
  have hlen' : others.length = q.memberCount - 1 - 1 := by
    rw [List.length_erase_of_mem ((List.mem_erase_of_ne hne).2 hmem), List.length_erase_of_mem hself, length_members]
  rw [List.length_map, hall, length_slice, hlen'] at hlen
  simp only [maxMembers] at hle hlen
  omega

/-- A block of one member by another always returns 0. -/
theorem block_succeeds {q : MsgQueue} {es : List (Ev Pid Message)} (hle : q.memberCount ≤ maxMembers)
    (h : BlockRows q es) {pid : Pid} {target : Int32} (hneg : ¬ target < 0)
    (hpid : pid ∈ q.members) (hmem : target.toUInt32 ∈ q.members) (hne : target.toUInt32 ≠ pid) :
    (q.block pid target).1 = 0 := by
  -- each of the two searches finds its member
  have hfound : ∀ r ∈ q.members, ∃ i, lastIdx q.memberCount (fun k => q.memberPid k == r) = some i ∧
      i < q.memberCount ∧ q.memberPid i = r := by
    intro r hr
    obtain ⟨k, hk, he⟩ := mem_slice.1 hr
    cases hl : lastIdx q.memberCount (fun k => q.memberPid k == r) with
    | none =>
      have := (lastIdx_spec _ _).2 hl k hk
      simp [he] at this
    | some i =>
      obtain ⟨hlt, heq⟩ := (lastIdx_spec _ _).1 _ hl
      exact ⟨i, rfl, hlt, by simpa using heq⟩
  obtain ⟨i, hi, hlt, hpi⟩ := hfound pid hpid
  obtain ⟨k, hk, -, hpk⟩ := hfound _ hmem
  unfold MsgQueue.block
  rw [if_neg hneg, hi, hk]
  simp only
  have hik : i ≠ k := fun he => hne (by rw [← hpk, ← hpi, he])
  rw [if_neg hik]
  split
  · rfl
  · rename_i hnone
    -- a pid that is not in the row finds a free cell there
    have hnot : target ∉ named q i := by
      intro ht
      obtain ⟨-, j, hj, he⟩ := mem_named.1 ht
      exact hnone (firstIdx_isSome.2 ⟨j, hj, by simpa [cell] using he⟩)
    obtain ⟨j, hj, hfree⟩ := free_cell hle h hlt hmem (by rw [hpi]; exact hne) hnot
    cases hf : firstIdx maxMembers fun j => q.blockProcess (maxMembers * i + j) == -1 with
    | none =>
      have := firstIdx_none.1 hf j hj
      unfold cell at hfree
      simp [hfree] at this
    | some j' => rfl

/-- Along every run with room the rows are sorted. -/
theorem run_sorted {creator : Pid} (hc : IntPid creator) {a : ℕ} {page q : MsgQueue} {ds : List Done}
    (h : Run RoomStep (create creator a page) ds q) :
    Run Step (create creator a page) ds q ∧ Sorted q (log creator ds) := by
  refine h.inv (P := fun ds q => Run Step (create creator a page) ds q ∧ Sorted q (log creator ds))
    ⟨.start, sorted_create hc a page⟩ ?_
  rintro ds q d q' - ⟨hr, hs⟩ hd
  obtain ⟨hwf, hf⟩ := run_fifo hr
  have hstep := hd.step hwf
  rw [log_snoc]
  exact ⟨hr.snoc hstep, hs.step hwf hf.nodup (run_matrix hc.ne_broadcast hr) hstep hd.pids⟩

theorem IntPid.toInt32 {r : Pid} (h : IntPid r) : ¬ r.toInt32 < 0 := by
  rw [Int32.lt_iff_toInt_lt, not_lt]
  have hlt : 2 * r.toBitVec.toNat < 2 ^ 32 := by
    have : r.toNat < 2 ^ 31 := h
    rw [UInt32.toNat_toBitVec]
    omega
  have hr : r.toInt32.toInt = (r.toBitVec.toNat : ℤ) := BitVec.toInt_eq_toNat_of_lt hlt
  rw [hr]
  exact Int.natCast_nonneg _

/-- The block matrix is the block relation, in every run whose sends find room for what they store: the
rows are what `BlockRows` says, a block that passes the checks in front always returns 0, since its
row has a free cell, and so does the block of any member by any other. -/
theorem run_blockRows {creator : Pid} (hc : IntPid creator) {a : ℕ} {page q : MsgQueue} {ds : List Done}
    (h : Run RoomStep (create creator a page) ds q) :
    BlockRows q (log creator ds) ∧
    (∀ pid target, ¬ target < 0 → pid ∈ q.members → target.toUInt32 ∈ q.members → target.toUInt32 ≠ pid →
      (q.block pid target).1 = 0) ∧
    ∀ s ∈ q.members, ∀ r ∈ q.members, r ≠ s → (q.block s r.toInt32).1 = 0 := by
  obtain ⟨hr, hs⟩ := run_sorted hc h
  obtain ⟨hwf, hf⟩ := run_fifo hr
  have hrows := blockRows hwf.members (run_matrix hc.ne_broadcast hr) hs
  refine ⟨hrows, fun pid target => block_succeeds hwf.members hrows, ?_⟩
  intro s hsm r hrm hne
  exact block_succeeds hwf.members hrows (hs.pids r hrm).toInt32 hsm hrm hne

/-! ## Scripts -/

/-- A call that makes a step. -/
def MemberOk (q : MsgQueue) (c : Call) : Prop := c.Legal q ∧ c.Pids ∧ (c.exec q).2.memberCount ≤ maxMembers

instance (q : MsgQueue) (c : Call) : Decidable (MemberOk q c) := by unfold MemberOk; infer_instance

instance (q : MsgQueue) : DecidablePred (Room q) := fun c => by
  rcases c <;> unfold Room <;> infer_instance

theorem memberStep_next {q : MsgQueue} {c : Call} (h : MemberOk q c) : MemberStep q (next q c).1 (next q c).2 :=
  ⟨h.1, h.2.1, rfl, rfl, h.2.2⟩

theorem run_member {q : MsgQueue} {cs : List Call} (h : Scripted next MemberOk q cs) :
    Run MemberStep q (play q cs).1 (play q cs).2 :=
  Run.script next MemberOk (fun _ _ => memberStep_next) h

theorem run_room {q : MsgQueue} {cs : List Call} (h : Scripted next (fun q c => MemberOk q c ∧ Room q c) q cs) :
    Run RoomStep q (play q cs).1 (play q cs).2 :=
  Run.script next _ (fun _ _ h => ⟨memberStep_next h.1, h.2⟩) h

/-- Members 2 and 3 block each other, 3 blocks 1, and 2 leaves. -/
theorem run_blockRows_of_three :
    let ds := play (create 1 4096 zero) [.fork 1 2, .fork 1 3, .block 2 3, .block 3 2, .block 3 1, .close 2]
    BlockRows ds.2 (log 1 ds.1) ∧
    (∀ pid target, ¬ target < 0 → pid ∈ ds.2.members → target.toUInt32 ∈ ds.2.members → target.toUInt32 ≠ pid →
      (ds.2.block pid target).1 = 0) ∧
    ∀ s ∈ ds.2.members, ∀ r ∈ ds.2.members, r ≠ s → (ds.2.block s r.toInt32).1 = 0 :=
  run_blockRows (by decide) (run_room (by decide))

/-- The slot pointer of the 129th pending message lands in the first two cells of row 0. -/
theorem message_overwrites_row :
    let ds := play (create 1 4096 zero) (.fork 1 2 :: .replicate 129 (.send 1 (some ⟨1, 2, .replicate _ 7⟩)))
    Run MemberStep (create 1 4096 zero) ds.1 ds.2 ∧ ds.2.members = [1, 2] ∧ 135168 ∈ named ds.2 0 ∧
      ¬ BlockRows ds.2 (log 1 ds.1) := by
  intro ds
  have hmem : ds.2.members = [1, 2] := by decide +kernel
  have hrow : (135168 : Int32) ∈ named ds.2 0 := by decide +kernel
  refine ⟨run_member (by decide +kernel), hmem, hrow, ?_⟩
  intro h
  have hin := (h.others 0 (by decide +kernel) 135168 hrow).1
  rw [hmem] at hin
  exact absurd hin (by decide)

/-! ## A reused pid starts clean -/

/-- The row of a member. -/
def rowOf (q : MsgQueue) (r : Pid) : List Int32 :=
  match q.addressee r with
  | some i => named q i
  | none => []

theorem rowOf_eq {q : MsgQueue} (hn : q.members.Nodup) {i : ℕ} (hi : i < q.memberCount) {r : Pid}
    (hr : q.memberPid i = r) : rowOf q r = named q i := by
  unfold rowOf
  cases h : q.addressee r with
  | some k =>
    obtain ⟨hk, he⟩ := addressee_some h
    rw [slice_nodup_inj hn hk hi (he.trans hr.symm)]
  | none =>
    obtain ⟨k, hk⟩ := addressee_of_mem (mem_slice.2 ⟨i, hi, hr⟩ : r ∈ q.members)
    rw [h] at hk
    cases hk

/-- A member of which the queue has no message, no block and no block against it. -/
structure CleanMember (q : MsgQueue) (p : Pid) : Prop where
  member : p ∈ q.members
  count : q.getMsgCount p = 0
  row : rowOf q p = []
  unnamed : ∀ i < q.memberCount, ∀ t ∈ named q i, t.toUInt32 ≠ p

/-- What a leaver leaves behind: the others in their order, each with its pending messages in theirs and
its row without the leaver. -/
structure Parted (q : MsgQueue) (pid : Pid) (q' : MsgQueue) : Prop where
  members : q'.members = q.members.erase pid
  pending : ∀ r ∈ q.members, r ≠ pid →
    q'.pending.filter (fun m => m.toPid = r) = q.pending.filter fun m => m.toPid = r
  rows : ∀ r ∈ q.members, r ≠ pid → rowOf q' r = (rowOf q r).filter fun t => ¬ t.toUInt32 = pid

theorem cleanMember_join {q : MsgQueue} {es : List (Ev Pid Message)}
    (hf : Mailbox.Fifo Message.toPid es q.mailbox) (hm : Matrix q es) {child : Pid} (hc : child ∉ q.members)
    (hlt : q.memberCount < maxMembers) : CleanMember (q.addChild child) child := by
  have hmem : child ∈ (q.addChild child).members := by
    rw [members_addChild]
    exact List.mem_append_right _ (List.mem_singleton_self _)
  have hn : (q.addChild child).members.Nodup := by
    rw [members_addChild]
    refine List.nodup_append.2 ⟨hf.nodup, List.nodup_singleton _, fun x hx y hy => ?_⟩
    rw [List.mem_singleton.1 hy]
    rintro rfl
    exact hc hx
  have hnew : named (q.addChild child) q.memberCount = [] := by
    refine List.filter_eq_nil_iff.2 fun t ht => ?_
    obtain ⟨j, hj, rfl⟩ := mem_slice.1 ht
    have hclean : cell (q.addChild child) q.memberCount j = -1 := hm.clean _ le_rfl hlt j hj
    simpa using hclean
  constructor
  · exact hmem
  · rw [getMsgCount_of_mem hmem]
    have hpend : (q.addChild child).pending.filter (fun m => m.toPid = child) = [] := by
      refine List.filter_eq_nil_iff.2 fun m hm => ?_
      -- pending messages are for members, which the child was not
      have := hf.addressed m hm
      intro he
      exact hc (of_decide_eq_true he ▸ this)
    rw [hpend]
    rfl
  · rw [rowOf_eq hn (Nat.lt_succ_self q.memberCount), hnew]
    simp [addChild]
  · intro i hi t ht
    rcases Nat.lt_succ_iff_lt_or_eq.1 hi with hi | rfl
    · obtain ⟨hne, hnames⟩ := mem_named_iff_names.1 (show t ∈ named q i from ht)
      have hb := (hm.row i hi _ hne).1 hnames
      rintro rfl
      exact hc (hm.members _ _ hb).2
    · rw [hnew] at ht
      cases ht

theorem parted_of_closed {q q' : MsgQueue} (hle : q.memberCount ≤ maxMembers) (hn : q.members.Nodup) {pid : Pid}
    {i : ℕ} (hc : Closed q pid i q') : Parted q pid q' := by
  have hn' : q'.members.Nodup := by
    rw [hc.members]
    exact hn.erase pid
  constructor
  · exact hc.members
  · intro r _ hr
    rw [hc.pending, List.filter_filter]
    refine List.filter_congr fun m _ => ?_
    by_cases he : m.toPid = r
    · simp [he, hr]
    · simp [he]
  · intro r hr hne
    obtain ⟨k, hk, he⟩ := mem_slice.1 hr
    have hki : k ≠ i := by
      rintro rfl
      exact hne (he.symm.trans hc.caller)
    have hi := hc.lt
    have hcount := hc.memberCount
    -- the member's index moves down if it was behind the leaver's
    obtain ⟨l, hl, hlk⟩ : ∃ l < q'.memberCount, (if i ≤ l then l + 1 else l) = k := by
      by_cases hik : i < k
      · exact ⟨k - 1, by omega, by rw [if_pos (by omega)]; omega⟩
      · exact ⟨k, by omega, if_neg (by omega)⟩
    have hpid : q'.memberPid l = r := by
      rw [hc.memberPid l hl, ← he, ← hlk]
      split <;> rfl
    rw [rowOf_eq hn' hl hpid, rowOf_eq hn hk he, named_closed hle hc hl, hlk]

/-- A reused pid starts clean, in every run whose sends find room for what they store: a process that
joins finds no message, no block of its own and no block against its pid, whoever had the pid before;
and a member that leaves takes out of the queue just what was its own. -/
theorem run_clean {creator : Pid} (hc : IntPid creator) {a : ℕ} {page q : MsgQueue} {ds : List Done}
    (h : Run RoomStep (create creator a page) ds q) {d : Done} {q' : MsgQueue} (hs : RoomStep q d q') :
    (∀ p child, d.call = .fork p child → CleanMember q' child) ∧
    ∀ pid, d.call = .close pid → d.ret = 0 ∧ Parted q pid q' := by
  obtain ⟨hr, -⟩ := run_sorted hc h
  obtain ⟨hwf, hf⟩ := run_fifo hr
  constructor
  · intro p child hcall
    have hlegal := hs.legal
    have hexec := hs.exec
    have hcount := hs.members
    rw [hcall] at hlegal hexec
    obtain ⟨-, rfl⟩ := Prod.mk.inj hexec
    exact cleanMember_join hf (run_matrix hc.ne_broadcast hr) hlegal.2.1 hcount
  · intro pid hcall
    have hlegal := hs.legal
    have hexec := hs.exec
    rw [hcall] at hlegal hexec
    obtain ⟨h0, i, hcl⟩ := close_of_mem hwf.slots hwf.members (show pid ∈ q.members from hlegal)
    have hexec : q.close pid = (d.ret, q') := hexec
    rw [hexec] at h0 hcl
    exact ⟨h0, parted_of_closed hwf.members hf.nodup hcl⟩

/-- Member 2 is sent a message, blocks 3, is blocked by 3 and leaves; then 1 forks a new process 2. -/
theorem run_clean_of_reuse :
    let ds := play (create 1 4096 zero) [.fork 1 2, .fork 1 3, .send 1 (some ⟨1, 2, .replicate _ 7⟩), .block 2 3,
      .block 3 2, .close 2]
    let d := next ds.2 (.fork 1 2)
    (∀ p child, d.1.call = .fork p child → CleanMember d.2 child) ∧
    ∀ pid, d.1.call = .close pid → d.1.ret = 0 ∧ Parted ds.2 pid d.2 :=
  run_clean (by decide) (run_room (by decide)) ⟨memberStep_next (by decide), by decide⟩

/-- With 133 messages pending row 2 holds a slot pointer, and the next process that joins starts with
it as its row. -/
theorem join_finds_row :
    let ds := play (create 1 4096 zero)
      (.fork 1 2 :: .replicate 133 (.send 1 (some ⟨1, 2, .replicate _ 7⟩)) ++ [.fork 1 3])
    Run MemberStep (create 1 4096 zero) ds.1 ds.2 ∧ rowOf ds.2 3 = [139264, 0] ∧ ¬ CleanMember ds.2 3 := by
  intro ds
  have hrow : rowOf ds.2 3 = [139264, 0] := by decide +kernel
  refine ⟨run_member (by decide +kernel), hrow, ?_⟩
  intro h
  exact List.cons_ne_nil _ _ (hrow.symm.trans h.row)

end CS330.Queue
