/-
The block matrix against the history of blocks: along every run, row `i` names exactly the members
that member `i` has blocked. A broadcast scans just that row, so it reaches exactly the members who
have not blocked the sender. The unicast scan runs on into the three cells behind the row, so it is
exact only where those do not name the sender.
-/
import CS330.Queue.Fifo

namespace CS330.Queue

open CS330.Lib MsgQueue

/-! ## What a step does to the tables -/

/-- A step leaves the tables alone and only moves messages, or a child joins, or a member blocks
another, or a member leaves. -/
theorem Step.tables {q q' : MsgQueue} {d : Done} (hs : Step q d q') (h : q.WF) :
    (q'.memberCount = q.memberCount ∧ q'.memberPid = q.memberPid ∧ q'.blockProcess = q.blockProcess ∧
      ∀ e ∈ d.events, e.Moves) ∨
    (∃ p child, d.call = .fork p child ∧ child ∉ q.members ∧ child ≠ broadcastPid ∧ q' = q.addChild child ∧
      d.events = [.join child]) ∨
    (∃ pid target i, d.call = .block pid target ∧ d.events = [.block pid target.toUInt32] ∧
      Blocked q pid target i q') ∨
    ∃ pid i, pid ∈ q.members ∧ d.events = [.leave pid] ∧ Closed q pid i q' := by
  obtain ⟨⟨c, ret, es⟩, hleg, hex, hes, hm, hp⟩ := d, hs
  simp only at hleg hex hes ⊢
  subst hes
  cases c with
  | fork p child =>
    obtain ⟨-, rfl⟩ := Prod.mk.inj hex
    exact .inr (.inl ⟨p, child, rfl, hleg.2.1, hleg.2.2, rfl, rfl⟩)
  | send pid msg =>
    have hq : (q.send pid msg).2 = q' := congrArg Prod.snd hex
    -- a send only accepts messages
    have hmoves : ∀ e ∈ Call.events q (.send pid msg), e.Moves := by
      intro e he
      cases msg with
      | none => cases he
      | some m =>
        simp only [Call.events] at he
        split at he
        · split at he
          · cases he
          · obtain ⟨x, -, rfl⟩ := List.mem_map.1 he; trivial
        · split at he
          · rw [List.mem_singleton.1 he]; trivial
          · cases he
    refine .inl ?_
    rcases send_cases h.slots pid msg (by rw [hq]; exact hp) with hr | ⟨m, -, -, -, hb⟩ | ⟨m, -, -, -, ha⟩
    · rw [← hq, hr]; exact ⟨rfl, rfl, rfl, hmoves⟩
    · rw [← hq]; exact ⟨hb.memberCount, hb.memberPid, hb.blockProcess, hmoves⟩
    · rw [← hq]; exact ⟨ha.memberCount, ha.memberPid, ha.blockProcess, hmoves⟩
  | rcv pid buf =>
    obtain ⟨-, rfl⟩ := Prod.mk.inj hex
    refine .inl ?_
    -- and a receipt takes one
    have hmoves : ∀ e ∈ Call.events q (.rcv pid buf), e.Moves := by
      intro e he
      simp only [Call.events] at he
      split at he
      · obtain ⟨m, -, rfl⟩ := List.mem_map.1 he; trivial
      · cases he
    rcases rcv_cases h.slots pid buf with ⟨hr, -⟩ | ⟨hr, -⟩ | ⟨_, _, _, q', hr, -, -, -, -, -, -, h1, h2, h3⟩
    · exact ⟨by rw [hr], by rw [hr], by rw [hr], hmoves⟩
    · exact ⟨by rw [hr], by rw [hr], by rw [hr], hmoves⟩
    · exact ⟨by rw [hr, h1], by rw [hr, h2], by rw [hr, h3], hmoves⟩
  | count pid =>
    obtain ⟨-, rfl⟩ := Prod.mk.inj hex
    exact .inl ⟨rfl, rfl, rfl, fun e he => by cases he⟩
  | block pid target =>
    have hq : (q.block pid target).2 = q' := congrArg Prod.snd hex
    rcases block_cases q pid target with hr | ⟨h0, i, hb⟩
    · have hne : ¬ (q.block pid target).1 = 0 := by rw [hr]; exact einval_ne_zero
      refine .inl ?_
      rw [← hq, hr]
      exact ⟨rfl, rfl, rfl, fun e he => by simp only [Call.events, if_neg hne] at he; cases he⟩
    · rw [hq] at hb
      exact .inr (.inr (.inl ⟨pid, target, i, rfl, by simp only [Call.events, if_pos h0], hb⟩))
  | close pid =>
    have hq : (q.close pid).2 = q' := congrArg Prod.snd hex
    obtain ⟨h0, i, hc⟩ := close_of_mem h.slots h.members hleg.member
    rw [← hq]
    exact .inr (.inr (.inr ⟨pid, i, hleg.member, by simp only [Call.events]; exact if_pos h0, hc⟩))

/-! ## The matrix invariant -/

/-- Row `i` names `s`. -/
def Names (q : MsgQueue) (i : ℕ) (s : Pid) : Prop :=
  ∃ j < maxMembers, (q.blockProcess (maxMembers * i + j)).toUInt32 = s

/-- The matrix is the history: each member's row names exactly whom it has blocked, rows behind the
last member are empty, only members are named and blocked, and no member has the pid that doubles
as the broadcast address and the empty cell. -/
structure Matrix (q : MsgQueue) (es : List (Ev Pid Message)) : Prop where
  row : ∀ i < q.memberCount, ∀ s, s ≠ broadcastPid →
    (Names q i s ↔ Mailbox.blocked (q.memberPid i) s es = true)
  clean : ∀ i, q.memberCount ≤ i → i < maxMembers → ∀ j < maxMembers, q.blockProcess (maxMembers * i + j) = -1
  members : ∀ r s, Mailbox.blocked r s es = true → r ∈ q.members ∧ s ∈ q.members
  valid : ∀ r ∈ q.members, r ≠ broadcastPid

theorem not_names_of_clean {q : MsgQueue} {i : ℕ} {s : Pid} (hs : s ≠ broadcastPid)
    (h : ∀ j < maxMembers, q.blockProcess (maxMembers * i + j) = -1) : ¬ Names q i s := by
  rintro ⟨j, hj, rfl⟩
  rw [h j hj] at hs
  exact hs rfl

/-- Cells of the matrix proper. -/
theorem cell_lt {i j : ℕ} (hi : i < maxMembers) (hj : j < maxMembers) :
    maxMembers * i + j < maxMembers * maxMembers := by
  simp only [maxMembers] at *; omega

/-- A cell has one row and one column. -/
theorem cell_inj {i i' j j' : ℕ} (hj : j < maxMembers) (hj' : j' < maxMembers)
    (h : maxMembers * i + j = maxMembers * i' + j') : i = i' ∧ j = j' := by
  simp only [maxMembers] at *; omega

theorem matrix_create {creator : Pid} (hc : creator ≠ broadcastPid) (a : ℕ) (page : MsgQueue) :
    Matrix (create creator a page) [.join creator] := by
  have hcell : ∀ i < maxMembers, ∀ j < maxMembers,
      (create creator a page).blockProcess (maxMembers * i + j) = -1 := fun i hi j hj => by
    rw [blockProcess_create, if_pos (cell_lt hi hj)]
  have hnb : ∀ r s, Mailbox.blocked r s ([.join creator] : List (Ev Pid Message)) = false :=
    fun r s => rfl
  refine ⟨fun i hi s hs => ?_, fun i _ hi => hcell i hi,
    fun r s h => (Bool.false_ne_true ((hnb r s).symm.trans h)).elim, fun r hr => ?_⟩
  · have h1 : i < 1 := hi
    rw [hnb]
    refine ⟨fun h => absurd h (not_names_of_clean hs (hcell i (h1.trans (by decide)))), fun h => ?_⟩
    exact (Bool.false_ne_true h).elim
  · rw [members_create, List.mem_singleton] at hr
    rw [hr]; exact hc

theorem matrix_moves {q q' : MsgQueue} {es fs : List (Ev Pid Message)} (hm : Matrix q es)
    (h1 : q'.memberCount = q.memberCount) (h2 : q'.memberPid = q.memberPid)
    (h3 : q'.blockProcess = q.blockProcess) (hfs : ∀ e ∈ fs, e.Moves) : Matrix q' (es ++ fs) := by
  have hmem : q'.members = q.members := members_congr h1 h2
  refine ⟨?_, ?_, ?_, ?_⟩
  · intro i hi s hs
    rw [Mailbox.blocked_append_moves _ _ _ _ hfs, h2]
    unfold Names; rw [h3]
    exact hm.row i (by omega) s hs
  · rw [h1, h3]; exact hm.clean
  · intro r s h
    rw [Mailbox.blocked_append_moves _ _ _ _ hfs] at h
    rw [hmem]; exact hm.members r s h
  · rw [hmem]; exact hm.valid

theorem matrix_join {q : MsgQueue} {es : List (Ev Pid Message)} (hm : Matrix q es) {child : Pid}
    (hc : child ∉ q.members) (hv : child ≠ broadcastPid) (hle : (q.addChild child).memberCount ≤ maxMembers) :
    Matrix (q.addChild child) (es ++ [.join child]) := by
  have hb : ∀ r s, Mailbox.blocked r s (es ++ [.join child]) = Mailbox.blocked r s es := fun r s =>
    Mailbox.blocked_snoc r s es _
  have hcount : (q.addChild child).memberCount = q.memberCount + 1 := rfl
  have hpid : ∀ i, (q.addChild child).memberPid i = if i = q.memberCount then child else q.memberPid i := by
    intro i
    unfold addChild
    simp only [Nat.add_sub_cancel, Function.update_apply]
  rw [hcount] at hle
  refine ⟨fun i hi s hs => ?_, fun i hi => ?_, fun r s h => ?_, fun r hr => ?_⟩
  · rw [hb, hpid]
    rw [hcount] at hi
    rcases Nat.lt_succ_iff_lt_or_eq.1 hi with h | rfl
    · rw [if_neg (by omega)]; exact hm.row i h s hs
    · -- the new member's row was behind the last one
      rw [if_pos rfl]
      constructor
      · intro h
        exact absurd h (not_names_of_clean hs fun j hj => hm.clean _ le_rfl (by omega) j hj)
      · intro h; exact absurd (hm.members _ _ h).1 hc
  · exact hm.clean i (by rw [hcount] at hi; omega)
  · rw [hb] at h
    rw [members_addChild]
    exact ⟨List.mem_append_left _ (hm.members r s h).1, List.mem_append_left _ (hm.members r s h).2⟩
  · rw [members_addChild] at hr
    rcases List.mem_append.1 hr with hr | hr
    · exact hm.valid r hr
    · rw [List.mem_singleton.1 hr]; exact hv

theorem matrix_block {q q' : MsgQueue} {es : List (Ev Pid Message)} (hn : q.members.Nodup) (hm : Matrix q es)
    (hle : q.memberCount ≤ maxMembers) {pid : Pid} {target : Int32} {i : ℕ} (hb : Blocked q pid target i q') :
    Matrix q' (es ++ [.block pid target.toUInt32]) := by
  have hcaller : pid ∈ q.members := mem_slice.2 ⟨i, hb.lt, hb.caller⟩
  have htv : target.toUInt32 ≠ broadcastPid := hm.valid _ hb.mem
  have hsnoc : ∀ r s, Mailbox.blocked r s (es ++ [.block pid target.toUInt32]) = true ↔
      Mailbox.blocked r s es = true ∨ r = pid ∧ s = target.toUInt32 := fun r s => by
    rw [Mailbox.blocked_snoc, eq_comm (a := r), eq_comm (a := s)]
    simp only [Bool.or_eq_true, Bool.and_eq_true, decide_eq_true_eq]
  -- only row `i` changes, and it names the target in addition
  have hnames : q'.memberCount = q.memberCount ∧ q'.memberPid = q.memberPid ∧ ∀ k < maxMembers, ∀ s, s ≠ broadcastPid →
      (Names q' k s ↔ Names q k s ∨ k = i ∧ s = target.toUInt32) := by
    rcases hb.row with ⟨⟨j, hj, hje⟩, rfl⟩ | ⟨j, hj, hje, rfl⟩
    · refine ⟨rfl, rfl, fun k _ s _ => ⟨.inl, ?_⟩⟩
      rintro (h | ⟨rfl, rfl⟩)
      · exact h
      · exact ⟨j, hj, by rw [hje]⟩
    · refine ⟨rfl, rfl, fun k hk s hs => ?_⟩
      constructor
      · rintro ⟨l, hl, he⟩
        simp only [Function.update_apply] at he
        split at he
        · rename_i hcell
          exact .inr ⟨(cell_inj hl hj hcell).1, he.symm⟩
        · exact .inl ⟨l, hl, he⟩
      · rintro (⟨l, hl, he⟩ | ⟨rfl, rfl⟩)
        · refine ⟨l, hl, ?_⟩
          simp only [Function.update_apply]
          rw [if_neg fun hx => ?_]
          · exact he
          · rw [hx, hje] at he; exact hs he.symm
        · exact ⟨j, hj, by simp only [Function.update_self]⟩
  obtain ⟨hc, hp, hnames⟩ := hnames
  have hmem : q'.members = q.members := members_congr hc hp
  refine ⟨fun k hk s hs => ?_, fun k hk hk4 j hj => ?_, fun r s h => ?_, ?_⟩
  · rw [hc] at hk
    rw [hp, hsnoc, hnames k (by omega) s hs, hm.row k hk s hs]
    have : q.memberPid k = pid ↔ k = i :=
      ⟨fun he => slice_nodup_inj hn hk hb.lt (he.trans hb.caller.symm), fun he => by rw [he]; exact hb.caller⟩
    rw [this]
  · rw [hc] at hk
    have hold := hm.clean k hk hk4 j hj
    rcases hb.row with ⟨-, rfl⟩ | ⟨l, hl, -, rfl⟩
    · exact hold
    · have := hb.lt
      exact (Function.update_of_ne (fun h => by have := (cell_inj hj hl h).1; omega) _ _).trans hold
  · rw [hmem]
    rcases (hsnoc r s).1 h with h | ⟨rfl, rfl⟩
    · exact hm.members r s h
    · exact ⟨hcaller, hb.mem⟩
  · rw [hmem]; exact hm.valid

/-! ### The matrix a leaver leaves, cell by cell -/

theorem shiftRows_cell {i k j : ℕ} (hj : j < maxMembers) (b : ℕ → Int32) :
    shiftRows i b (maxMembers * k + j) =
      if i ≤ k ∧ k + 1 < maxMembers then b (maxMembers * (k + 1) + j) else b (maxMembers * k + j) := by
  rw [shiftRows_apply, show maxMembers * k + j + maxMembers = maxMembers * (k + 1) + j by rw [Nat.mul_succ]; omega]
  congr 1
  apply propext
  simp only [maxMembers] at *; omega

theorem clearRow_cell {l k j : ℕ} (hj : j < maxMembers) (b : ℕ → Int32) :
    clearRow l b (maxMembers * k + j) = if k = l then -1 else b (maxMembers * k + j) := by
  rw [clearRow_apply]
  congr 1
  apply propext
  simp only [maxMembers] at *; omega

theorem purge_cell {k j : ℕ} (hk : k < maxMembers) (hj : j < maxMembers) (pid : Pid) (b : ℕ → Int32) :
    purge pid b (maxMembers * k + j) =
      if (b (maxMembers * k + j)).toUInt32 = pid then -1 else b (maxMembers * k + j) := by
  rw [purge_apply]
  simp only [cell_lt hk hj, true_and]

/-- A cell of row `k` is the cell of the old row of the member now at index `k`, without the leaver. -/
theorem cell_closed {q q' : MsgQueue} {pid : Pid} {i : ℕ} (hle : q.memberCount ≤ maxMembers)
    (hc : Closed q pid i q') {k : ℕ} (hk : k < q'.memberCount) {j : ℕ} (hj : j < maxMembers) :
    q'.blockProcess (maxMembers * k + j) =
      if (q.blockProcess (maxMembers * (if i ≤ k then k + 1 else k) + j)).toUInt32 = pid then -1
      else q.blockProcess (maxMembers * (if i ≤ k then k + 1 else k) + j) := by
  rw [hc.memberCount] at hk
  have hshift : shiftRows i q.blockProcess (maxMembers * k + j) =
      q.blockProcess (maxMembers * (if i ≤ k then k + 1 else k) + j) := by
    rw [shiftRows_cell hj]
    by_cases hik : i ≤ k
    · rw [if_pos ⟨hik, by omega⟩, if_pos hik]
    · rw [if_neg fun h => hik h.1, if_neg hik]
  rw [hc.blockProcess, purge_cell (by omega) hj, clearRow_cell hj,
    if_neg (show ¬ k = q.memberCount - 1 by omega), hshift]

/-- Row `k` is the old row of the member now at index `k`, without the leaver. -/
theorem names_closed {q q' : MsgQueue} {pid : Pid} {i : ℕ} (hle : q.memberCount ≤ maxMembers)
    (hc : Closed q pid i q') {k : ℕ} (hk : k < q'.memberCount) {s : Pid} (hs : s ≠ broadcastPid) :
    Names q' k s ↔ Names q (if i ≤ k then k + 1 else k) s ∧ s ≠ pid := by
  have hcell := fun j (hj : j < maxMembers) => cell_closed hle hc hk hj
  generalize (if i ≤ k then k + 1 else k) = r at hcell ⊢
  constructor
  · rintro ⟨j, hj, he⟩
    rw [hcell j hj] at he
    split at he
    · exact absurd he.symm hs
    · rename_i hne
      exact ⟨⟨j, hj, he⟩, fun h => hne (he.trans h)⟩
  · rintro ⟨⟨j, hj, he⟩, hne⟩
    refine ⟨j, hj, ?_⟩
    rw [hcell j hj, if_neg fun h => hne (he.symm.trans h)]
    exact he

/-- Rows behind the last member stay clean: the freed row is cleared, and the shift moves clean rows. -/
theorem clean_closed {q q' : MsgQueue} {pid : Pid} {i : ℕ} (hc : Closed q pid i q')
    (hclean : ∀ k, q.memberCount ≤ k → k < maxMembers → ∀ j < maxMembers, q.blockProcess (maxMembers * k + j) = -1)
    {k : ℕ} (hk : q'.memberCount ≤ k) (hk4 : k < maxMembers) {j : ℕ} (hj : j < maxMembers) :
    q'.blockProcess (maxMembers * k + j) = -1 := by
  have hlt := hc.lt
  rw [hc.memberCount] at hk
  rw [hc.blockProcess, purge_cell hk4 hj, clearRow_cell hj]
  by_cases hlast : k = q.memberCount - 1
  · rw [if_pos hlast]; exact ite_self _
  · have hold : shiftRows i q.blockProcess (maxMembers * k + j) = -1 := by
      rw [shiftRows_cell hj]
      split
      · exact hclean (k + 1) (by omega) (by omega) j hj
      · exact hclean k (by omega) hk4 j hj
    rw [if_neg hlast, hold]; exact ite_self _

theorem matrix_leave {q q' : MsgQueue} {es : List (Ev Pid Message)} (hn : q.members.Nodup) (hm : Matrix q es)
    (hle : q.memberCount ≤ maxMembers) {pid : Pid} {i : ℕ} (hc : Closed q pid i q') :
    Matrix q' (es ++ [.leave pid]) := by
  have hsnoc : ∀ r s, Mailbox.blocked r s (es ++ [.leave pid]) = true ↔
      Mailbox.blocked r s es = true ∧ r ≠ pid ∧ s ≠ pid := fun r s => by
    rw [Mailbox.blocked_snoc, ne_comm (a := r), ne_comm (a := s)]
    simp only [Bool.and_eq_true, decide_eq_true_eq, and_assoc]
  refine ⟨fun k hk s hs => ?_, fun k hk hk4 j hj => clean_closed hc hm.clean hk hk4 hj, fun r s h => ?_,
    fun r hr => ?_⟩
  · rw [names_closed hle hc hk hs, hsnoc, hc.memberPid k hk]
    rw [hc.memberCount] at hk
    have hlt := hc.lt
    have hpid : (if i ≤ k then q.memberPid (k + 1) else q.memberPid k) =
        q.memberPid (if i ≤ k then k + 1 else k) := by split <;> rfl
    have hold : (if i ≤ k then k + 1 else k) < q.memberCount := by split <;> omega
    have hne : q.memberPid (if i ≤ k then k + 1 else k) ≠ pid := fun he => by
      have := slice_nodup_inj hn hold hlt (he.trans hc.caller.symm)
      split at this <;> omega
    rw [hpid, hm.row _ hold s hs]
    tauto
  · obtain ⟨h, hr, hs⟩ := (hsnoc r s).1 h
    rw [hc.members]
    exact ⟨(List.mem_erase_of_ne hr).2 (hm.members r s h).1, (List.mem_erase_of_ne hs).2 (hm.members r s h).2⟩
  · rw [hc.members] at hr
    exact hm.valid r (List.mem_of_mem_erase hr)

/-- Along every run the matrix is the history. -/
theorem run_matrix {creator : Pid} (hc : creator ≠ broadcastPid) {a : ℕ} {page q : MsgQueue} {ds : List Done}
    (h : Run Step (create creator a page) ds q) : Matrix q (log creator ds) := by
  refine h.inv (P := fun ds q => Matrix q (log creator ds)) (matrix_create hc a page) ?_
  rintro ds q d q' hr hm hs
  obtain ⟨hwf, hf⟩ := run_fifo hr
  rw [log_snoc]
  rcases hs.tables hwf with ⟨h1, h2, h3, hmv⟩ | ⟨-, child, -, hnm, hv, rfl, he⟩ | ⟨pid, target, i, -, he, hb⟩ |
    ⟨pid, i, -, he, hcl⟩
  · exact matrix_moves hm h1 h2 h3 hmv
  · rw [he]; exact matrix_join hm hnm hv hs.members
  · rw [he]; exact matrix_block hf.nodup hm hwf.members hb
  · rw [he]; exact matrix_leave hf.nodup hm hwf.members hcl

/-! ## What blocking means -/

/-- The members a broadcast by `s` is meant to reach: the others that have not blocked it. -/
def audience (q : MsgQueue) (es : List (Ev Pid Message)) (s : Pid) : List Pid :=
  q.members.filter fun r => r ≠ s && !Mailbox.blocked r s es

/-- Blocking between `s` and `r` is exact: a unicast is refused just where `r` itself has blocked `s`
and is appended otherwise, a broadcast is appended once for every member of its audience, and the
two agree on `r`. Appending is promised while the slot pointers suffice. -/
structure BlockExact (q : MsgQueue) (es : List (Ev Pid Message)) (s r : Pid) : Prop where
  refused : ∀ m : Message, m.fromPid = s → m.toPid = r →
    ((q.send s (some m)).1 = -einval ↔ Mailbox.blocked r s es = true)
  accepted : ∀ m : Message, m.fromPid = s → m.toPid = r → Mailbox.blocked r s es = false →
    (q.send s (some m)).2.msgCount ≤ msgSlots →
    (q.send s (some m)).1 = 1 ∧ (q.send s (some m)).2.pending = q.pending ++ [m]
  broadcast : ∀ m : Message, m.fromPid = s → m.toPid = broadcastPid →
    (q.send s (some m)).2.msgCount ≤ msgSlots →
    (q.send s (some m)).1 = (audience q es s).length ∧
    (q.send s (some m)).2.pending = q.pending ++ (audience q es s).map fun r' => { m with toPid := r' }
  agree : ∀ m : Message, m.fromPid = s → m.toPid = r →
    ((q.send s (some m)).1 = 1 ↔ r ∈ audience q es s)

/-- One of the three cells that the unicast scan for `r` reads behind the end of the row of `r` names
`s`. -/
def Spills (q : MsgQueue) (r s : Pid) : Prop :=
  ∃ i, q.addressee r = some i ∧
    ∃ j < maxProcesses, maxMembers ≤ j ∧ (q.blockProcess (maxMembers * i + j)).toUInt32 = s

/-- The scan of a broadcast stays in the row. -/
theorem blockCheck_row {q : MsgQueue} {es : List (Ev Pid Message)} (hm : Matrix q es) {i : ℕ}
    (hi : i < q.memberCount) {s : Pid} (hs : s ≠ broadcastPid) :
    q.blockCheck i maxMembers s = Mailbox.blocked (q.memberPid i) s es :=
  Bool.eq_iff_iff.2 (blockCheck_iff.trans (hm.row i hi s hs))

/-- The scan of a unicast does not. -/
theorem blockCheck_spill {q : MsgQueue} {es : List (Ev Pid Message)} (hm : Matrix q es) {r s : Pid} {i : ℕ}
    (hr : q.addressee r = some i) (hs : s ≠ broadcastPid) :
    q.blockCheck i maxProcesses s = true ↔ Mailbox.blocked r s es = true ∨ Spills q r s := by
  obtain ⟨hi, rfl⟩ := addressee_some hr
  rw [blockCheck_iff, ← hm.row i hi s hs]
  constructor
  · rintro ⟨j, hj, he⟩
    rcases Nat.lt_or_ge j maxMembers with h4 | h4
    · exact .inl ⟨j, h4, he⟩
    · exact .inr ⟨i, hr, j, hj, h4, he⟩
  · rintro (⟨j, hj, he⟩ | ⟨i', hi', j, hj, -, he⟩)
    · exact ⟨j, hj.trans (by decide), he⟩
    · obtain rfl := Option.some.inj (hr.symm.trans hi')
      exact ⟨j, hj, he⟩

/-- A broadcast stores a copy for each member of the audience. -/
theorem copies_audience {q : MsgQueue} {es : List (Ev Pid Message)} (hm : Matrix q es) {s : Pid}
    (hs : s ≠ broadcastPid) (m : Message) :
    q.copies s m q.memberCount = (audience q es s).map fun r' => { m with toPid := r' } := by
  have hfilter : q.reached s q.memberCount =
      (List.range q.memberCount).filter fun i => q.memberPid i ≠ s && !Mailbox.blocked (q.memberPid i) s es :=
    List.filter_congr fun i hi => by rw [blockCheck_row hm (List.mem_range.1 hi) hs]
  unfold copies audience members slice
  rw [hfilter, List.filter_map, List.map_map]
  rfl

theorem mem_audience {q : MsgQueue} {es : List (Ev Pid Message)} {s r : Pid} (hr : r ∈ q.members) (hne : r ≠ s) :
    r ∈ audience q es s ↔ Mailbox.blocked r s es = false := by
  simp [audience, hr, hne]

/-- A unicast between two members is delivered unless the scan hits. -/
theorem delivers_iff {q : MsgQueue} {es : List (Ev Pid Message)} (hm : Matrix q es) {s r : Pid}
    (hs : s ∈ q.members) (hr : r ∈ q.members) (hne : r ≠ s) {m : Message} (hf : m.fromPid = s)
    (ht : m.toPid = r) : q.Delivers s m ↔ ¬ (Mailbox.blocked r s es = true ∨ Spills q r s) := by
  obtain ⟨i, hi⟩ := addressee_of_mem hr
  rw [← blockCheck_spill hm hi (hm.valid s hs), Bool.not_eq_true]
  constructor
  · rintro ⟨-, -, i', hi', hc⟩
    rw [ht, hi] at hi'
    rw [Option.some.inj hi']; exact hc
  · intro hc
    exact ⟨⟨hs, hf, by rw [ht]; exact hne⟩, by rw [ht]; exact hm.valid r hr, i, by rw [ht]; exact hi, hc⟩

/-- Blocking between two members is exact if and only if the unicast scan finds nothing behind the
addressee's row, or the addressee's row names the sender anyway. -/
theorem blockExact_iff {q : MsgQueue} {es : List (Ev Pid Message)} (hwf : q.WF) (hm : Matrix q es) {s r : Pid}
    (hs : s ∈ q.members) (hr : r ∈ q.members) (hne : r ≠ s) :
    BlockExact q es s r ↔ Mailbox.blocked r s es = true ∨ ¬ Spills q r s := by
  have hsv := hm.valid s hs
  have hrv := hm.valid r hr
  constructor
  · intro h
    by_contra hcon
    push Not at hcon
    obtain ⟨hb, hsp⟩ := hcon
    let m : Message := ⟨s, r, .replicate _ 0⟩
    have hnd : ¬ q.Delivers s m := fun hd => (delivers_iff hm hs hr hne rfl rfl).1 hd (.inr hsp)
    have href : (q.send s (some m)).1 = -einval := congrArg Prod.fst (send_unicast_refused hrv hnd)
    exact hb ((h.refused m rfl rfl).1 href)
  · intro h
    -- the scan hits exactly where `r` has blocked `s`
    have hd : ∀ m : Message, m.fromPid = s → m.toPid = r →
        (q.Delivers s m ↔ Mailbox.blocked r s es = false) := fun m hf ht => by
      rw [delivers_iff hm hs hr hne hf ht, ← Bool.not_eq_true]
      tauto
    have hret : ∀ m : Message, m.fromPid = s → m.toPid = r →
        (Mailbox.blocked r s es = true → (q.send s (some m)).1 = -einval) ∧
        (Mailbox.blocked r s es = false → (q.send s (some m)).1 = 1) := fun m hf ht =>
      ⟨fun hb => congrArg Prod.fst (send_unicast_refused (by rw [ht]; exact hrv) fun h =>
          Bool.false_ne_true (((hd m hf ht).1 h).symm.trans hb)),
        fun hb => congrArg Prod.fst (send_unicast ((hd m hf ht).2 hb))⟩
    refine ⟨fun m hf ht => ⟨fun he => ?_, (hret m hf ht).1⟩, fun m hf ht hb hfit => ?_, fun m hf ht hfit => ?_,
      fun m hf ht => ?_⟩
    · by_contra hb
      rw [(hret m hf ht).2 (by simpa using hb)] at he
      exact einval_ne_one he
    · have hsend := send_unicast ((hd m hf ht).2 hb)
      rw [hsend] at hfit ⊢
      simp only [msgCount_append] at hfit
      exact ⟨rfl, (append_spec hwf.slots (by omega) m).pending⟩
    · have hbc := send_broadcast hwf.slots ⟨hs, hf, by rw [ht]; exact hsv.symm⟩ ht hfit
      have hcop := copies_audience hm hsv m
      rw [hbc.ret, hbc.pending, hcop, ← length_copies q s m, hcop, List.length_map]
      exact ⟨rfl, rfl⟩
    · rw [mem_audience hr hne]
      constructor
      · intro he
        by_contra hb
        rw [(hret m hf ht).1 (by simpa using hb)] at he
        exact einval_ne_one he.symm
      · exact (hret m hf ht).2

/-- In every run, blocking between two members is exact if and only if the addressee has blocked the
sender or the three cells behind its row do not name the sender. -/
theorem run_blockExact_iff {creator : Pid} (hc : creator ≠ broadcastPid) {a : ℕ} {page q : MsgQueue}
    {ds : List Done} (h : Run Step (create creator a page) ds q) {s r : Pid} (hs : s ∈ q.members)
    (hr : r ∈ q.members) (hne : r ≠ s) :
    BlockExact q (log creator ds) s r ↔ Mailbox.blocked r s (log creator ds) = true ∨ ¬ Spills q r s :=
  blockExact_iff (run_fifo h).1 (run_matrix hc h) hs hr hne

/-- Member 2 blocks member 3; a send from 2 to 3 is judged right. -/
theorem run_blockExact_iff_of_three :
    let ds := play (create 1 4096 zero) [.fork 1 2, .fork 1 3, .block 2 3]
    BlockExact ds.2 (log 1 ds.1) 2 3 ↔ Mailbox.blocked 3 2 (log 1 ds.1) = true ∨ ¬ Spills ds.2 3 2 :=
  run_blockExact_iff (by decide) (run_play (by decide)) (by decide) (by decide) (by decide)

/-- Member 1 never blocked member 3, but member 2, whose row comes next, did: a unicast from 3 to 1
is refused although a broadcast by 3 reaches 1. -/
theorem unicast_reads_next_row :
    let ds := play (create 1 4096 zero) [.fork 1 2, .fork 1 3, .block 2 3]
    Run Step (create 1 4096 zero) ds.1 ds.2 ∧ 3 ∈ ds.2.members ∧ 1 ∈ ds.2.members ∧
      Mailbox.blocked 1 3 (log 1 ds.1) = false ∧
      (ds.2.send 3 (some ⟨3, 1, .replicate _ 7⟩)).1 = -einval ∧
      (ds.2.send 3 (some ⟨3, broadcastPid, .replicate _ 7⟩)).2.pending = [⟨3, 1, .replicate _ 7⟩] :=
  ⟨run_play (by decide), by decide, by decide, by decide, by decide, by decide⟩

end CS330.Queue
