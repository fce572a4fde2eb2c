/-
What a debugging session amounts to: a ledger of the breakpoints there should be, each under the number of its
creation, which the calls and their return values determine. The list in memory says what the ledger says, with the
numbers as they went through an int.
-/
import CS330.Debug.Listing
import CS330.Lib.Run

namespace CS330.Debug

open CS330.Lib

/-! ## The breakpoints there should be -/

/-- A breakpoint by the time of its most recent creation: the how many-th creation of the session it was. -/
structure Mark where
  serial : ℕ
  status : ℕ
  addr : Addr

/-- How many breakpoints have been created, and those there are, newest first. -/
structure Ledger where
  created : ℕ
  live : List Mark

namespace Ledger

def switch (g : Ledger) (addr : Addr) (status : ℕ) : Ledger :=
  { g with live := g.live.map fun b => if b.addr = addr then { b with status := status } else b }

/-- What a call that returned this value has done to the breakpoints. -/
def record (g : Ledger) (d : Call × ℤ) : Ledger :=
  if d.2 = -1 then g
  else match d.1 with
    | .set _ addr =>
      if g.live.any fun b => b.addr == addr then g.switch addr 1
      else ⟨g.created + 1, ⟨g.created + 1, 1, addr⟩ :: g.live⟩
    | .remove addr => { g with live := g.live.filter fun b => b.addr != addr }
    | .enable addr => g.switch addr 1
    | .disable addr => g.switch addr 0

end Ledger

/-- The ledger of a session. -/
def ledger (ds : List (Call × ℤ)) : Ledger := ds.foldl Ledger.record ⟨0, []⟩

theorem ledger_snoc (ds : List (Call × ℤ)) (d : Call × ℤ) : ledger (ds ++ [d]) = (ledger ds).record d := by
  simp [ledger]

/-- A breakpoint as the list has it: its number went through an `int`. -/
def Mark.entry (b : Mark) : Entry := ⟨u32 (i32 b.serial), b.status, b.addr⟩

/-- The list says what the ledger says. -/
structure Ledger.Kept (g : Ledger) (es : List Entry) (n : ℤ) : Prop where
  entries : es = g.live.map Mark.entry
  count : n = i32 g.created
  serials : (g.live.map Mark.serial).Pairwise (· > ·)
  bound : ∀ b ∈ g.live, b.serial ≤ g.created
  addrs : (g.live.map Mark.addr).Nodup

/-! ## Calls -/

theorem i32_succ (n : ℕ) : i32 (i32 n + 1) = i32 (n + 1 : ℕ) := by
  unfold i32
  push_cast
  omega

section Middle

variable {pre post : List Mark} {b : Mark}

theorem switch_middle (h : ((pre ++ b :: post).map Mark.addr).Nodup) (n status : ℕ) :
    Ledger.switch ⟨n, pre ++ b :: post⟩ b.addr status = ⟨n, pre ++ { b with status := status } :: post⟩ := by
  have hne := (nodup_map_middle.1 h).1
  have hsame : ∀ l ⊆ pre ++ post, l.map (fun x => if x.addr = b.addr then { x with status := status } else x) = l := by
    intro l hl
    conv_rhs => rw [← List.map_id l]
    exact List.map_congr_left fun x hx => if_neg (hne x (hl hx))
  unfold Ledger.switch
  rw [List.map_append, List.map_cons, hsame pre (List.subset_append_left ..), hsame post (List.subset_append_right ..),
    if_pos rfl]

theorem filter_middle (h : ((pre ++ b :: post).map Mark.addr).Nodup) :
    (pre ++ b :: post).filter (fun x => x.addr != b.addr) = pre ++ post := by
  have hne := (nodup_map_middle.1 h).1
  have hall : ∀ l ⊆ pre ++ post, l.filter (fun x => x.addr != b.addr) = l := by
    intro l hl
    rw [List.filter_eq_self]
    exact fun x hx => by simpa using hne x (hl hx)
  rw [List.filter_append, List.filter_cons_of_neg (by simp), hall pre (List.subset_append_left ..),
    hall post (List.subset_append_right ..)]

end Middle

namespace Ledger

variable {g : Ledger} {n : ℤ}

/-- An entry in the middle of the list is a breakpoint in the middle of the ledger. -/
theorem Kept.middle {pre post : List Entry} {e : Entry} (h : g.Kept (pre ++ e :: post) n) :
    ∃ a b c, g.live = a ++ b :: c ∧ pre = a.map Mark.entry ∧ e = b.entry ∧ post = c.map Mark.entry := by
  obtain ⟨a, r, hl, ha, hr⟩ := List.map_eq_append_iff.1 h.entries.symm
  obtain ⟨b, c, rfl, hb, hc⟩ := List.map_eq_cons_iff.1 hr
  exact ⟨a, b, c, hl, ha.symm, hb.symm, hc.symm⟩

/-- Before the counter overflows a serial goes through an `int` unchanged. -/
theorem Kept.i32_serial {es : List Entry} (h : g.Kept es n) (hlt : g.created < 2 ^ 31) {b : Mark} (hb : b ∈ g.live) :
    i32 b.serial = b.serial := by
  have hbound := h.bound b hb
  exact i32_of_range (by omega) (by omega)

/-- The breakpoint in the middle gets another status, or is gone; the order stays. -/
theorem Kept.switch {created status : ℕ} {a c : List Mark} {b : Mark} {es : List Entry}
    (h : Kept ⟨created, a ++ b :: c⟩ es n) : Kept ⟨created, a ++ { b with status := status } :: c⟩
      (a.map Mark.entry ++ { b.entry with status := status } :: c.map Mark.entry) n := by
  refine ⟨by simp [Mark.entry], h.count, by simpa using h.serials, fun x hx => ?_, by simpa using h.addrs⟩
  have hb := h.bound
  simp only [List.mem_append, List.mem_cons] at hx hb
  rcases hx with hx | rfl | hx
  · exact hb x (Or.inl hx)
  · exact hb b (Or.inr (Or.inl rfl))
  · exact hb x (Or.inr (Or.inr hx))

theorem Kept.erase {created : ℕ} {a c : List Mark} {b : Mark} {es : List Entry}
    (h : Kept ⟨created, a ++ b :: c⟩ es n) :
    Kept ⟨created, a ++ c⟩ (a.map Mark.entry ++ c.map Mark.entry) n := by
  have hsub : (a ++ c).Sublist (a ++ b :: c) := List.Sublist.append_left (List.sublist_cons_self ..) a
  exact ⟨by simp, h.count, h.serials.sublist (hsub.map _), fun x hx => h.bound x (hsub.subset hx),
    h.addrs.sublist (hsub.map _)⟩

/-- A new breakpoint gets the next serial, and goes to the front. -/
theorem Kept.push {es : List Entry} (h : g.Kept es n) {addr : Addr} (hne : ∀ b ∈ g.live, b.addr ≠ addr) :
    Kept ⟨g.created + 1, ⟨g.created + 1, 1, addr⟩ :: g.live⟩ (⟨u32 (i32 (n + 1)), 1, addr⟩ :: es) (i32 (n + 1)) := by
  have hnext : i32 (n + 1) = i32 (g.created + 1 : ℕ) := by rw [h.count, i32_succ]
  refine ⟨by rw [hnext, h.entries]; rfl, hnext, ?_, ?_, ?_⟩
  · refine List.Pairwise.cons (fun k hk => ?_) h.serials
    obtain ⟨b, hb, rfl⟩ := List.mem_map.1 hk
    exact Nat.lt_succ_of_le (h.bound b hb)
  · intro b hb
    rcases List.mem_cons.1 hb with rfl | hb
    · exact le_rfl
    · exact Nat.le_succ_of_le (h.bound b hb)
  · refine List.nodup_cons.2 ⟨fun hm => ?_, h.addrs⟩
    obtain ⟨b, hb, he⟩ := List.mem_map.1 hm
    exact hne b hb he

/-- A call on a breakpoint that is there gives it the status of the call. -/
theorem record_switch {c : Call} {status : ℕ} (hs : c.status = some status) (hc : ∃ b ∈ g.live, b.addr = c.addr) :
    g.record (c, 0) = g.switch c.addr status := by
  have hdone : ¬ (0 : ℤ) = -1 := by decide
  cases c with
  | set fresh addr =>
    obtain rfl := Option.some.inj hs
    obtain ⟨b, hb, haddr⟩ := hc
    have hany : (g.live.any fun b => b.addr == addr) = true := by
      rw [List.any_eq_true]
      exact ⟨b, hb, by rw [beq_iff_eq]; exact haddr⟩
    simp only [record, if_neg hdone, hany, if_true]
    rfl
  | enable addr | disable addr =>
    obtain rfl := Option.some.inj hs
    simp only [record, if_neg hdone]
    rfl
  | remove addr => cases hs

theorem record_create {fresh : Option Ptr} {addr : Addr} (hno : ∀ b ∈ g.live, b.addr ≠ addr) :
    g.record (.set fresh addr, 0) = ⟨g.created + 1, ⟨g.created + 1, 1, addr⟩ :: g.live⟩ := by
  have hdone : ¬ (0 : ℤ) = -1 := by decide
  have hany : (g.live.any fun b => b.addr == addr) = false := by
    rw [List.any_eq_false]
    exact fun b hb => by simpa using hno b hb
  simp only [record, if_neg hdone, hany, Bool.false_eq_true, if_false]

theorem record_remove (addr : Addr) :
    g.record (.remove addr, 0) = { g with live := g.live.filter fun b => b.addr != addr } := by
  have hdone : ¬ (0 : ℤ) = -1 := by decide
  simp only [record, if_neg hdone]

/-- Where no entry has the address, no breakpoint of the ledger has it. -/
theorem Kept.addr_ne {es : List Entry} (h : g.Kept es n) {addr : Addr} (hne : ∀ e ∈ es, e.addr ≠ addr) :
    ∀ b ∈ g.live, b.addr ≠ addr := by
  intro b hb
  have hmem : b.entry ∈ es := by
    rw [h.entries]
    exact List.mem_map_of_mem hb
  exact hne b.entry hmem

end Ledger

/-- What a call that returns 0 does to the list is what the ledger records of it. -/
theorem Effect.kept {g : Ledger} {n n' : ℤ} {es es' : List (Ptr × Entry)} {c : Call} {taken given : List Ptr}
    (he : Effect n es c taken given n' es') (h : g.Kept (es.map Prod.snd) n) :
    (g.record (c, 0)).Kept (es'.map Prod.snd) n' := by
  obtain ⟨created, live⟩ := g
  cases he with
  | @switch pre post p e c status haddr hs =>
    simp only [List.map_append, List.map_cons] at h ⊢
    obtain ⟨a, b, r, rfl, hpre, rfl, hpost⟩ := h.middle
    have hb : b.addr = c.addr := haddr
    have hswitch := switch_middle h.addrs created status
    rw [hpre, hpost, Ledger.record_switch hs ⟨b, by simp, hb⟩, ← hb, hswitch]
    exact h.switch
  | @create l p addr hne hlt =>
    have hno := h.addr_ne (List.forall_mem_map.2 hne)
    rw [Ledger.record_create hno, List.map_cons]
    exact h.push hno
  | @remove pre post p e =>
    simp only [List.map_append, List.map_cons] at h ⊢
    obtain ⟨a, b, r, rfl, hpre, rfl, hpost⟩ := h.middle
    have hfilter := filter_middle h.addrs
    rw [hpre, hpost, Ledger.record_remove]
    simp only [Mark.entry, hfilter]
    exact h.erase

/-! ## What the ledger forgets -/

namespace Ledger

/-- Since `g`, no number given out by then has been given again: a breakpoint with such a number was already there. -/
structure Since (g g' : Ledger) : Prop where
  created : g.created ≤ g'.created
  old : ∀ b' ∈ g'.live, b'.serial ≤ g.created → ∃ b ∈ g.live, b.serial = b'.serial ∧ b.addr = b'.addr

theorem Since.refl (g : Ledger) : g.Since g := ⟨le_rfl, fun b hb _ => ⟨b, hb, rfl, rfl⟩⟩

theorem Since.switch {g g' : Ledger} (h : g.Since g') (addr : Addr) (status : ℕ) : g.Since (g'.switch addr status) := by
  refine ⟨h.created, ?_⟩
  intro b' hb' hle
  obtain ⟨b, hb, rfl⟩ := List.mem_map.1 hb'
  by_cases haddr : b.addr = addr
  · rw [if_pos haddr] at hle ⊢
    exact h.old b hb hle
  · rw [if_neg haddr] at hle ⊢
    exact h.old b hb hle

/-- A new breakpoint gets a number that has not been given out. -/
theorem Since.record {g g' : Ledger} (h : g.Since g') (d : Call × ℤ) : g.Since (g'.record d) := by
  obtain ⟨c, ret⟩ := d
  unfold Ledger.record
  split
  · exact h
  · cases c with
    | set fresh addr =>
      simp only
      split
      · exact h.switch addr 1
      · refine ⟨Nat.le_succ_of_le h.created, ?_⟩
        intro b' hb' hle
        rcases List.mem_cons.1 hb' with rfl | hb'
        · have := h.created
          simp only at hle
          omega
        · exact h.old b' hb' hle
    | remove addr => exact ⟨h.created, fun b' hb' => h.old b' (List.mem_of_mem_filter hb')⟩
    | enable addr => exact h.switch addr 1
    | disable addr => exact h.switch addr 0

end Ledger

theorem ledger_since (ds ds' : List (Call × ℤ)) : (ledger ds).Since (ledger (ds ++ ds')) := by
  induction ds' using List.reverseRecOn with
  | nil =>
    rw [List.append_nil]
    exact .refl _
  | append_singleton ds' d ih =>
    rw [← List.append_assoc, ledger_snoc]
    exact ih.record d

/-! ## Sessions -/

/-- A call that came back; the allocator answers nodes that are not in use. -/
structure ListStep (fuel : ℕ) (s : Debugger) (d : Call × ℤ) (s' : Debugger) : Prop where
  fresh : d.1.Fresh s
  exec : d.1.exec fuel s = some (d.2, s')

theorem tracks_becomeDebugger (s : Debugger) (d : Ptr) : Tracks (s.doBecomeDebugger (some d)).2 d ⟨none, 0, 0⟩ [] :=
  ⟨rfl, Function.update_self .., .nil, rfl, Nat.zero_le _⟩

/-- A call that came back was refused, or returned 0 and did to the list what it is meant to. -/
theorem ListStep.cases {fuel : ℕ} (hf : maxBreakpoints ≤ fuel) {s s' : Debugger} {c : Call} {ret : ℤ}
    (hs : ListStep fuel s (c, ret) s') {d : Ptr} {info : DebugInfo} {l : List (Ptr × BreakpointInfo)}
    (ht : Tracks s d info l) : (ret = -1 ∧ s' = s) ∨ (ret = 0 ∧ Done fuel s d info l c s') := by
  have hexec : c.exec fuel s = some (ret, s') := hs.exec
  rcases ht.exec hf hs.fresh with href | ⟨s'', hdone⟩
  · left
    exact Prod.mk.inj (Option.some.inj (hexec.symm.trans href.exec))
  · right
    obtain ⟨rfl, rfl⟩ := Prod.mk.inj (Option.some.inj (hexec.symm.trans hdone.exec))
    exact ⟨rfl, hdone⟩

/-- Along every session the list is tracked, and it says what the ledger says. -/
theorem run_kept {fuel : ℕ} (hf : maxBreakpoints ≤ fuel) {s₀ s : Debugger} {d : Ptr} {ds : List (Call × ℤ)}
    (h : Run (ListStep fuel) (s₀.doBecomeDebugger (some d)).2 ds s) :
    ∃ info l, Tracks s d info l ∧ (ledger ds).Kept ((listed l).map Prod.snd) info.breakptNum := by
  refine h.inv (P := fun ds s => ∃ info l, Tracks s d info l ∧
    (ledger ds).Kept ((listed l).map Prod.snd) info.breakptNum) ?_ ?_
  · refine ⟨⟨none, 0, 0⟩, [], tracks_becomeDebugger s₀ d, rfl, by decide, .nil, ?_, .nil⟩
    exact fun b hb => absurd hb List.not_mem_nil
  · rintro ds s ⟨c, ret⟩ s' - ⟨info, l, ht, hk⟩ hs
    rw [ledger_snoc]
    rcases hs.cases hf ht with ⟨rfl, rfl⟩ | ⟨rfl, hdone⟩
    · exact ⟨info, l, ht, hk⟩
    · obtain ⟨info', l', ht', he⟩ := hdone.tracks
      exact ⟨info', l', ht', he.kept hk⟩

end CS330.Debug
