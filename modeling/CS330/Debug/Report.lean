/-
do_info_breakpoints: the list, newest first, is written into the caller's array from its end on, so that the array
has the breakpoints in the order in which they were created.
-/
import CS330.Debug.Lifetime

namespace CS330.Debug

open CS330.Lib

/-! ## The call -/

/-- `struct breakpoint`. -/
structure Breakpoint where
  num : ℤ
  status : ℤ
  addr : Addr
deriving DecidableEq

/-- What is copied of a node: its `u32` fields become `int`. -/
def BreakpointInfo.copy (b : BreakpointInfo) : Breakpoint := ⟨i32 b.num, i32 b.status, b.addr⟩

namespace Debugger

/-- The loop of `do_info_breakpoints`: the entries of `ubp` that it writes from a node on, with their indices. -/
def report (s : Debugger) (size : ℤ) : ℕ → ℤ → Option Ptr → Option (List (ℤ × Breakpoint))
  | _, _, none => some []
  | 0, _, some _ => none
  | fuel + 1, idx, some p => do
    let b ← s.nodes p
    let rest ← s.report size fuel (idx + 1) b.next
    some ((size - idx - 1, b.copy) :: rest)

/-- `do_info_breakpoints`: the return value, and the entries of `ubp` written, in order; `ubp` says whether there is
an array. -/
def doInfoBreakpoints (fuel : ℕ) (ubp : Bool) (s : Debugger) : Option (ℤ × List (ℤ × Breakpoint)) :=
  if !ubp then some (-1, [])
  else match s.dbg with
    | none => some (-1, [])
    | some d => do
      let info ← s.infos d
      let written ← s.report info.size fuel 0 info.head
      some (info.size, written)

end Debugger

/-- The nodes of a chain are written one after the other, downwards. -/
theorem report_chain {s : Debugger} {head : Option Ptr} {l : List (Ptr × BreakpointInfo)}
    (h : Chain s.nodes BreakpointInfo.next head l) {fuel : ℕ} (hf : l.length ≤ fuel) (size idx : ℤ) :
    s.report size fuel idx head = some (l.mapIdx fun j x => (size - (idx + j) - 1, x.2.copy)) := by
  induction h generalizing fuel idx with
  | nil => cases fuel <;> rfl
  | @cons p b l hp _ ih =>
    obtain ⟨fuel, rfl⟩ : ∃ n, fuel = n + 1 := ⟨fuel - 1, by simp only [List.length_cons] at hf; omega⟩
    have hlen : l.length ≤ fuel := by simpa using hf
    have hrest := ih hlen (idx + 1)
    simp only [Debugger.report, hp, hrest, Option.bind_eq_bind, Option.bind_some, List.mapIdx_cons, Nat.cast_zero,
      add_zero, Nat.cast_add, Nat.cast_one, Option.some.injEq, List.cons.injEq, true_and]
    apply List.ext_getElem
    · simp
    · intro j h1 h2
      simp only [List.getElem_mapIdx]
      refine Prod.ext ?_ rfl
      show size - (idx + 1 + j) - 1 = size - (idx + (j + 1)) - 1
      ring

/-- The array holds the list backwards: entry by entry from its end to its start. -/
theorem Tracks.report {s : Debugger} {d : Ptr} {info : DebugInfo} {l : List (Ptr × BreakpointInfo)}
    (h : Tracks s d info l) {fuel : ℕ} (hf : maxBreakpoints ≤ fuel) :
    ∃ written, s.doInfoBreakpoints fuel true = some ((l.length : ℤ), written) ∧
      written.reverse = (l.reverse.map fun x => x.2.copy).mapIdx fun j b => ((j : ℤ), b) := by
  have hw := report_chain h.chain (h.length.trans hf) info.size 0
  rw [h.size] at hw
  have hcall : s.doInfoBreakpoints fuel true =
      some ((l.length : ℤ), l.mapIdx fun j x => ((l.length : ℤ) - (0 + j) - 1, x.2.copy)) := by
    simp only [Debugger.doInfoBreakpoints, Bool.not_true, Bool.false_eq_true, if_false, h.dbg, h.infos, hw,
      Option.bind_eq_bind, Option.bind_some, h.size]
  refine ⟨_, hcall, ?_⟩
  apply List.ext_getElem
  · simp
  · intro j h1 h2
    simp only [List.length_reverse, List.length_mapIdx] at h1
    simp only [List.getElem_reverse, List.getElem_mapIdx, List.getElem_map, List.length_mapIdx]
    refine Prod.ext ?_ rfl
    show (l.length : ℤ) - (0 + (l.length - 1 - j : ℕ)) - 1 = j
    omega

/-! ## The breakpoints of the ledger -/

/-- A breakpoint as it is reported. -/
def Mark.report (b : Mark) : Breakpoint := ⟨i32 b.serial, i32 b.status, b.addr⟩

theorem i32_u32_i32 (n : ℤ) : i32 (u32 (i32 n)) = i32 n := by
  unfold i32 u32
  omega

theorem Mark.copy_entry {b : BreakpointInfo} {m : Mark} (h : b.entry = m.entry) : b.copy = m.report := by
  obtain ⟨hnum, hstatus, haddr⟩ := Entry.mk.inj h
  unfold BreakpointInfo.copy Mark.report
  rw [hnum, hstatus, haddr, i32_u32_i32]

/-- What is copied of the nodes are the breakpoints of the ledger. -/
theorem Ledger.Kept.copies {g : Ledger} {l : List (Ptr × BreakpointInfo)} {n : ℤ}
    (h : g.Kept ((listed l).map Prod.snd) n) : (l.map fun x => x.2.copy) = g.live.map Mark.report := by
  have he := h.entries
  rw [listed_snd] at he
  have hsame : List.Forall₂ (fun x m => x.2.entry = Mark.entry m) l g.live := by
    rwa [← List.forall₂_eq_eq_eq, List.forall₂_map_left_iff, List.forall₂_map_right_iff] at he
  rw [← List.forall₂_eq_eq_eq, List.forall₂_map_left_iff, List.forall₂_map_right_iff]
  exact hsame.imp fun x m => Mark.copy_entry

/-- Before the counter of the session overflows, a breakpoint's number is its serial. -/
theorem Ledger.Kept.nums {g : Ledger} {es : List Entry} {n : ℤ} (h : g.Kept es n) (hlt : g.created < 2 ^ 31) :
    ((g.live.reverse.map Mark.report).map Breakpoint.num).Pairwise (· < ·) := by
  have hreport : ∀ b ∈ g.live, b.report.num = (b.serial : ℤ) := by
    intro b hb
    rw [← h.i32_serial hlt hb]
    unfold Mark.report
    rfl
  rw [List.pairwise_map, List.pairwise_map, List.pairwise_reverse]
  refine (List.pairwise_map.1 h.serials).imp_of_mem ?_
  intro a b ha hb hab
  rw [hreport a ha, hreport b hb]
  exact Int.ofNat_lt.2 hab

/-- Along every session the array is filled with the breakpoints there should be, each index once, in the order of
their creation; the numbers increase as long as fewer than 2 ^ 31 breakpoints have been created. -/
theorem run_report {fuel : ℕ} (hf : maxBreakpoints ≤ fuel) {s₀ s : Debugger} {d : Ptr} {ds : List (Call × ℤ)}
    (h : Run (ListStep fuel) (s₀.doBecomeDebugger (some d)).2 ds s) :
    let bs := (ledger ds).live.reverse
    (∃ written, s.doInfoBreakpoints fuel true = some ((bs.length : ℤ), written) ∧
      written.reverse = (bs.map Mark.report).mapIdx fun j b => ((j : ℤ), b)) ∧
    (bs.map Mark.serial).Pairwise (· < ·) ∧
    ((ledger ds).created < 2 ^ 31 → ((bs.map Mark.report).map Breakpoint.num).Pairwise (· < ·)) := by
  intro bs
  obtain ⟨info, l, ht, hk⟩ := run_kept hf h
  have hcopies : (l.reverse.map fun x => x.2.copy) = bs.map Mark.report := by
    rw [List.map_reverse, List.map_reverse, hk.copies]
  refine ⟨?_, ?_, hk.nums⟩
  · obtain ⟨written, hcall, hw⟩ := ht.report hf
    have hlen : l.length = bs.length := by simpa using congrArg List.length hcopies
    rw [hlen] at hcall
    rw [hcopies] at hw
    exact ⟨written, hcall, hw⟩
  · rw [List.map_reverse, List.pairwise_reverse]
    exact hk.serials

theorem report_script {fuel : ℕ} {s : Debugger} {cs : List Call}
    (h : Scripted (next fuel) (fun s c => c.Fresh s ∧ (c.exec fuel s).isSome = true) s cs) :
    Run (ListStep fuel) s (script (next fuel) s cs).1 (script (next fuel) s cs).2 := by
  refine Run.script (next fuel) _ ?_ h
  rintro s c ⟨hfresh, he⟩
  obtain ⟨⟨ret, s'⟩, hexec⟩ := Option.isSome_iff_exists.1 he
  have hnext : next fuel s c = ((c, ret), s') := by
    unfold next; rw [hexec]
  rw [hnext]
  exact ⟨hfresh, hexec⟩

/-- Three breakpoints, the oldest of them removed and set again. -/
theorem run_report_of_three :
    let s₀ : Debugger := ⟨none, fun _ => none, fun _ => none, fun _ => pushrbpOpcode⟩
    let r := script (next 8) (s₀.doBecomeDebugger (some 1)).2
      [.set (some 2) 64, .set (some 3) 80, .disable 80, .remove 64, .set (some 2) 96, .set (some 4) 64]
    let bs := (ledger r.1).live.reverse
    (∃ written, r.2.doInfoBreakpoints 8 true = some ((bs.length : ℤ), written) ∧
      written.reverse = (bs.map Mark.report).mapIdx fun j b => ((j : ℤ), b)) ∧
    (bs.map Mark.serial).Pairwise (· < ·) ∧
    ((ledger r.1).created < 2 ^ 31 → ((bs.map Mark.report).map Breakpoint.num).Pairwise (· < ·)) := by
  intro s₀ r bs
  have h : Run (ListStep 8) (s₀.doBecomeDebugger (some 1)).2 r.1 r.2 := report_script (by decide)
  exact run_report (by decide) h

/-! ## The counter overflows -/

/-- A debugger without breakpoints that has created `n`. -/
def churned (n : ℕ) : Debugger :=
  ⟨some 1, Function.update (fun _ => none) 1 (some ⟨none, 0, i32 n⟩), fun _ => none, fun _ => pushrbpOpcode⟩

/-- The debugger with a breakpoint at 64. -/
def churning (n : ℕ) : Debugger :=
  ⟨some 1, Function.update (fun _ => none) 1 (some ⟨some 2, 1, i32 n⟩),
    Function.update (fun _ => none) 2 (some ⟨u32 (i32 n), 1, 64, none⟩),
    Function.update (fun _ => pushrbpOpcode) 64 int3Opcode⟩

theorem set_churned (n : ℕ) : (Call.set (some 2) 64).exec 8 (churned n) = some (0, churning (n + 1)) := by
  have hsize : i32 (0 + 1) = 1 := by decide
  simp only [Call.exec, Debugger.doSetBreakpoint, churned, churning, Debugger.find, walk, Function.update_self,
    Option.bind_eq_bind, Option.bind_some, i32_succ, hsize, Function.update_idem]
  rfl

theorem remove_churning (n : ℕ) : (Call.remove 64).exec 8 (churning n) = some (0, churned n) := by
  have hsize : i32 0 = 0 := by decide
  simp [Call.exec, Debugger.doRemoveBreakpoint, churned, churning, Debugger.find, walk, Debugger.unlink, hsize,
    Option.bind_eq_bind]

/-- Setting a breakpoint and removing it again. -/
theorem churn {n : ℕ} {ds : List (Call × ℤ)} (h : Run (ListStep 8) (churned 0) ds (churned n)) :
    Run (ListStep 8) (churned 0) (ds ++ [(.set (some 2) 64, 0)] ++ [(.remove 64, 0)]) (churned (n + 1)) := by
  refine (h.snoc ⟨?_, set_churned n⟩).snoc ⟨trivial, remove_churning (n + 1)⟩
  rintro p -
  rfl

theorem churns (n : ℕ) : ∃ ds, Run (ListStep 8) (churned 0) ds (churned n) := by
  induction n with
  | zero => exact ⟨[], .start⟩
  | succ n ih =>
    obtain ⟨ds, h⟩ := ih
    exact ⟨_, churn h⟩

/-- The debugger with a second breakpoint, at 80. -/
def churnedTwo (n : ℕ) : Debugger :=
  ⟨some 1, Function.update (fun _ => none) 1 (some ⟨some 3, 2, i32 (n + 1 : ℕ)⟩),
    Function.update (Function.update (fun _ => none) 2 (some ⟨u32 (i32 n), 1, 64, none⟩)) 3
      (some ⟨u32 (i32 (n + 1 : ℕ)), 1, 80, some 2⟩),
    Function.update (Function.update (fun _ => pushrbpOpcode) 64 int3Opcode) 80 int3Opcode⟩

theorem set_churning (n : ℕ) : (Call.set (some 3) 80).exec 8 (churning n) = some (0, churnedTwo n) := by
  have hsize : i32 (1 + 1) = 2 := by decide
  simp only [Call.exec, Debugger.doSetBreakpoint, churning, churnedTwo, Debugger.find, walk, Function.update_self,
    Option.bind_eq_bind, Option.bind_some, i32_succ, hsize, Function.update_idem]
  rfl

theorem report_churnedTwo (n : ℕ) :
    (churnedTwo n).doInfoBreakpoints 8 true = some (2, [(1, ⟨i32 (n + 1 : ℕ), 1, 80⟩), (0, ⟨i32 n, 1, 64⟩)]) := by
  have hchain : Chain (churnedTwo n).nodes BreakpointInfo.next (some 3)
      [(3, ⟨u32 (i32 (n + 1 : ℕ)), 1, 80, some 2⟩), (2, ⟨u32 (i32 n), 1, 64, none⟩)] :=
    .cons rfl (.cons rfl .nil)
  have hlen : 2 ≤ 8 := by decide
  have hwritten := report_chain hchain hlen 2 0
  have hinfo : (churnedTwo n).infos 1 = some ⟨some 3, 2, i32 (n + 1 : ℕ)⟩ := rfl
  have hstatus : i32 (1 : ℕ) = 1 := by decide
  simp only [List.mapIdx_cons, List.mapIdx_nil, BreakpointInfo.copy, i32_u32_i32, hstatus] at hwritten
  have hdbg : (churnedTwo n).dbg = some 1 := rfl
  simp only [Debugger.doInfoBreakpoints, Bool.not_true, Bool.false_eq_true, if_false, hdbg, hinfo, hwritten,
    Option.bind_eq_bind, Option.bind_some]
  rfl

/-- A debugger that has set and removed 2 ^ 31 - 2 breakpoints sets two more: the later one gets a negative number. -/
theorem report_overflows :
    let s₀ : Debugger := ⟨none, fun _ => none, fun _ => none, fun _ => pushrbpOpcode⟩
    let written : List (ℤ × Breakpoint) := [(1, ⟨-2147483648, 1, 80⟩), (0, ⟨2147483647, 1, 64⟩)]
    ∃ ds s, Run (ListStep 8) (s₀.doBecomeDebugger (some 1)).2 ds s ∧
      s.doInfoBreakpoints 8 true = some (2, written) ∧
      ¬ (written.reverse.map fun x => x.2.num).Pairwise (· < ·) := by
  intro s₀ written
  have hstart : (s₀.doBecomeDebugger (some 1)).2 = churned 0 := by
    have hzero : (0 : ℤ) = i32 (0 : ℕ) := by decide
    simp only [Debugger.doBecomeDebugger, churned, ← hzero, s₀]
  obtain ⟨ds, hds⟩ := churns 2147483646
  have hlast : i32 (2147483647 : ℕ) = 2147483647 := by unfold i32; norm_num
  have hover : i32 (2147483647 + 1 : ℕ) = -2147483648 := by unfold i32; norm_num
  have hreport := report_churnedTwo 2147483647
  rw [hlast, hover] at hreport
  rw [hstart]
  have hfirst : ListStep 8 (churned 2147483646) (.set (some 2) 64, 0) (churning 2147483647) := by
    refine ⟨?_, set_churned _⟩
    rintro p -
    rfl
  have hsecond : ListStep 8 (churning 2147483647) (.set (some 3) 80, 0) (churnedTwo 2147483647) := by
    refine ⟨?_, set_churning _⟩
    rintro p hp
    obtain rfl := Option.mem_some_iff.1 hp
    rfl
  exact ⟨_, _, (hds.snoc hfirst).snoc hsecond, hreport, by decide⟩

end CS330.Debug
