/-
A breakpoint is transparent to the debuggee: the handler carries out the `push rbp` the trap instruction replaced,
`do_info_registers` undoes what it has done to the registers in what it reports, and the debuggee resumes where the
push would have left it, whatever its debugger does in between.
-/
import CS330.Debug.Backtrace
import CS330.Debug.Report

namespace CS330.Debug

open CS330.Lib Machine

/-! ## Registers -/

/-- `struct registers`: the fields of `struct user_regs`. -/
abbrev Registers := UserRegs

/-- `do_info_registers`, with what is behind `regs` afterwards. -/
def Machine.doInfoRegisters (p : Pid) (regs : Registers) (m : Machine) : Option (ℤ × Registers) := do
  match ← m.findChild p pids with
  | none => some (-1, regs)
  | some c =>
    let child ← m.ctxs c
    some (0, {
      r15 := child.regs.r15
      r14 := child.regs.r14
      r13 := child.regs.r13
      r12 := child.regs.r12
      r11 := child.regs.r11
      r10 := child.regs.r10
      r9 := child.regs.r9
      r8 := child.regs.r8
      rbp := child.regs.rbp
      rdi := child.regs.rdi
      rsi := child.regs.rsi
      rdx := child.regs.rdx
      rcx := child.regs.rcx
      rbx := child.regs.rbx
      rax := child.regs.rax
      entryRip := child.regs.entryRip - 1
      entryCs := child.regs.entryCs
      entryRflags := child.regs.entryRflags
      entryRsp := child.regs.entryRsp + 8
      entrySs := child.regs.entrySs })

/-- The one-byte trap instruction: the processor saves the address behind it, and nothing else changes. -/
def UserRegs.trap (regs : UserRegs) : UserRegs := { regs with entryRip := regs.entryRip + 1 }

/-- `push rbp`, as the processor executes it. -/
def pushRbp (regs : UserRegs) (mem : Addr → UInt8) : UserRegs × (Addr → UInt8) :=
  ({ regs with entryRip := regs.entryRip + 1, entryRsp := regs.entryRsp - 8 }, store64 mem (regs.entryRsp - 8) regs.rbp)

/-! ## What the debugger does in between -/

/-- A call of the debugger while its debuggee sleeps. Buffers are in its own memory. -/
inductive Visit where
  | infoRegisters (regs : Registers)
  | backtrace (btBuf : Option (ℕ → UInt64))
  | infoBreakpoints (ubp : Bool)
  | call (c : Call)

namespace Visit

/-- The return value and the machine afterwards. -/
def exec (fuel : ℕ) (p : Pid) (m : Machine) : Visit → Option (ℤ × Machine)
  | infoRegisters regs => (m.doInfoRegisters p regs).map fun r => (r.1, m)
  | backtrace btBuf => (m.doBacktrace fuel p btBuf).map fun r => (r.1, m)
  | infoBreakpoints ubp => ((m.debugger p).doInfoBreakpoints fuel ubp).map fun r => (r.1, m)
  | call c => (c.exec fuel (m.debugger p)).map fun r => (r.1, m.setDebugger p r.2)

/-- The allocator hands out a node that is not in use. -/
def Fresh (s : Debugger) : Visit → Prop
  | call c => c.Fresh s
  | _ => True

end Visit

/-- A visit that came back. -/
structure VisitStep (fuel : ℕ) (p : Pid) (m : Machine) (e : Visit × ℤ) (m' : Machine) : Prop where
  fresh : e.1.Fresh (m.debugger p)
  exec : e.1.exec fuel p m = some (e.2, m')

/-- No call on breakpoints that returned 0 was for this address. -/
def Unpatched (es : List (Visit × ℤ)) (a : Addr) : Prop := ∀ c, (Visit.call c, 0) ∈ es → c.addr ≠ a

/-- The child of a live debugger runs, with these registers, into a trap instruction: it is the first child that the
debugger's search meets. -/
structure Hits (m : Machine) (c p : Pid) (d : Ptr) (regs : UserRegs) : Prop where
  ne : p ≠ c
  child : ∃ x, m.ctxs c = some x ∧ x.ppid = p ∧ x.regs = regs.trap
  parent : ∃ y, m.ctxs p = some y ∧ y.dbg = some d ∧ y.state ≠ .unused
  first : m.findChild p pids = some (some c)
  list : ∃ info l, Tracks (m.debugger p) d info l

/-! ## Machines -/

section Machines

variable {m m' : Machine} {p c : Pid} {x : ExecContext}

theorem ctxs_setDebugger (h : m.ctxs p = some x) {s : Debugger} (hs : s.dbg = x.dbg) :
    (m.setDebugger p s).ctxs = m.ctxs := by
  unfold setDebugger withCtx
  show Function.update m.ctxs p ((m.ctxs p).map fun x => { x with dbg := s.dbg }) = m.ctxs
  rw [h, hs]
  exact (Function.update_eq_self_iff ..).2 h.symm

theorem debugger_setDebugger (h : m.ctxs p = some x) (s : Debugger) : (m.setDebugger p s).debugger p = s := by
  have hctx : (m.setDebugger p s).ctxs p = some { x with dbg := s.dbg } := withCtx_self h _
  unfold debugger
  rw [hctx]
  rfl

theorem debugger_dbg (h : m.ctxs p = some x) : (m.debugger p).dbg = x.dbg := by
  simp only [debugger, h, Option.bind_some]

/-- Whether a context is a child that is in use is all the search looks at. -/
theorem findChild_congr {qs : List Pid}
    (h : ∀ q ∈ qs, (m'.ctxs q).map (fun x => decide (x.state ≠ .unused ∧ x.ppid = p)) =
      (m.ctxs q).map fun x => decide (x.state ≠ .unused ∧ x.ppid = p)) : m'.findChild p qs = m.findChild p qs := by
  induction qs with
  | nil => rfl
  | cons q qs ih =>
    have hrest := ih fun q' hq' => h q' (List.mem_cons_of_mem _ hq')
    have hq := h q (List.mem_cons_self ..)
    simp only [findChild, hrest]
    cases hx' : m'.ctxs q with
    | none =>
      rw [hx', Option.map_none, eq_comm, Option.map_eq_none_iff] at hq
      rw [hq]
    | some x' =>
      rw [hx', Option.map_some, eq_comm, Option.map_eq_some_iff] at hq
      obtain ⟨x, hx, hd⟩ := hq
      rw [decide_eq_decide] at hd
      simp only [hx, Option.bind_eq_bind, Option.bind_some, hd]

/-- A search that finds a child finds one that is in use. -/
theorem findChild_ctx {qs : List Pid} (h : m.findChild p qs = some (some c)) :
    ∃ x, m.ctxs c = some x ∧ x.state ≠ .unused ∧ x.ppid = p := by
  induction qs with
  | nil => cases h
  | cons q qs ih =>
    obtain ⟨x, hx, h⟩ := Option.bind_eq_some_iff.1 h
    split at h
    · rename_i hchild
      obtain rfl := Option.some.inj (Option.some.inj h)
      exact ⟨x, hx, hchild⟩
    · exact ih h

/-- The handler changes which contexts are children in use of nobody. -/
theorem Hits.findChild {d : Ptr} {regs : UserRegs} (h : Hits m c p d regs) :
    (m.trapped c p d regs.trap).findChild p pids = some (some c) := by
  obtain ⟨x, hx, hxs, -⟩ := findChild_ctx h.first
  obtain ⟨y, hy, -, hys⟩ := h.parent
  rw [← h.first]
  refine findChild_congr fun q _ => ?_
  by_cases hqc : q = c
  · subst hqc
    rw [trapped_child h.ne hx, hx]
    simp [hxs]
  · by_cases hqp : q = p
    · subst hqp
      rw [trapped_parent h.ne hy, hy]
      simp [hys]
    · rw [trapped_of_ne hqc hqp]

/-- The debugger's search finds the child that is asleep, and reports it. -/
theorem doInfoRegisters_eq (hc : m.findChild p pids = some (some c)) (h : m.ctxs c = some x) (regs : Registers) :
    m.doInfoRegisters p regs =
      some (0, { x.regs with entryRip := x.regs.entryRip - 1, entryRsp := x.regs.entryRsp + 8 }) := by
  simp only [doInfoRegisters, hc, h, Option.bind_eq_bind, Option.bind_some]

theorem doWaitAndContinue_eq {y : ExecContext} {d : Ptr} (hp : m.ctxs p = some y) (hd : y.dbg = some d)
    (hc : m.findChild p pids = some (some c)) :
    m.doWaitAndContinue p = some (-1, ((m.setState p .waiting).setState c .ready).setRax p (-1)) := by
  simp only [doWaitAndContinue, hp, hd, hc, Option.bind_eq_bind, Option.bind_some]

end Machines

/-! ## Visits -/

/-- What visits leave as it was: every context, and memory where they patch nothing; the list stays one. -/
structure Visited (m₁ : Machine) (p : Pid) (d : Ptr) (es : List (Visit × ℤ)) (m₂ : Machine) : Prop where
  ctxs : m₂.ctxs = m₁.ctxs
  mem : ∀ a, Unpatched es a → m₂.mem a = m₁.mem a
  list : ∃ info l, Tracks (m₂.debugger p) d info l

section Visits

variable {m m₁ m₂ : Machine} {p c : Pid} {d : Ptr} {y : ExecContext} {fuel : ℕ}

theorem Visited.refl (h : ∃ info l, Tracks (m.debugger p) d info l) (es : List (Visit × ℤ)) : Visited m p d es m :=
  ⟨rfl, fun _ _ => rfl, h⟩

/-- Every visit of a debugger with a child comes back. -/
theorem visit_exec (hf : maxBacktrace ≤ fuel) (hp : m.ctxs p = some y) (hchild : m.findChild p pids = some (some c))
    (hlist : ∃ info l, Tracks (m.debugger p) d info l) {v : Visit} (hfresh : v.Fresh (m.debugger p)) :
    ∃ ret m', v.exec fuel p m = some (ret, m') ∧ Visited m p d [(v, ret)] m' := by
  have hbreak : maxBreakpoints ≤ fuel := le_trans (by decide) hf
  obtain ⟨info, l, ht⟩ := hlist
  cases v with
  | infoRegisters regs =>
    obtain ⟨x, hx, -⟩ := findChild_ctx hchild
    refine ⟨0, m, ?_, .refl ⟨info, l, ht⟩ _⟩
    simp only [Visit.exec, doInfoRegisters_eq hchild hx, Option.map_some]
  | backtrace btBuf =>
    obtain ⟨r, hr⟩ := Option.isSome_iff_exists.1 (doBacktrace_ends hp hf btBuf)
    refine ⟨r.1, m, ?_, .refl ⟨info, l, ht⟩ _⟩
    simp only [Visit.exec, hr, Option.map_some]
  | infoBreakpoints ubp =>
    cases ubp with
    | false => exact ⟨-1, m, rfl, .refl ⟨info, l, ht⟩ _⟩
    | true =>
      obtain ⟨written, hw, -⟩ := ht.report hbreak
      refine ⟨(l.length : ℤ), m, ?_, .refl ⟨info, l, ht⟩ _⟩
      simp only [Visit.exec, hw, Option.map_some]
  | call c =>
    -- the debugger's context is stored back with the struct it had
    have hset : ∀ s : Debugger, s.dbg = some d → (m.setDebugger p s).ctxs = m.ctxs := fun s hs =>
      ctxs_setDebugger hp (by rw [hs, ← debugger_dbg hp, ht.dbg])
    rcases ht.exec hbreak hfresh with href | ⟨s', hdone⟩
    · refine ⟨-1, m.setDebugger p (m.debugger p), ?_, hset _ ht.dbg, fun _ _ => rfl, info, l, ?_⟩
      · simp only [Visit.exec, href.exec, Option.map_some]
      · rwa [debugger_setDebugger hp]
    · obtain ⟨info', l', ht', -⟩ := hdone.tracks
      refine ⟨0, m.setDebugger p s', ?_, hset _ ht'.dbg, fun a ha => ?_, info', l', by rwa [debugger_setDebugger hp]⟩
      · simp only [Visit.exec, hdone.exec, Option.map_some]
      have hne : c.addr ≠ a := ha c (List.mem_singleton_self _)
      show s'.mem a = m.mem a
      rw [hdone.code, Function.update_of_ne hne.symm]
      rfl

theorem Visited.trans {m₃ : Machine} {es fs : List (Visit × ℤ)} (h : Visited m₁ p d es m₂) (h' : Visited m₂ p d fs m₃) :
    Visited m₁ p d (es ++ fs) m₃ where
  ctxs := h'.ctxs.trans h.ctxs
  mem := fun a ha => by
    have h₂ := h'.mem a fun c hc => ha c (List.mem_append_right _ hc)
    have h₁ := h.mem a fun c hc => ha c (List.mem_append_left _ hc)
    exact h₂.trans h₁
  list := h'.list

theorem run_visited (hf : maxBacktrace ≤ fuel) (hp : m₁.ctxs p = some y)
    (hchild : m₁.findChild p pids = some (some c)) (hlist : ∃ info l, Tracks (m₁.debugger p) d info l)
    {es : List (Visit × ℤ)} (h : Run (VisitStep fuel p) m₁ es m₂) : Visited m₁ p d es m₂ := by
  refine h.inv (P := fun es m₂ => Visited m₁ p d es m₂) (.refl hlist _) ?_
  rintro es m ⟨v, ret⟩ m' - hv hs
  have hpm : m.ctxs p = some y := by rw [hv.ctxs, hp]
  have hcm : m.findChild p pids = some (some c) := by
    rw [← hchild]
    exact findChild_congr fun q _ => by rw [hv.ctxs]
  obtain ⟨ret', m'', hexec, hv'⟩ := visit_exec hf hpm hcm hv.list hs.fresh
  obtain ⟨rfl, rfl⟩ := Prod.mk.inj (Option.some.inj (hexec.symm.trans hs.exec))
  exact hv.trans hv'

end Visits

/-- The debuggee resumes with the registers and the memory the push at the breakpoint leaves, whatever its registers
and memory are, however its debugger visits it in between and whatever is on the list; every visit comes back; and at
any time in between its debugger is reported the registers from before the push. -/
theorem run_transparent {fuel : ℕ} (hf : maxBacktrace ≤ fuel) {m : Machine} {c p : Pid} {d : Ptr} {regs : UserRegs}
    (h : Hits m c p d regs) :
    ∃ m₁, m.int3Handler c = some (0, m₁) ∧ ∀ es m₂, Run (VisitStep fuel p) m₁ es m₂ →
      (∀ v : Visit, v.Fresh (m₂.debugger p) → ∃ ret m', v.exec fuel p m₂ = some (ret, m')) ∧
      (∀ buf, m₂.doInfoRegisters p buf = some (0, regs)) ∧
      ∃ m₃ x, m₂.doWaitAndContinue p = some (-1, m₃) ∧ m₃.ctxs c = some x ∧ x.state = .ready ∧
        x.regs = (pushRbp regs m.mem).1 ∧ ∀ a, Unpatched es a → m₃.mem a = (pushRbp regs m.mem).2 a := by
  obtain ⟨x, hx, rfl, hregs⟩ := h.child
  obtain ⟨y, hy, hyd, -⟩ := h.parent
  have hhandler := int3Handler_eq hx hy hyd
  rw [hregs] at hhandler
  refine ⟨_, hhandler, fun es m₂ hrun => ?_⟩
  -- the handler leaves the child asleep and the debugger ready, and no visit changes a context
  have hparent := trapped_parent h.ne hy d regs.trap
  have hchild := trapped_child h.ne hx d regs.trap
  have hlist : ∃ info l, Tracks ((m.trapped c x.ppid d regs.trap).debugger x.ppid) d info l := by
    obtain ⟨info, l, ht⟩ := h.list
    refine ⟨info, l, ?_, ht.infos, ht.chain, ht.size, ht.length⟩
    rw [debugger_dbg hparent, ← hyd]
  have hv := run_visited hf hparent h.findChild hlist hrun
  have hfound : m₂.findChild x.ppid pids = some (some c) := by
    rw [← h.findChild]
    exact findChild_congr fun q _ => by rw [hv.ctxs]
  rw [← hv.ctxs] at hparent hchild
  refine ⟨fun v hfresh => ?_, fun buf => ?_, ?_⟩
  · obtain ⟨ret, m', hexec, -⟩ := visit_exec hf hparent hfound hv.list hfresh
    exact ⟨ret, m', hexec⟩
  · rw [doInfoRegisters_eq hfound hchild, hregs]
    simp [UserRegs.trap]
  -- the child is set ready with the registers the handler left in its context
  · have hwait := doWaitAndContinue_eq hparent hyd hfound
    have hasleep := (withCtx_of_ne h.ne.symm fun z => { z with state := .waiting }).trans hchild
    have hready := (withCtx_of_ne h.ne.symm fun z => { z with regs := { z.regs with rax := -1 } }).trans
      (withCtx_self hasleep fun z => { z with state := .ready })
    refine ⟨_, _, hwait, hready, rfl, ?_, fun a ha => hv.mem a ha⟩
    rw [hregs]
    rfl

/-- Process 1 has set a breakpoint at 64, and process 2, its child, runs into it. -/
def hitRegs : UserRegs := { someRegs with entryRip := 64, rax := 7 }

def hitPair : Machine := { pair with
  ctxs := Function.update pair.ctxs 2 (some ⟨1, .ready, hitRegs.trap, none⟩)
  infos := Function.update (fun _ => none) 5 (some ⟨some 6, 1, 1⟩)
  nodes := Function.update (fun _ => none) 6 (some ⟨1, 1, 64, none⟩)
  mem := Function.update (fun _ => pushrbpOpcode) 64 int3Opcode }

theorem hits_pair : Hits hitPair 2 1 5 hitRegs where
  ne := by decide
  child := ⟨_, rfl, rfl, rfl⟩
  parent := ⟨_, rfl, rfl, by decide⟩
  first := by decide
  list := ⟨⟨some 6, 1, 1⟩, [(6, ⟨1, 1, 64, none⟩)], rfl, rfl, .cons rfl .nil, rfl, by decide⟩

theorem run_transparent_of_pair :
    ∃ m₁, hitPair.int3Handler 2 = some (0, m₁) ∧ ∀ es m₂, Run (VisitStep 64 1) m₁ es m₂ →
      (∀ v : Visit, v.Fresh (m₂.debugger 1) → ∃ ret m', v.exec 64 1 m₂ = some (ret, m')) ∧
      (∀ buf, m₂.doInfoRegisters 1 buf = some (0, hitRegs)) ∧
      ∃ m₃ x, m₂.doWaitAndContinue 1 = some (-1, m₃) ∧ m₃.ctxs 2 = some x ∧ x.state = .ready ∧
        x.regs = (pushRbp hitRegs hitPair.mem).1 ∧
        ∀ a, Unpatched es a → m₃.mem a = (pushRbp hitRegs hitPair.mem).2 a :=
  run_transparent (by decide) hits_pair

/-- Process 3 is a child of process 1 as well, and it is the one that runs into the breakpoint. -/
def hitThird : Machine := { hitPair with
  ctxs := Function.update (Function.update pair.ctxs 2 (some ⟨1, .ready, someRegs, none⟩)) 3
    (some ⟨1, .ready, hitRegs.trap, none⟩) }

/-- The debugger is reported the registers of the first child, and it is the first child that it resumes: the one
that is asleep stays so. -/
theorem later_child_not_reported :
    ∃ m₁, hitThird.int3Handler 3 = some (0, m₁) ∧
      (∃ r, m₁.doInfoRegisters 1 someRegs = some (0, r) ∧ r ≠ hitRegs) ∧
      ∃ m₂ x, m₁.doWaitAndContinue 1 = some (-1, m₂) ∧ m₂.ctxs 3 = some x ∧ x.state = .waiting := by
  have h₁ : hitThird.ctxs 1 = some ⟨0, .ready, someRegs, some 5⟩ := by decide
  have h₂ : hitThird.ctxs 2 = some ⟨1, .ready, someRegs, none⟩ := by decide
  have h₃ : hitThird.ctxs 3 = some ⟨1, .ready, hitRegs.trap, none⟩ := by decide
  have hhandler := int3Handler_eq h₃ h₁ rfl
  have hfound : (hitThird.trapped 3 1 5 hitRegs.trap).findChild 1 pids = some (some 2) := by decide
  have hfirst := (trapped_of_ne (by decide : (2 : Pid) ≠ 3) (by decide : (2 : Pid) ≠ 1) 5 hitRegs.trap).trans h₂
  have hdebugger := trapped_parent (by decide : (1 : Pid) ≠ 3) h₁ 5 hitRegs.trap
  have hasleep := trapped_child (by decide : (1 : Pid) ≠ 3) h₃ 5 hitRegs.trap
  simp only at hhandler
  generalize hitThird.trapped 3 1 5 hitRegs.trap = m₁ at hhandler hfound hfirst hdebugger hasleep
  have hwait := doWaitAndContinue_eq hdebugger rfl hfound
  have hstill := (withCtx_of_ne (by decide : (3 : Pid) ≠ 1) fun z => { z with regs := { z.regs with rax := -1 } }).trans
    ((withCtx_of_ne (by decide : (3 : Pid) ≠ 2) fun z => { z with state := .ready }).trans
      ((withCtx_of_ne (by decide : (3 : Pid) ≠ 1) fun z => { z with state := .waiting }).trans hasleep))
  exact ⟨m₁, hhandler, ⟨_, doInfoRegisters_eq hfound hfirst _, by decide⟩, _, _, hwait, hstill, rfl⟩

end CS330.Debug
