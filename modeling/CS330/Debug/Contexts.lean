/-
debug.c: the handlers that hand control between a debugger and its debuggee. Contexts are reached by
pid through `get_ctx_by_pid`, which is not part of the repository: a pid without a context answers
NULL. `schedule` only transfers control and is left out. User memory is bytes, apart from the
contexts and the kernel's heap.

A handler returns its value and the machine it leaves, or nothing if it follows a pointer to nothing
or if a loop has not ended after `fuel` nodes.
-/
import CS330.Debug.Breakpoints

namespace CS330.Debug

open CS330.Lib

def maxBacktrace : ℕ := 64
def endAddr : Addr := 0x10000003B
def childExit : UInt64 := 0

/-- The states of schedule.h. -/
inductive ProcState where
  | unused | new | ready | running | waiting | exiting
deriving DecidableEq

/-- `struct user_regs`. -/
structure UserRegs where
  r15 : UInt64
  r14 : UInt64
  r13 : UInt64
  r12 : UInt64
  r11 : UInt64
  r10 : UInt64
  r9 : UInt64
  r8 : UInt64
  rbp : UInt64
  rdi : UInt64
  rsi : UInt64
  rdx : UInt64
  rcx : UInt64
  rbx : UInt64
  rax : UInt64
  entryRip : UInt64
  entryCs : UInt64
  entryRflags : UInt64
  entryRsp : UInt64
  entrySs : UInt64
deriving DecidableEq

/-- `struct exec_context`, as far as the debugger reads it; its pid is the key it is stored under. -/
structure ExecContext where
  ppid : Pid
  state : ProcState
  regs : UserRegs
  dbg : Option Ptr
deriving DecidableEq

/-- The contexts by pid, the debugger's heap with the `backtrace_info` of each `struct debug_info`,
and user memory. -/
structure Machine where
  ctxs : Pid → Option ExecContext
  infos : Ptr → Option DebugInfo
  nodes : Ptr → Option BreakpointInfo
  backtraces : Ptr → ℕ → UInt64
  mem : Addr → UInt8

/-! ## User memory -/

/-- Read a `u64`, low byte first. -/
def load64 (mem : Addr → UInt8) (a : Addr) : UInt64 :=
  (List.range 8).foldr (fun i v => v <<< 8 ||| (mem (a + UInt64.ofNat i)).toUInt64) 0

/-- Write a `u64`. -/
def store64 (mem : Addr → UInt8) (a : Addr) (v : UInt64) : Addr → UInt8 := fun x =>
  if x - a < 8 then (v >>> (8 * (x - a))).toUInt8 else mem x

namespace Machine

/-- Change a context through a pointer to it. -/
def withCtx (m : Machine) (p : Pid) (f : ExecContext → ExecContext) : Machine :=
  { m with ctxs := Function.update m.ctxs p ((m.ctxs p).map f) }

def setState (m : Machine) (p : Pid) (state : ProcState) : Machine := m.withCtx p fun x => { x with state := state }

def setRax (m : Machine) (p : Pid) (v : UInt64) : Machine :=
  m.withCtx p fun x => { x with regs := { x.regs with rax := v } }

/-- A process as a debugger: what the calls on its breakpoints work on. -/
def debugger (m : Machine) (p : Pid) : Debugger := ⟨(m.ctxs p).bind ExecContext.dbg, m.infos, m.nodes, m.mem⟩

/-- The machine after such a call. -/
def setDebugger (m : Machine) (p : Pid) (s : Debugger) : Machine :=
  { m.withCtx p fun x => { x with dbg := s.dbg } with infos := s.infos, nodes := s.nodes, mem := s.mem }

/-- `debugger_on_fork`. -/
def debuggerOnFork (c : Pid) (m : Machine) : Machine :=
  m.withCtx c fun x => { x with dbg := none, state := .waiting }

/-- The loop of `int3_handler` that fills `backtrace_info` from `idx` on, for at most as many cells as
are left. -/
def storeFrames (mem : Addr → UInt8) : ℕ → ℕ → Addr → (ℕ → UInt64) → ℕ × (ℕ → UInt64)
  | 0, idx, _, bt => (idx, bt)
  | left + 1, idx, rbp, bt =>
    let addr := load64 mem (rbp + 8)
    if addr = endAddr then (idx, bt)
    else storeFrames mem left (idx + 1) (load64 mem rbp) (Function.update bt idx addr)

/-- The part of `int3_handler` that stores the backtrace: the breakpoint, the return addresses along
the frames from `rsp` on, and the end mark if there is room for it. -/
def storeBacktrace (mem : Addr → UInt8) (rip rsp : UInt64) (bt : ℕ → UInt64) : ℕ → UInt64 :=
  let r := storeFrames mem (maxBacktrace - 1) 1 rsp (Function.update bt 0 (rip - 1))
  if r.1 < maxBacktrace then Function.update r.2 r.1 endAddr else r.2

/-- `int3_handler`: carry out the push the trap instruction replaced, put the debuggee to sleep and
wake its parent with the address of the breakpoint. -/
def int3Handler (c : Pid) (m : Machine) : Option (ℤ × Machine) := do
  let ctx ← m.ctxs c
  match m.ctxs ctx.ppid with
  | none => some (-1, m)
  | some parent =>
    match parent.dbg with
    | none => some (-1, m)
    | some d =>
      let rsp := ctx.regs.entryRsp - 8
      let m := { m with mem := store64 m.mem rsp ctx.regs.rbp }
      let m := m.withCtx c fun x => { x with regs := { x.regs with entryRsp := rsp }, state := .waiting }
      let m := m.setState ctx.ppid .ready
      let m := { m with
        backtraces := Function.update m.backtraces d (storeBacktrace m.mem ctx.regs.entryRip rsp (m.backtraces d)) }
      some (0, m.setRax ctx.ppid (ctx.regs.entryRip - 1))

/-- `debugger_on_exit`: free the list of a debugger, and wake the parent if it is one. -/
def debuggerOnExit (fuel : ℕ) (p : Pid) (m : Machine) : Option Machine := do
  let ctx ← m.ctxs p
  let m ← ((m.debugger p).debuggerOnExit fuel).map (m.setDebugger p)
  match (m.ctxs ctx.ppid).bind ExecContext.dbg with
  | none => some m
  | some _ => some ((m.setState ctx.ppid .ready).setRax ctx.ppid childExit)

/-- The loop of `do_wait_and_continue` over the pids: the first child that is in use. -/
def findChild (m : Machine) (p : Pid) : List Pid → Option (Option Pid)
  | [] => some none
  | c :: cs => do
    let ctx ← m.ctxs c
    if ctx.state ≠ .unused ∧ ctx.ppid = p then some (some c) else m.findChild p cs

/-- The pids `1 .. MAX_PROCESSES - 1`. -/
def pids : List Pid := (List.range' 1 (maxProcesses - 1)).map UInt32.ofNat

/-- `do_wait_and_continue`. -/
def doWaitAndContinue (p : Pid) (m : Machine) : Option (ℤ × Machine) := do
  let ctx ← m.ctxs p
  match ctx.dbg with
  | none => some (-1, m)
  | some _ =>
    match ← m.findChild p pids with
    | none => some (-1, m)
    | some c => some (-1, ((m.setState p .waiting).setState c .ready).setRax p (-1))

end Machine

end CS330.Debug
