/-
debug.c: the breakpoint list of a debugger. Nodes and `struct debug_info` live in the kernel's heap
and are reached through pointers; what `os_alloc` answers is an argument of the calls that allocate.
The code bytes a breakpoint patches are memory of the debuggee, apart from the heap.

A call returns its value and the state it leaves, or nothing if it follows a pointer to no node or
if a loop has not ended after `fuel` nodes. The context pointer itself is never NULL here.
-/
import CS330.Headers
import CS330.Lib.CInt
import CS330.Lib.Chain

namespace CS330.Debug

open CS330.Lib

def maxBreakpoints : ℕ := 8
def int3Opcode : UInt8 := 0xCC
def pushrbpOpcode : UInt8 := 0x55

abbrev Ptr := ℕ

/-- A `u64` address of the debuggee. -/
abbrev Addr := UInt64

/-- `struct breakpoint_info`. -/
structure BreakpointInfo where
  num : ℕ
  status : ℕ
  addr : Addr
  next : Option Ptr

/-- `struct debug_info`, the list part. -/
structure DebugInfo where
  head : Option Ptr
  size : ℤ
  breakptNum : ℤ

/-- `ctx->dbg`, the allocated objects and the code bytes. -/
structure Debugger where
  dbg : Option Ptr
  infos : Ptr → Option DebugInfo
  nodes : Ptr → Option BreakpointInfo
  mem : Addr → UInt8

namespace Debugger

/-- `do_become_debugger`. -/
def doBecomeDebugger (fresh : Option Ptr) (s : Debugger) : ℤ × Debugger :=
  match fresh with
  | none => (-1, { s with dbg := none })
  | some d => (0, { s with dbg := some d, infos := Function.update s.infos d (some ⟨none, 0, 0⟩) })

/-- The loop every call starts with: look for `addr` from the head of the list on. -/
def find (s : Debugger) (fuel : ℕ) (head : Option Ptr) (addr : Addr) :
    Option (Option (Option Ptr × Ptr × BreakpointInfo)) :=
  walk s.nodes BreakpointInfo.next (fun b => b.addr == addr) fuel none head

/-- Set the status of a node and patch the code byte it stands for. -/
def patch (s : Debugger) (p : Ptr) (b : BreakpointInfo) (status : ℕ) (opcode : UInt8) : Debugger :=
  { s with
    nodes := Function.update s.nodes p (some { b with status := status })
    mem := Function.update s.mem b.addr opcode }

/-- `do_set_breakpoint`. -/
def doSetBreakpoint (fuel : ℕ) (fresh : Option Ptr) (addr : Addr) (s : Debugger) : Option (ℤ × Debugger) :=
  match s.dbg with
  | none => some (-1, s)
  | some d => do
    let info ← s.infos d
    match ← s.find fuel info.head addr with
    | some (_, p, b) => some (0, s.patch p b 1 int3Opcode)
    | none =>
      if info.size ≥ maxBreakpoints then some (-1, s)
      else match fresh with
        | none => some (-1, s)
        | some p =>
          let num := i32 (info.breakptNum + 1)
          some (0, { s with
            infos := Function.update s.infos d (some ⟨some p, i32 (info.size + 1), num⟩)
            nodes := Function.update s.nodes p (some ⟨u32 num, 1, addr, info.head⟩)
            mem := Function.update s.mem addr int3Opcode })

/-- Take node `b` out of the list: its predecessor, or the head, takes over its link. -/
def unlink (s : Debugger) (d : Ptr) (info : DebugInfo) (parent : Option Ptr) (b : BreakpointInfo) :
    Option Debugger :=
  match parent with
  | none => some { s with infos := Function.update s.infos d (some { info with head := b.next }) }
  | some q => do
    let w ← s.nodes q
    some { s with nodes := Function.update s.nodes q (some { w with next := b.next }) }

/-- `do_remove_breakpoint`. -/
def doRemoveBreakpoint (fuel : ℕ) (addr : Addr) (s : Debugger) : Option (ℤ × Debugger) :=
  match s.dbg with
  | none => some (-1, s)
  | some d => do
    let info ← s.infos d
    match ← s.find fuel info.head addr with
    | some (parent, p, b) =>
      let s ← s.unlink d info parent b
      let info ← s.infos d
      some (0, { s with
        infos := Function.update s.infos d (some { info with size := i32 (info.size - 1) })
        nodes := Function.update s.nodes p none
        mem := Function.update s.mem addr pushrbpOpcode })
    | none => some (-1, s)

/-- The body `do_enable_breakpoint` and `do_disable_breakpoint` share. -/
def switchBreakpoint (status : ℕ) (opcode : UInt8) (fuel : ℕ) (addr : Addr) (s : Debugger) :
    Option (ℤ × Debugger) :=
  match s.dbg with
  | none => some (-1, s)
  | some d => do
    let info ← s.infos d
    match ← s.find fuel info.head addr with
    | some (_, p, b) => some (0, s.patch p b status opcode)
    | none => some (-1, s)

/-- `do_enable_breakpoint`. -/
def doEnableBreakpoint := switchBreakpoint 1 int3Opcode

/-- `do_disable_breakpoint`. -/
def doDisableBreakpoint := switchBreakpoint 0 pushrbpOpcode

/-- The list part of `debugger_on_exit`: free the nodes, then the `struct debug_info`. The code bytes
stay as they are. -/
def debuggerOnExit (fuel : ℕ) (s : Debugger) : Option Debugger :=
  match s.dbg with
  | none => some s
  | some d => do
    let info ← s.infos d
    let r ← dispose BreakpointInfo.next fuel s.nodes info.head
    some { s with dbg := none, infos := Function.update s.infos d none, nodes := r.2 }

end Debugger

/-- A debugger's calls on its list; `fresh` is what `alloc_breakpoint_info` answers if it is asked. -/
inductive Call where
  | set (fresh : Option Ptr) (addr : Addr)
  | remove (addr : Addr)
  | enable (addr : Addr)
  | disable (addr : Addr)

def Call.exec (fuel : ℕ) (s : Debugger) : Call → Option (ℤ × Debugger)
  | .set fresh addr => s.doSetBreakpoint fuel fresh addr
  | .remove addr => s.doRemoveBreakpoint fuel addr
  | .enable addr => s.doEnableBreakpoint fuel addr
  | .disable addr => s.doDisableBreakpoint fuel addr

end CS330.Debug
