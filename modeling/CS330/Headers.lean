/-
Constants of the kernel headers: error numbers (entry.h), process and descriptor limits
(context.h), message queue limits (msg_queue.h), pages (memory.h).
-/
import Mathlib.Tactic

namespace CS330

/-! ## entry.h -/

def einval : Int := 1
def eacces : Int := 4
def enomem : Int := 5

/-! ## context.h -/

abbrev maxProcesses : ℕ := 7
abbrev maxOpenFiles : ℕ := 16

/-! ## msg_queue.h -/

def maxTxtSize : ℕ := 24
def maxMembers : ℕ := 4

/-- `sizeof(struct message)`: two `u32` and the text. -/
def sizeofMessage : ℕ := 4 + 4 + maxTxtSize

/-- The length of `msg_buffer`, the array of slot pointers. -/
def msgSlots : ℕ := 128

/-! ## memory.h -/

def pageSize : ℕ := 4096

/-- A process id (`u32`). -/
abbrev Pid := UInt32

def broadcastPid : Pid := 0xffffffff

end CS330
