/-
The debugger is transparent over whole runs: however it sets, removes and switches breakpoints, however often its
debuggee runs into them and whatever it looks at in between, the debuggee computes what it computes alone. A run of the
two is compared with the iterates of the processor on the debuggee's registers and memory, one for each instruction
that the debuggee gets done.
-/
import CS330.Debug.Resume
import CS330.Debug.Session

namespace CS330.Debug

open CS330.Lib Machine

/-! ## The debuggee on its own -/

/-- The registers and the memory a processor works on. -/
abbrev User := UserRegs × (Addr → UInt8)

/-- A program that can be debugged. Its function entries hold the one-byte push, which pushes; it neither reads nor
writes the bytes of its entries as data, nor has its stack there; and it executes no trap instruction of its own. -/
structure Debuggable (cpu : User → User) (entries : Finset Addr) (u : User) : Prop where
  pushes : ∀ a ∈ entries, u.2 a = pushrbpOpcode
  push : ∀ v : User, v.1.entryRip ∈ entries → v.2 v.1.entryRip = pushrbpOpcode → cpu v = pushRbp v.1 v.2
  stack : ∀ n, (cpu^[n] u).1.entryRip ∈ entries → ∀ a ∈ entries, ¬ a - ((cpu^[n] u).1.entryRsp - 8) < 8
  apart : ∀ n mem, (cpu^[n] u).1.entryRip ∉ entries → (∀ a ∉ entries, mem a = (cpu^[n] u).2 a) →
    (cpu ((cpu^[n] u).1, mem)).1 = (cpu (cpu^[n] u)).1 ∧
    (∀ a ∈ entries, (cpu ((cpu^[n] u).1, mem)).2 a = mem a) ∧
    ∀ a ∉ entries, (cpu ((cpu^[n] u).1, mem)).2 a = (cpu (cpu^[n] u)).2 a
  traps : ∀ n, (cpu^[n] u).2 (cpu^[n] u).1.entryRip ≠ int3Opcode

/-- The next instruction as it gets done under a debugger: at a trap instruction, by the handler. -/
def through (cpu : User → User) (v : User) : User :=
  if v.2 v.1.entryRip = int3Opcode then pushRbp v.1 v.2 else cpu v

theorem through_trap {cpu : User → User} {regs : UserRegs} {mem : Addr → UInt8} (h : mem regs.entryRip = int3Opcode) :
    through cpu (regs, mem) = pushRbp regs mem := if_pos h

theorem through_of_ne {cpu : User → User} {regs : UserRegs} {mem : Addr → UInt8} (h : mem regs.entryRip ≠ int3Opcode) :
    through cpu (regs, mem) = cpu (regs, mem) := if_neg h

section Program

variable {cpu : User → User} {entries : Finset Addr} {u : User}

/-- The entries keep their bytes. -/
theorem Debuggable.pushes_at (h : Debuggable cpu entries u) (n : ℕ) :
    ∀ a ∈ entries, (cpu^[n] u).2 a = pushrbpOpcode := by
  induction n with
  | zero => exact h.pushes
  | succ n ih =>
    intro a ha
    rw [Function.iterate_succ_apply']
    by_cases hrip : (cpu^[n] u).1.entryRip ∈ entries
    · rw [h.push _ hrip (ih _ hrip)]
      exact (if_neg (h.stack n hrip a ha)).trans (ih a ha)
    · exact ((h.apart n _ hrip fun _ _ => rfl).2.1 a ha).trans (ih a ha)

/-- Where its breakpoints are patched into its entries, the next instruction of the program leaves the registers it
leaves without them, and memory that shows the breakpoints over the memory it leaves without them. -/
theorem Debuggable.shown (h : Debuggable cpu entries u) (n : ℕ) {code : Addr → UInt8} {es : List Entry}
    (hs : Shows (cpu^[n] u).2 code es) (hin : ∀ e ∈ es, e.addr ∈ entries) :
    (through cpu ((cpu^[n] u).1, code)).1 = (cpu^[n + 1] u).1 ∧
      Shows (cpu^[n + 1] u).2 (through cpu ((cpu^[n] u).1, code)).2 es := by
  rw [Function.iterate_succ_apply']
  have hpushes := h.pushes_at n
  by_cases hrip : (cpu^[n] u).1.entryRip ∈ entries
  · have hplain : cpu (cpu^[n] u) = pushRbp (cpu^[n] u).1 (cpu^[n] u).2 := h.push _ hrip (hpushes _ hrip)
    -- the push is carried out by the handler or, where no breakpoint is enabled, by the processor
    have hdone : through cpu ((cpu^[n] u).1, code) = pushRbp (cpu^[n] u).1 code := by
      by_cases hbyte : code (cpu^[n] u).1.entryRip = int3Opcode
      · exact through_trap hbyte
      · rw [through_of_ne hbyte]
        refine h.push ((cpu^[n] u).1, code) hrip ?_
        show code (cpu^[n] u).1.entryRip = pushrbpOpcode
        rw [hs.code_eq] at hbyte ⊢
        rw [if_neg fun henabled => hbyte (if_pos henabled)]
        exact hpushes _ hrip
    rw [hplain, hdone]
    refine ⟨rfl, hs.moves ?_ ?_⟩
    · intro e he
      have hclear := h.stack n hrip e.addr (hin e he)
      exact ⟨if_neg hclear, if_neg hclear⟩
    · intro a ha
      simp only [pushRbp, store64]
      rw [hs.rest a ha]
  · have hmem : ∀ a ∉ entries, code a = (cpu^[n] u).2 a := by
      intro a ha
      refine hs.rest a fun e he hea => ha ?_
      rw [← hea]
      exact hin e he
    have hdone : through cpu ((cpu^[n] u).1, code) = cpu ((cpu^[n] u).1, code) := by
      apply through_of_ne
      rw [hmem _ hrip]
      exact h.traps n
    obtain ⟨hregs, hkept, houtside⟩ := h.apart n code hrip hmem
    obtain ⟨-, horig, -⟩ := h.apart n (cpu^[n] u).2 hrip fun _ _ => rfl
    rw [hdone]
    refine ⟨hregs, hs.moves ?_ ?_⟩
    · intro e he
      exact ⟨hkept _ (hin e he), horig _ (hin e he)⟩
    · intro a ha
      by_cases hentry : a ∈ entries
      · rw [hkept a hentry, hs.rest a ha]
        exact (horig a hentry).symm
      · exact houtside a hentry

end Program

/-! ## The two under way -/

/-- The next instruction of the debuggee: at a trap instruction the processor calls `int3_handler`. -/
def Machine.instr (cpu : User → User) (c : Pid) (m : Machine) : Option (ℤ × Machine) := do
  let ctx ← m.ctxs c
  if m.mem ctx.regs.entryRip = int3Opcode then
    (m.withCtx c fun x => { x with regs := x.regs.trap }).int3Handler c
  else
    let r := cpu (ctx.regs, m.mem)
    some (0, { m.withCtx c fun x => { x with regs := r.1 } with mem := r.2 })

/-- What one of the two does: the debuggee executes an instruction, the debugger waits for it or makes another call. -/
inductive Act where
  | instr
  | wait
  | visit (v : Visit)

/-- A byte map that has the one-byte push at the entries only. -/
def marks (entries : Finset Addr) (a : Addr) : UInt8 := if a ∈ entries then pushrbpOpcode else 0

namespace Act

def actor (p c : Pid) : Act → Pid
  | instr => c
  | wait | visit _ => p

def exec (fuel : ℕ) (cpu : User → User) (p c : Pid) (m : Machine) : Act → Option (ℤ × Machine)
  | instr => m.instr cpu c
  | wait => m.doWaitAndContinue p
  | visit v => v.exec fuel p m

/-- Breakpoints are set at entries only, in nodes that are not in use. -/
def Legal (entries : Finset Addr) (s : Debugger) : Act → Prop
  | visit (.call c) => c.Legal (marks entries) s
  | _ => True

/-- How many instructions of the debuggee get done. -/
def done : Act → ℕ
  | instr => 1
  | wait | visit _ => 0

end Act

/-- One of the two acts and comes back. -/
structure LiveStep (fuel : ℕ) (cpu : User → User) (entries : Finset Addr) (p c : Pid) (m : Machine) (e : Act × ℤ)
    (m' : Machine) : Prop where
  acts : Runnable m (e.1.actor p c)
  legal : e.1.Legal entries (m.debugger p)
  exec : e.1.exec fuel cpu p c m = some (e.2, m')

/-- The list of `p` is tracked, memory shows its breakpoints over this code, and all are at entries. -/
def Placed (entries : Finset Addr) (p : Pid) (m : Machine) (orig : Addr → UInt8) : Prop :=
  ∃ d info l, Tracks (m.debugger p) d info l ∧ Shows orig m.mem ((listed l).map Prod.snd) ∧
    ∀ e ∈ (listed l).map Prod.snd, e.addr ∈ entries

/-- A debugger has just made the context of its only child, which starts with these registers and this memory. It may
have set breakpoints before. -/
structure Starts (m : Machine) (p c : Pid) (entries : Finset Addr) (u : User) : Prop where
  forks : Forks m p c
  regs : ∃ y, m.ctxs c = some y ∧ y.regs = u.1
  placed : Placed entries p m u.2

/-- After `n` instructions the registers of the debuggee are those of the program alone, and its memory is that of the
program but for the breakpoints. -/
structure Shadows (cpu : User → User) (entries : Finset Addr) (u : User) (p c : Pid) (n : ℕ) (m : Machine) : Prop where
  turn : AtTurn p c .debugger m ∨ AtTurn p c .debuggee m
  regs : ∃ x, m.ctxs c = some x ∧ x.regs = (cpu^[n] u).1
  placed : Placed entries p m (cpu^[n] u).2

section Machines

variable {m m' : Machine} {p q c : Pid} {t : Turn}

theorem debugger_withCtx {f : ExecContext → ExecContext} (hf : ∀ x, (f x).dbg = x.dbg) (m : Machine) (q p : Pid) :
    (m.withCtx q f).debugger p = m.debugger p := by
  have hdbg : ((m.withCtx q f).ctxs p).bind ExecContext.dbg = (m.ctxs p).bind ExecContext.dbg := by
    rw [ctxs_withCtx]
    split
    · rename_i hpq
      rw [hpq]
      cases m.ctxs q with
      | none => rfl
      | some x => exact hf x
    · rfl
  unfold debugger
  rw [hdbg]
  rfl

theorem debugger_setState (m : Machine) (q : Pid) (state : ProcState) (p : Pid) :
    (m.setState q state).debugger p = m.debugger p :=
  debugger_withCtx (f := fun x => { x with state := state }) (fun _ => rfl) m q p

theorem debugger_setRax (m : Machine) (q : Pid) (v : UInt64) (p : Pid) : (m.setRax q v).debugger p = m.debugger p :=
  debugger_withCtx (f := fun x => { x with regs := { x.regs with rax := v } }) (fun _ => rfl) m q p

theorem debugger_withCtx_of_ne (h : p ≠ q) (f : ExecContext → ExecContext) :
    (m.withCtx q f).debugger p = m.debugger p := by
  unfold debugger
  rw [withCtx_of_ne h]
  rfl

theorem debugger_trapped (m : Machine) (c p : Pid) (d : Ptr) (regs : UserRegs) (q : Pid) :
    (m.trapped c p d regs).debugger q =
      { m.debugger q with mem := store64 m.mem (regs.entryRsp - 8) regs.rbp } := by
  let asleep (x : ExecContext) : ExecContext :=
    { x with regs := { x.regs with entryRsp := regs.entryRsp - 8 }, state := .waiting }
  let m₁ : Machine := { m with mem := store64 m.mem (regs.entryRsp - 8) regs.rbp }
  let m₂ := (m₁.withCtx c asleep).setState p .ready
  let m₃ : Machine := { m₂ with backtraces := (m.trapped c p d regs).backtraces }
  calc (m₃.setRax p (regs.entryRip - 1)).debugger q = m₂.debugger q := debugger_setRax ..
    _ = (m₁.withCtx c asleep).debugger q := debugger_setState ..
    _ = m₁.debugger q := debugger_withCtx (f := asleep) (fun _ => rfl) ..

theorem AtTurn.of_ctxs (h : AtTurn p c t m) (hctxs : m'.ctxs = m.ctxs) : AtTurn p c t m' where
  ne := h.ne
  mem := h.mem
  parent := by rw [hctxs]; exact h.parent
  child := by rw [hctxs]; exact h.child
  only := by
    unfold SoleChild
    rw [hctxs]
    exact h.only

theorem AtTurn.withRegs (h : AtTurn p c t m) (f : ExecContext → UserRegs) :
    AtTurn p c t (m.withCtx c fun x => { x with regs := f x }) where
  ne := h.ne
  mem := h.mem
  parent := by rw [withCtx_of_ne h.ne]; exact h.parent
  child := by
    obtain ⟨y, hy, hchild⟩ := h.child
    exact ⟨_, withCtx_self hy _, hchild⟩
  only := fun ht => (h.only ht).withCtx (fun _ => rfl) fun hne => absurd rfl hne

/-- The debugger finds its child. -/
theorem AtTurn.found (h : AtTurn p c .debugger m) : m.findChild p pids = some (some c) := by
  obtain ⟨y, hy, hys, hyp, -⟩ := h.child
  exact findChild_some h.mem (h.only (by decide)) hy (by rw [hys]; decide) hyp

theorem AtTurn.runnable_parent (h : AtTurn p c .debugger m) : Runnable m p ∧ ¬ Runnable m c := by
  obtain ⟨x, hx, hxs, -⟩ := h.parent
  obtain ⟨y, hy, hys, -⟩ := h.child
  constructor
  · exact ⟨x, hx, by rw [hxs]; decide, by rw [hxs]; decide⟩
  · rintro ⟨z, hz, hw, -⟩
    obtain rfl := Option.some.inj (hy.symm.trans hz)
    exact hw hys

theorem AtTurn.runnable_child (h : AtTurn p c .debuggee m) : Runnable m c ∧ ¬ Runnable m p := by
  obtain ⟨x, hx, hxs, -⟩ := h.parent
  obtain ⟨y, hy, hys, -⟩ := h.child
  constructor
  · exact ⟨y, hy, by rw [hys]; decide, by rw [hys]; decide⟩
  · rintro ⟨z, hz, hw, -⟩
    obtain rfl := Option.some.inj (hx.symm.trans hz)
    exact hw hxs

end Machines

/-! ## Steps -/

theorem marks_iff {entries : Finset Addr} {a : Addr} : marks entries a = pushrbpOpcode ↔ a ∈ entries := by
  unfold marks
  split
  · rename_i ha
    exact ⟨fun _ => ha, fun _ => rfl⟩
  · rename_i ha
    exact ⟨fun h => absurd h (by decide), fun h => absurd h ha⟩

/-- A call creates no breakpoint off the entries. -/
theorem Effect.within {entries : Finset Addr} {n n' : ℤ} {es es' : List (Ptr × Entry)} {c : Call}
    {taken given : List Ptr} (he : Effect n es c taken given n' es') (hin : ∀ e ∈ es.map Prod.snd, e.addr ∈ entries)
    (hplaced : ∀ fresh addr, c = .set fresh addr → addr ∈ entries) : ∀ e ∈ es'.map Prod.snd, e.addr ∈ entries := by
  intro x hx
  cases he with
  | @switch pre post p e =>
    rw [List.map_append, List.map_cons] at hin hx
    rcases mem_middle.1 hx with rfl | hx
    · exact hin e (mem_middle.2 (.inl rfl))
    · exact hin x (mem_middle.2 (.inr hx))
  | create hne hlt =>
    rcases List.mem_cons.1 hx with rfl | hx
    · exact hplaced _ _ rfl
    · exact hin x hx
  | remove =>
    rw [List.map_append, List.map_cons] at hin
    rw [List.map_append] at hx
    exact hin x (mem_middle.2 (.inr hx))

theorem Tracks.withMem {s : Debugger} {d : Ptr} {info : DebugInfo} {l : List (Ptr × BreakpointInfo)}
    (h : Tracks s d info l) (mem : Addr → UInt8) : Tracks { s with mem := mem } d info l :=
  ⟨h.dbg, h.infos, h.chain, h.size, h.length⟩

/-- What an instruction of the debuggee does, through its breakpoints: a trap instruction gives control to the debugger
with the address it stands at. -/
structure Instructed (cpu : User → User) (p c : Pid) (m m' : Machine) (regs : UserRegs) : Prop where
  child : ∃ x, m'.ctxs c = some x ∧ x.regs = (through cpu (regs, m.mem)).1
  debugger : m'.debugger p = { m.debugger p with mem := (through cpu (regs, m.mem)).2 }
  trap : m.mem regs.entryRip = int3Opcode →
    AtTurn p c .debugger m' ∧ ∃ x, m'.ctxs p = some x ∧ x.regs.rax = regs.entryRip
  runs : m.mem regs.entryRip ≠ int3Opcode → AtTurn p c .debuggee m'

section Steps

variable {cpu : User → User} {entries : Finset Addr} {u : User} {m m' : Machine} {p c : Pid} {n fuel : ℕ}

/-- At a trap instruction the processor saves the address behind it, and the handler makes up for the push. -/
theorem AtTurn.traps (h : AtTurn p c .debuggee m) (cpu : User → User) {x : ExecContext} (hx : m.ctxs c = some x)
    (hbyte : m.mem x.regs.entryRip = int3Opcode) :
    ∃ m', m.instr cpu c = some (0, m') ∧ Instructed cpu p c m m' x.regs := by
  obtain ⟨y, hy, -, hyd⟩ := h.parent
  obtain ⟨d, hdbg⟩ := Option.isSome_iff_exists.1 (hyd (by decide))
  obtain ⟨x', hx', -, hppid, -⟩ := h.child
  obtain rfl := Option.some.inj (hx.symm.trans hx')
  subst hppid
  let saved (z : ExecContext) : ExecContext := { z with regs := z.regs.trap }
  have hchild : (m.withCtx c saved).ctxs c = some (saved x) := withCtx_self hx _
  have hparent : (m.withCtx c saved).ctxs x.ppid = some y := (withCtx_of_ne h.ne _).trans hy
  have hexec : m.instr cpu c = (m.withCtx c saved).int3Handler c := by
    simp only [Machine.instr, hx, Option.bind_eq_bind, Option.bind_some, if_pos hbyte]
    rfl
  have hhandler := int3Handler_eq hchild hparent hdbg
  have hturn : AtTurn x.ppid c .debugger ((m.withCtx c saved).trapped c x.ppid d x.regs.trap) := by
    obtain ⟨m', he, hturn, -⟩ := (h.withRegs fun z => z.regs.trap).hit
    obtain ⟨-, rfl⟩ := Prod.mk.inj (Option.some.inj (he.symm.trans hhandler))
    exact hturn
  refine ⟨_, hexec.trans hhandler, ?_⟩
  constructor
  · refine ⟨_, trapped_child h.ne hchild d _, ?_⟩
    rw [through_trap hbyte]
    rfl
  · have hdebugger := debugger_trapped (m.withCtx c saved) c x.ppid d x.regs.trap x.ppid
    rw [debugger_withCtx (f := saved) (fun _ => rfl)] at hdebugger
    rw [through_trap hbyte]
    exact hdebugger
  · intro _
    refine ⟨hturn, _, trapped_parent h.ne hparent d _, ?_⟩
    simp [saved, UserRegs.trap]
  · exact fun hne => absurd hbyte hne

/-- Any other instruction is the processor's. -/
theorem AtTurn.executes (h : AtTurn p c .debuggee m) (cpu : User → User) {x : ExecContext} (hx : m.ctxs c = some x)
    (hbyte : m.mem x.regs.entryRip ≠ int3Opcode) :
    ∃ m', m.instr cpu c = some (0, m') ∧ Instructed cpu p c m m' x.regs := by
  let stepped (z : ExecContext) : ExecContext := { z with regs := (cpu (x.regs, m.mem)).1 }
  have hturn : AtTurn p c .debuggee (m.withCtx c stepped) := h.withRegs fun _ => (cpu (x.regs, m.mem)).1
  have hdebugger := debugger_withCtx (f := stepped) (fun _ => rfl) m c p
  refine ⟨{ m.withCtx c stepped with mem := (cpu (x.regs, m.mem)).2 }, ?_, ?_⟩
  · simp only [Machine.instr, hx, Option.bind_eq_bind, Option.bind_some, if_neg hbyte]
    rfl
  constructor
  · rw [through_of_ne hbyte]
    exact ⟨_, withCtx_self hx _, rfl⟩
  · rw [through_of_ne hbyte, ← hdebugger]
    rfl
  · exact fun htrap => absurd htrap hbyte
  · exact fun _ => hturn.of_ctxs rfl

/-- An instruction of the debuggee always gets done. -/
theorem AtTurn.instr (h : AtTurn p c .debuggee m) (cpu : User → User) {x : ExecContext} (hx : m.ctxs c = some x) :
    ∃ m', m.instr cpu c = some (0, m') ∧ Instructed cpu p c m m' x.regs := by
  by_cases hbyte : m.mem x.regs.entryRip = int3Opcode
  · exact h.traps cpu hx hbyte
  · exact h.executes cpu hx hbyte

/-- An instruction is one instruction of the program. -/
theorem Shadows.instr (h : Shadows cpu entries u p c n m) (hd : Debuggable cpu entries u)
    (hturn : AtTurn p c .debuggee m) {ret : ℤ} (he : m.instr cpu c = some (ret, m')) :
    Shadows cpu entries u p c (n + 1) m' := by
  obtain ⟨x, hx, hregs⟩ := h.regs
  obtain ⟨d, info, l, ht, hs, hin⟩ := h.placed
  obtain ⟨m₁, he₁, hdone⟩ := hturn.instr cpu hx
  obtain ⟨-, rfl⟩ := Prod.mk.inj (Option.some.inj (he.symm.trans he₁))
  obtain ⟨hafter, hshows⟩ := hd.shown n hs hin
  rw [← hregs] at hafter hshows
  constructor
  · by_cases hbyte : m.mem x.regs.entryRip = int3Opcode
    · exact .inl (hdone.trap hbyte).1
    · exact .inr (hdone.runs hbyte)
  · obtain ⟨x', hx', hregs'⟩ := hdone.child
    exact ⟨x', hx', hregs'.trans hafter⟩
  · have hmem : m'.mem = (through cpu (x.regs, m.mem)).2 := congrArg Debugger.mem hdone.debugger
    refine ⟨d, info, l, ?_, by rw [hmem]; exact hshows, hin⟩
    rw [hdone.debugger]
    exact ht.withMem _

/-- The debugger lets its child run on. -/
theorem Shadows.wait (h : Shadows cpu entries u p c n m) (hturn : AtTurn p c .debugger m) {ret : ℤ}
    (he : m.doWaitAndContinue p = some (ret, m')) : Shadows cpu entries u p c n m' := by
  obtain ⟨y, hy, -, hyd⟩ := hturn.parent
  obtain ⟨d, hdbg⟩ := Option.isSome_iff_exists.1 (hyd (by decide))
  obtain ⟨x, hx, hregs⟩ := h.regs
  have hexec := doWaitAndContinue_eq hy hdbg hturn.found
  obtain ⟨m₁, he₁, hafter⟩ := hturn.wait
  obtain ⟨-, rfl⟩ := Prod.mk.inj (Option.some.inj (he.symm.trans he₁))
  obtain ⟨-, rfl⟩ := Prod.mk.inj (Option.some.inj (hexec.symm.trans he₁))
  constructor
  · exact .inr hafter
  · have hasleep := (withCtx_of_ne hturn.ne.symm fun z => { z with state := .waiting }).trans hx
    exact ⟨_, (withCtx_of_ne hturn.ne.symm _).trans (withCtx_self hasleep fun z => { z with state := .ready }), hregs⟩
  · unfold Placed
    rw [debugger_setRax, debugger_setState, debugger_setState]
    exact h.placed

/-- Calls that only look leave everything as it is. -/
theorem visit_looks {v : Visit} {ret : ℤ} (hv : ∀ k, v ≠ .call k) (he : v.exec fuel p m = some (ret, m')) : m' = m := by
  cases v with
  | call k => exact absurd rfl (hv k)
  | infoRegisters regs | backtrace btBuf | infoBreakpoints ubp =>
    obtain ⟨r, -, hr⟩ := Option.map_eq_some_iff.1 he
    exact (Prod.mk.inj hr).2.symm

theorem Act.Legal.fresh {s : Debugger} {v : Visit} (h : (Act.visit v).Legal entries s) : v.Fresh s := by
  cases v with
  | call k => exact Call.Legal.fresh h
  | infoRegisters regs | backtrace btBuf | infoBreakpoints ubp => trivial

/-- Every other call of the debugger comes back, and no context changes. -/
theorem Placed.visit {orig : Addr → UInt8} (h : Placed entries p m orig) (hf : maxBacktrace ≤ fuel)
    (hturn : AtTurn p c .debugger m) {v : Visit} (hl : (Act.visit v).Legal entries (m.debugger p)) :
    ∃ ret m', v.exec fuel p m = some (ret, m') ∧ m'.ctxs = m.ctxs := by
  obtain ⟨y, hy, -⟩ := hturn.parent
  obtain ⟨d, info, l, ht, -⟩ := h
  obtain ⟨ret, m', hexec, hv⟩ := visit_exec hf hy hturn.found ⟨info, l, ht⟩ (Act.Legal.fresh hl)
  exact ⟨ret, m', hexec, hv.ctxs⟩

/-- A call on the list keeps it tracked and shown, and its breakpoints at entries. -/
theorem Placed.call {orig : Addr → UInt8} (h : Placed entries p m orig)
    (hpush : ∀ a ∈ entries, orig a = pushrbpOpcode) (hf : maxBacktrace ≤ fuel) {y : ExecContext}
    (hy : m.ctxs p = some y) {k : Call} (hl : k.Legal (marks entries) (m.debugger p)) {ret : ℤ} {s' : Debugger}
    (hcall : k.exec fuel (m.debugger p) = some (ret, s')) : Placed entries p (m.setDebugger p s') orig := by
  obtain ⟨d, info, l, ht, hs, hin⟩ := h
  have hplaced : ∀ fresh addr, k = .set fresh addr → addr ∈ entries :=
    fun fresh addr hk => marks_iff.1 (hl.placed fresh addr hk)
  have hstep : ListStep fuel (m.debugger p) (k, ret) s' := ⟨hl.fresh, hcall⟩
  unfold Placed
  rw [debugger_setDebugger hy]
  rcases hstep.cases (le_trans (by decide) hf) ht with ⟨-, rfl⟩ | ⟨-, hdone⟩
  · exact ⟨d, info, l, ht, hs, hin⟩
  · obtain ⟨info', l', ht', he⟩ := hdone.tracks
    have hmem : (m.setDebugger p s').mem = Function.update m.mem k.addr k.opcode := hdone.code
    refine ⟨d, info', l', ht', ?_, he.within hin hplaced⟩
    rw [hmem]
    exact he.shows hs fun fresh addr hk => hpush addr (hplaced fresh addr hk)

/-- Whatever the debugger calls, its breakpoints stay at entries, and the program stays as it is behind them. -/
theorem Shadows.visit (h : Shadows cpu entries u p c n m) (hd : Debuggable cpu entries u) (hf : maxBacktrace ≤ fuel)
    (hturn : AtTurn p c .debugger m) {v : Visit} (hl : (Act.visit v).Legal entries (m.debugger p)) {ret : ℤ}
    (he : v.exec fuel p m = some (ret, m')) : Shadows cpu entries u p c n m' := by
  obtain ⟨ret', m₁, hexec, hctxs⟩ := h.placed.visit hf hturn hl
  obtain ⟨-, rfl⟩ := Prod.mk.inj (Option.some.inj (he.symm.trans hexec))
  refine ⟨.inl (hturn.of_ctxs hctxs), by rw [hctxs]; exact h.regs, ?_⟩
  by_cases hv : ∃ k, v = .call k
  · obtain ⟨k, rfl⟩ := hv
    obtain ⟨y, hy, -⟩ := hturn.parent
    obtain ⟨⟨ret₂, s'⟩, hcall, hset⟩ := Option.map_eq_some_iff.1 he
    obtain ⟨rfl, rfl⟩ := Prod.mk.inj hset
    exact h.placed.call (hd.pushes_at n) hf hy hl hcall
  · rw [visit_looks (fun k hk => hv ⟨k, hk⟩) he]
    exact h.placed

/-- One step: the program has moved on by the instructions that got done. -/
theorem Shadows.step (h : Shadows cpu entries u p c n m) (hd : Debuggable cpu entries u) (hf : maxBacktrace ≤ fuel)
    {e : Act × ℤ} (hs : LiveStep fuel cpu entries p c m e m') : Shadows cpu entries u p c (n + e.1.done) m' := by
  obtain ⟨⟨a, ret⟩, ⟨hacts, hlegal, hexec⟩⟩ := e, hs
  simp only at hacts hlegal hexec ⊢
  rcases h.turn with hturn | hturn
  · cases a with
    | instr => exact absurd hacts hturn.runnable_parent.2
    | wait => exact h.wait hturn hexec
    | visit v => exact h.visit hd hf hturn hlegal hexec
  · cases a with
    | instr => exact h.instr hd hturn hexec
    | wait | visit v => exact absurd hacts hturn.runnable_child.2

theorem Starts.shadows {m₀ : Machine} (h : Starts m₀ p c entries u) (cpu : User → User) :
    Shadows cpu entries u p c 0 (m₀.debuggerOnFork c) := by
  obtain ⟨y, hy, hregs⟩ := h.regs
  refine ⟨.inl h.forks.atTurn, ⟨_, withCtx_self hy _, hregs⟩, ?_⟩
  unfold Placed
  rw [debuggerOnFork, debugger_withCtx_of_ne h.forks.ne]
  exact h.placed

end Steps

/-! ## Runs -/

/-- A breakpoint on the list is enabled at this address. -/
def EnabledAt (l : List BreakpointInfo) (a : Addr) : Prop := ∃ b ∈ l, b.addr = a ∧ b.status = 1

instance (l : List BreakpointInfo) (a : Addr) : Decidable (EnabledAt l a) := by unfold EnabledAt; infer_instance

/-- The program stands at `v`, seen through the breakpoints `l`: its registers are the debuggee's, and memory shows the
trap instruction exactly at the enabled breakpoints. One of the two can go on, and only one. A debugger that can go on
gets every call done; a debuggee that can go on gets its next instruction done, and gives control to the debugger, with
the address, exactly if a breakpoint is enabled there. -/
structure Transparent (fuel : ℕ) (cpu : User → User) (entries : Finset Addr) (p c : Pid) (v : User) (m : Machine)
    (l : List BreakpointInfo) : Prop where
  regs : ∃ x, m.ctxs c = some x ∧ x.regs = v.1
  code : ∀ a, m.mem a = if EnabledAt l a then int3Opcode else v.2 a
  live : Runnable m p ∧ ¬ Runnable m c ∨ Runnable m c ∧ ¬ Runnable m p
  debugger : Runnable m p → ∀ a : Act, a ≠ .instr → a.Legal entries (m.debugger p) →
    ∃ ret m', a.exec fuel cpu p c m = some (ret, m')
  debuggee : Runnable m c → ∃ m', m.instr cpu c = some (0, m') ∧ (Runnable m' p ↔ EnabledAt l v.1.entryRip) ∧
    (EnabledAt l v.1.entryRip → ∃ x, m'.ctxs p = some x ∧ x.regs.rax = v.1.entryRip)

section Runs

variable {cpu : User → User} {entries : Finset Addr} {u : User} {m : Machine} {p c : Pid} {n fuel : ℕ}

theorem enabledAt_iff (ks : List (Ptr × BreakpointInfo)) (a : Addr) :
    EnabledAt (ks.map Prod.snd) a ↔ ∃ e ∈ (listed ks).map Prod.snd, e.addr = a ∧ e.status = 1 := by
  rw [listed_snd]
  constructor
  · rintro ⟨b, hb, hat⟩
    obtain ⟨x, hx, rfl⟩ := List.mem_map.1 hb
    exact ⟨x.2.entry, List.mem_map.2 ⟨x, hx, rfl⟩, hat⟩
  · rintro ⟨e, he, hat⟩
    obtain ⟨x, hx, rfl⟩ := List.mem_map.1 he
    exact ⟨x.2, List.mem_map.2 ⟨x, hx, rfl⟩, hat⟩

theorem Shadows.transparent (h : Shadows cpu entries u p c n m) (hd : Debuggable cpu entries u)
    (hf : maxBacktrace ≤ fuel) :
    ∃ info l, Listed (m.debugger p) info l ∧ Transparent fuel cpu entries p c (cpu^[n] u) m l := by
  obtain ⟨x, hx, hregs⟩ := h.regs
  obtain ⟨d, info, ks, ht, hs, -⟩ := h.placed
  have hcode : ∀ a, m.mem a = if EnabledAt (ks.map Prod.snd) a then int3Opcode else (cpu^[n] u).2 a := by
    intro a
    rw [hs.code_eq]
    exact if_congr (enabledAt_iff ks a).symm rfl rfl
  -- the program has no trap instruction of its own where it stands
  have htrap : m.mem x.regs.entryRip = int3Opcode ↔ EnabledAt (ks.map Prod.snd) (cpu^[n] u).1.entryRip := by
    rw [hregs, hcode]
    constructor
    · intro hbyte
      by_contra hno
      rw [if_neg hno] at hbyte
      exact hd.traps n hbyte
    · exact fun henabled => if_pos henabled
  refine ⟨info, ks.map Prod.snd, ⟨d, ks, ht.dbg, ht.infos, ht.chain, rfl⟩, ⟨x, hx, hregs⟩, hcode, ?_, ?_, ?_⟩
  · rcases h.turn with hturn | hturn
    · exact .inl hturn.runnable_parent
    · exact .inr hturn.runnable_child
  · intro hp a hne hl
    rcases h.turn with hturn | hturn
    · cases a with
      | instr => exact absurd rfl hne
      | wait =>
        obtain ⟨m', he, -⟩ := hturn.wait
        exact ⟨-1, m', he⟩
      | visit v =>
        obtain ⟨ret, m', he, -⟩ := h.placed.visit hf hturn hl
        exact ⟨ret, m', he⟩
    · exact absurd hp hturn.runnable_child.2
  · intro hc
    rcases h.turn with hturn | hturn
    · exact absurd hc hturn.runnable_parent.2
    · obtain ⟨m', he, hdone⟩ := hturn.instr cpu hx
      refine ⟨m', he, ?_, ?_⟩
      · rw [← htrap]
        constructor
        · intro hp
          by_contra hbyte
          exact (hdone.runs hbyte).runnable_child.2 hp
        · exact fun hbyte => (hdone.trap hbyte).1.runnable_parent.1
      · intro henabled
        rw [← hregs]
        exact (hdone.trap (htrap.2 henabled)).2

/-- Along every run of a debugger and its child the child computes what its program computes alone, one instruction for
each that it gets done, whatever breakpoints are set, removed, enabled and disabled in between, however often it runs
into them and whatever the debugger looks at; and no breakpoint that is enabled is missed. -/
theorem run_debugged (hd : Debuggable cpu entries u) (hf : maxBacktrace ≤ fuel) {m₀ : Machine}
    (h0 : Starts m₀ p c entries u) {es : List (Act × ℤ)}
    (h : Run (LiveStep fuel cpu entries p c) (m₀.debuggerOnFork c) es m) :
    ∃ info l, Listed (m.debugger p) info l ∧
      Transparent fuel cpu entries p c (cpu^[(es.map fun e => e.1.done).sum] u) m l := by
  have hshadows : Shadows cpu entries u p c (es.map fun e => e.1.done).sum m :=
    h.counted (h0.shadows cpu) fun n m e m' hm hs => hm.step hd hf hs
  exact hshadows.transparent hd hf

end Runs

/-! ## A program of one call -/

/-- The processor on a program that is entered at 64 and counts from then on. -/
def counting (v : User) : User :=
  if v.1.entryRip = 64 then pushRbp v.1 v.2 else ({ v.1 with rax := v.1.rax + 1 }, v.2)

def entered : User := ({ someRegs with entryRip := 64 }, Function.update (fun _ => 0) 64 pushrbpOpcode)

/-- Process 1 is a debugger without breakpoints that has forked process 2, which is about to enter the program. -/
def watched : Machine :=
  { pair.withCtx 2 fun x => { x with regs := { x.regs with entryRip := 64 } } with mem := entered.2 }

theorem counting_iterate (n : ℕ) :
    counting^[n] entered = entered ∨
      (counting^[n] entered).1.entryRip = 65 ∧ (counting^[n] entered).2 = store64 entered.2 4088 0 := by
  induction n with
  | zero => exact .inl rfl
  | succ n ih =>
    right
    rw [Function.iterate_succ_apply']
    rcases ih with h | ⟨hrip, hmem⟩
    · rw [h]
      exact ⟨rfl, rfl⟩
    · have hstep : ∀ v : User, v.1.entryRip = 65 → counting v = ({ v.1 with rax := v.1.rax + 1 }, v.2) := by
        intro v hv
        exact if_neg (by rw [hv]; decide)
      rw [hstep _ hrip]
      exact ⟨hrip, hmem⟩

theorem debuggable_counting : Debuggable counting {64} entered where
  pushes := by
    intro a ha
    rw [Finset.mem_singleton.1 ha]
    rfl
  push := fun v hv _ => if_pos (Finset.mem_singleton.1 hv)
  stack := by
    intro n hn a ha
    rw [Finset.mem_singleton.1 ha]
    rcases counting_iterate n with h | ⟨hrip, -⟩
    · rw [h]
      decide
    · rw [hrip, Finset.mem_singleton] at hn
      exact absurd hn (by decide)
  apart := by
    intro n mem hn hmem
    have hstep : ∀ mem', counting ((counting^[n] entered).1, mem') = _ := fun mem' =>
      if_neg fun hrip => hn (Finset.mem_singleton.2 hrip)
    have hplain := hstep (counting^[n] entered).2
    rw [hstep mem, show counting (counting^[n] entered) = _ from hplain]
    exact ⟨rfl, fun _ _ => rfl, hmem⟩
  traps := by
    intro n
    rcases counting_iterate n with h | ⟨hrip, hmem⟩
    · rw [h]
      decide
    · rw [hrip, hmem]
      decide

theorem starts_watched : Starts watched 1 2 {64} entered where
  forks := {
    ne := by decide
    parent := ⟨_, rfl, rfl, rfl⟩
    child := ⟨_, rfl, rfl⟩
    mem := by decide
    only := forks_pair.only.withCtx (fun _ => rfl) fun h => absurd rfl h }
  regs := ⟨_, rfl, rfl⟩
  placed := ⟨5, ⟨none, 0, 0⟩, [], ⟨rfl, rfl, .nil, rfl, Nat.zero_le _⟩, shows_nil _, by simp⟩

instance (entries : Finset Addr) (s : Debugger) : DecidablePred (Act.Legal entries s) := fun a => by
  rcases a with _ | _ | ⟨_ | _ | _ | _⟩ <;> unfold Act.Legal <;> infer_instance

/-- Carry out what one of the two does. -/
def liveNext (fuel : ℕ) (cpu : User → User) (p c : Pid) (m : Machine) (a : Act) : (Act × ℤ) × Machine :=
  match a.exec fuel cpu p c m with
  | some (ret, m') => ((a, ret), m')
  | none => ((a, 0), m)

/-- An act that makes a step. -/
def Goes (fuel : ℕ) (cpu : User → User) (entries : Finset Addr) (p c : Pid) (m : Machine) (a : Act) : Prop :=
  Runnable m (a.actor p c) ∧ a.Legal entries (m.debugger p) ∧ (a.exec fuel cpu p c m).isSome = true

instance (fuel : ℕ) (cpu : User → User) (entries : Finset Addr) (p c : Pid) (m : Machine) (a : Act) :
    Decidable (Goes fuel cpu entries p c m a) := by unfold Goes; infer_instance

theorem liveStep_next {fuel : ℕ} {cpu : User → User} {entries : Finset Addr} {p c : Pid} {m : Machine} {a : Act}
    (h : Goes fuel cpu entries p c m a) :
    LiveStep fuel cpu entries p c m (liveNext fuel cpu p c m a).1 (liveNext fuel cpu p c m a).2 := by
  obtain ⟨hacts, hlegal, hexec⟩ := h
  obtain ⟨⟨ret, m'⟩, he⟩ := Option.isSome_iff_exists.1 hexec
  have hnext : liveNext fuel cpu p c m a = ((a, ret), m') := by
    unfold liveNext; rw [he]
  rw [hnext]
  exact ⟨hacts, hlegal, he⟩

/-- A breakpoint is set at the entry; the child runs into it, the debugger looks and removes it, and the child
counts. -/
theorem run_debugged_of_counting :
    let r := script (liveNext 64 counting 1 2) (watched.debuggerOnFork 2)
      [.visit (.call (.set (some 6) 64)), .wait, .instr, .visit (.infoRegisters someRegs),
        .visit (.call (.remove 64)), .wait, .instr]
    ∃ info l, Listed (r.2.debugger 1) info l ∧
      Transparent 64 counting {64} 1 2 (counting^[(r.1.map fun e => e.1.done).sum] entered) r.2 l := by
  intro r
  have h : Run (LiveStep 64 counting {64} 1 2) (watched.debuggerOnFork 2) r.1 r.2 :=
    Run.script (liveNext 64 counting 1 2) (Goes 64 counting {64} 1 2) (fun _ _ => liveStep_next) (by decide)
  exact run_debugged debuggable_counting (by decide) starts_watched h

end CS330.Debug
