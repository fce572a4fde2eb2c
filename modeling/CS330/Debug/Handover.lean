/-
Handing control over: of a debugger and its one debuggee exactly one can run. Whose turn it is
follows an automaton of four turns; the handlers of the two processes take its steps as long as the
debugger does not exit before the debuggee does.
-/
import CS330.Debug.Contexts
import CS330.Lib.Run

namespace CS330.Debug

open CS330.Lib Machine

/-! ## Turns -/

/-- Whose turn it is; with the debuggee gone the debugger is on its own. -/
inductive Turn where
  | debugger | debuggee | single | ended
deriving DecidableEq

def Turn.parent : Turn → ProcState
  | debugger | single => .ready
  | debuggee => .waiting
  | ended => .unused

def Turn.child : Turn → ProcState
  | debugger => .waiting
  | debuggee => .ready
  | single | ended => .unused

/-- What one of the two processes does. -/
inductive HandCall where
  | wait | hit | childExit | parentExit
deriving DecidableEq

inductive TurnStep : Turn → HandCall → Turn → Prop
  | wait : TurnStep .debugger .wait .debuggee
  | hit : TurnStep .debuggee .hit .debugger
  | childExit : TurnStep .debuggee .childExit .single
  | refused : TurnStep .single .wait .single
  | parentExit : TurnStep .single .parentExit .ended

namespace HandCall

/-- The process that acts: the debugger `p` or its child `c`. -/
def actor (p c : Pid) : HandCall → Pid
  | wait | parentExit => p
  | hit | childExit => c

/-- An exit is `debugger_on_exit`, then the context is given up. -/
def exec (fuel : ℕ) (p c : Pid) (m : Machine) : HandCall → Option (ℤ × Machine)
  | wait => m.doWaitAndContinue p
  | hit => m.int3Handler c
  | childExit => (m.debuggerOnExit fuel c).map fun m => (0, m.setState c .unused)
  | parentExit => (m.debuggerOnExit fuel p).map fun m => (0, m.setState p .unused)

end HandCall

/-- A process that is in use and not asleep. -/
def Runnable (m : Machine) (q : Pid) : Prop := ∃ x ∈ m.ctxs q, x.state ≠ .waiting ∧ x.state ≠ .unused

/-- A process acts, and what it does returns. -/
structure HandStep (fuel : ℕ) (p c : Pid) (m : Machine) (e : HandCall × ℤ) (m' : Machine) : Prop where
  acts : Runnable m (e.1.actor p c)
  exec : e.1.exec fuel p c m = some (e.2, m')

/-- The debugger does not exit before its child. -/
def Patient (c : Pid) (m : Machine) : HandCall → Prop
  | .parentExit => ∀ y ∈ m.ctxs c, y.state = .unused
  | _ => True

structure PatientStep (fuel : ℕ) (p c : Pid) (m : Machine) (e : HandCall × ℤ) (m' : Machine) : Prop
    extends HandStep fuel p c m e m' where
  patient : Patient c m e.1

/-! ## Contexts -/

section Contexts

variable {m : Machine} {p q c : Pid} {x : ExecContext}

theorem ctxs_withCtx (m : Machine) (p q : Pid) (f : ExecContext → ExecContext) :
    (m.withCtx p f).ctxs q = if q = p then (m.ctxs p).map f else m.ctxs q := by
  simp only [withCtx, Function.update_apply]

theorem withCtx_self (h : m.ctxs p = some x) (f : ExecContext → ExecContext) : (m.withCtx p f).ctxs p = some (f x) := by
  rw [ctxs_withCtx, if_pos rfl, h, Option.map_some]

theorem withCtx_of_ne (h : q ≠ p) (f : ExecContext → ExecContext) : (m.withCtx p f).ctxs q = m.ctxs q := by
  rw [ctxs_withCtx, if_neg h]

/-- The machine `int3_handler` leaves when a child with these registers hits a breakpoint. -/
def Machine.trapped (m : Machine) (c p : Pid) (d : Ptr) (regs : UserRegs) : Machine :=
  let rsp := regs.entryRsp - 8
  let m : Machine := { m with mem := store64 m.mem rsp regs.rbp }
  let m := m.withCtx c fun x => { x with regs := { x.regs with entryRsp := rsp }, state := .waiting }
  let m := m.setState p .ready
  let m := { m with
    backtraces := Function.update m.backtraces d (storeBacktrace m.mem regs.entryRip rsp (m.backtraces d)) }
  m.setRax p (regs.entryRip - 1)

theorem int3Handler_eq {y : ExecContext} {d : Ptr} (hc : m.ctxs c = some x) (hp : m.ctxs x.ppid = some y)
    (hd : y.dbg = some d) : m.int3Handler c = some (0, m.trapped c x.ppid d x.regs) := by
  simp only [int3Handler, hc, Option.bind_eq_bind, Option.bind_some, hp, hd]
  rfl

theorem trapped_child (hne : p ≠ c) (hc : m.ctxs c = some x) (d : Ptr) (regs : UserRegs) :
    (m.trapped c p d regs).ctxs c =
      some { x with regs := { x.regs with entryRsp := regs.entryRsp - 8 }, state := .waiting } := by
  have hstored : ({ m with mem := store64 m.mem (regs.entryRsp - 8) regs.rbp } : Machine).ctxs c = some x := hc
  exact (withCtx_of_ne hne.symm _).trans ((withCtx_of_ne hne.symm _).trans (withCtx_self hstored _))

theorem trapped_parent {y : ExecContext} (hne : p ≠ c) (hp : m.ctxs p = some y) (d : Ptr) (regs : UserRegs) :
    (m.trapped c p d regs).ctxs p =
      some { y with state := .ready, regs := { y.regs with rax := regs.entryRip - 1 } } := by
  have hstored : ({ m with mem := store64 m.mem (regs.entryRsp - 8) regs.rbp } : Machine).ctxs p = some y := hp
  exact withCtx_self (withCtx_self ((withCtx_of_ne hne _).trans hstored) _) _

theorem trapped_of_ne (hc : q ≠ c) (hp : q ≠ p) (d : Ptr) (regs : UserRegs) :
    (m.trapped c p d regs).ctxs q = m.ctxs q :=
  (withCtx_of_ne hp _).trans ((withCtx_of_ne hp _).trans (withCtx_of_ne hc _))

/-- The search for a child passes over the contexts that are none and stops at the first that is. -/
theorem findChild_some {qs : List Pid} (hc : c ∈ qs)
    (hall : ∀ q ∈ qs, ∃ z, m.ctxs q = some z ∧ (q ≠ c → z.state ≠ .unused → z.ppid ≠ p))
    (h : m.ctxs c = some x) (hs : x.state ≠ .unused) (hp : x.ppid = p) : m.findChild p qs = some (some c) := by
  induction qs with
  | nil => cases hc
  | cons q qs ih =>
    obtain ⟨z, hz, hne⟩ := hall q (List.mem_cons_self ..)
    simp only [findChild, hz, Option.bind_eq_bind, Option.bind_some]
    by_cases hq : q = c
    · subst hq
      obtain rfl := Option.some.inj (hz.symm.trans h)
      rw [if_pos ⟨hs, hp⟩]
    · rw [if_neg fun hh => hne hq hh.1 hh.2]
      refine ih ?_ fun q' hq' => hall q' (List.mem_cons_of_mem _ hq')
      rcases List.mem_cons.1 hc with rfl | hc
      · exact absurd rfl hq
      · exact hc

theorem findChild_none {qs : List Pid}
    (hall : ∀ q ∈ qs, ∃ z, m.ctxs q = some z ∧ (z.state ≠ .unused → z.ppid ≠ p)) :
    m.findChild p qs = some none := by
  induction qs with
  | nil => rfl
  | cons q qs ih =>
    obtain ⟨z, hz, hne⟩ := hall q (List.mem_cons_self ..)
    simp only [findChild, hz, Option.bind_eq_bind, Option.bind_some]
    rw [if_neg fun hh => hne hh.1 hh.2]
    exact ih fun q' hq' => hall q' (List.mem_cons_of_mem _ hq')

/-- A process that is no debugger has nothing to free. -/
theorem setDebugger_self (h : m.ctxs p = some x) : m.setDebugger p (m.debugger p) = m := by
  have hd : (m.debugger p).dbg = x.dbg := by simp only [debugger, h, Option.bind_some]
  have hx : Function.update m.ctxs p ((m.ctxs p).map fun x => { x with dbg := (m.debugger p).dbg }) = m.ctxs := by
    rw [hd, h]
    exact (Function.update_eq_self_iff ..).2 h.symm
  unfold setDebugger withCtx
  rw [hx]
  rfl

end Contexts

/-! ## The turn of a machine -/

/-- No other context in use names `p` as its parent. -/
def SoleChild (p c : Pid) (m : Machine) : Prop :=
  ∀ q ∈ pids, ∃ z, m.ctxs q = some z ∧ (q ≠ c → z.state ≠ .unused → z.ppid ≠ p)

/-- The start: a debugger that is ready, and the context it has just made for its only child. -/
structure Forks (m : Machine) (p c : Pid) : Prop where
  ne : p ≠ c
  parent : ∃ x, m.ctxs p = some x ∧ x.state = .ready ∧ x.dbg.isSome = true
  child : ∃ y, m.ctxs c = some y ∧ y.ppid = p
  mem : c ∈ pids
  only : SoleChild p c m

/-- It is turn `t`. -/
structure AtTurn (p c : Pid) (t : Turn) (m : Machine) : Prop where
  ne : p ≠ c
  mem : c ∈ pids
  parent : ∃ x, m.ctxs p = some x ∧ x.state = t.parent ∧ (t ≠ .ended → x.dbg.isSome = true)
  child : ∃ y, m.ctxs c = some y ∧ y.state = t.child ∧ y.ppid = p ∧ y.dbg = none
  only : t ≠ .ended → SoleChild p c m

/-- Exactly one of the two can run while the child lives: if it is asleep its debugger is ready and
still one, and if it is not, its debugger is asleep or gone. -/
structure Controlled (p c : Pid) (m : Machine) : Prop where
  asleep : ∀ y ∈ m.ctxs c, y.state = .waiting → ∃ x ∈ m.ctxs p, x.state = .ready ∧ x.dbg.isSome = true
  awake : ∀ y ∈ m.ctxs c, y.state ≠ .unused → y.state ≠ .waiting →
    ∃ x ∈ m.ctxs p, x.state = .waiting ∨ x.state = .unused

/-- The return value a handler stores for the debugger. -/
def Replies (p c : Pid) (m : Machine) (call : HandCall) (m' : Machine) : Prop :=
  match call with
  | .hit => ∀ y ∈ m.ctxs c, ∀ x ∈ m'.ctxs p, x.dbg.isSome = true → x.regs.rax = y.regs.entryRip - 1
  | .childExit => ∀ x ∈ m'.ctxs p, x.dbg.isSome = true → x.regs.rax = childExit
  | _ => True

section Turns

variable {p c : Pid} {t : Turn} {m m' : Machine}

theorem Forks.atTurn (h : Forks m p c) : AtTurn p c .debugger (m.debuggerOnFork c) where
  ne := h.ne
  mem := h.mem
  parent := by
    obtain ⟨x, hx, hs, hd⟩ := h.parent
    exact ⟨x, (withCtx_of_ne h.ne _).trans hx, hs, fun _ => hd⟩
  child := by
    obtain ⟨y, hy, hp⟩ := h.child
    exact ⟨_, withCtx_self hy _, rfl, hp, rfl⟩
  only := by
    intro _ q hq
    obtain ⟨z, hz, hne⟩ := h.only q hq
    by_cases hqc : q = c
    · subst hqc
      exact ⟨_, withCtx_self hz _, fun hqq => absurd rfl hqq⟩
    · exact ⟨z, (withCtx_of_ne hqc _).trans hz, hne⟩

theorem AtTurn.controlled (h : AtTurn p c t m) : Controlled p c m := by
  obtain ⟨x, hx, hxs, hxd⟩ := h.parent
  obtain ⟨y, hy, hys, -⟩ := h.child
  constructor
  · intro y' hy' hw
    obtain rfl := Option.some.inj (hy.symm.trans hy')
    rw [hys] at hw
    cases t with
    | debugger => exact ⟨x, hx, hxs, hxd (by decide)⟩
    | debuggee => cases hw
    | single => cases hw
    | ended => cases hw
  · intro y' hy' hu hw
    obtain rfl := Option.some.inj (hy.symm.trans hy')
    rw [hys] at hu hw
    cases t with
    | debugger => exact absurd rfl hw
    | debuggee => exact ⟨x, hx, .inl hxs⟩
    | single => exact absurd rfl hu
    | ended => exact absurd rfl hu

theorem SoleChild.withCtx (h : SoleChild p c m) {r : Pid} {f : ExecContext → ExecContext}
    (hp : ∀ x, (f x).ppid = x.ppid) (hs : r ≠ c → ∀ x ∈ m.ctxs r, (f x).state ≠ .unused → x.state ≠ .unused) :
    SoleChild p c (m.withCtx r f) := by
  intro q hq
  obtain ⟨z, hz, hne⟩ := h q hq
  by_cases hqr : q = r
  · subst hqr
    refine ⟨f z, withCtx_self hz f, ?_⟩
    intro hqc hu
    rw [hp]
    exact hne hqc (hs hqc z hz hu)
  · exact ⟨z, (withCtx_of_ne hqr f).trans hz, hne⟩

theorem SoleChild.setRax (h : SoleChild p c m) (r : Pid) (v : UInt64) : SoleChild p c (m.setRax r v) :=
  h.withCtx (fun _ => rfl) fun _ _ _ hu => hu

theorem SoleChild.setChild (h : SoleChild p c m) (state : ProcState) : SoleChild p c (m.setState c state) :=
  h.withCtx (fun _ => rfl) fun hcc => absurd rfl hcc

/-- A process in use may change its state. -/
theorem SoleChild.setState (h : SoleChild p c m) {r : Pid} {x : ExecContext} (hx : m.ctxs r = some x)
    (hu : x.state ≠ .unused) (state : ProcState) : SoleChild p c (m.setState r state) := by
  refine h.withCtx (fun _ => rfl) ?_
  intro _ x' hx' _
  obtain rfl := Option.some.inj (hx.symm.trans hx')
  exact hu

/-- The debugger lets its child run. -/
theorem AtTurn.wait (h : AtTurn p c .debugger m) :
    ∃ m', m.doWaitAndContinue p = some (-1, m') ∧ AtTurn p c .debuggee m' := by
  obtain ⟨x, hx, hxs, hxd⟩ := h.parent
  obtain ⟨y, hy, hys, hyp, hyd⟩ := h.child
  have hd := hxd (by decide)
  obtain ⟨d, hdbg⟩ := Option.isSome_iff_exists.1 hd
  have hu : y.state ≠ .unused := by rw [hys]; decide
  have hfind := findChild_some h.mem (h.only (by decide)) hy hu hyp
  refine ⟨((m.setState p .waiting).setState c .ready).setRax p (-1), ?_, h.ne, h.mem, ?_, ?_, ?_⟩
  · simp only [doWaitAndContinue, hx, hdbg, hfind, Option.bind_eq_bind, Option.bind_some]
  · refine ⟨_, withCtx_self ((withCtx_of_ne h.ne _).trans (withCtx_self hx _)) _, rfl, fun _ => hd⟩
  · refine ⟨_, (withCtx_of_ne h.ne.symm _).trans (withCtx_self ((withCtx_of_ne h.ne.symm _).trans hy) _), rfl, hyp, hyd⟩
  · intro _
    exact (((h.only (by decide)).setState hx (by rw [hxs]; decide) _).setChild _).setRax _ _

/-- Without its child the debugger is refused. -/
theorem AtTurn.refused (h : AtTurn p c .single m) : m.doWaitAndContinue p = some (-1, m) := by
  obtain ⟨x, hx, -, hxd⟩ := h.parent
  obtain ⟨y, hy, hys, -⟩ := h.child
  obtain ⟨d, hdbg⟩ := Option.isSome_iff_exists.1 (hxd (by decide))
  have hfind : m.findChild p pids = some none := by
    refine findChild_none fun q hq => ?_
    obtain ⟨z, hz, hne⟩ := h.only (by decide) q hq
    refine ⟨z, hz, fun hu => hne ?_ hu⟩
    rintro rfl
    obtain rfl := Option.some.inj (hy.symm.trans hz)
    exact hu hys
  simp only [doWaitAndContinue, hx, hdbg, hfind, Option.bind_eq_bind, Option.bind_some]

/-- The child runs into a breakpoint. -/
theorem AtTurn.hit (h : AtTurn p c .debuggee m) :
    ∃ m', m.int3Handler c = some (0, m') ∧ AtTurn p c .debugger m' ∧ Replies p c m .hit m' := by
  obtain ⟨x, hx, hxs, hxd⟩ := h.parent
  obtain ⟨y, hy, hys, hyp, hyd⟩ := h.child
  have hd := hxd (by decide)
  obtain ⟨d, hdbg⟩ := Option.isSome_iff_exists.1 hd
  have hexec : m.int3Handler c = some (0, m.trapped c p d y.regs) := hyp ▸ int3Handler_eq hy (hyp ▸ hx) hdbg
  have hparent := trapped_parent h.ne hx d y.regs
  have hchild := trapped_child h.ne hy d y.regs
  refine ⟨_, hexec, ⟨h.ne, h.mem, ⟨_, hparent, rfl, fun _ => hd⟩, ⟨_, hchild, rfl, hyp, hyd⟩, ?_⟩, ?_⟩
  · intro _ q hq
    obtain ⟨z, hz, hzc⟩ := h.only (by decide) q hq
    by_cases hqc : q = c
    · subst hqc
      exact ⟨_, hchild, fun hne => absurd rfl hne⟩
    · by_cases hqp : q = p
      · subst hqp
        obtain rfl := Option.some.inj (hx.symm.trans hz)
        exact ⟨_, hparent, fun _ _ => hzc hqc (by rw [hxs]; decide)⟩
      · exact ⟨z, (trapped_of_ne hqc hqp d y.regs).trans hz, hzc⟩
  · intro y' hy' x' hx' _
    obtain rfl := Option.some.inj (hy.symm.trans hy')
    obtain rfl := Option.some.inj (hparent.symm.trans hx')
    rfl

/-- The child exits. -/
theorem AtTurn.childExit (h : AtTurn p c .debuggee m) (fuel : ℕ) :
    ∃ m', HandCall.exec fuel p c m .childExit = some (0, m') ∧ AtTurn p c .single m' ∧
      Replies p c m .childExit m' := by
  obtain ⟨x, hx, hxs, hxd⟩ := h.parent
  obtain ⟨y, hy, hys, hyp, hyd⟩ := h.child
  have hd := hxd (by decide)
  obtain ⟨d, hdbg⟩ := Option.isSome_iff_exists.1 hd
  have hfree : (m.debugger c).debuggerOnExit fuel = some (m.debugger c) := by
    have : (m.debugger c).dbg = none := by simp only [debugger, hy, Option.bind_some, hyd]
    simp only [Debugger.debuggerOnExit, this]
  have hexec : HandCall.exec fuel p c m .childExit =
      some (0, ((m.setState p .ready).setRax p CS330.Debug.childExit).setState c .unused) := by
    simp only [HandCall.exec, debuggerOnExit, hy, hfree, Option.bind_eq_bind, Option.bind_some, Option.map_some,
      setDebugger_self hy, hyp, hx, hdbg]
  have h₁p : (m.setState p .ready).ctxs p = some { x with state := .ready } := withCtx_self hx _
  have h₂p := (withCtx_of_ne h.ne fun z : ExecContext => { z with state := .unused }).trans
    (withCtx_self h₁p fun z => { z with regs := { z.regs with rax := CS330.Debug.childExit } })
  refine ⟨_, hexec, ⟨h.ne, h.mem, ?_, ?_, ?_⟩, ?_⟩
  · exact ⟨_, h₂p, rfl, fun _ => hd⟩
  · refine ⟨_, withCtx_self ((withCtx_of_ne h.ne.symm _).trans ((withCtx_of_ne h.ne.symm _).trans hy)) _, rfl, hyp, hyd⟩
  · intro _
    exact (((h.only (by decide)).setState hx (by rw [hxs]; decide) _).setRax _ _).setChild _
  · intro x' hx' _
    obtain rfl := Option.some.inj (h₂p.symm.trans hx')
    rfl

/-- An exit leaves the contexts alone, apart from its own and a parent that is a debugger. -/
theorem ctxs_of_exit {fuel : ℕ} {x : ExecContext} (hx : m.ctxs p = some x) (h : m.debuggerOnExit fuel p = some m') :
    (∃ x', m'.ctxs p = some x') ∧
      ∀ q, q ≠ p → (m.ctxs q).bind ExecContext.dbg = none → m'.ctxs q = m.ctxs q := by
  simp only [debuggerOnExit, hx, Option.bind_eq_bind, Option.bind_some] at h
  obtain ⟨m₁, hm₁, h⟩ := Option.bind_eq_some_iff.1 h
  obtain ⟨s, -, rfl⟩ := Option.map_eq_some_iff.1 hm₁
  have hp : (m.setDebugger p s).ctxs p = some { x with dbg := s.dbg } := withCtx_self hx _
  have hq : ∀ q, q ≠ p → (m.setDebugger p s).ctxs q = m.ctxs q := fun q hne => withCtx_of_ne hne _
  split at h
  · obtain rfl := Option.some.inj h
    exact ⟨⟨_, hp⟩, fun q hne _ => hq q hne⟩
  · rename_i d hd
    obtain rfl := Option.some.inj h
    constructor
    · by_cases hpp : p = x.ppid
      · rw [← hpp]
        exact ⟨_, withCtx_self (withCtx_self hp _) _⟩
      · exact ⟨_, (withCtx_of_ne hpp _).trans ((withCtx_of_ne hpp _).trans hp)⟩
    · intro q hne hnd
      have hqp : q ≠ x.ppid := by
        rintro rfl
        rw [hq _ hne, hnd] at hd
        cases hd
      exact (withCtx_of_ne hqp _).trans ((withCtx_of_ne hqp _).trans (hq q hne))

/-- The debugger exits after its child. -/
theorem AtTurn.parentExit (h : AtTurn p c .single m) {fuel : ℕ} {ret : ℤ}
    (he : HandCall.exec fuel p c m .parentExit = some (ret, m')) : AtTurn p c .ended m' := by
  obtain ⟨x, hx, -⟩ := h.parent
  obtain ⟨y, hy, hys, hyp, hyd⟩ := h.child
  obtain ⟨m₁, hm₁, hr⟩ := Option.map_eq_some_iff.1 he
  obtain ⟨rfl, rfl⟩ := Prod.mk.inj hr
  obtain ⟨⟨x', hx'⟩, hother⟩ := ctxs_of_exit hx hm₁
  have hc : m₁.ctxs c = some y := by
    rw [hother c h.ne.symm (by rw [hy]; exact hyd), hy]
  constructor
  · exact h.ne
  · exact h.mem
  · exact ⟨_, withCtx_self hx' _, rfl, fun hne => absurd rfl hne⟩
  · exact ⟨y, (withCtx_of_ne h.ne.symm _).trans hc, hys, hyp, hyd⟩
  · exact fun hne => absurd rfl hne

/-- Who can act when it is turn `t`. -/
theorem AtTurn.acts (h : AtTurn p c t m) {call : HandCall} (ha : Runnable m (call.actor p c)) :
    (call = .wait ∨ call = .parentExit) ∧ (t = .debugger ∨ t = .single) ∨
      (call = .hit ∨ call = .childExit) ∧ t = .debuggee := by
  obtain ⟨x, hx, hxs, -⟩ := h.parent
  obtain ⟨y, hy, hys, -⟩ := h.child
  obtain ⟨z, hz, hw, hu⟩ := ha
  cases call with
  | wait | parentExit =>
    left
    refine ⟨by simp, ?_⟩
    obtain rfl := Option.some.inj (hx.symm.trans hz)
    rw [hxs] at hw hu
    cases t with
    | debugger => exact .inl rfl
    | single => exact .inr rfl
    | debuggee => exact absurd rfl hw
    | ended => exact absurd rfl hu
  | hit | childExit =>
    right
    refine ⟨by simp, ?_⟩
    obtain rfl := Option.some.inj (hy.symm.trans hz)
    rw [hys] at hw hu
    cases t with
    | debugger => exact absurd rfl hw
    | single => exact absurd rfl hu
    | debuggee => rfl
    | ended => exact absurd rfl hu

/-- Every step of a patient debugger and its child is a step of the turns, and its reply is stored. -/
theorem AtTurn.step (h : AtTurn p c t m) {fuel : ℕ} {e : HandCall × ℤ} (hs : PatientStep fuel p c m e m') :
    ∃ t', TurnStep t e.1 t' ∧ AtTurn p c t' m' ∧ Replies p c m e.1 m' := by
  obtain ⟨⟨call, ret⟩, ⟨⟨hacts, hexec⟩, hpatient⟩⟩ := e, hs
  simp only at hacts hexec hpatient ⊢
  rcases h.acts hacts with ⟨rfl | rfl, rfl | rfl⟩ | ⟨rfl | rfl, rfl⟩
  · obtain ⟨m₁, he, h'⟩ := h.wait
    obtain ⟨-, rfl⟩ := Prod.mk.inj (Option.some.inj (he.symm.trans hexec))
    exact ⟨_, .wait, h', trivial⟩
  · obtain ⟨-, rfl⟩ := Prod.mk.inj (Option.some.inj (h.refused.symm.trans hexec))
    exact ⟨_, .refused, h, trivial⟩
  · -- the child is asleep
    obtain ⟨y, hy, hys, -⟩ := h.child
    have hu : y.state = .unused := hpatient y hy
    rw [hys] at hu
    cases hu
  · exact ⟨_, .parentExit, h.parentExit hexec, trivial⟩
  · obtain ⟨m₁, he, h', hr⟩ := h.hit
    obtain ⟨-, rfl⟩ := Prod.mk.inj (Option.some.inj (he.symm.trans hexec))
    exact ⟨_, .hit, h', hr⟩
  · obtain ⟨m₁, he, h', hr⟩ := h.childExit fuel
    obtain ⟨-, rfl⟩ := Prod.mk.inj (Option.some.inj (he.symm.trans hexec))
    exact ⟨_, .childExit, h', hr⟩

end Turns

/-! ## Runs -/

/-- The machine follows the turns. -/
theorem run_turns {fuel : ℕ} {p c : Pid} {m₀ m : Machine} (h0 : Forks m₀ p c) {es : List (HandCall × ℤ)}
    (h : Run (PatientStep fuel p c) (m₀.debuggerOnFork c) es m) :
    ∃ t, Run TurnStep .debugger (es.map Prod.fst) t ∧ AtTurn p c t m := by
  refine h.inv (P := fun es m => ∃ t, Run TurnStep .debugger (es.map Prod.fst) t ∧ AtTurn p c t m)
    ⟨.debugger, .start, h0.atTurn⟩ ?_
  rintro es m e m' - ⟨t, hr, ht⟩ hs
  obtain ⟨t', hstep, ht', -⟩ := ht.step hs
  refine ⟨t', ?_, ht'⟩
  rw [List.map_append]
  exact hr.snoc hstep

/-- A debugger that exits while its child lives leaves it asleep. -/
theorem patient_of_controlled {fuel : ℕ} {p c : Pid} {t : Turn} {m m' : Machine} (h : AtTurn p c t m)
    {e : HandCall × ℤ} (hs : HandStep fuel p c m e m') (hc : Controlled p c m') : Patient c m e.1 := by
  obtain ⟨⟨call, ret⟩, ⟨hacts, hexec⟩⟩ := e, hs
  simp only at hacts hexec ⊢
  rcases h.acts hacts with ⟨rfl | rfl, rfl | rfl⟩ | ⟨rfl | rfl, rfl⟩ <;> try trivial
  · exfalso
    obtain ⟨x, hx, -⟩ := h.parent
    obtain ⟨y, hy, hys, -, hyd⟩ := h.child
    obtain ⟨m₁, hm₁, hr⟩ := Option.map_eq_some_iff.1 hexec
    obtain ⟨-, rfl⟩ := Prod.mk.inj hr
    obtain ⟨⟨x', hx'⟩, hother⟩ := ctxs_of_exit hx hm₁
    have hyc : (m₁.setState p .unused).ctxs c = some y := by
      refine (withCtx_of_ne h.ne.symm _).trans ?_
      rw [hother c h.ne.symm (by rw [hy]; exact hyd), hy]
    obtain ⟨z, hz, hready, -⟩ := hc.asleep y hyc hys
    obtain rfl := Option.some.inj ((withCtx_self hx' _).symm.trans hz)
    cases hready
  · obtain ⟨y, hy, hys, -⟩ := h.child
    intro y' hy'
    obtain rfl := Option.some.inj (hy.symm.trans hy')
    exact hys

/-- The handover between a debugger and its only child, in every run in which the debugger does not
exit before the child. In every state reached exactly one of the two can run while the child lives; a
child that is asleep is woken by its debugger's `do_wait_and_continue`; each reply is stored where the
debugger finds it; and the next step keeps control exactly if it is patient. -/
theorem run_handover {fuel : ℕ} {p c : Pid} {m₀ m : Machine} (h0 : Forks m₀ p c) {es : List (HandCall × ℤ)}
    (h : Run (PatientStep fuel p c) (m₀.debuggerOnFork c) es m) :
    Controlled p c m ∧
    (∀ y ∈ m.ctxs c, y.state = .waiting → Runnable m p ∧
      ∃ m', m.doWaitAndContinue p = some (-1, m') ∧ ∃ y' ∈ m'.ctxs c, y'.state = .ready) ∧
    (∀ e m', PatientStep fuel p c m e m' → Replies p c m e.1 m') ∧
    ∀ e m', HandStep fuel p c m e m' → (Controlled p c m' ↔ Patient c m e.1) := by
  obtain ⟨t, -, ht⟩ := run_turns h0 h
  refine ⟨ht.controlled, ?_, ?_, ?_⟩
  · intro y hy hw
    obtain ⟨x, hx, hxs, hxd⟩ := ht.parent
    obtain ⟨y', hy', hys, -⟩ := ht.child
    obtain rfl := Option.some.inj (hy.symm.trans hy')
    rw [hys] at hw
    -- the child sleeps only while it is the debugger's turn
    cases t with
    | debugger =>
      obtain ⟨m', he, h'⟩ := ht.wait
      obtain ⟨y'', hy'', hys', -⟩ := h'.child
      refine ⟨⟨x, hx, ?_, ?_⟩, m', he, y'', hy'', hys'⟩
      · rw [hxs]; decide
      · rw [hxs]; decide
    | debuggee => cases hw
    | single => cases hw
    | ended => cases hw
  · intro e m' hs
    obtain ⟨t', -, -, hr⟩ := ht.step hs
    exact hr
  · intro e m' hs
    constructor
    · exact patient_of_controlled ht hs
    · intro hp
      obtain ⟨t', -, ht', -⟩ := ht.step ⟨hs, hp⟩
      exact ht'.controlled

/-! ## Two processes -/

instance (m : Machine) (q : Pid) : Decidable (Runnable m q) := by unfold Runnable; infer_instance

instance (c : Pid) (m : Machine) : DecidablePred (Patient c m) := fun call => by
  cases call <;> unfold Patient <;> infer_instance

/-- Carry out what a process does. -/
def handNext (fuel : ℕ) (p c : Pid) (m : Machine) (call : HandCall) : (HandCall × ℤ) × Machine :=
  match call.exec fuel p c m with
  | some (ret, m') => ((call, ret), m')
  | none => ((call, 0), m)

theorem handStep_next {fuel : ℕ} {p c : Pid} {m : Machine} {call : HandCall} (ha : Runnable m (call.actor p c))
    (he : (call.exec fuel p c m).isSome = true) :
    HandStep fuel p c m (handNext fuel p c m call).1 (handNext fuel p c m call).2 := by
  obtain ⟨⟨ret, m'⟩, hexec⟩ := Option.isSome_iff_exists.1 he
  have hnext : handNext fuel p c m call = ((call, ret), m') := by
    unfold handNext; rw [hexec]
  rw [hnext]
  exact ⟨ha, hexec⟩

theorem handNext_call (fuel : ℕ) (p c : Pid) (m : Machine) (call : HandCall) :
    (handNext fuel p c m call).1.1 = call := by
  unfold handNext
  split <;> rfl

/-- Registers with all bits clear but the stack and instruction pointers. -/
def someRegs : UserRegs := ⟨0, 0, 0, 0, 0, 0, 0, 0, 0, 0, 0, 0, 0, 0, 0, 65, 0, 0, 4096, 0⟩

/-- Process 1 is a debugger without breakpoints that forks process 2. -/
def pair : Machine where
  ctxs q :=
    if q = 1 then some ⟨0, .ready, someRegs, some 5⟩
    else if q = 2 then some ⟨1, .new, someRegs, some 5⟩
    else some ⟨0, .unused, someRegs, none⟩
  infos := Function.update (fun _ => none) 5 (some ⟨none, 0, 0⟩)
  nodes _ := none
  backtraces _ _ := 0
  mem _ := 0

theorem forks_pair : Forks pair 1 2 where
  ne := by decide
  parent := ⟨_, rfl, rfl, rfl⟩
  child := ⟨_, rfl, rfl⟩
  mem := by decide
  only := by
    intro q _
    by_cases h1 : q = 1
    · subst h1
      exact ⟨_, rfl, fun _ _ => by decide⟩
    · by_cases h2 : q = 2
      · subst h2
        exact ⟨_, rfl, fun hne => absurd rfl hne⟩
      · refine ⟨⟨0, .unused, someRegs, none⟩, ?_, fun _ hu => absurd rfl hu⟩
        simp only [pair, if_neg h1, if_neg h2]

/-- The child runs, hits a breakpoint, runs on and exits. -/
theorem run_handover_of_pair :
    let r := script (handNext 8 1 2) (pair.debuggerOnFork 2) [.wait, .hit, .wait, .childExit]
    Controlled 1 2 r.2 ∧
    (∀ y ∈ r.2.ctxs 2, y.state = .waiting → Runnable r.2 1 ∧
      ∃ m', r.2.doWaitAndContinue 1 = some (-1, m') ∧ ∃ y' ∈ m'.ctxs 2, y'.state = .ready) ∧
    (∀ e m', PatientStep 8 1 2 r.2 e m' → Replies 1 2 r.2 e.1 m') ∧
    ∀ e m', HandStep 8 1 2 r.2 e m' → (Controlled 1 2 m' ↔ Patient 2 r.2 e.1) := by
  intro r
  have h : Run (PatientStep 8 1 2) (pair.debuggerOnFork 2) r.1 r.2 :=
    Run.script (handNext 8 1 2)
      (fun m call => Runnable m (call.actor 1 2) ∧ (call.exec 8 1 2 m).isSome = true ∧ Patient 2 m call)
      (fun m call h => ⟨handStep_next h.1 h.2.1, by rw [handNext_call]; exact h.2.2⟩) (by decide)
  exact run_handover forks_pair h

/-- A debugger that forks a child and exits at once leaves the child asleep, and nobody can act. -/
theorem parent_exit_strands_child :
    let m := pair.debuggerOnFork 2
    let r := handNext 8 1 2 m .parentExit
    HandStep 8 1 2 m r.1 r.2 ∧ (∃ y ∈ r.2.ctxs 2, y.state = .waiting) ∧ ¬ Controlled 1 2 r.2 ∧
      ∀ e m', ¬ HandStep 8 1 2 r.2 e m' := by
  intro m r
  refine ⟨handStep_next (by decide) (by decide), by decide, ?_, ?_⟩
  · intro h
    have hparent : ¬ ∃ x ∈ r.2.ctxs 1, x.state = .ready ∧ x.dbg.isSome = true := by decide
    obtain ⟨y, hy, hw⟩ : ∃ y ∈ r.2.ctxs 2, y.state = .waiting := by decide
    exact hparent (h.asleep y hy hw)
  · rintro ⟨call, ret⟩ m' hs
    have hacts : Runnable r.2 (call.actor 1 2) := hs.acts
    revert hacts
    cases call <;> decide

end CS330.Debug
