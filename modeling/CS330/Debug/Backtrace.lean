/-
The backtrace of a debuggee. `int3_handler` writes the return addresses of its frames into `backtrace_info`, an
array of `MAX_BACKTRACE` cells, with an end mark behind them if there is room; `do_backtrace` reads them from there,
over whatever earlier hits have left.
-/
import CS330.Debug.Handover
import CS330.Lib.Loop
import CS330.Lib.While
import Mathlib.Data.List.GetD
import Mathlib.Data.Nat.Digits.Lemmas

namespace CS330.Debug

open CS330.Lib Machine

/-! ## Words in user memory -/

/-- One byte more below a word. -/
theorem toNat_shift_or {v : UInt64} (b : UInt8) (h : v.toNat < 2 ^ 56) :
    (v <<< 8 ||| b.toUInt64).toNat = v.toNat * 256 + b.toNat := by
  have hb := b.toNat_lt
  have h8 : (8 : UInt64).toNat % 64 = 8 := by decide
  rw [UInt64.toNat_or, UInt64.toNat_shiftLeft, UInt8.toNat_toUInt64, h8, Nat.shiftLeft_eq, Nat.mod_eq_of_lt (by omega),
    mul_comm, ← Nat.two_pow_add_eq_or_of_lt (by omega)]

/-- The word some bytes make, the lowest first. -/
def wordOf (bytes : List UInt8) : UInt64 := bytes.foldr (fun b v => v <<< 8 ||| b.toUInt64) 0

theorem toNat_wordOf {bytes : List UInt8} (h : bytes.length ≤ 8) :
    (wordOf bytes).toNat = Nat.ofDigits 256 (bytes.map UInt8.toNat) := by
  induction bytes with
  | nil => rfl
  | cons b bytes ih =>
    simp only [List.length_cons] at h
    have hrest := ih (by omega)
    have hlt : Nat.ofDigits 256 (bytes.map UInt8.toNat) < 256 ^ (bytes.map UInt8.toNat).length :=
      Nat.ofDigits_lt_base_pow_length (by decide) fun d hd => by
        obtain ⟨b, -, rfl⟩ := List.mem_map.1 hd
        exact b.toNat_lt
    have hle : 256 ^ (bytes.map UInt8.toNat).length ≤ 256 ^ 7 :=
      Nat.pow_le_pow_right (by decide) (by rw [List.length_map]; omega)
    show (wordOf bytes <<< 8 ||| b.toUInt64).toNat = _
    rw [toNat_shift_or b (by omega), hrest, List.map_cons, Nat.ofDigits_cons]
    omega

theorem load64_eq (mem : Addr → UInt8) (a : Addr) :
    load64 mem a = wordOf ((List.range 8).map fun i => mem (a + UInt64.ofNat i)) := by
  unfold wordOf
  rw [List.foldr_map]
  rfl

theorem load64_congr {mem mem' : Addr → UInt8} {a : Addr}
    (h : ∀ i < 8, mem' (a + UInt64.ofNat i) = mem (a + UInt64.ofNat i)) : load64 mem' a = load64 mem a := by
  rw [load64_eq, load64_eq]
  congr 1
  exact List.map_congr_left fun i hi => h i (List.mem_range.1 hi)

theorem store64_byte (mem : Addr → UInt8) (a : Addr) (v : UInt64) {i : ℕ} (hi : i < 8) :
    (store64 mem a v (a + UInt64.ofNat i)).toNat = v.toNat / 256 ^ i % 256 := by
  have hoff : a + UInt64.ofNat i - a = UInt64.ofNat i := by rw [UInt64.add_comm, UInt64.add_sub_cancel]
  have hlt : UInt64.ofNat i < 8 := by
    rw [UInt64.lt_iff_toNat_lt, UInt64.toNat_ofNat_of_lt' (by simp [UInt64.size]; omega)]
    exact hi
  unfold store64
  rw [hoff, if_pos hlt, UInt64.toNat_toUInt8, UInt64.toNat_shiftRight, UInt64.toNat_mul,
    UInt64.toNat_ofNat_of_lt' (by simp [UInt64.size]; omega)]
  have h8 : (8 : UInt64).toNat = 8 := rfl
  rw [h8, Nat.shiftRight_eq_div_pow, Nat.mod_eq_of_lt (a := 8 * i) (by omega), Nat.mod_eq_of_lt (a := 8 * i) (by omega),
    pow_mul]
  rfl

theorem load64_store64 (mem : Addr → UInt8) (a : Addr) (v : UInt64) : load64 (store64 mem a v) a = v := by
  have hv := v.toNat_lt
  have hbytes : ((List.range 8).map fun i => store64 mem a v (a + UInt64.ofNat i)).map UInt8.toNat =
      (List.range 8).map fun i => v.toNat / 256 ^ i % 256 := by
    rw [List.map_map]
    exact List.map_congr_left fun i hi => store64_byte mem a v (List.mem_range.1 hi)
  rw [← UInt64.toNat_inj, load64_eq, toNat_wordOf (by simp), hbytes]
  simp only [List.range, List.range.loop, List.map_cons, List.map_nil, Nat.ofDigits_cons, Nat.ofDigits_nil]
  omega

/-- The eight bytes from `slot` on are none of the `n` bytes from `a` on. -/
def ClearOf (slot : Addr) (n : ℕ) (a : Addr) : Prop := ∀ i < n, ¬ a + UInt64.ofNat i - slot < 8

theorem load64_store64_of_clear {mem : Addr → UInt8} {slot a : Addr} (h : ClearOf slot 8 a) (v : UInt64) :
    load64 (store64 mem slot v) a = load64 mem a :=
  load64_congr fun i hi => if_neg (h i hi)

/-- What lies at or above `rsp` is clear of the word a push puts below it. -/
theorem clear_of_above {rsp a : Addr} {n : ℕ} (h8 : 8 ≤ rsp.toNat) (hle : rsp.toNat ≤ a.toNat)
    (hend : a.toNat + n ≤ 2 ^ 64) : ClearOf (rsp - 8) n a := by
  intro i hi hlt
  have h8' : (8 : UInt64).toNat = 8 := rfl
  rw [UInt64.lt_iff_toNat_lt, UInt64.toNat_sub, UInt64.toNat_sub, UInt64.toNat_add,
    UInt64.toNat_ofNat_of_lt' (by simp only [UInt64.size]; omega), h8'] at hlt
  omega

/-- The word at `rsp` is clear of the one below it. -/
theorem clear_push (rsp : Addr) : ClearOf (rsp - 8) 8 rsp := by
  intro i hi hlt
  have h8 : (8 : UInt64).toNat = 8 := rfl
  have hrsp := rsp.toNat_lt
  rw [UInt64.lt_iff_toNat_lt, UInt64.toNat_sub, UInt64.toNat_sub, UInt64.toNat_add,
    UInt64.toNat_ofNat_of_lt' (by simp only [UInt64.size]; omega), h8] at hlt
  omega

/-! ## The two loops -/

/-- Read `backtrace_info[i]`. -/
def cell (info : ℕ → UInt64) (i : ℕ) : Option UInt64 := if i < maxBacktrace then some (info i) else none

/-- Write `backtrace_info[i]`. -/
def putCell (info : ℕ → UInt64) (i : ℕ) (v : UInt64) : Option (ℕ → UInt64) :=
  if i < maxBacktrace then some (Function.update info i v) else none

/-- What the loop of `int3_handler` works on. -/
structure FrameCursor where
  idx : ℕ
  rbpAddress : Addr
  addr : UInt64
  backtraceInfo : ℕ → UInt64

/-- The test and the body of that loop. -/
def storeTest (s : FrameCursor) : Option Bool := some (s.addr != endAddr && decide (s.idx < maxBacktrace))

def storeTurn (mem : Addr → UInt8) (s : FrameCursor) : Option FrameCursor := do
  let info ← putCell s.backtraceInfo s.idx s.addr
  let rbpAddress := load64 mem s.rbpAddress
  some ⟨s.idx + 1, rbpAddress, load64 mem (rbpAddress + 8), info⟩

/-- `int3_handler` from its first store into `backtrace_info` to its last, with the index of each of them checked. -/
def storeTrace (fuel : ℕ) (mem : Addr → UInt8) (rip rsp : UInt64) (info : ℕ → UInt64) : Option (ℕ → UInt64) := do
  let info ← putCell info 0 (rip - 1)
  let s ← whileLoop storeTest (storeTurn mem) fuel ⟨1, rsp, load64 mem (rsp + 8), info⟩
  if s.idx < maxBacktrace then putCell s.backtraceInfo s.idx endAddr else some s.backtraceInfo

/-- The test and the body of the loop of `do_backtrace`, on `count` and the buffer. -/
def readTest (info : ℕ → UInt64) (s : ℕ × (ℕ → UInt64)) : Option Bool :=
  if s.1 < maxBacktrace then (cell info s.1).map fun v => v != endAddr else some false

def readTurn (info : ℕ → UInt64) (s : ℕ × (ℕ → UInt64)) : Option (ℕ × (ℕ → UInt64)) :=
  (cell info s.1).map fun v => (s.1 + 1, Function.update s.2 s.1 v)

/-- `do_backtrace`, with the index of each read of `backtrace_info` checked; a NULL buffer is `none`. Also returns
the buffer afterwards. -/
def Machine.doBacktrace (fuel : ℕ) (p : Pid) (btBuf : Option (ℕ → UInt64)) (m : Machine) :
    Option (ℤ × Option (ℕ → UInt64)) := do
  let ctx ← m.ctxs p
  match ctx.dbg, btBuf with
  | some d, some bt =>
    let s ← whileLoop (readTest (m.backtraces d)) (readTurn (m.backtraces d)) fuel (0, bt)
    some (s.1, some s.2)
  | _, _ => some (-1, btBuf)

/-! ## Storing -/

/-- With enough turns for the cells that are left, the loop ends, has stayed inside the array, and leaves what
`storeFrames` says. -/
theorem whileLoop_storeFrames (mem : Addr → UInt8) {left idx fuel : ℕ} (hleft : idx + left = maxBacktrace)
    (hfuel : left ≤ fuel) (rbp : Addr) (info : ℕ → UInt64) :
    ∃ s, whileLoop storeTest (storeTurn mem) fuel ⟨idx, rbp, load64 mem (rbp + 8), info⟩ = some s ∧
      (s.idx, s.backtraceInfo) = storeFrames mem left idx rbp info ∧ s.idx ≤ maxBacktrace := by
  induction left generalizing idx fuel rbp info with
  | zero =>
    refine ⟨_, whileLoop_stop ?_ fuel, rfl, hleft.le⟩
    simp only [storeTest, Option.some.injEq, Bool.and_eq_false_iff, decide_eq_false_iff_not]
    exact Or.inr (by omega)
  | succ left ih =>
    simp only [storeFrames]
    by_cases hend : load64 mem (rbp + 8) = endAddr
    · rw [if_pos hend]
      exact ⟨_, whileLoop_stop (by simp [storeTest, hend]) fuel, rfl, by simp only; omega⟩
    · rw [if_neg hend]
      obtain ⟨fuel, rfl⟩ : ∃ n, fuel = n + 1 := ⟨fuel - 1, by omega⟩
      have hidx : idx < maxBacktrace := by omega
      have hturn : storeTurn mem ⟨idx, rbp, load64 mem (rbp + 8), info⟩ =
          some ⟨idx + 1, load64 mem rbp, load64 mem (load64 mem rbp + 8),
            Function.update info idx (load64 mem (rbp + 8))⟩ := by
        simp only [storeTurn, putCell, if_pos hidx, Option.bind_eq_bind, Option.bind_some]
      rw [whileLoop_turn (by simp [storeTest, hend, hidx]) hturn]
      exact ih (by omega) (by omega) _ _

/-- The stores are those of `storeBacktrace`, whatever is in memory. -/
theorem storeTrace_eq {fuel : ℕ} (hfuel : maxBacktrace ≤ fuel + 1) (mem : Addr → UInt8) (rip rsp : UInt64)
    (info : ℕ → UInt64) : storeTrace fuel mem rip rsp info = some (storeBacktrace mem rip rsp info) := by
  have hfirst : putCell info 0 (rip - 1) = some (Function.update info 0 (rip - 1)) := if_pos (by decide)
  have hleft : 1 + (maxBacktrace - 1) = maxBacktrace := rfl
  obtain ⟨s, hs, heq, hle⟩ := whileLoop_storeFrames mem hleft (show maxBacktrace - 1 ≤ fuel by omega) rsp
    (Function.update info 0 (rip - 1))
  simp only [storeTrace, hfirst, hs, Option.bind_eq_bind, Option.bind_some, storeBacktrace, ← heq]
  by_cases hidx : s.idx < maxBacktrace
  · rw [if_pos hidx, if_pos hidx, putCell, if_pos hidx]
  · rw [if_neg hidx, if_neg hidx]

/-! ## The call chain -/

/-- The return addresses that the saved frame pointers lead through from a frame on, up to the end mark; every frame
on the way passes `ok`. -/
inductive CallChain (mem : Addr → UInt8) (ok : Addr → Prop) : Addr → List UInt64 → Prop
  | last {frame : Addr} : ok frame → load64 mem (frame + 8) = endAddr → CallChain mem ok frame []
  | call {frame : Addr} {as : List UInt64} : ok frame → load64 mem (frame + 8) ≠ endAddr →
      CallChain mem ok (load64 mem frame) as → CallChain mem ok frame (load64 mem (frame + 8) :: as)

/-- The callers of a function that is entered with these `rsp` and `rbp`: the return address is at `rsp`, the frames
from `rbp` on are those of the callers, none of them where the function is going to put its own. -/
inductive Callers (mem : Addr → UInt8) (rsp rbp : Addr) : List UInt64 → Prop
  | outermost : load64 mem rsp = endAddr → Callers mem rsp rbp []
  | called {as : List UInt64} : load64 mem rsp ≠ endAddr → CallChain mem (ClearOf (rsp - 8) 16) rbp as →
      Callers mem rsp rbp (load64 mem rsp :: as)

theorem CallChain.ne_end {mem : Addr → UInt8} {ok : Addr → Prop} {frame : Addr} {as : List UInt64}
    (h : CallChain mem ok frame as) : ∀ a ∈ as, a ≠ endAddr := by
  induction h with
  | last => exact fun a ha => absurd ha List.not_mem_nil
  | call _ hne _ ih => exact List.forall_mem_cons.2 ⟨hne, ih⟩

/-- Memory that agrees on the frames has the same chain. -/
theorem CallChain.congr {mem mem' : Addr → UInt8} {ok : Addr → Prop} {frame : Addr} {as : List UInt64}
    (h : CallChain mem ok frame as)
    (he : ∀ f, ok f → load64 mem' f = load64 mem f ∧ load64 mem' (f + 8) = load64 mem (f + 8)) :
    CallChain mem' ok frame as := by
  induction h with
  | last hok hend => exact .last hok ((he _ hok).2.trans hend)
  | call hok hne _ ih =>
    obtain ⟨hsaved, hret⟩ := he _ hok
    rw [← hret]
    exact .call hok (by rwa [hret]) (by rwa [hsaved])

theorem CallChain.weaken {mem : Addr → UInt8} {ok : Addr → Prop} {frame : Addr} {as : List UInt64}
    (h : CallChain mem ok frame as) : CallChain mem (fun _ => True) frame as := by
  induction h with
  | last _ hend => exact .last trivial hend
  | call _ hne _ ih => exact .call trivial hne ih

/-- A frame of sixteen bytes has a saved frame pointer and a return address. -/
theorem ClearOf.frame {slot f : Addr} (h : ClearOf slot 16 f) : ClearOf slot 8 f ∧ ClearOf slot 8 (f + 8) := by
  refine ⟨fun i hi => h i (by omega), fun i hi => ?_⟩
  have hshift : f + 8 + UInt64.ofNat i = f + UInt64.ofNat (8 + i) := by
    rw [UInt64.add_assoc, UInt64.ofNat_add]
    rfl
  rw [hshift]
  exact h (8 + i) (by omega)

/-- Once its caller's `rbp` is pushed, the function's own frame starts the chain. -/
theorem Callers.pushed {mem : Addr → UInt8} {rsp rbp : Addr} {as : List UInt64} (h : Callers mem rsp rbp as) :
    CallChain (store64 mem (rsp - 8) rbp) (fun _ => True) (rsp - 8) as := by
  have hback : rsp - 8 + 8 = rsp := UInt64.sub_add_cancel ..
  have hret : load64 (store64 mem (rsp - 8) rbp) (rsp - 8 + 8) = load64 mem rsp := by
    rw [hback]
    exact load64_store64_of_clear (clear_push rsp) rbp
  have hsaved : load64 (store64 mem (rsp - 8) rbp) (rsp - 8) = rbp := load64_store64 ..
  cases h with
  | outermost hend => exact .last trivial (hret.trans hend)
  | called hne hchain =>
    rw [← hret]
    refine .call trivial (by rwa [hret]) ?_
    rw [hsaved]
    have hsame := hchain.congr fun f hf =>
      ⟨load64_store64_of_clear hf.frame.1 rbp, load64_store64_of_clear hf.frame.2 rbp⟩
    exact hsame.weaken

/-- Along a chain the loop stores its addresses one after the other, as many as there is room for. -/
theorem CallChain.stored {mem : Addr → UInt8} {ok : Addr → Prop} {frame : Addr} {as : List UInt64}
    (h : CallChain mem ok frame as) (left idx : ℕ) (info : ℕ → UInt64) :
    (storeFrames mem left idx frame info).1 = idx + min as.length left ∧
    ∀ i, (storeFrames mem left idx frame info).2 i =
      if idx ≤ i ∧ i < idx + min as.length left then as.getD (i - idx) 0 else info i := by
  induction left generalizing idx frame as info with
  | zero => exact ⟨by simp [storeFrames], fun i => by rw [if_neg (by omega)]; rfl⟩
  | succ left ih =>
    cases h with
    | last _ hend =>
      simp only [storeFrames, if_pos hend]
      exact ⟨by simp, fun i => by rw [if_neg (by simp)]⟩
    | @call _ as _ hne hchain =>
      simp only [storeFrames, if_neg hne]
      obtain ⟨hidx, hcells⟩ := ih hchain (idx + 1) (Function.update info idx (load64 mem (frame + 8)))
      refine ⟨by rw [hidx, List.length_cons]; omega, fun i => ?_⟩
      rw [hcells, List.length_cons]
      rcases Nat.lt_trichotomy i idx with hi | rfl | hi
      · rw [if_neg (by omega), if_neg (by omega), Function.update_of_ne (by omega)]
      · rw [if_neg (by omega), if_pos (by omega), Function.update_self, Nat.sub_self, List.getD_cons_zero]
      · obtain ⟨j, rfl⟩ : ∃ j, i = idx + 1 + j := ⟨i - (idx + 1), by omega⟩
        rw [Function.update_of_ne (by omega), Nat.add_sub_cancel_left, show idx + 1 + j - idx = j + 1 by omega,
          List.getD_cons_succ]
        congr 1
        apply propext
        omega

/-! ## Reading -/

/-- The cells up to the end mark, or all of them. -/
structure Trace (info : ℕ → UInt64) (k : ℕ) : Prop where
  le : k ≤ maxBacktrace
  cells : ∀ i < k, info i ≠ endAddr
  ended : k < maxBacktrace → info k = endAddr

theorem exists_trace (info : ℕ → UInt64) : ∃ k, Trace info k := by
  cases h : firstIdx maxBacktrace fun i => info i == endAddr with
  | none =>
    exact ⟨maxBacktrace, le_rfl, fun i hi => by simpa using firstIdx_none.1 h i hi, fun hlt => absurd hlt (lt_irrefl _)⟩
  | some k =>
    obtain ⟨hk, hend, hbefore⟩ := firstIdx_some h
    exact ⟨k, hk.le, fun i hi => by simpa using hbefore i hi, fun _ => by simpa using hend⟩

/-- The state of the loop before cell `count`. -/
def copied (info bt : ℕ → UInt64) (count : ℕ) : ℕ × (ℕ → UInt64) := (count, fun i => if i < count then info i else bt i)

theorem readTurn_copied {info : ℕ → UInt64} {count : ℕ} (h : count < maxBacktrace) (bt : ℕ → UInt64) :
    readTurn info (copied info bt count) = some (copied info bt (count + 1)) := by
  have hcell : cell info count = some (info count) := if_pos h
  simp only [readTurn, copied, hcell, Option.map_some, Option.some.injEq, Prod.mk.injEq, true_and]
  funext i
  rcases Nat.lt_trichotomy i count with hi | rfl | hi
  · rw [Function.update_of_ne (by omega), if_pos hi, if_pos (by omega)]
  · rw [Function.update_self, if_pos (by omega)]
  · rw [Function.update_of_ne (by omega), if_neg (by omega), if_neg (by omega)]

/-- The test says no at the end of the trace and nowhere before. -/
theorem Trace.test {info : ℕ → UInt64} {k count : ℕ} (h : Trace info k) (hle : count ≤ k) (bt : ℕ → UInt64) :
    readTest info (copied info bt count) = some (decide (count < k)) := by
  simp only [readTest, copied]
  rcases hle.lt_or_eq with hlt | rfl
  · have hin : count < maxBacktrace := hlt.trans_le h.le
    simp [cell, hin, h.cells count hlt, hlt]
  · by_cases hin : count < maxBacktrace
    · simp [cell, hin, h.ended hin]
    · simp [hin]

/-- The loop ends at the end of the trace, has stayed inside the array, and has copied the trace. -/
theorem Trace.read {info : ℕ → UInt64} {k fuel : ℕ} (h : Trace info k) (hfuel : k ≤ fuel) (bt : ℕ → UInt64) :
    whileLoop (readTest info) (readTurn info) fuel (0, bt) = some (copied info bt k) := by
  have hturn : ∀ s, (∃ count ≤ k, s = copied info bt count) →
      Turns (readTest info) (readTurn info) (fun s => ∃ count ≤ k, s = copied info bt count) (fun s => k - s.1) s := by
    rintro s ⟨count, hle, rfl⟩
    rcases hle.lt_or_eq with hlt | rfl
    · refine Or.inr ⟨by rw [h.test hle, decide_eq_true hlt], _, readTurn_copied (hlt.trans_le h.le) bt,
        ⟨_, hlt, rfl⟩, ?_⟩
      show k - (count + 1) < k - count
      omega
    · exact Or.inl (by rw [h.test hle, decide_eq_false (lt_irrefl count)])
  have hstart : (0, bt) = copied info bt 0 := Prod.ext rfl (funext fun i => by simp [copied])
  obtain ⟨s, hs, ⟨count, hle, rfl⟩, hstop⟩ := whileLoop_ends _ _ hturn ⟨0, Nat.zero_le k, hstart⟩ hfuel
  rw [h.test hle] at hstop
  obtain rfl : count = k := le_antisymm hle (not_lt.1 (of_decide_eq_false (Option.some.inj hstop)))
  exact hs

theorem doBacktrace_eq {m : Machine} {p : Pid} {y : ExecContext} {d : Ptr} {k fuel : ℕ} (hp : m.ctxs p = some y)
    (hd : y.dbg = some d) (h : Trace (m.backtraces d) k) (hfuel : k ≤ fuel) (bt : ℕ → UInt64) :
    m.doBacktrace fuel p (some bt) = some ((k : ℤ), some (copied (m.backtraces d) bt k).2) := by
  simp only [doBacktrace, hp, Option.bind_eq_bind, Option.bind_some, hd, h.read hfuel]
  rfl

theorem doBacktrace_ends {m : Machine} {p : Pid} {y : ExecContext} {fuel : ℕ} (hp : m.ctxs p = some y)
    (hfuel : maxBacktrace ≤ fuel) (bt : Option (ℕ → UInt64)) : (m.doBacktrace fuel p bt).isSome = true := by
  cases hd : y.dbg with
  | none => simp only [doBacktrace, hp, Option.bind_eq_bind, Option.bind_some, hd, Option.isSome_some]
  | some d =>
    cases bt with
    | none => simp only [doBacktrace, hp, Option.bind_eq_bind, Option.bind_some, hd, Option.isSome_some]
    | some bt =>
      obtain ⟨k, hk⟩ := exists_trace (m.backtraces d)
      rw [doBacktrace_eq hp hd hk (hk.le.trans hfuel)]
      rfl

/-! ## The hit and the answer -/

/-- What the handler stores along a chain is the breakpoint and the chain, as far as there is room. -/
theorem CallChain.trace {mem : Addr → UInt8} {ok : Addr → Prop} {rsp : Addr} {as : List UInt64}
    (h : CallChain mem ok rsp as) {rip : UInt64} (hb : rip - 1 ≠ endAddr) (info : ℕ → UInt64) :
    Trace (storeBacktrace mem rip rsp info) (min (as.length + 1) maxBacktrace) ∧
      ∀ i < min (as.length + 1) maxBacktrace, storeBacktrace mem rip rsp info i = ((rip - 1) :: as).getD i 0 := by
  obtain ⟨hidx, hcells⟩ := h.stored (maxBacktrace - 1) 1 (Function.update info 0 (rip - 1))
  have hroom : maxBacktrace - 1 + 1 = maxBacktrace := rfl
  have hstored : ∀ i < min (as.length + 1) maxBacktrace,
      storeBacktrace mem rip rsp info i = ((rip - 1) :: as).getD i 0 := by
    intro i hi
    have hcell : (storeFrames mem (maxBacktrace - 1) 1 rsp (Function.update info 0 (rip - 1))).2 i =
        ((rip - 1) :: as).getD i 0 := by
      rw [hcells]
      cases i with
      | zero => rw [if_neg (by omega), Function.update_self, List.getD_cons_zero]
      | succ i => rw [if_pos (by omega), List.getD_cons_succ, Nat.add_sub_cancel]
    -- the end marker goes behind the cells that are stored
    simp only [storeBacktrace]
    split
    · rw [Function.update_of_ne (by omega), hcell]
    · exact hcell
  refine ⟨⟨Nat.min_le_right .., fun i hi => ?_, fun hlt => ?_⟩, hstored⟩
  · have hlen : i < ((rip - 1) :: as).length := by
      rw [List.length_cons]
      omega
    rw [hstored i hi, List.getD_eq_getElem _ _ hlen]
    -- neither the breakpoint nor a return address is the end marker
    have hall : ∀ a ∈ (rip - 1) :: as, a ≠ endAddr := List.forall_mem_cons.2 ⟨hb, h.ne_end⟩
    exact hall _ (List.getElem_mem hlen)
  · have hk : min (as.length + 1) maxBacktrace =
        (storeFrames mem (maxBacktrace - 1) 1 rsp (Function.update info 0 (rip - 1))).1 := by
      rw [hidx]
      omega
    simp only [storeBacktrace]
    rw [hk, if_pos (by rw [← hk]; exact hlt), Function.update_self]

/-- The debugger is the one it was, and the trace is stored for it. -/
theorem trapped_debugger {m : Machine} {p : Pid} {y : ExecContext} (hp : m.ctxs p = some y) (c : Pid) (d : Ptr)
    (regs : UserRegs) :
    (∃ z, (m.trapped c p d regs).ctxs p = some z ∧ z.dbg = y.dbg) ∧
      (m.trapped c p d regs).backtraces d = storeBacktrace (store64 m.mem (regs.entryRsp - 8) regs.rbp) regs.entryRip
        (regs.entryRsp - 8) (m.backtraces d) := by
  refine ⟨?_, Function.update_self ..⟩
  by_cases hc : p = c
  · subst hc
    exact ⟨_, withCtx_self (withCtx_self (withCtx_self (m := { m with mem := _ }) hp _) _) _, rfl⟩
  · exact ⟨_, withCtx_self (withCtx_self ((withCtx_of_ne (m := { m with mem := _ }) hc _).trans hp) _) _, rfl⟩

/-- After the hit, `do_backtrace` returns how many addresses of `trace` there is room for, and puts these at the
front of the buffer and nothing behind them. -/
def Machine.Reports (m : Machine) (p : Pid) (trace : List UInt64) : Prop :=
  ∀ fuel ≥ maxBacktrace, ∀ bt, ∃ bt',
    m.doBacktrace fuel p (some bt) = some (((min trace.length maxBacktrace : ℕ) : ℤ), some bt') ∧
    ∀ i, bt' i = if i < min trace.length maxBacktrace then trace.getD i 0 else bt i

/-- For every register file, every memory and every earlier trace: where the return address and the saved frame
pointers of the debuggee lead through `as` to the end mark, its debugger is reported the breakpoint and `as` after the
hit. In every memory and for every `backtrace_info`, both loops end and stay inside the array. -/
theorem backtrace_is_call_chain {m : Machine} {c : Pid} {x y : ExecContext} {d : Ptr} {as : List UInt64}
    (hc : m.ctxs c = some x) (hp : m.ctxs x.ppid = some y) (hd : y.dbg = some d)
    (hcallers : Callers m.mem x.regs.entryRsp x.regs.rbp as) (hb : x.regs.entryRip - 1 ≠ endAddr) :
    (∃ m', m.int3Handler c = some (0, m') ∧ m'.Reports x.ppid ((x.regs.entryRip - 1) :: as)) ∧
    (∀ fuel, maxBacktrace ≤ fuel + 1 → ∀ mem rip rsp info,
      storeTrace fuel mem rip rsp info = some (storeBacktrace mem rip rsp info)) ∧
    ∀ fuel, maxBacktrace ≤ fuel → ∀ (m : Machine) (p : Pid) (bt : Option (ℕ → UInt64)), (m.ctxs p).isSome = true →
      (m.doBacktrace fuel p bt).isSome = true := by
  refine ⟨⟨_, int3Handler_eq hc hp hd, fun fuel hfuel bt => ?_⟩, fun fuel hfuel => storeTrace_eq hfuel,
    fun fuel hfuel m p bt hsome => ?_⟩
  · obtain ⟨⟨z, hz, hzd⟩, hstored⟩ := trapped_debugger hp c d x.regs
    obtain ⟨htrace, hcells⟩ := hcallers.pushed.trace hb (m.backtraces d)
    rw [← hstored] at htrace hcells
    refine ⟨_, doBacktrace_eq hz (hzd.trans hd) htrace (htrace.le.trans hfuel) bt, fun i => ?_⟩
    simp only [copied, List.length_cons]
    split
    · rename_i hi
      exact hcells i hi
    · rfl
  · obtain ⟨z, hz⟩ := Option.isSome_iff_exists.1 hsome
    exact doBacktrace_ends hz hfuel bt

/-- Process 2 was called once: its return address is at 4096, and that of its caller, in the frame at 8192, is the
end mark. -/
def calledRegs : UserRegs := { someRegs with rbp := 8192 }

def called : Machine := { pair with
  ctxs := Function.update pair.ctxs 2 (some ⟨1, .new, calledRegs, some 5⟩)
  mem := store64 (store64 (fun _ => 0) 4096 1024) 8200 endAddr }

theorem callers_called : Callers called.mem 4096 8192 [1024] :=
  .called (by decide +kernel) (.last (clear_of_above (by decide) (by decide) (by decide)) (by decide +kernel))

theorem backtrace_of_called :
    (∃ m', called.int3Handler 2 = some (0, m') ∧ m'.Reports 1 [64, 1024]) ∧
    (∀ fuel, maxBacktrace ≤ fuel + 1 → ∀ mem rip rsp info,
      storeTrace fuel mem rip rsp info = some (storeBacktrace mem rip rsp info)) ∧
    ∀ fuel, maxBacktrace ≤ fuel → ∀ (m : Machine) (p : Pid) (bt : Option (ℕ → UInt64)), (m.ctxs p).isSome = true →
      (m.doBacktrace fuel p bt).isSome = true :=
  @backtrace_is_call_chain called 2 ⟨1, .new, calledRegs, some 5⟩ ⟨0, .ready, someRegs, some 5⟩ 5 [1024] rfl rfl rfl
    callers_called (by decide)

end CS330.Debug
