/-
What each call of a debugger does to its list: whatever addresses it is called with, it ends, finds
the node for the address if there is one, and switches it, unlinks it, or pushes a new one. The
objects it takes from the allocator and gives back are read off the same search.
-/
import CS330.Debug.Table

namespace CS330.Debug

open CS330.Lib

def BreakpointInfo.entry (b : BreakpointInfo) : Entry := ⟨b.num, b.status, b.addr⟩

/-- The nodes of a list, each with what it says but without its link. -/
def listed (l : List (Ptr × BreakpointInfo)) : List (Ptr × Entry) := l.map fun x => (x.1, x.2.entry)

@[simp] theorem listed_append (l l' : List (Ptr × BreakpointInfo)) : listed (l ++ l') = listed l ++ listed l' :=
  List.map_append

@[simp] theorem listed_cons (p : Ptr) (b : BreakpointInfo) (l : List (Ptr × BreakpointInfo)) :
    listed ((p, b) :: l) = (p, b.entry) :: listed l := rfl

@[simp] theorem listed_nil : listed [] = [] := rfl

theorem listed_snd (l : List (Ptr × BreakpointInfo)) : (listed l).map Prod.snd = l.map fun x => x.2.entry := by
  simp [listed, Function.comp_def]

@[simp] theorem length_listed (l : List (Ptr × BreakpointInfo)) : (listed l).length = l.length := List.length_map _

/-- Behind `ctx->dbg` lies `info`, and from its head on lie the nodes `l`, as many as it counts. -/
structure Tracks (s : Debugger) (d : Ptr) (info : DebugInfo) (l : List (Ptr × BreakpointInfo)) : Prop where
  dbg : s.dbg = some d
  infos : s.infos d = some info
  chain : Chain s.nodes BreakpointInfo.next info.head l
  size : info.size = l.length
  length : l.length ≤ maxBreakpoints

namespace Call

def addr : Call → Addr
  | set _ a | remove a | enable a | disable a => a

/-- The byte a call that returns 0 has written at its address. -/
def opcode : Call → UInt8
  | set .. | enable _ => int3Opcode
  | remove _ | disable _ => pushrbpOpcode

/-- The status a call gives a node it finds. -/
def status : Call → Option ℕ
  | set .. | enable _ => some 1
  | disable _ => some 0
  | remove _ => none

/-- The allocator hands out a node that is not in use. -/
def Fresh (s : Debugger) : Call → Prop
  | set fresh _ => ∀ p ∈ fresh, s.nodes p = none
  | _ => True

end Call

open Debugger

/-! ## Allocations -/

/-- The search of a call, and the counters it starts from. -/
def Debugger.lookup (s : Debugger) (fuel : ℕ) (addr : Addr) :
    Option (DebugInfo × Option (Option Ptr × Ptr × BreakpointInfo)) := do
  let d ← s.dbg
  let info ← s.infos d
  let found ← s.find fuel info.head addr
  some (info, found)

/-- The node a call takes from the allocator. -/
def Call.taken (fuel : ℕ) (s : Debugger) : Call → List Ptr
  | .set fresh addr =>
    match s.lookup fuel addr with
    | some (info, none) => if info.size ≥ maxBreakpoints then [] else fresh.toList
    | _ => []
  | _ => []

/-- The node a call gives back. -/
def Call.given (fuel : ℕ) (s : Debugger) : Call → List Ptr
  | .remove addr =>
    match s.lookup fuel addr with
    | some (_, some (_, p, _)) => [p]
    | _ => []
  | _ => []

/-! ## Calls -/

/-- What a call that returns 0 does to the list and its counter, and the nodes it takes and gives
back. -/
inductive Effect : ℤ → List (Ptr × Entry) → Call → List Ptr → List Ptr → ℤ → List (Ptr × Entry) → Prop
  | switch {n : ℤ} {pre post : List (Ptr × Entry)} {p : Ptr} {e : Entry} {c : Call} {status : ℕ} :
      e.addr = c.addr → c.status = some status →
      Effect n (pre ++ (p, e) :: post) c [] [] n (pre ++ (p, { e with status := status }) :: post)
  | create {n : ℤ} {l : List (Ptr × Entry)} {p : Ptr} {addr : Addr} :
      (∀ x ∈ l, x.2.addr ≠ addr) → l.length < maxBreakpoints →
      Effect n l (.set (some p) addr) [p] [] (i32 (n + 1)) ((p, ⟨u32 (i32 (n + 1)), 1, addr⟩) :: l)
  | remove {n : ℤ} {pre post : List (Ptr × Entry)} {p : Ptr} {e : Entry} :
      Effect n (pre ++ (p, e) :: post) (.remove e.addr) [] [p] n (pre ++ post)

/-- What a call does that returns 0. -/
structure Done (fuel : ℕ) (s : Debugger) (d : Ptr) (info : DebugInfo) (l : List (Ptr × BreakpointInfo)) (c : Call)
    (s' : Debugger) : Prop where
  exec : c.exec fuel s = some (0, s')
  code : s'.mem = Function.update s.mem c.addr c.opcode
  tracks : ∃ info' l', Tracks s' d info' l' ∧
    Effect info.breakptNum (listed l) c (c.taken fuel s) (c.given fuel s) info'.breakptNum (listed l')

/-- What a call does that is refused: nothing. -/
structure Refused (fuel : ℕ) (s : Debugger) (c : Call) : Prop where
  exec : c.exec fuel s = some (-1, s)
  taken : c.taken fuel s = []
  given : c.given fuel s = []

section Step

variable {s : Debugger} {d : Ptr} {info : DebugInfo} {l pre post : List (Ptr × BreakpointInfo)} {p : Ptr}
  {b : BreakpointInfo}

/-- The search of a call ends, at the node for the address if the list has one. -/
theorem Tracks.find (h : Tracks s d info l) {fuel : ℕ} (hf : maxBreakpoints ≤ fuel) (addr : Addr) :
    (s.find fuel info.head addr = some none ∧ ∀ x ∈ listed l, x.2.addr ≠ addr) ∨
    ∃ pre p b post, l = pre ++ (p, b) :: post ∧ b.addr = addr ∧
      s.find fuel info.head addr = some (some (lastKey none pre, p, b)) := by
  rcases walk_chain h.chain (h.length.trans hf) none with ⟨hw, hno⟩ | ⟨pre, p, b, post, hl, hb, -, hw⟩
  · left
    refine ⟨hw, ?_⟩
    intro y hy
    obtain ⟨x, hx, rfl⟩ := List.mem_map.1 hy
    simpa [BreakpointInfo.entry] using hno x hx
  · right
    exact ⟨pre, p, b, post, hl, by simpa using hb, hw⟩

/-- Switching a node. -/
theorem Tracks.patch (h : Tracks s d info (pre ++ (p, b) :: post)) (status : ℕ) (opcode : UInt8) :
    Tracks (s.patch p b status opcode) d info (pre ++ (p, { b with status := status }) :: post) where
  dbg := h.dbg
  infos := h.infos
  chain := h.chain.modify rfl
  size := by rw [h.size]; simp
  length := by simpa using h.length

/-- Unlinking a node and freeing it. -/
theorem Tracks.remove (h : Tracks s d info (pre ++ (p, b) :: post)) (addr : Addr) :
    ∃ s' info' l', s.unlink d info (lastKey none pre) b = some s' ∧ s'.infos d = some info' ∧ s'.mem = s.mem ∧
      info'.breakptNum = info.breakptNum ∧ listed l' = listed pre ++ listed post ∧
      Tracks { s' with
        infos := Function.update s'.infos d (some { info' with size := i32 (info'.size - 1) })
        nodes := Function.update s'.nodes p none
        mem := Function.update s'.mem addr pushrbpOpcode } d { info' with size := i32 (info'.size - 1) } l' := by
  have hlen := h.length
  have hsize := h.size
  simp only [List.length_append, List.length_cons, maxBreakpoints] at hlen hsize
  have hdec : i32 (info.size - 1) = ((pre ++ post).length : ℤ) := by
    rw [i32_of_range (by omega) (by omega), List.length_append]
    omega
  have hfree : p ∉ (pre ++ post).map Prod.fst := by
    intro hm
    obtain ⟨x, hx, he⟩ := List.mem_map.1 hm
    exact (nodup_map_middle.1 h.chain.nodup).1 x hx he
  -- the predecessor is the head of the list or a node before `b`
  rcases List.eq_nil_or_concat pre with rfl | ⟨pre, ⟨q, w⟩, rfl⟩
  · refine ⟨_, { info with head := b.next }, post, rfl, Function.update_self .., rfl, rfl, rfl, ?_⟩
    constructor
    · exact h.dbg
    · exact Function.update_self ..
    · exact h.chain.unlink_head.free (by simpa using hfree)
    · exact hdec
    · simp only [List.length_nil] at hlen
      simp only [maxBreakpoints]
      omega
  · rw [List.concat_eq_append] at *
    have hq : s.nodes q = some w := h.chain.mem (by simp)
    have hchain := h.chain
    rw [List.append_assoc, List.singleton_append] at hchain
    rw [lastKey_concat]
    refine ⟨{ s with nodes := Function.update s.nodes q (some { w with next := b.next }) }, info,
      pre ++ (q, { w with next := b.next }) :: post, ?_, h.infos, rfl, rfl, ?_, ?_⟩
    · simp only [unlink, hq]; rfl
    · simp only [listed_append, listed_cons, listed_nil, List.append_assoc, List.singleton_append]
      rfl
    · constructor
      · exact h.dbg
      · exact Function.update_self ..
      · have hnext : ({ w with next := b.next } : BreakpointInfo).next = b.next := rfl
        refine (hchain.unlink hnext).free ?_
        simpa using hfree
      · rw [hdec]; simp
      · simp only [List.length_append, List.length_cons, List.length_nil, maxBreakpoints] at hlen ⊢
        omega

/-- Pushing a fresh node. -/
theorem Tracks.create (h : Tracks s d info l) (hlt : l.length < maxBreakpoints) (hfresh : s.nodes p = none) (num : ℤ)
    (addr : Addr) : Tracks { s with
      infos := Function.update s.infos d (some ⟨some p, i32 (info.size + 1), num⟩)
      nodes := Function.update s.nodes p (some ⟨u32 num, 1, addr, info.head⟩)
      mem := Function.update s.mem addr int3Opcode } d ⟨some p, i32 (info.size + 1), num⟩
      ((p, ⟨u32 num, 1, addr, info.head⟩) :: l) where
  dbg := h.dbg
  infos := Function.update_self ..
  chain := h.chain.push hfresh rfl
  size := by
    have hs := h.size
    simp only [maxBreakpoints] at hlt
    simp only [List.length_cons]
    rw [i32_of_range (by omega) (by omega)]
    omega
  length := hlt

theorem Tracks.lookup (h : Tracks s d info l) {fuel : ℕ} {addr : Addr}
    {r : Option (Option Ptr × Ptr × BreakpointInfo)} (hr : s.find fuel info.head addr = some r) :
    s.lookup fuel addr = some (info, r) := by
  simp only [Debugger.lookup, h.dbg, h.infos, hr, Option.bind_eq_bind, Option.bind_some]

/-- A call that switches the node it finds. -/
theorem Tracks.switch (h : Tracks s d info (pre ++ (p, b) :: post)) {fuel : ℕ} {c : Call} {status : ℕ}
    (hb : b.addr = c.addr) (hs : c.status = some status)
    (he : c.exec fuel s = some (0, s.patch p b status c.opcode)) (ht : c.taken fuel s = [])
    (hg : c.given fuel s = []) : Done fuel s d info (pre ++ (p, b) :: post) c (s.patch p b status c.opcode) where
  exec := he
  code := by simp only [Debugger.patch, hb]
  tracks := by
    refine ⟨info, _, h.patch status c.opcode, ?_⟩
    rw [ht, hg]
    simp only [listed_append, listed_cons]
    exact .switch hb hs

/-- The calls that only switch, whatever the address. -/
theorem Tracks.switchBreakpoint (h : Tracks s d info l) {fuel : ℕ} (hf : maxBreakpoints ≤ fuel) {c : Call} {status : ℕ}
    (hs : c.status = some status) (he : c.exec fuel s = s.switchBreakpoint status c.opcode fuel c.addr)
    (ht : c.taken fuel s = []) (hg : c.given fuel s = []) :
    Refused fuel s c ∨ ∃ s', Done fuel s d info l c s' := by
  simp only [Debugger.switchBreakpoint, h.dbg, h.infos, Option.bind_eq_bind, Option.bind_some] at he
  rcases h.find hf c.addr with ⟨hw, -⟩ | ⟨pre, p, b, post, rfl, hb, hw⟩
  · left
    exact ⟨by rw [he, hw]; rfl, ht, hg⟩
  · right
    exact ⟨_, h.switch hb hs (by rw [he, hw]; rfl) ht hg⟩

/-- Every call ends and faults nowhere: it is refused, or does to the list what it is meant to. -/
theorem Tracks.exec (h : Tracks s d info l) {fuel : ℕ} (hf : maxBreakpoints ≤ fuel) {c : Call} (hfresh : c.Fresh s) :
    Refused fuel s c ∨ ∃ s', Done fuel s d info l c s' := by
  cases c with
  | set fresh addr =>
    rcases h.find hf addr with ⟨hw, hne⟩ | ⟨pre, p, b, post, rfl, hb, hw⟩
    · have htaken : (Call.set fresh addr).taken fuel s = if info.size ≥ maxBreakpoints then [] else fresh.toList := by
        simp only [Call.taken, h.lookup hw]
      -- a new address: there has to be room on the list, and a node
      by_cases hsize : info.size ≥ maxBreakpoints
      · left
        refine ⟨?_, by rw [htaken, if_pos hsize], rfl⟩
        simp only [Call.exec, doSetBreakpoint, h.dbg, h.infos, Option.bind_eq_bind, Option.bind_some, hw, if_pos hsize]
      · rw [if_neg hsize] at htaken
        cases fresh with
        | none =>
          left
          refine ⟨?_, htaken, rfl⟩
          simp only [Call.exec, doSetBreakpoint, h.dbg, h.infos, Option.bind_eq_bind, Option.bind_some, hw,
            if_neg hsize]
        | some p =>
          right
          have hlt : l.length < maxBreakpoints := by
            have := h.size
            omega
          have htracks := h.create hlt (hfresh p rfl) (i32 (info.breakptNum + 1)) addr
          refine ⟨_, ⟨?_, ?_, _, _, htracks, ?_⟩⟩
          · simp only [Call.exec, doSetBreakpoint, h.dbg, h.infos, Option.bind_eq_bind, Option.bind_some, hw,
              if_neg hsize]
          · rfl
          · rw [htaken]
            exact .create hne (by simpa using hlt)
    · right
      -- the address is on the list, and its node is enabled again
      have hexec : (Call.set fresh addr).exec fuel s = some (0, s.patch p b 1 int3Opcode) := by
        simp only [Call.exec, doSetBreakpoint, h.dbg, h.infos, Option.bind_eq_bind, Option.bind_some, hw]
      exact ⟨_, h.switch hb rfl hexec (by simp only [Call.taken, h.lookup hw]) rfl⟩
  | remove addr =>
    rcases h.find hf addr with ⟨hw, -⟩ | ⟨pre, p, b, post, rfl, hb, hw⟩
    · left
      refine ⟨?_, rfl, by simp only [Call.given, h.lookup hw]⟩
      simp only [Call.exec, doRemoveBreakpoint, h.dbg, h.infos, Option.bind_eq_bind, Option.bind_some, hw]
    · right
      obtain ⟨s', info', l', hu, hi, hmem, hnum, hl', htracks⟩ := h.remove addr
      refine ⟨_, ⟨?_, ?_, _, l', htracks, ?_⟩⟩
      · simp only [Call.exec, doRemoveBreakpoint, h.dbg, h.infos, Option.bind_eq_bind, Option.bind_some, hw, hu, hi]
      · simp only [hmem]
        rfl
      · have hgiven : (Call.remove addr).given fuel s = [p] := by simp only [Call.given, h.lookup hw]
        have haddr : b.entry.addr = addr := hb
        rw [hgiven, hl', ← haddr, listed_append, listed_cons]
        simp only [hnum]
        exact .remove
  | enable addr => exact h.switchBreakpoint hf rfl rfl rfl rfl
  | disable addr => exact h.switchBreakpoint hf rfl rfl rfl rfl

end Step

end CS330.Debug
