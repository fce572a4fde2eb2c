/-
The lifetime of breakpoints: a debugger starts a session with `do_become_debugger`, sets breakpoints
and exits, in any order and as often as it likes. The bytes it patched and the objects it allocated
belong to the list of the live session. They stay accounted for as long as no session starts while
one is live and none ends with a breakpoint enabled.
-/
import CS330.Debug.Session

namespace CS330.Debug

open CS330.Lib Debugger

/-! ## Objects and events -/

inductive Obj where
  | info (d : Ptr)
  | node (p : Ptr)
deriving DecidableEq

/-- A call in the life of a debugger; `fresh` is what `alloc_debug_info` answers. -/
inductive LifeCall where
  | become (fresh : Option Ptr)
  | call (c : Call)
  | exit

namespace LifeCall

def exec (fuel : ℕ) (s : Debugger) : LifeCall → Option (ℤ × Debugger)
  | become fresh => some (s.doBecomeDebugger fresh)
  | call c => c.exec fuel s
  | exit => (s.debuggerOnExit fuel).map fun s' => (0, s')

/-- The allocator hands out objects that are not in use. -/
def Fresh (s : Debugger) : LifeCall → Prop
  | become fresh => ∀ d ∈ fresh, s.infos d = none
  | call c => c.Fresh s
  | exit => True

/-- The objects taken from the allocator. -/
def taken (fuel : ℕ) (s : Debugger) : LifeCall → List Obj
  | become fresh => fresh.toList.map .info
  | call c => (c.taken fuel s).map .node
  | exit => []

/-- The objects given back to it. -/
def given (fuel : ℕ) (s : Debugger) : LifeCall → List Obj
  | become _ => []
  | call c => (c.given fuel s).map .node
  | exit =>
    match s.dbg with
    | none => []
    | some d =>
      match (s.infos d).bind fun info => dispose BreakpointInfo.next fuel s.nodes info.head with
      | some (freed, _) => freed.map .node ++ [.info d]
      | none => []

end LifeCall

/-- The search for an enabled breakpoint of the live session. -/
def Debugger.findEnabled (s : Debugger) (fuel : ℕ) : Option (Option (Option Ptr × Ptr × BreakpointInfo)) :=
  match s.dbg with
  | none => some none
  | some d => do
    let info ← s.infos d
    walk s.nodes BreakpointInfo.next (fun b => b.status == 1) fuel none info.head

/-- A session starts only where none is live, and ends only with no breakpoint enabled. -/
def LifeCall.Tidy (fuel : ℕ) (s : Debugger) : LifeCall → Prop
  | become _ => s.dbg = none
  | call _ => True
  | exit => (s.findEnabled fuel).map Option.isNone = some true

/-- A call, what it returned and what it took from the allocator and gave back. -/
structure LifeEvent where
  call : LifeCall
  ret : ℤ
  taken : List Obj
  given : List Obj

structure LifeStep (fuel : ℕ) (s : Debugger) (e : LifeEvent) (s' : Debugger) : Prop where
  fresh : e.call.Fresh s
  exec : e.call.exec fuel s = some (e.ret, s')
  taken : e.taken = e.call.taken fuel s
  given : e.given = e.call.given fuel s

structure TidyStep (fuel : ℕ) (s : Debugger) (e : LifeEvent) (s' : Debugger) : Prop extends LifeStep fuel s e s' where
  tidy : e.call.Tidy fuel s

/-- The byte an event wrote at `a`. -/
def LifeEvent.wrote (e : LifeEvent) (a : Addr) : Option UInt8 :=
  match e.call with
  | .call c => if e.ret = 0 ∧ c.addr = a then some c.opcode else none
  | _ => none

/-- The byte written last at `a`. -/
def written (es : List LifeEvent) (a : Addr) : Option UInt8 :=
  es.foldl (fun w e => (e.wrote a).or w) none

@[simp] theorem written_snoc (es : List LifeEvent) (e : LifeEvent) (a : Addr) :
    written (es ++ [e]) a = (e.wrote a).or (written es a) := by
  simp [written, List.foldl_append]

/-! ## The live session -/

/-- The nodes of the live session, none if there is none. -/
inductive Live (s : Debugger) : List (Ptr × BreakpointInfo) → Prop
  | idle : s.dbg = none → Live s []
  | session {d : Ptr} {info : DebugInfo} {l : List (Ptr × BreakpointInfo)} : Tracks s d info l → Live s l

/-- What the live session has of the allocator. -/
def objects (dbg : Option Ptr) (l : List (Ptr × Entry)) : List Obj :=
  dbg.toList.map .info ++ l.map fun x => .node x.1

def Enabled (l : List (Ptr × Entry)) (a : Addr) : Prop := ∃ x ∈ l, x.2.addr = a ∧ x.2.status = 1

/-- Nothing outlives its session: the bytes patched to the trap instruction and not restored are those
of the enabled nodes of the live session, every byte not written since the start is the original one,
and what was taken from the allocator is, each object once, what was given back and what the live
session has. -/
structure Confined (orig : Addr → UInt8) (es : List LifeEvent) (s : Debugger) (l : List (Ptr × BreakpointInfo)) :
    Prop where
  live : Live s l
  patched : ∀ a, written es a = some int3Opcode ↔ Enabled (listed l) a
  code : ∀ a, s.mem a = (written es a).getD (orig a)
  ledger : (es.flatMap LifeEvent.taken).Perm (es.flatMap LifeEvent.given ++ objects s.dbg (listed l))

/-- No two nodes stand for one address. -/
def Apart (l : List (Ptr × Entry)) : Prop := (l.map fun x => x.2.addr).Nodup

theorem apart_middle {pre post : List (Ptr × Entry)} {x : Ptr × Entry} :
    Apart (pre ++ x :: post) ↔ (∀ y ∈ pre ++ post, y.2.addr ≠ x.2.addr) ∧ Apart (pre ++ post) := nodup_map_middle

theorem enabled_middle {pre post : List (Ptr × Entry)} {x : Ptr × Entry} {a : Addr} :
    Enabled (pre ++ x :: post) a ↔ (x.2.addr = a ∧ x.2.status = 1) ∨ Enabled (pre ++ post) a := by
  unfold Enabled
  constructor
  · rintro ⟨y, hy, h⟩
    rcases List.mem_cons.1 (List.perm_middle.mem_iff.1 hy) with rfl | hy
    · exact .inl h
    · exact .inr ⟨y, hy, h⟩
  · rintro (h | ⟨y, hy, h⟩)
    · exact ⟨x, List.perm_middle.mem_iff.2 (List.mem_cons_self ..), h⟩
    · exact ⟨y, List.perm_middle.mem_iff.2 (List.mem_cons_of_mem _ hy), h⟩

theorem not_enabled {l : List (Ptr × Entry)} {a : Addr} (h : ∀ x ∈ l, x.2.addr ≠ a) : ¬ Enabled l a := by
  rintro ⟨x, hx, ha, -⟩
  exact h x hx ha

/-- A call that returns 0 keeps the addresses apart, and its own address is enabled after it exactly
if it wrote the trap instruction there; the others are what they were. -/
theorem Effect.enabled {n n' : ℤ} {l l' : List (Ptr × Entry)} {c : Call} {taken given : List Ptr}
    (h : Effect n l c taken given n' l') (ha : Apart l) :
    Apart l' ∧ (Enabled l' c.addr ↔ c.opcode = int3Opcode) ∧ ∀ a, a ≠ c.addr → (Enabled l' a ↔ Enabled l a) := by
  cases h with
  | @switch pre post p e c status he hs =>
    have hne := (apart_middle.1 ha).1
    refine ⟨?_, ?_, ?_⟩
    · unfold Apart at ha ⊢
      simpa using ha
    -- no other entry has the address of the call
    · have hother : ¬ Enabled (pre ++ post) c.addr := not_enabled fun x hx => by rw [← he]; exact hne x hx
      rw [enabled_middle]
      rcases patched_iff.1 (Call.patched hs) with ⟨rfl, ho⟩ | ⟨rfl, ho⟩
      · rw [ho]; exact iff_of_true (.inl ⟨he, rfl⟩) rfl
      · rw [ho]
        refine iff_of_false ?_ (by decide)
        rintro (⟨-, h0⟩ | h0)
        · exact absurd h0 zero_ne_one
        · exact hother h0
    · intro a hac
      have hea : e.addr ≠ a := fun h => hac (h.symm.trans he)
      rw [enabled_middle, enabled_middle]
      simp only [hea, false_and, false_or]
  | @create _ p addr hne hlt =>
    have hnew := fun a => @enabled_middle [] l (p, ⟨u32 (i32 (n + 1)), 1, addr⟩) a
    simp only [List.nil_append] at hnew
    refine ⟨(@apart_middle [] l _).2 ⟨hne, ha⟩, ?_, ?_⟩
    · exact iff_of_true ((hnew addr).2 (.inl ⟨rfl, trivial⟩)) rfl
    · intro a hac
      have : addr ≠ a := Ne.symm hac
      simp only [hnew, this, false_and, false_or]
  | @remove pre post p e =>
    obtain ⟨hne, hapart⟩ := apart_middle.1 ha
    have hop : (Call.remove e.addr).opcode ≠ int3Opcode := show pushrbpOpcode ≠ int3Opcode by decide
    refine ⟨hapart, iff_of_false (not_enabled hne) hop, ?_⟩
    intro a hac
    have : e.addr ≠ a := Ne.symm hac
    rw [enabled_middle]
    simp only [this, false_and, false_or]

/-- What the list has of the allocator changes by what the call takes and gives back. -/
theorem Effect.objects {n n' : ℤ} {l l' : List (Ptr × Entry)} {c : Call} {taken given : List Ptr}
    (h : Effect n l c taken given n' l') (d : Option Ptr) :
    (objects d l ++ taken.map Obj.node).Perm (given.map Obj.node ++ objects d l') := by
  unfold Debug.objects
  cases h with
  | switch he hs => simp
  | create hne hlt =>
    simp only [List.map_cons, List.map_nil, List.nil_append]
    rw [List.append_assoc]
    exact List.perm_append_comm.append_left _
  | @remove pre post p e =>
    simp only [List.map_append, List.map_cons, List.map_nil, List.append_nil, List.singleton_append]
    rw [← List.append_assoc, ← List.append_assoc]
    exact List.perm_middle

/-! ## Steps -/

section Step

variable {orig : Addr → UInt8} {es : List LifeEvent} {s s' : Debugger} {l : List (Ptr × BreakpointInfo)}

theorem Live.nil_of_none (h : Live s l) (hd : s.dbg = none) : l = [] := by
  cases h with
  | idle => rfl
  | session ht =>
    have := ht.dbg
    rw [hd] at this
    cases this

theorem Live.tracks (h : Live s l) {d : Ptr} (hd : s.dbg = some d) : ∃ info, Tracks s d info l := by
  cases h with
  | idle hn =>
    rw [hn] at hd
    cases hd
  | @session d' info _ ht =>
    obtain rfl := Option.some.inj (ht.dbg.symm.trans hd)
    exact ⟨info, ht⟩

/-- Without a live session every call on the list is refused. -/
theorem refused_of_none (hd : s.dbg = none) (fuel : ℕ) (c : Call) : Refused fuel s c := by
  have hl : ∀ addr, s.lookup fuel addr = none := fun addr => by simp [Debugger.lookup, hd]
  cases c with
  | set fresh addr => exact ⟨by simp [Call.exec, doSetBreakpoint, hd], by simp [Call.taken, hl], rfl⟩
  | remove addr => exact ⟨by simp [Call.exec, doRemoveBreakpoint, hd], rfl, by simp [Call.given, hl]⟩
  | enable addr =>
    exact ⟨by simp [Call.exec, doEnableBreakpoint, Debugger.switchBreakpoint, hd], rfl, rfl⟩
  | disable addr =>
    exact ⟨by simp [Call.exec, doDisableBreakpoint, Debugger.switchBreakpoint, hd], rfl, rfl⟩

/-- The books stay balanced when what the live session has changes by what is taken and given back. -/
theorem balance {taken given new back live live' : List Obj} (h : taken.Perm (given ++ live))
    (hs : (live ++ new).Perm (back ++ live')) : (taken ++ new).Perm (given ++ back ++ live') :=
  calc taken ++ new
    _ |>.Perm (given ++ live ++ new) := h.append_right new
    _ = given ++ (live ++ new) := List.append_assoc ..
    _ |>.Perm (given ++ (back ++ live')) := hs.append_left given
    _ = given ++ back ++ live' := (List.append_assoc ..).symm

/-- An event that writes no byte. -/
theorem Confined.silent (h : Confined orig es s l) {e : LifeEvent} (hw : ∀ a, e.wrote a = none)
    {l' : List (Ptr × BreakpointInfo)} (hlive : Live s' l') (hmem : s'.mem = s.mem)
    (hen : ∀ a, Enabled (listed l') a ↔ Enabled (listed l) a)
    (hobj : (objects s.dbg (listed l) ++ e.taken).Perm (e.given ++ objects s'.dbg (listed l'))) :
    Confined orig (es ++ [e]) s' l' where
  live := hlive
  patched := by
    intro a
    rw [written_snoc, hw, Option.none_or, h.patched, hen]
  code := by
    intro a
    rw [written_snoc, hw, Option.none_or, hmem, h.code]
  ledger := by
    simp only [List.flatMap_append, List.flatMap_cons, List.flatMap_nil, List.append_nil]
    exact balance h.ledger hobj

theorem Confined.refused (h : Confined orig es s l) {e : LifeEvent} (hret : e.ret ≠ 0) (ht : e.taken = [])
    (hg : e.given = []) : Confined orig (es ++ [e]) s l := by
  refine h.silent ?_ h.live rfl (fun a => Iff.rfl) ?_
  · intro a
    unfold LifeEvent.wrote
    split
    · exact if_neg fun h => hret h.1
    · rfl
  · rw [ht, hg, List.append_nil, List.nil_append]

/-- A call on the list that returns 0. -/
theorem Confined.done (h : Confined orig es s l) {d : Ptr} {info info' : DebugInfo} {l' : List (Ptr × BreakpointInfo)}
    {c : Call} {taken given : List Ptr} {n : ℤ} (hd : s.dbg = some d) (ht' : Tracks s' d info' l')
    (hcode : s'.mem = Function.update s.mem c.addr c.opcode)
    (he : Effect info.breakptNum (listed l) c taken given n (listed l')) (ha : Apart (listed l)) :
    Confined orig (es ++ [⟨.call c, 0, taken.map .node, given.map .node⟩]) s' l' := by
  obtain ⟨-, hself, hother⟩ := he.enabled ha
  have hwrote : ∀ a, LifeEvent.wrote ⟨.call c, 0, taken.map .node, given.map .node⟩ a =
      if c.addr = a then some c.opcode else none := fun a => by simp [LifeEvent.wrote]
  constructor
  · exact .session ht'
  · intro a
    rw [written_snoc, hwrote]
    by_cases hac : a = c.addr
    · subst hac
      rw [if_pos rfl, hself]
      simp
    · rw [if_neg (Ne.symm hac), Option.none_or, h.patched, hother a hac]
  · intro a
    rw [written_snoc, hwrote, hcode]
    by_cases hac : a = c.addr
    · subst hac
      simp
    · rw [if_neg (Ne.symm hac), Option.none_or, Function.update_of_ne hac, h.code]
  · simp only [List.flatMap_append, List.flatMap_cons, List.flatMap_nil, List.append_nil]
    have hobj := he.objects s.dbg
    rw [ht'.dbg, ← hd]
    exact balance h.ledger hobj

/-- A list without an enabled node can be given up. -/
theorem Tracks.findEnabled {d : Ptr} {info : DebugInfo} (h : Tracks s d info l) {fuel : ℕ}
    (hf : maxBreakpoints ≤ fuel) :
    (s.findEnabled fuel).map Option.isNone = some true ↔ ∀ a, ¬ Enabled (listed l) a := by
  unfold Debugger.findEnabled
  simp only [h.dbg, h.infos, Option.bind_eq_bind, Option.bind_some]
  rcases @walk_chain _ _ _ _ (fun b => b.status == 1) _ _ h.chain _ (h.length.trans hf) none with
    ⟨hw, hno⟩ | ⟨pre, p, b, post, rfl, hb, -, hw⟩
  · rw [hw]
    refine iff_of_true rfl ?_
    rintro a ⟨y, hy, -, hs⟩
    obtain ⟨x, hx, rfl⟩ := List.mem_map.1 hy
    have := hno x hx
    simp only [beq_eq_false_iff_ne] at this
    exact this hs
  · rw [hw]
    refine iff_of_false (by simp) ?_
    intro h
    refine h b.addr ?_
    rw [listed_append, listed_cons, enabled_middle]
    exact .inl ⟨rfl, show b.status = 1 from by simpa using hb⟩

/-- An exit returns nothing of its own. -/
theorem exec_exit {fuel : ℕ} {ret : ℤ} {s'' : Debugger} (hexit : s.debuggerOnExit fuel = some s'')
    (hexec : LifeCall.exit.exec fuel s = some (ret, s')) : ret = 0 ∧ s' = s'' := by
  simp only [LifeCall.exec, hexit, Option.map_some] at hexec
  obtain ⟨rfl, rfl⟩ := Prod.mk.inj (Option.some.inj hexec)
  exact ⟨rfl, rfl⟩

/-- The exit of a debugger: the list and its counters are freed, the code stays. -/
theorem Tracks.exit {d : Ptr} {info : DebugInfo} (h : Tracks s d info l) {fuel : ℕ} (hf : maxBreakpoints ≤ fuel) :
    ∃ s', s.debuggerOnExit fuel = some s' ∧ s'.dbg = none ∧ s'.mem = s.mem ∧
      LifeCall.given fuel s .exit = (listed l).map (fun x => .node x.1) ++ [.info d] := by
  have hd := dispose_chain h.chain (h.length.trans hf)
  have hexit : s.debuggerOnExit fuel = some { s with
      dbg := none
      infos := Function.update s.infos d none
      nodes := fun k => if k ∈ l.map Prod.fst then none else s.nodes k } := by
    simp only [debuggerOnExit, h.dbg, h.infos, Option.bind_eq_bind, Option.bind_some, hd]
  refine ⟨_, hexit, rfl, rfl, ?_⟩
  simp only [LifeCall.given, h.dbg, h.infos, Option.bind_some, hd]
  simp [listed, Function.comp_def]

/-- Every call ends and faults nowhere, so it frees nothing that is not allocated. -/
theorem Live.returns (h : Live s l) {fuel : ℕ} (hf : maxBreakpoints ≤ fuel) {c : LifeCall} (hc : c.Fresh s) :
    ∃ ret s', c.exec fuel s = some (ret, s') := by
  cases c with
  | become fresh => exact ⟨_, _, rfl⟩
  | call c =>
    cases h with
    | idle hn => exact ⟨_, _, (refused_of_none hn fuel c).exec⟩
    | session ht =>
      rcases ht.exec hf hc with hr | ⟨s', hd⟩
      · exact ⟨_, _, hr.exec⟩
      · exact ⟨_, _, hd.exec⟩
  | exit =>
    cases h with
    | idle hn => exact ⟨0, s, by simp [LifeCall.exec, debuggerOnExit, hn]⟩
    | session ht =>
      obtain ⟨s', he, -⟩ := ht.exit hf
      exact ⟨0, s', by simp only [LifeCall.exec, he, Option.map_some]⟩

/-- A session starts where none is live. -/
theorem Confined.become (h : Confined orig es s l) (ha : Apart (listed l)) {fuel : ℕ} {fresh : Option Ptr} {ret : ℤ}
    (hexec : (LifeCall.become fresh).exec fuel s = some (ret, s')) (hd : s.dbg = none) :
    ∃ l', Confined orig (es ++ [⟨.become fresh, ret, (LifeCall.become fresh).taken fuel s,
      (LifeCall.become fresh).given fuel s⟩]) s' l' ∧ Apart (listed l') := by
  obtain rfl := h.live.nil_of_none hd
  have hs' : s' = (s.doBecomeDebugger fresh).2 := congrArg Prod.snd (Option.some.inj hexec).symm
  refine ⟨[], h.silent (fun a => rfl) ?_ ?_ (fun a => Iff.rfl) ?_, ha⟩
  · rw [hs']
    cases fresh with
    | none => exact .idle rfl
    | some d => exact .session (tracks_becomeDebugger s d)
  · rw [hs']
    cases fresh <;> rfl
  · rw [hs', hd]
    cases fresh <;> exact .refl _

theorem Confined.call (h : Confined orig es s l) (ha : Apart (listed l)) {fuel : ℕ} (hf : maxBreakpoints ≤ fuel)
    {c : Call} {ret : ℤ} (hfresh : (LifeCall.call c).Fresh s)
    (hexec : (LifeCall.call c).exec fuel s = some (ret, s')) :
    ∃ l', Confined orig (es ++ [⟨.call c, ret, (LifeCall.call c).taken fuel s, (LifeCall.call c).given fuel s⟩]) s' l' ∧
      Apart (listed l') := by
  -- refused, without a session or within one, or done on the list of the session
  have hcases : Refused fuel s c ∨ ∃ d info s'', s.dbg = some d ∧ Tracks s d info l ∧ Done fuel s d info l c s'' := by
    cases hl : s.dbg with
    | none => exact .inl (refused_of_none hl fuel c)
    | some d =>
      obtain ⟨info, ht⟩ := h.live.tracks hl
      rcases ht.exec hf hfresh with hr | ⟨s'', hd⟩
      · exact .inl hr
      · exact .inr ⟨d, info, s'', rfl, ht, hd⟩
  rcases hcases with hr | ⟨d, info, s'', hl, ht, hd⟩
  · obtain ⟨rfl, rfl⟩ := Prod.mk.inj (Option.some.inj (hexec.symm.trans hr.exec))
    refine ⟨l, h.refused (show (-1 : ℤ) ≠ 0 by decide) ?_ ?_, ha⟩
    · simp only [LifeCall.taken, hr.taken, List.map_nil]
    · simp only [LifeCall.given, hr.given, List.map_nil]
  · obtain ⟨rfl, rfl⟩ := Prod.mk.inj (Option.some.inj (hexec.symm.trans hd.exec))
    obtain ⟨info', l', ht', he⟩ := hd.tracks
    exact ⟨l', h.done hl ht' hd.code he ha, (he.enabled ha).1⟩

/-- A debugger exits without an enabled breakpoint, or a process that is none. -/
theorem Confined.exit (h : Confined orig es s l) (ha : Apart (listed l)) {fuel : ℕ} (hf : maxBreakpoints ≤ fuel)
    {ret : ℤ} (hexec : LifeCall.exit.exec fuel s = some (ret, s')) (htidy : LifeCall.exit.Tidy fuel s) :
    ∃ l', Confined orig (es ++ [⟨.exit, ret, LifeCall.exit.taken fuel s, LifeCall.exit.given fuel s⟩]) s' l' ∧
      Apart (listed l') := by
  cases hl : s.dbg with
  | none =>
    have hexit : s.debuggerOnExit fuel = some s := by simp [debuggerOnExit, hl]
    obtain ⟨rfl, rfl⟩ := exec_exit hexit hexec
    refine ⟨l, h.silent (fun a => rfl) h.live rfl (fun a => Iff.rfl) ?_, ha⟩
    simp [LifeCall.taken, LifeCall.given, hl]
  | some d =>
    obtain ⟨info, ht⟩ := h.live.tracks hl
    have hnone := (ht.findEnabled hf).1 htidy
    obtain ⟨s'', hexit, hdbg, hmem, hfreed⟩ := ht.exit hf
    obtain ⟨rfl, rfl⟩ := exec_exit hexit hexec
    refine ⟨[], h.silent (fun a => rfl) (.idle hdbg) hmem ?_ ?_, List.nodup_nil⟩
    · intro a
      exact iff_of_false (fun ⟨x, hx, _⟩ => List.not_mem_nil hx) (hnone a)
    · simp only [hfreed, hdbg, hl, LifeCall.taken, objects, Option.toList, List.map_cons, List.map_nil,
        List.append_nil, listed_nil]
      exact List.perm_append_comm

/-- A tidy step keeps breakpoints in their session. -/
theorem Confined.step (h : Confined orig es s l) (ha : Apart (listed l)) {fuel : ℕ} (hf : maxBreakpoints ≤ fuel)
    {e : LifeEvent} (hs : TidyStep fuel s e s') :
    ∃ l', Confined orig (es ++ [e]) s' l' ∧ Apart (listed l') := by
  obtain ⟨⟨c, ret, taken, given⟩, ⟨⟨hfresh, hexec, htaken, hgiven⟩, htidy⟩⟩ := e, hs
  simp only at hfresh hexec htaken hgiven htidy
  subst htaken hgiven
  cases c with
  | become fresh => exact h.become ha hexec htidy
  | call c => exact h.call ha hf hfresh hexec
  | exit => exact h.exit ha hf hexec htidy

end Step

/-! ## Lives -/

/-- Along a tidy life nothing outlives its session. -/
theorem run_apart {fuel : ℕ} (hf : maxBreakpoints ≤ fuel) {s₀ s : Debugger} (h0 : s₀.dbg = none)
    {es : List LifeEvent} (h : Run (TidyStep fuel) s₀ es s) : ∃ l, Confined s₀.mem es s l ∧ Apart (listed l) := by
  refine h.inv (P := fun es s => ∃ l, Confined s₀.mem es s l ∧ Apart (listed l)) ⟨[], ?_, List.nodup_nil⟩ ?_
  · refine ⟨.idle h0, ?_, fun a => rfl, ?_⟩
    · intro a
      exact iff_of_false (by simp [written]) fun ⟨x, hx, _⟩ => List.not_mem_nil hx
    · simp [objects, h0]
  · rintro es s e s' - ⟨l, hc, ha⟩ hs
    exact hc.step ha hf hs

/-- A session starts with no breakpoints. -/
theorem Live.nil_of_become {s : Debugger} {fresh : Option Ptr} {l : List (Ptr × BreakpointInfo)}
    (h : Live (s.doBecomeDebugger fresh).2 l) : l = [] := by
  cases fresh with
  | none => exact h.nil_of_none rfl
  | some d =>
    obtain ⟨info, ht⟩ := h.tracks (d := d) rfl
    have hi := ht.infos.symm.trans (Function.update_self ..)
    have hc := ht.chain
    rw [Option.some.inj hi] at hc
    cases hc
    rfl

/-- A step that is not tidy leaves a patched byte or an object behind. -/
theorem Confined.tidy_of_step {orig : Addr → UInt8} {es : List LifeEvent} {s s' : Debugger}
    {l l' : List (Ptr × BreakpointInfo)} (h : Confined orig es s l) {fuel : ℕ} (hf : maxBreakpoints ≤ fuel)
    {e : LifeEvent} (hs : LifeStep fuel s e s') (h' : Confined orig (es ++ [e]) s' l') : e.call.Tidy fuel s := by
  obtain ⟨⟨c, ret, taken, given⟩, ⟨-, hexec, htaken, hgiven⟩⟩ := e, hs
  simp only at hexec htaken hgiven ⊢
  cases c with
  | call c => trivial
  | become fresh =>
    cases hl : s.dbg with
    | none => exact hl
    | some d =>
      exfalso
      have hs' : s' = (s.doBecomeDebugger fresh).2 := congrArg Prod.snd (Option.some.inj hexec).symm
      -- the new session is empty, and nothing was given back for the old one
      have hnew : (objects s'.dbg (listed l')).length = taken.length := by
        have hlive := h'.live
        rw [hs'] at hlive
        rw [htaken, hs', hlive.nil_of_become]
        cases fresh <;> rfl
      have hlen := h.ledger.length_eq
      have hlen' := h'.ledger.length_eq
      simp only [List.flatMap_append, List.flatMap_cons, List.flatMap_nil, List.append_nil, List.length_append, hnew,
        hgiven, LifeCall.given] at hlen hlen'
      simp only [objects, hl, Option.toList, List.map_cons, List.map_nil, List.length_append, List.length_cons] at hlen
      omega
  | exit =>
    cases hl : s.dbg with
    | none => simp [LifeCall.Tidy, Debugger.findEnabled, hl]
    | some d =>
      obtain ⟨info, ht⟩ := h.live.tracks hl
      obtain ⟨s'', hexit, hdbg, -⟩ := ht.exit hf
      obtain ⟨rfl, rfl⟩ := exec_exit hexit hexec
      obtain rfl := h'.live.nil_of_none hdbg
      refine (ht.findEnabled hf).2 fun a ha => ?_
      have hw := (h.patched a).2 ha
      have hw' : written (es ++ [⟨.exit, 0, taken, given⟩]) a = written es a := by
        rw [written_snoc]
        exact Option.none_or
      obtain ⟨x, hx, -⟩ := (h'.patched a).1 (hw'.trans hw)
      cases hx

/-- No breakpoint outlives its session in a tidy life. Along every run in which `do_become_debugger`
is called only without a live session and `debugger_on_exit` only with no breakpoint enabled: the
bytes patched and not restored are those of the enabled nodes of the live session; without one every
trap instruction in the code is original; everything allocated and not given back belongs to the live
session; every call returns; and the next step keeps all this exactly if it is tidy. -/
theorem run_confined {fuel : ℕ} (hf : maxBreakpoints ≤ fuel) {s₀ s : Debugger} (h0 : s₀.dbg = none)
    {es : List LifeEvent} (h : Run (TidyStep fuel) s₀ es s) :
    (∃ l, Confined s₀.mem es s l) ∧
    (s.dbg = none → ∀ a, s.mem a = int3Opcode → s₀.mem a = int3Opcode) ∧
    (∀ c : LifeCall, c.Fresh s → ∃ ret s', c.exec fuel s = some (ret, s')) ∧
    ∀ e s', LifeStep fuel s e s' → ((∃ l', Confined s₀.mem (es ++ [e]) s' l') ↔ e.call.Tidy fuel s) := by
  obtain ⟨l, hc, ha⟩ := run_apart hf h0 h
  refine ⟨⟨l, hc⟩, ?_, fun c => hc.live.returns hf, ?_⟩
  · intro hd a hm
    obtain rfl := hc.live.nil_of_none hd
    have hw : written es a ≠ some int3Opcode := fun hw => by
      obtain ⟨x, hx, -⟩ := (hc.patched a).1 hw
      cases hx
    rw [hc.code a] at hm
    cases hl : written es a with
    | none => rwa [hl] at hm
    | some b =>
      rw [hl] at hm hw
      exact absurd (congrArg some hm) hw
  · intro e s' hs
    constructor
    · rintro ⟨l', h'⟩
      exact hc.tidy_of_step hf hs h'
    · intro ht
      obtain ⟨l', h', -⟩ := hc.step ha hf ⟨hs, ht⟩
      exact ⟨l', h'⟩

/-! ## Scripts of lives -/

def lifeNext (fuel : ℕ) (s : Debugger) (c : LifeCall) : LifeEvent × Debugger :=
  match c.exec fuel s with
  | some (ret, s') => (⟨c, ret, c.taken fuel s, c.given fuel s⟩, s')
  | none => (⟨c, 0, [], []⟩, s)

/-- A call that makes a step. -/
def LifeOk (fuel : ℕ) (s : Debugger) (c : LifeCall) : Prop := c.Fresh s ∧ (c.exec fuel s).isSome = true

instance (s : Debugger) : DecidablePred (Call.Fresh s) := fun c => by
  rcases c <;> unfold Call.Fresh <;> infer_instance

instance (s : Debugger) : DecidablePred (LifeCall.Fresh s) := fun c => by
  rcases c <;> unfold LifeCall.Fresh <;> infer_instance

instance (fuel : ℕ) (s : Debugger) : DecidablePred (LifeCall.Tidy fuel s) := fun c => by
  rcases c <;> unfold LifeCall.Tidy <;> infer_instance

instance (fuel : ℕ) (s : Debugger) (c : LifeCall) : Decidable (LifeOk fuel s c) := by
  unfold LifeOk; infer_instance

theorem lifeNext_call (fuel : ℕ) (s : Debugger) (c : LifeCall) : (lifeNext fuel s c).1.call = c := by
  unfold lifeNext
  split <;> rfl

theorem lifeStep_next {fuel : ℕ} {s : Debugger} {c : LifeCall} (h : LifeOk fuel s c) :
    LifeStep fuel s (lifeNext fuel s c).1 (lifeNext fuel s c).2 := by
  obtain ⟨hfresh, he⟩ := h
  obtain ⟨⟨ret, s'⟩, hexec⟩ := Option.isSome_iff_exists.1 he
  have hnext : lifeNext fuel s c = (⟨c, ret, c.taken fuel s, c.given fuel s⟩, s') := by
    unfold lifeNext; rw [hexec]
  rw [hnext]
  exact ⟨hfresh, hexec, rfl, rfl⟩

/-- Two sessions, the first ended with its only breakpoint disabled. -/
theorem run_confined_of_two :
    let s₀ : Debugger := ⟨none, fun _ => none, fun _ => none, fun _ => pushrbpOpcode⟩
    let r := script (lifeNext 8) s₀ [.become (some 1), .call (.set (some 2) 64), .call (.disable 64), .exit,
      .become (some 1), .call (.set (some 2) 80)]
    (∃ l, Confined s₀.mem r.1 r.2 l) ∧
    (r.2.dbg = none → ∀ a, r.2.mem a = int3Opcode → s₀.mem a = int3Opcode) ∧
    (∀ c : LifeCall, c.Fresh r.2 → ∃ ret s', c.exec 8 r.2 = some (ret, s')) ∧
    ∀ e s', LifeStep 8 r.2 e s' → ((∃ l', Confined s₀.mem (r.1 ++ [e]) s' l') ↔ e.call.Tidy 8 r.2) := by
  intro s₀ r
  have h : Run (TidyStep 8) s₀ r.1 r.2 :=
    Run.script (lifeNext 8) (fun s c => LifeOk 8 s c ∧ c.Tidy 8 s)
      (fun s c h => ⟨lifeStep_next h.1, by rw [lifeNext_call]; exact h.2⟩) (by decide)
  exact run_confined (by decide) rfl h

/-- A byte patched and not restored, without a list. -/
theorem not_confined {orig : Addr → UInt8} {es : List LifeEvent} {s : Debugger} {a : Addr}
    (hw : written es a = some int3Opcode) (hl : ∀ l, Live s l → l = []) : ¬ ∃ l, Confined orig es s l := by
  rintro ⟨l, h⟩
  obtain rfl := hl l h.live
  obtain ⟨x, hx, -⟩ := (h.patched a).1 hw
  cases hx

/-- A debugger that exits with a breakpoint enabled leaves the trap instruction behind, and so does
one that calls `do_become_debugger` a second time, which also leaks the list. -/
theorem trap_outlives_session :
    let s₀ : Debugger := ⟨none, fun _ => none, fun _ => none, fun _ => pushrbpOpcode⟩
    let r := script (lifeNext 8) s₀ [.become (some 1), .call (.set (some 2) 64), .exit]
    let r' := script (lifeNext 8) s₀ [.become (some 1), .call (.set (some 2) 64), .become (some 3)]
    (Run (LifeStep 8) s₀ r.1 r.2 ∧ r.2.dbg = none ∧ r.2.mem 64 = int3Opcode ∧ ¬ ∃ l, Confined s₀.mem r.1 r.2 l) ∧
    (Run (LifeStep 8) s₀ r'.1 r'.2 ∧ r'.2.mem 64 = int3Opcode ∧ (r'.2.nodes 2).isSome = true ∧
      (r'.2.infos 1).isSome = true ∧ ¬ ∃ l, Confined s₀.mem r'.1 r'.2 l) := by
  intro s₀ r r'
  have hrun : ∀ cs, Scripted (lifeNext 8) (LifeOk 8) s₀ cs →
      Run (LifeStep 8) s₀ (script (lifeNext 8) s₀ cs).1 (script (lifeNext 8) s₀ cs).2 := fun cs h =>
    Run.script (lifeNext 8) _ (fun s c => lifeStep_next) h
  refine ⟨⟨hrun _ (by decide), rfl, by decide, ?_⟩, hrun _ (by decide), by decide, by decide, by decide, ?_⟩
  · exact @not_confined _ _ _ 64 (by decide) fun l hl => hl.nil_of_none rfl
  · exact @not_confined _ _ _ 64 (by decide) fun l hl =>
      @Live.nil_of_become (script (lifeNext 8) s₀ [.become (some 1), .call (.set (some 2) 64)]).2 (some 3) l hl

end CS330.Debug
