/-
A debugging session: along any calls the list says what the ledger says and the code shows the breakpoints on the
list, and so list, counters and code bytes agree.
-/
import CS330.Debug.Ledger

namespace CS330.Debug

open CS330.Lib Debugger

/-! ## Calls -/

/-- A breakpoint is set only where the original code has the one-byte push, and the allocator hands
out a node that is not in use. -/
def Call.Legal (orig : Addr → UInt8) (s : Debugger) : Call → Prop
  | .set fresh addr => orig addr = pushrbpOpcode ∧ ∀ p ∈ fresh, s.nodes p = none
  | _ => True

section Step

variable {orig : Addr → UInt8} {s : Debugger} {c : Call}

theorem Call.Legal.fresh (h : c.Legal orig s) : c.Fresh s := by
  cases c with
  | set fresh addr => exact h.2
  | remove addr => trivial
  | enable addr => trivial
  | disable addr => trivial

theorem Call.Legal.placed (h : c.Legal orig s) : ∀ fresh addr, c = .set fresh addr → orig addr = pushrbpOpcode := by
  rintro fresh addr rfl
  exact h.1

theorem Call.patched {status : ℕ} (h : c.status = some status) : Patched status c.opcode := by
  cases c with
  | set fresh addr => cases h; exact .enabled
  | enable addr => cases h; exact .enabled
  | disable addr => cases h; exact .disabled
  | remove addr => cases h

/-- What a call that returns 0 does to the list and the byte it writes go together. -/
theorem Effect.shows {n n' : ℤ} {es es' : List (Ptr × Entry)} {taken given : List Ptr}
    (he : Effect n es c taken given n' es') {code : Addr → UInt8} (h : Shows orig code (es.map Prod.snd))
    (hplaced : ∀ fresh addr, c = .set fresh addr → orig addr = pushrbpOpcode) :
    Shows orig (Function.update code c.addr c.opcode) (es'.map Prod.snd) := by
  cases he with
  | switch haddr hs =>
    rw [List.map_append, List.map_cons] at h ⊢
    rw [← haddr]
    exact h.switch (Call.patched hs)
  | create hne hlt => exact h.create (List.forall_mem_map.2 hne) (hplaced _ _ rfl)
  | remove =>
    rw [List.map_append, List.map_cons] at h
    rw [List.map_append]
    exact h.remove

end Step

/-! ## Sessions -/

/-- One call of a session with what it returned. -/
structure SessionStep (orig : Addr → UInt8) (fuel : ℕ) (s : Debugger) (d : Call × ℤ) (s' : Debugger) : Prop where
  legal : d.1.Legal orig s
  exec : d.1.exec fuel s = some (d.2, s')

theorem SessionStep.listStep {orig : Addr → UInt8} {fuel : ℕ} {s s' : Debugger} {d : Call × ℤ}
    (h : SessionStep orig fuel s d s') : ListStep fuel s d s' := ⟨h.legal.fresh, h.exec⟩

/-- Along every session the list says what the ledger says, and the code shows what is on the list. -/
theorem run_shows {fuel : ℕ} (hf : maxBreakpoints ≤ fuel) {s₀ s : Debugger} {d : Ptr} {ds : List (Call × ℤ)}
    (h : Run (SessionStep s₀.mem fuel) (s₀.doBecomeDebugger (some d)).2 ds s) :
    ∃ info l, Tracks s d info l ∧ (ledger ds).Kept ((listed l).map Prod.snd) info.breakptNum ∧
      Shows s₀.mem s.mem ((listed l).map Prod.snd) := by
  obtain ⟨info, l, ht, hshows⟩ : ∃ info l, Tracks s d info l ∧ Shows s₀.mem s.mem ((listed l).map Prod.snd) := by
    refine h.invariant (P := fun s => ∃ info l, Tracks s d info l ∧ Shows s₀.mem s.mem ((listed l).map Prod.snd))
      ⟨_, [], tracks_becomeDebugger s₀ d, shows_nil s₀.mem⟩ ?_
    rintro s ⟨c, ret⟩ s' ⟨info, l, ht, hshows⟩ hs
    rcases hs.listStep.cases hf ht with ⟨-, rfl⟩ | ⟨-, hdone⟩
    · exact ⟨info, l, ht, hshows⟩
    · obtain ⟨info', l', ht', he⟩ := hdone.tracks
      refine ⟨info', l', ht', ?_⟩
      rw [hdone.code]
      exact he.shows hshows hs.legal.placed
  -- the two invariants speak of one list
  have hlist : Run (ListStep fuel) (s₀.doBecomeDebugger (some d)).2 ds s := h.mono fun s e s' => SessionStep.listStep
  obtain ⟨info', l', ht', hk⟩ := run_kept hf hlist
  obtain rfl := Option.some.inj (ht.infos.symm.trans ht'.infos)
  rw [← ht.chain.unique ht'.chain] at hk
  exact ⟨info, l, ht, hk, hshows⟩

/-! ## Scripts -/

instance (orig : Addr → UInt8) (s : Debugger) : DecidablePred (Call.Legal orig s) := fun c => by
  rcases c <;> unfold Call.Legal <;> infer_instance

/-- Carry out a call. -/
def next (fuel : ℕ) (s : Debugger) (c : Call) : (Call × ℤ) × Debugger :=
  match c.exec fuel s with
  | some (ret, s') => ((c, ret), s')
  | none => ((c, 0), s)

/-- A call that makes a step. -/
def Ok (orig : Addr → UInt8) (fuel : ℕ) (s : Debugger) (c : Call) : Prop :=
  c.Legal orig s ∧ (c.exec fuel s).isSome = true

instance (orig : Addr → UInt8) (fuel : ℕ) (s : Debugger) (c : Call) : Decidable (Ok orig fuel s c) := by
  unfold Ok; infer_instance

theorem run_script {orig : Addr → UInt8} {fuel : ℕ} {s : Debugger} {cs : List Call}
    (h : Scripted (next fuel) (Ok orig fuel) s cs) :
    Run (SessionStep orig fuel) s (script (next fuel) s cs).1 (script (next fuel) s cs).2 := by
  refine Run.script (next fuel) _ ?_ h
  rintro s c ⟨hl, he⟩
  obtain ⟨⟨ret, s'⟩, hexec⟩ := Option.isSome_iff_exists.1 he
  have hnext : next fuel s c = ((c, ret), s') := by
    unfold next; rw [hexec]
  rw [hnext]
  exact ⟨hl, hexec⟩

/-! ## Agreement -/

/-- `l` is the list behind `ctx->dbg`, and `info` its counters. -/
def Listed (s : Debugger) (info : DebugInfo) (l : List BreakpointInfo) : Prop :=
  ∃ d ks, s.dbg = some d ∧ s.infos d = some info ∧ Chain s.nodes BreakpointInfo.next info.head ks ∧
    l = ks.map Prod.snd

/-- List, counters and code bytes agree: addresses do not repeat, `size` is the length, numbers
strictly decrease from the head and stay within the counter, each listed address holds the byte of
its status, and every other address holds its original byte. -/
structure InAgreement (orig : Addr → UInt8) (s : Debugger) (info : DebugInfo) (l : List BreakpointInfo) : Prop where
  addrs : (l.map BreakpointInfo.addr).Nodup
  size : info.size = l.length
  length : l.length ≤ maxBreakpoints
  nums : (l.map BreakpointInfo.num).Pairwise (· > ·)
  count : ∀ b ∈ l, (b.num : ℤ) ≤ info.breakptNum
  patched : ∀ b ∈ l, b.status = 1 ∧ s.mem b.addr = int3Opcode ∨ b.status = 0 ∧ s.mem b.addr = pushrbpOpcode
  rest : ∀ a, (∀ b ∈ l, b.addr ≠ a) → s.mem a = orig a

/-- Before the counter of the session overflows, the numbers on the list are those of the ledger. -/
theorem Ledger.Kept.entries_eq {g : Ledger} {es : List Entry} {n : ℤ} (h : g.Kept es n) (hlt : g.created < 2 ^ 31) :
    (es = g.live.map fun b => ⟨b.serial, b.status, b.addr⟩) ∧ n = g.created := by
  constructor
  · rw [h.entries]
    refine List.map_congr_left fun b hb => ?_
    have hbound := h.bound b hb
    have hnum : u32 (i32 b.serial) = b.serial := by
      rw [h.i32_serial hlt hb]
      exact u32_natCast (by omega)
    unfold Mark.entry
    rw [hnum]
  · rw [h.count]
    exact i32_of_range (by omega) (by omega)

/-- A list that says what the ledger says, over code that shows it, is in agreement. -/
theorem Tracks.inAgreement {s : Debugger} {d : Ptr} {info : DebugInfo} {ks : List (Ptr × BreakpointInfo)}
    (h : Tracks s d info ks) {g : Ledger} (hk : g.Kept ((listed ks).map Prod.snd) info.breakptNum)
    (hlt : g.created < 2 ^ 31) {orig : Addr → UInt8} (hs : Shows orig s.mem ((listed ks).map Prod.snd)) :
    InAgreement orig s info (ks.map Prod.snd) := by
  obtain ⟨hentries, hcount⟩ := hk.entries_eq hlt
  have hsnd : (listed ks).map Prod.snd = (ks.map Prod.snd).map BreakpointInfo.entry := by
    rw [listed_snd, List.map_map]
    rfl
  rw [hsnd] at hs hentries
  have hmem : ∀ b ∈ ks.map Prod.snd, b.entry ∈ (ks.map Prod.snd).map BreakpointInfo.entry :=
    fun b hb => List.mem_map_of_mem hb
  have hnums : (ks.map Prod.snd).map BreakpointInfo.num = g.live.map Mark.serial := by
    have hmap := congrArg (List.map Entry.num) hentries
    simp only [List.map_map] at hmap ⊢
    exact hmap
  constructor
  · have haddrs := hs.addrs
    rw [List.map_map] at haddrs
    exact haddrs
  · rw [h.size, List.length_map]
  · rw [List.length_map]
    exact h.length
  · rw [hnums]
    exact hk.serials
  · intro b hb
    have hnum : b.num ∈ g.live.map Mark.serial := by
      rw [← hnums]
      exact List.mem_map_of_mem hb
    obtain ⟨m, hm, hserial⟩ := List.mem_map.1 hnum
    rw [hcount, ← hserial]
    exact Int.ofNat_le.2 (hk.bound m hm)
  · intro b hb
    exact patched_iff.1 (hs.patched _ (hmem b hb))
  · intro a hno
    refine hs.rest a fun e he => ?_
    obtain ⟨b, hb, rfl⟩ := List.mem_map.1 he
    exact hno b hb

/-- The agreement of a debugging session. After a successful `do_become_debugger` and any calls, in two stages to `s₁`
and on to `s₂`, that create fewer than `2 ^ 31` breakpoints: list, counters and code bytes agree; a node whose number
had been given out at `s₁` was on the list at `s₁`, so numbers of removed breakpoints do not come back; and every
further call ends, with nothing changed if it returns `-1`. -/
theorem session_agrees {s₀ : Debugger} {d : Ptr} {fuel : ℕ} (hf : maxBreakpoints ≤ fuel) {cs cs' : List (Call × ℤ)}
    {s₁ s₂ : Debugger} (h₁ : Run (SessionStep s₀.mem fuel) (s₀.doBecomeDebugger (some d)).2 cs s₁)
    (h₂ : Run (SessionStep s₀.mem fuel) s₁ cs' s₂) (hcreated : (ledger (cs ++ cs')).created < 2 ^ 31) :
    ∃ info₁ l₁ info₂ l₂, Listed s₁ info₁ l₁ ∧ Listed s₂ info₂ l₂ ∧ InAgreement s₀.mem s₂ info₂ l₂ ∧
      (∀ b ∈ l₂, (b.num : ℤ) ≤ info₁.breakptNum → ∃ b₁ ∈ l₁, b₁.num = b.num ∧ b₁.addr = b.addr) ∧
      ∀ c : Call, c.Legal s₀.mem s₂ → ∃ ret s', c.exec fuel s₂ = some (ret, s') ∧ (ret = -1 → s' = s₂) := by
  have hsince := ledger_since cs cs'
  obtain ⟨info₁, ks₁, ht₁, hk₁, -⟩ := run_shows hf h₁
  obtain ⟨info₂, ks₂, ht₂, hk₂, hs₂⟩ := run_shows hf (h₁.append h₂)
  obtain ⟨hentries₁, hcount₁⟩ := hk₁.entries_eq (hsince.created.trans_lt hcreated)
  obtain ⟨hentries₂, -⟩ := hk₂.entries_eq hcreated
  refine ⟨info₁, ks₁.map Prod.snd, info₂, ks₂.map Prod.snd, ⟨d, ks₁, ht₁.dbg, ht₁.infos, ht₁.chain, rfl⟩,
    ⟨d, ks₂, ht₂.dbg, ht₂.infos, ht₂.chain, rfl⟩, ht₂.inAgreement hk₂ hcreated hs₂, ?_, ?_⟩
  · intro b hb hle
    obtain ⟨x, hx, rfl⟩ := List.mem_map.1 hb
    have hentry : x.2.entry ∈ (listed ks₂).map Prod.snd := by
      rw [listed_snd]
      exact List.mem_map.2 ⟨x, hx, rfl⟩
    -- the node is a breakpoint of the ledger, which was there at the first stage
    rw [hentries₂] at hentry
    obtain ⟨m, hm, hnode⟩ := List.mem_map.1 hentry
    obtain ⟨hnum, -, haddr⟩ := Entry.mk.inj hnode
    rw [hcount₁, ← hnum] at hle
    obtain ⟨m₁, hm₁, hserial, haddr₁⟩ := hsince.old m hm (Int.ofNat_le.1 hle)
    have hentry₁ : ⟨m₁.serial, m₁.status, m₁.addr⟩ ∈ (listed ks₁).map Prod.snd := by
      rw [hentries₁]
      exact List.mem_map_of_mem hm₁
    rw [listed_snd] at hentry₁
    obtain ⟨y, hy, hnode₁⟩ := List.mem_map.1 hentry₁
    obtain ⟨hnum₁, -, hy₁⟩ := Entry.mk.inj hnode₁
    refine ⟨y.2, List.mem_map.2 ⟨y, hy, rfl⟩, ?_, ?_⟩
    · rw [hnum₁, hserial, hnum]
    · rw [hy₁, haddr₁, haddr]
  · intro c hl
    rcases ht₂.exec hf hl.fresh with hr | ⟨s', hd⟩
    · exact ⟨-1, s₂, hr.exec, fun _ => rfl⟩
    · exact ⟨0, s', hd.exec, fun h0 => absurd h0 (by decide)⟩

/-- Two breakpoints are set, the older one is disabled and removed; then an address is set again with
a new number. -/
theorem session_agrees_of_three :
    let s₀ : Debugger := ⟨none, fun _ => none, fun _ => none, fun _ => pushrbpOpcode⟩
    let s := (s₀.doBecomeDebugger (some 1)).2
    let r₁ := script (next 8) s [.set (some 2) 64, .set (some 3) 80, .disable 64, .remove 64]
    let r₂ := script (next 8) r₁.2 [.set none 96, .set (some 2) 64]
    ∃ info₁ l₁ info₂ l₂, Listed r₁.2 info₁ l₁ ∧ Listed r₂.2 info₂ l₂ ∧ InAgreement s₀.mem r₂.2 info₂ l₂ ∧
      (∀ b ∈ l₂, (b.num : ℤ) ≤ info₁.breakptNum → ∃ b₁ ∈ l₁, b₁.num = b.num ∧ b₁.addr = b.addr) ∧
      ∀ c : Call, c.Legal s₀.mem r₂.2 → ∃ ret s', c.exec 8 r₂.2 = some (ret, s') ∧ (ret = -1 → s' = r₂.2) := by
  intro s₀ s r₁ r₂
  have h₁ : Run (SessionStep s₀.mem 8) s r₁.1 r₁.2 := run_script (by decide)
  have h₂ : Run (SessionStep s₀.mem 8) r₁.2 r₂.1 r₂.2 := run_script (by decide)
  exact session_agrees (by decide) h₁ h₂ (by decide)

end CS330.Debug
