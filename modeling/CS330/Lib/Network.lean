/-
Processes that talk through pipes, over any processes, pipes, bytes and local states. A pipe holds the bytes that are
written and not yet read. A read takes what is asked for, or all there is if that is less; from an empty pipe it
takes nothing, at once if no process that is running has the write end, and waits otherwise. A write waits until its
bytes fit, and kills the process if no running process has the read end. A forked process starts with the local state
its parent gives it.

Who has an end of a pipe while it runs does not change, other than by its start and its end. If every pipe is written
by one process and read by another one, in units of one size, then what happens does not depend on the order in which
the processes run: no process can find out whether another one is slow.
-/
import CS330.Lib.Determinacy

namespace CS330.Lib

/-! ## Networks -/

/-- What a process does next, and its local state behind that. -/
inductive Action (ι κ β L : Type*)
  | write (c : κ) (m : List β) (l : L)
  | read (c : κ) (n : ℕ) (k : List β → L)
  | fork (q : ι) (child l : L)
  | compute (l : L)
  | exit

/-- A process, before its start, as it runs, and behind its end. -/
inductive Proc (L : Type*)
  | absent
  | running (l : L)
  | ended (l : L)
  | killed
  deriving DecidableEq

def Proc.isRunning {L : Type*} : Proc L → Bool
  | .running _ => true
  | _ => false

/-- The code of each process; who holds the ends of a pipe while it runs, and how many bytes are in it at most. -/
structure Network (ι κ β L : Type*) where
  act : ι → L → Action ι κ β L
  writers : κ → List ι
  readers : κ → List ι
  room : κ → ℕ

namespace Network

variable {ι κ β L : Type*}

@[ext] structure Config (ι κ β L : Type*) where
  proc : ι → Proc L
  pipe : κ → List β

/-- What one turn changes: processes, and how many bytes are taken out of a pipe and which are put in behind. -/
structure Change (ι κ β L : Type*) where
  proc : ι → Option (Proc L)
  taken : κ → ℕ
  put : κ → List β

def Change.apply (e : Change ι κ β L) (s : Config ι κ β L) : Config ι κ β L :=
  ⟨fun q => (e.proc q).getD (s.proc q), fun c => (s.pipe c).drop (e.taken c) ++ e.put c⟩

/-- One of the processes is running. -/
def Config.held (s : Config ι κ β L) (ps : List ι) : Bool := ps.any fun q => (s.proc q).isRunning

section

variable [DecidableEq ι] [DecidableEq κ]

/-- One process changes, and no pipe does. -/
def Change.only (p : ι) (x : Proc L) : Change ι κ β L :=
  ⟨fun q => if q = p then some x else none, fun _ => 0, fun _ => []⟩

variable (N : Network ι κ β L)

/-- What the next turn of a process changes, unless it has to wait or does not run. -/
def change (s : Config ι κ β L) (p : ι) : Option (Change ι κ β L) :=
  match s.proc p with
  | .running l =>
    match N.act p l with
    | .write c m l =>
      if !s.held (N.readers c) then some (.only p .killed)
      else if (s.pipe c).length + m.length ≤ N.room c then
        some ⟨fun q => if q = p then some (.running l) else none, fun _ => 0, fun d => if d = c then m else []⟩
      else none
    | .read c n k =>
      if s.pipe c = [] then if s.held (N.writers c) then none else some (.only p (.running (k [])))
      else
        some ⟨fun q => if q = p then some (.running (k ((s.pipe c).take n))) else none,
          fun d => if d = c then n else 0, fun _ => []⟩
    | .fork q child l =>
      match s.proc q with
      | .absent =>
        some ⟨fun r => if r = q then some (.running child) else if r = p then some (.running l) else none,
          fun _ => 0, fun _ => []⟩
      | _ => none
    | .compute l => some (.only p (.running l))
    | .exit => some (.only p (.ended l))
  | _ => none

def next (s : Config ι κ β L) (p : ι) : Option (Config ι κ β L) := (N.change s p).map fun e => e.apply s

abbrev Step : Config ι κ β L → ι → Config ι κ β L → Prop := Takes N.next

/-- One process writes a pipe and one reads it, in units of one size, and an empty pipe has room for what is written; a
process is forked by one other process, which has the write ends its child has. -/
structure Discipline where
  writer : κ → ι
  reader : κ → ι
  unit : κ → ℕ
  parent : ι → ι
  unit_pos : ∀ c, 0 < unit c
  write : ∀ {p l c m l'}, N.act p l = .write c m l' → p = writer c ∧ unit c ∣ m.length ∧ m ≠ [] ∧ m.length ≤ N.room c
  read : ∀ {p l c n k}, N.act p l = .read c n k → p = reader c ∧ n = unit c
  fork : ∀ {p l q child l'}, N.act p l = .fork q child l' → p = parent q
  writes : ∀ c, writer c ∈ N.writers c
  inherits : ∀ c q, q ∈ N.writers c → parent q ∈ N.writers c

end

section

variable {s : Config ι κ β L} {e f : Change ι κ β L} {p q : ι}

/-! ## Changes -/

theorem only_proc [DecidableEq ι] (s : Config ι κ β L) (p : ι) (x : Proc L) (r : ι) :
    (if r = p then some x else none).getD (s.proc r) = Function.update s.proc p x r := by
  by_cases h : r = p
  · subst h
    simp
  · simp [h]

/-- The two changes are to other processes and other ends of pipes. -/
structure Apart (s : Config ι κ β L) (e f : Change ι κ β L) : Prop where
  proc : ∀ r, e.proc r = none ∨ f.proc r = none
  taken : ∀ c, e.taken c = 0 ∨ f.taken c = 0
  put : ∀ c, e.put c = [] ∨ f.put c = []
  enough : ∀ c, e.taken c ≤ (s.pipe c).length ∧ f.taken c ≤ (s.pipe c).length

theorem Apart.apply_apply (h : Apart s e f) : f.apply (e.apply s) = e.apply (f.apply s) := by
  refine Config.ext (funext fun r => ?_) (funext fun c => ?_)
  · show (f.proc r).getD ((e.proc r).getD (s.proc r)) = (e.proc r).getD ((f.proc r).getD (s.proc r))
    rcases h.proc r with hr | hr <;> simp [hr]
  · show ((s.pipe c).drop (e.taken c) ++ e.put c).drop (f.taken c) ++ f.put c =
      ((s.pipe c).drop (f.taken c) ++ f.put c).drop (e.taken c) ++ e.put c
    obtain ⟨he, hf⟩ := h.enough c
    rcases h.taken c with ht | ht <;> rcases h.put c with hp | hp <;>
      simp [ht, hp, List.drop_append_of_le_length, he, hf]

theorem held_eq_true {ps : List ι} : s.held ps = true ↔ ∃ r ∈ ps, (s.proc r).isRunning = true := by simp [Config.held]

variable {N : Network ι κ β L}

/-- What a turn may change. -/
structure Turn (D : N.Discipline) (s : Config ι κ β L) (p : ι) (e : Change ι κ β L) : Prop where
  running : (s.proc p).isRunning = true
  proc : ∀ r, e.proc r ≠ none → r = p ∨ D.parent r = p ∧ s.proc r = .absent
  taken : ∀ c, e.taken c ≠ 0 → p = D.reader c ∧ e.taken c = D.unit c ∧ s.pipe c ≠ []
  put : ∀ c, e.put c ≠ [] → p = D.writer c
  units : ∀ c, D.unit c ∣ (e.put c).length
  present : ∀ r, e.proc r ≠ some .absent

/-- Pipes hold whole units. -/
def Aligned (D : N.Discipline) (s : Config ι κ β L) : Prop := ∀ c, D.unit c ∣ (s.pipe c).length

theorem Aligned.enough {D : N.Discipline} (h : Aligned D s) {c : κ} (hc : s.pipe c ≠ []) :
    D.unit c ≤ (s.pipe c).length := Nat.le_of_dvd (List.length_pos_iff.2 hc) (h c)

theorem Aligned.turn {D : N.Discipline} (h : Aligned D s) (ht : Turn D s p e) : Aligned D (e.apply s) := by
  intro c
  show D.unit c ∣ ((s.pipe c).drop (e.taken c) ++ e.put c).length
  rw [List.length_append, List.length_drop]
  refine dvd_add (Nat.dvd_sub (h c) ?_) (ht.units c)
  by_cases hc : e.taken c = 0
  · rw [hc]
    exact dvd_zero _
  · rw [(ht.taken c hc).2.1]

theorem Turn.enough {D : N.Discipline} (ht : Turn D s p e) (h : Aligned D s) (c : κ) :
    e.taken c ≤ (s.pipe c).length := by
  by_cases hc : e.taken c = 0
  · omega
  · obtain ⟨-, heq, hne⟩ := ht.taken c hc
    rw [heq]
    exact h.enough hne

/-- Another process than the one whose turn it is, if it runs, is left alone. -/
theorem Turn.other {D : N.Discipline} (ht : Turn D s q f) (hpq : p ≠ q) (hp : s.proc p ≠ .absent) :
    f.proc p = none := by
  by_contra hne
  rcases ht.proc p hne with h | ⟨-, h⟩
  · exact hpq h
  · exact hp h

/-- A process that is there does not become absent. -/
theorem Turn.keeps {D : N.Discipline} (ht : Turn D s p e) {r : ι} (hr : s.proc r ≠ .absent) :
    (e.apply s).proc r ≠ .absent := by
  show (e.proc r).getD (s.proc r) ≠ _
  have hpresent := ht.present r
  cases he : e.proc r with
  | none => exact hr
  | some x =>
    rintro rfl
    exact hpresent he

theorem Turn.apart {D : N.Discipline} (h : Aligned D s) (hpq : p ≠ q) (he : Turn D s p e) (hf : Turn D s q f) :
    Apart s e f := by
  refine ⟨fun r => ?_, fun c => ?_, fun c => ?_, fun c => ⟨he.enough h c, hf.enough h c⟩⟩
  · by_contra hno
    push Not at hno
    have hp := he.running
    have hq := hf.running
    -- each is the process itself or a child it forks
    rcases he.proc r hno.1 with rfl | ⟨rfl, habsent⟩ <;> rcases hf.proc r hno.2 with rfl | ⟨rfl, habsent'⟩
    · exact hpq rfl
    · rw [habsent'] at hp
      cases hp
    · rw [habsent] at hq
      cases hq
    · exact hpq rfl
  · by_contra hno
    push Not at hno
    exact hpq ((he.taken c hno.1).1.trans (hf.taken c hno.2).1.symm)
  · by_contra hno
    push Not at hno
    exact hpq ((he.put c hno.1).trans (hf.put c hno.2).symm)

/-- Whoever writes a pipe can also read it, so that no write finds a pipe without a reader. -/
def Discipline.Unbroken (D : N.Discipline) : Prop := ∀ c, D.writer c ∈ N.readers c

/-- The network in which whoever writes a pipe can also read it. -/
def Discipline.mended (D : N.Discipline) : Network ι κ β L := { N with readers := fun c => D.writer c :: N.readers c }

def Discipline.mend (D : N.Discipline) : D.mended.Discipline :=
  ⟨D.writer, D.reader, D.unit, D.parent, D.unit_pos, D.write, D.read, D.fork, D.writes, D.inherits⟩

theorem Discipline.mend_unbroken (D : N.Discipline) : D.mend.Unbroken := fun _ => List.mem_cons_self

variable [DecidableEq ι] [DecidableEq κ]

theorem change_turn (D : N.Discipline) (h : N.change s p = some e) : Turn D s p e := by
  unfold change at h
  split at h
  · rename_i l hp
    have hrunning : (s.proc p).isRunning = true := by rw [hp]; rfl
    have honly : ∀ x, x ≠ .absent → Turn D s p (Change.only p x) := fun x hx =>
      ⟨hrunning, fun r hr => Or.inl (by simpa [Change.only] using hr), fun c hc => absurd rfl hc,
        fun c hc => absurd rfl hc, fun c => dvd_zero _, fun r => by simp [Change.only, hx]⟩
    split at h
    · rename_i c m l' hact
      obtain ⟨hw, hunit, -⟩ := D.write hact
      split at h
      · obtain rfl := Option.some.inj h
        exact honly _ nofun
      · split at h
        · obtain rfl := Option.some.inj h
          refine ⟨hrunning, fun r hr => Or.inl (by simpa using hr), fun d hd => absurd rfl hd, fun d hd => ?_,
            fun d => ?_, fun r => by simp⟩
          · obtain rfl : d = c := by by_contra hne; exact hd (if_neg hne)
            exact hw
          · by_cases hd : d = c
            · subst hd; simpa using hunit
            · simp [hd]
        · cases h
    · rename_i c n k hact
      obtain ⟨hr, hn⟩ := D.read hact
      split at h
      · split at h
        · cases h
        · obtain rfl := Option.some.inj h
          exact honly _ nofun
      · rename_i hne
        obtain rfl := Option.some.inj h
        refine ⟨hrunning, fun r hr => Or.inl (by simpa using hr), fun d hd => ?_, fun d hd => absurd rfl hd,
          fun d => dvd_zero _, fun r => by simp⟩
        obtain rfl : d = c := by by_contra hne; exact hd (if_neg hne)
        exact ⟨hr, by simp [hn], hne⟩
    · rename_i q child l' hact
      have hparent := D.fork hact
      split at h
      · rename_i hq
        obtain rfl := Option.some.inj h
        refine ⟨hrunning, fun r hr => ?_, fun c hc => absurd rfl hc, fun c hc => absurd rfl hc, fun c => dvd_zero _,
          fun r => ?_⟩
        by_cases hrq : r = q
        · subst hrq
          exact Or.inr ⟨hparent.symm, hq⟩
        · left
          simpa [hrq] using hr
        · show (if r = q then _ else if r = p then _ else none) ≠ _
          split_ifs <;> simp
      · cases h
    · obtain rfl := Option.some.inj h
      exact honly _ nofun
    · obtain rfl := Option.some.inj h
      exact honly _ nofun
  · cases h

/-! ## Turns in any order -/

/-- A turn of another process neither takes a turn away nor changes what it does. -/
theorem change_of_other {D : N.Discipline} (hD : D.Unbroken) (h : Aligned D s) (hpq : p ≠ q)
    (he : N.change s p = some e) (hf : Turn D s q f) : N.change (f.apply s) p = some e := by
  have hproc : ∀ r, s.proc r ≠ .absent → r ≠ q → (f.apply s).proc r = s.proc r := fun r hr hne => by
    show (f.proc r).getD _ = _
    rw [hf.other hne hr, Option.getD_none]
  have hrunning := (change_turn D he).running
  have hp : (f.apply s).proc p = s.proc p := hproc p (by rintro h; rw [h] at hrunning; cases hrunning) hpq
  unfold change at he ⊢
  rw [hp]
  split at he
  · rename_i l hl
    split at he
    · rename_i c m l' hact
      obtain ⟨hw, -⟩ := D.write hact
      -- the process itself is a reader, and nobody else writes
      have hself : ∀ s' : Config ι κ β L, s'.proc p = s.proc p → s'.held (N.readers c) = true := fun s' hs' =>
        held_eq_true.2 ⟨p, hw ▸ hD c, by rw [hs']; exact hrunning⟩
      have hput : f.put c = [] := by
        by_contra hne
        exact hpq (hw.trans (hf.put c hne).symm)
      have hlen : ((f.apply s).pipe c).length ≤ (s.pipe c).length := by
        show ((s.pipe c).drop (f.taken c) ++ f.put c).length ≤ _
        rw [hput, List.append_nil, List.length_drop]
        omega
      rw [hself s rfl, Bool.not_true, if_neg Bool.false_ne_true] at he
      rw [hself _ hp, Bool.not_true, if_neg Bool.false_ne_true]
      split at he
      · rw [if_pos (by omega)]
        exact he
      · cases he
    · rename_i c n k hact
      obtain ⟨hr, hn⟩ := D.read hact
      have htaken : f.taken c = 0 := by
        by_contra hne
        exact hpq (hr.trans (hf.taken c hne).1.symm)
      have hpipe : (f.apply s).pipe c = s.pipe c ++ f.put c := by
        show (s.pipe c).drop (f.taken c) ++ f.put c = _
        rw [htaken, List.drop_zero]
      split at he
      · rename_i hnil
        split at he
        · cases he
        · rename_i hclosed
          -- no writer is running, and none is started
          have hq : q ∉ N.writers c := fun hq => hclosed (held_eq_true.2 ⟨q, hq, hf.running⟩)
          have hput : f.put c = [] := by
            by_contra hne
            exact hq ((hf.put c hne) ▸ D.writes c)
          have hclosed' : (f.apply s).held (N.writers c) ≠ true := by
            intro hopen
            obtain ⟨r, hr, hgoes⟩ := held_eq_true.1 hopen
            by_cases hfr : f.proc r = none
            · refine hclosed (held_eq_true.2 ⟨r, hr, ?_⟩)
              have hsame : (f.apply s).proc r = s.proc r := by
                show (f.proc r).getD _ = _
                rw [hfr, Option.getD_none]
              rwa [hsame] at hgoes
            · rcases hf.proc r hfr with rfl | ⟨hparent, -⟩
              · exact hq hr
              · exact hq (hparent ▸ D.inherits c r hr)
          rw [hpipe, hput, List.append_nil, if_pos hnil, if_neg hclosed']
          exact he
      · rename_i hne
        have htake : (s.pipe c ++ f.put c).take n = (s.pipe c).take n :=
          List.take_append_of_le_length (hn ▸ h.enough hne)
        rw [hpipe, if_neg (by simp [hne]), htake]
        exact he
    · rename_i r child l' hact
      have hparent := D.fork hact
      split at he
      · rename_i hr
        have hchild : f.proc r = none := by
          by_contra hne
          rcases hf.proc r hne with rfl | ⟨hq, -⟩
          · have hq := hf.running
            rw [hr] at hq
            cases hq
          · exact hpq (hparent.trans hq)
        have hsame : (f.apply s).proc r = .absent := by
          show (f.proc r).getD _ = _
          rw [hchild, Option.getD_none, hr]
        rw [hsame]
        exact he
      · cases he
    · exact he
    · exact he
  · cases he

theorem takes_iff {t : Config ι κ β L} : Takes N.next s p t ↔ ∃ e, N.change s p = some e ∧ e.apply s = t :=
  Option.map_eq_some_iff

/-! ### Each turn -/

section

variable {l l' child : L} {c : κ} {m : List β}

theorem next_of_change (he : N.change s p = some e) {t : Config ι κ β L}
    (hproc : ∀ r, (e.proc r).getD (s.proc r) = t.proc r)
    (hpipe : ∀ c, (s.pipe c).drop (e.taken c) ++ e.put c = t.pipe c) : N.next s p = some t :=
  takes_iff.2 ⟨e, he, Config.ext (funext hproc) (funext hpipe)⟩

theorem next_write (hp : s.proc p = .running l) (hact : N.act p l = .write c m l')
    (hheld : s.held (N.readers c) = true) (hroom : (s.pipe c).length + m.length ≤ N.room c) :
    N.next s p = some ⟨Function.update s.proc p (.running l'), Function.update s.pipe c (s.pipe c ++ m)⟩ := by
  refine next_of_change (by simp only [change, hp, hact, hheld, if_pos hroom]; rfl) (only_proc s p _) fun d => ?_
  by_cases hd : d = c
  · subst hd
    simp
  · simp [hd]

theorem next_read {n : ℕ} {k : List β → L} (hp : s.proc p = .running l) (hact : N.act p l = .read c n k)
    (hpipe : s.pipe c ≠ []) :
    N.next s p = some ⟨Function.update s.proc p (.running (k ((s.pipe c).take n))),
      Function.update s.pipe c ((s.pipe c).drop n)⟩ := by
  refine next_of_change (by simp only [change, hp, hact, if_neg hpipe]; rfl) (only_proc s p _) fun d => ?_
  by_cases hd : d = c
  · subst hd
    simp
  · simp [hd]

/-- The end of file. -/
theorem next_eof {n : ℕ} {k : List β → L} (hp : s.proc p = .running l) (hact : N.act p l = .read c n k)
    (hpipe : s.pipe c = []) (hclosed : s.held (N.writers c) = false) :
    N.next s p = some ⟨Function.update s.proc p (.running (k [])), s.pipe⟩ :=
  next_of_change (by simp only [change, hp, hact, if_pos hpipe, hclosed]; rfl) (only_proc s p _)
    fun d => by simp [Change.only]

theorem next_wait {n : ℕ} {k : List β → L} (hp : s.proc p = .running l) (hact : N.act p l = .read c n k)
    (hpipe : s.pipe c = []) (hopen : s.held (N.writers c) = true) : N.next s p = none := by
  simp [next, change, hp, hact, hpipe, hopen]

theorem next_fork (hp : s.proc p = .running l) (hact : N.act p l = .fork q child l') (hq : s.proc q = .absent) :
    N.next s p = some ⟨Function.update (Function.update s.proc p (.running l')) q (.running child), s.pipe⟩ := by
  refine next_of_change (by simp only [change, hp, hact, hq]; rfl) (fun r => ?_) fun d => by simp
  by_cases hr : r = q
  · subst hr
    simp
  · show (if r = q then _ else if r = p then _ else none).getD _ = _
    rw [if_neg hr, only_proc]
    exact (Function.update_of_ne hr ..).symm

theorem next_compute (hp : s.proc p = .running l) (hact : N.act p l = .compute l') :
    N.next s p = some ⟨Function.update s.proc p (.running l'), s.pipe⟩ :=
  next_of_change (by simp only [change, hp, hact]; rfl) (only_proc s p _) fun d => by simp [Change.only]

theorem next_exit (hp : s.proc p = .running l) (hact : N.act p l = .exit) :
    N.next s p = some ⟨Function.update s.proc p (.ended l), s.pipe⟩ :=
  next_of_change (by simp only [change, hp, hact]; rfl) (only_proc s p _) fun d => by simp [Change.only]

theorem next_idle (hp : (s.proc p).isRunning = false) : N.next s p = none := by
  unfold next change
  split
  · rename_i l hl
    rw [hl] at hp
    cases hp
  · rfl

end

/-- In whole units, turns of two processes can be taken in both orders. -/
theorem diamond {D : N.Discipline} (hD : D.Unbroken) : Diamond N.next (Aligned D) := by
  refine ⟨fun s p t hs ht => ?_, fun s p q t u hs hpq ht hu => ?_⟩
  · obtain ⟨e, he, rfl⟩ := takes_iff.1 ht
    exact hs.turn (change_turn D he)
  · obtain ⟨e, he, rfl⟩ := takes_iff.1 ht
    obtain ⟨f, hf, rfl⟩ := takes_iff.1 hu
    have hturn := change_turn D he
    have hturn' := change_turn D hf
    exact ⟨f.apply (e.apply s), takes_iff.2 ⟨f, change_of_other hD hs hpq.symm hf hturn, rfl⟩,
      takes_iff.2 ⟨e, change_of_other hD hs hpq he hturn', (hturn.apart hs hpq hturn').apply_apply.symm⟩⟩

/-! ## Pipes that break -/

/-- No process is about to write to a pipe without a reader. -/
def Served (N : Network ι κ β L) (s : Config ι κ β L) : Prop :=
  ∀ p l c m l', s.proc p = .running l → N.act p l = .write c m l' → s.held (N.readers c) = true

theorem change_mended (D : N.Discipline) (h : N.Served s) (p : ι) : D.mended.change s p = N.change s p := by
  have hact : D.mended.act = N.act := rfl
  unfold change
  rw [hact]
  split
  · rename_i l hl
    split
    · rename_i c m l' hc
      have hheld := h p l c m l' hl hc
      have hheld' : s.held (D.mended.readers c) = true := by
        obtain ⟨r, hr, hrunning⟩ := held_eq_true.1 hheld
        exact held_eq_true.2 ⟨r, List.mem_cons_of_mem _ hr, hrunning⟩
      rw [hheld, hheld']
      rfl
    all_goals rfl
  · rfl

theorem next_mended (D : N.Discipline) (h : N.Served s) (p : ι) : D.mended.next s p = N.next s p := by
  unfold next
  rw [change_mended D h]

theorem mended_write (D : N.Discipline) {l l' : L} {c : κ} {m : List β} (hp : s.proc p = .running l)
    (hact : N.act p l = .write c m l') (hroom : (s.pipe c).length + m.length ≤ N.room c) :
    D.mended.next s p = some ⟨Function.update s.proc p (.running l'), Function.update s.pipe c (s.pipe c ++ m)⟩ := by
  have hheld : s.held (D.mended.readers c) = true :=
    held_eq_true.2 ⟨p, (D.write hact).1 ▸ List.mem_cons_self, by rw [hp]; rfl⟩
  exact next_write (N := D.mended) hp hact hheld hroom

/-- Nobody reads what is in a pipe once its reader has gone. -/
theorem pipe_kept (D : N.Discipline) {c : κ} {ls : List ι} {t : Config ι κ β L} (hrun : Run N.Step s ls t)
    (hgone : (s.proc (D.reader c)).isRunning = false) (hstarted : s.proc (D.reader c) ≠ .absent) :
    t.proc (D.reader c) = s.proc (D.reader c) ∧ (s.pipe c ≠ [] → t.pipe c ≠ []) := by
  refine hrun.invariant (P := fun t => t.proc (D.reader c) = s.proc (D.reader c) ∧ (s.pipe c ≠ [] → t.pipe c ≠ []))
    ⟨rfl, id⟩ fun u p v ⟨hproc, hpipe⟩ hstep => ?_
  obtain ⟨e, he, rfl⟩ := takes_iff.1 hstep
  have hturn := change_turn D he
  have hne : D.reader c ≠ p := by
    rintro rfl
    have := hturn.running
    rw [hproc, hgone] at this
    cases this
  constructor
  · show (e.proc (D.reader c)).getD _ = _
    rw [hturn.other hne (hproc ▸ hstarted), Option.getD_none, hproc]
  · intro hs
    have htaken : e.taken c = 0 := by
      by_contra hno
      exact hne (hturn.taken c hno).1.symm
    show (u.pipe c).drop (e.taken c) ++ e.put c ≠ []
    rw [htaken, List.drop_zero]
    exact List.append_ne_nil_of_left_ne_nil (hpipe hs) _

/-- The writer of a pipe can read it too, or else the reader is left in the end, or has left nothing in the pipe. -/
def Attended (D : N.Discipline) (s t : Config ι κ β L) (c : κ) : Prop :=
  D.writer c ∈ N.readers c ∨ D.reader c ∈ N.readers c ∧ s.proc (D.reader c) ≠ .absent ∧
    (t.pipe c = [] ∨ (t.proc (D.reader c)).isRunning = true)

/-- If there is an order in which nothing is left in a pipe, there is none in which it breaks. -/
theorem served {D : N.Discipline} {ls ms : List ι} {t u : Config ι κ β L} (hs : Aligned D s)
    (hrun : Run D.mended.Step s ls t) (hhalt : Halted D.mended.next t) (hpipes : ∀ c, Attended D s t c)
    (hother : Run D.mended.Step s ms u) : N.Served u := by
  intro p l c m l' hp hact
  have hrunning : (u.proc p).isRunning = true := by rw [hp]; rfl
  obtain ⟨hw, -, hm, hroom⟩ := D.write hact
  rcases hpipes c with hself | ⟨hreads, hstarted, hend⟩
  · exact held_eq_true.2 ⟨p, hw ▸ hself, hrunning⟩
  · refine held_eq_true.2 ⟨D.reader c, hreads, ?_⟩
    by_contra hgone
    rw [Bool.not_eq_true] at hgone
    have hstarted' : u.proc (D.reader c) ≠ .absent := by
      refine hother.invariant (P := fun u => u.proc (D.reader c) ≠ .absent) hstarted fun u q v hu hstep => ?_
      obtain ⟨e, he, rfl⟩ := takes_iff.1 hstep
      exact (change_turn D.mend he).keeps hu
    have hdiamond := diamond D.mend_unbroken
    have haligned : Aligned D.mend u := hother.invariant hs hdiamond.kept
    obtain ⟨ns, hns, -⟩ := hdiamond.halts hs hrun hhalt hother
    -- what is in the pipe, or is put there now, stays in it
    have hstuck : ∀ v ls', Run D.mended.Step v ls' t → v.proc (D.reader c) = u.proc (D.reader c) → v.pipe c ≠ [] →
        False := by
      intro v ls' hrest hv hpipe
      have hgone' : (v.proc (D.mend.reader c)).isRunning = false := (congrArg Proc.isRunning hv).trans hgone
      obtain ⟨hproc, hkept⟩ := pipe_kept D.mend hrest hgone' fun h => hstarted' (hv.symm.trans h)
      rcases hend with hnil | hruns
      · exact hkept hpipe hnil
      · have hsame : (t.proc (D.reader c)).isRunning = false := (congrArg Proc.isRunning hproc).trans hgone'
        rw [hsame] at hruns
        cases hruns
    by_cases hpipe : u.pipe c = []
    · have hv := mended_write D hp hact (by rw [hpipe, List.length_nil, Nat.zero_add]; exact hroom)
      obtain ⟨ls', hls', -⟩ := hdiamond.first haligned hns hhalt hv
      refine hstuck _ ls' hls' (Function.update_of_ne ?_ ..) (by simp [hm])
      rintro hsame
      rw [hsame, hrunning] at hgone
      cases hgone
    · exact hstuck u ns hns rfl hpipe

/-- If there is an order in which a network comes to a halt, with nothing left in a pipe that nobody attends to, then
it comes to the same halt in every order, and no pipe breaks. -/
theorem halts {D : N.Discipline} {ls ms : List ι} {t u : Config ι κ β L} (hs : Aligned D s)
    (hrun : Run D.mended.Step s ls t) (hhalt : Halted D.mended.next t) (hpipes : ∀ c, Attended D s t c)
    (hother : Run N.Step s ms u) :
    Halted N.next t ∧ N.Served u ∧ ∃ ns, Run N.Step u ns t ∧ ls.Perm (ms ++ ns) := by
  have hserved : ∀ {ms u}, Run D.mended.Step s ms u → N.Served u := served hs hrun hhalt hpipes
  have hmended : ∀ {ms u}, Run N.Step s ms u → Run D.mended.Step s ms u := by
    intro ms u hother
    refine hother.inv (P := fun ms u => Run D.mended.Step s ms u) .start fun ms u p v _ hu hstep => hu.snoc ?_
    rw [Step, Takes, next_mended D (hserved hu)]
    exact hstep
  have hu := hmended hother
  obtain ⟨ns, hns, hperm⟩ := (diamond D.mend_unbroken).halts hs hrun hhalt hu
  refine ⟨fun p => ?_, hserved hu, ns, ?_, hperm⟩
  · rw [← next_mended D (hserved hrun)]
    exact hhalt p
  · have hboth : Run D.mended.Step u ns t ∧ Run N.Step u ns t := by
      refine hns.inv (P := fun ns v => Run D.mended.Step u ns v ∧ Run N.Step u ns v) ⟨.start, .start⟩
        fun ns v p w _ hv hstep => ⟨hv.1.snoc hstep, hv.2.snoc ?_⟩
      rw [Step, Takes, ← next_mended D (hserved (hu.append hv.1))]
      exact hstep
    exact hboth.2

end

end Network

end CS330.Lib
