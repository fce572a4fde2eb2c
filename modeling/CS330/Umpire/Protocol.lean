/-
umpire2.c: the tournament as it is played, with a process for every player. The umpire forks them all; in each round it
asks the active ones for their moves, one message and one move at a time, and pairs them as in `round`.

A player closes the end that writes its own stdin and the one that reads its own stdout, and keeps those of all other
players. The loop that asks also fills `activePlayer`, which is left to `round`, and so is the zero behind each row of
`record`. The arrays hold at first what is on the stack. A program that uses an index that is not in `activePlayer`
is lost.
-/
import CS330.Umpire.Process
import CS330.Umpire.Record
import CS330.Umpire.Tournament

namespace CS330.Umpire

open CS330.Lib Network

/-! ## The umpire -/

/-- What the umpire works on in a round, with what it has printed and how many players it has come across. -/
structure Asking where
  tournament : Tournament
  record : ℕ → ℕ → Char
  cchar : Char
  out : List Char
  pc : ℕ

/-- Where the umpire is: in the loop that forks, before a round, at a player, before and behind a message, behind the
last round. -/
inductive Umpire2 (n : ℕ)
  | start (i : ℕ)
  | turn (g : Asking)
  | player (g : Asking) (i : ℕ)
  | ask (g : Asking) (i : Fin n) (k : ℕ)
  | hear (g : Asking) (i : Fin n) (k : ℕ)
  | over (t : Tournament) (out : List Char)
  | lost

def tag (i : ℕ) : List Char := 'p' :: (toString i).toList

/-- What is printed for a player; `pc` is how many are before it. -/
def name (i pc : ℕ) (nactive : ℤ) : List Char := tag i ++ [if (pc : ℤ) < nactive - 1 then ' ' else '\n']

/-- What is read from a player. -/
def Asking.heard (g : Asking) (i k : ℕ) (bytes : List Char) : Asking :=
  let cchar := bytes.headD g.cchar
  { g with cchar := cchar, record := Function.update g.record i (Function.update (g.record i) k cchar) }

section

variable (n nround : ℕ) (getWalkOver : ℕ → ℤ → ℕ) (stack : ℕ → ℕ → Char) (cchar : Char)

def Umpire2.act : Umpire2 n → Action (Party n) (Pipe n) Char (Local (Umpire2 n))
  | .start i =>
    if h : i < n then .fork (.player ⟨i, h⟩) (.player .exec) (.umpire (.start (i + 1)))
    else .compute (.umpire (.turn ⟨⟨0, Umpire.start n, []⟩, stack, cchar, [], 0⟩))
  | .turn g =>
    let t := g.tournament
    if t.state.nactive != 1 then .compute (.umpire (.player { g with pc := 0 } 0))
    else .compute (.umpire (.over t (g.out ++ ((printed n t.state).elim [] tag))))
  | .player g i =>
    let t := g.tournament
    if h : i < n then
      if !t.state.active i then .compute (.umpire (.player g (i + 1)))
      else .compute (.umpire (.ask { g with out := g.out ++ name i g.pc t.state.nactive, pc := g.pc + 1 } ⟨i, h⟩ 0))
    else
      match mainTurn n n nround (fun _ => g.record) getWalkOver t with
      | some t => .compute (.umpire (.turn { g with tournament := t }))
      | none => .compute (.umpire .lost)
  | .ask g i k =>
    if k < nround then .write (.stdIn i) goMsg (.umpire (.hear g i k)) else .compute (.umpire (.player g (i + 1)))
  | .hear g i k => .read (.stdOut i) 1 fun bytes => .umpire (.ask (g.heard i k bytes) i (k + 1))
  | .over _ _ => .exit
  | .lost => .exit

/-- All others than a player. -/
def others (i : Fin n) : List (Party n) := .umpire :: ((List.finRange n).filter (· ≠ i)).map .player

def everybody : List (Party n) := .umpire :: (List.finRange n).map .player

def league (executables : Executables n) (room : ℕ) : Game n (Umpire2 n) where
  act := Umpire2.act n nround getWalkOver stack cchar
  executables := executables
  writers
    | .stdIn i => others n i
    | .stdOut _ => everybody n
  readers
    | .stdIn _ => everybody n
    | .stdOut i => others n i
  room := room

/-- All pipes are there, and no player. -/
def opening : Config (Party n) (Pipe n) Char (Local (Umpire2 n)) :=
  ⟨fun
    | .umpire => .running (.umpire (.start 0))
    | .player _ => .absent, fun _ => []⟩

/-! ## What the protocol is for -/

/-- The moves a player makes in each round in which it is asked. -/
def Executables.records {n : ℕ} (e : Executables n) (round p k : ℕ) : Char :=
  if h : p < n then e.chooseMove ⟨p, h⟩ (round * nround + k) else ' '

/-- The line of a round. -/
def lineup (s : State) : List Char := [' '].intercalate ((survivors n s).map tag) ++ ['\n']

/-- The tournament without processes, with the lines of its rounds. -/
def play {n : ℕ} (e : Executables n) (fuel : ℕ) : Tournament × List Char → Option (Tournament × List Char) :=
  whileLoop (fun x => mainTest x.1) (fun x => (mainTurn n n nround (e.records nround) getWalkOver x.1).map fun t =>
    (t, x.2 ++ lineup n x.1.state)) fuel

end

section Protocol

variable {n nround : ℕ} {getWalkOver : ℕ → ℤ → ℕ} {stack : ℕ → ℕ → Char} {cchar : Char} {e : Executables n} {room : ℕ}

theorem league_fair (hroom : 3 ≤ room) : (league n nround getWalkOver stack cchar e room).Fair where
  asks := by
    rintro (i | g | ⟨g, i⟩ | ⟨g, i, k⟩ | ⟨g, i, k⟩ | _ | _)
    · show Asks (Umpire2.act n nround getWalkOver stack cchar (.start i))
      by_cases h : i < n <;> simp [Umpire2.act, h, Asks]
    · show Asks (Umpire2.act n nround getWalkOver stack cchar (.turn g))
      simp only [Umpire2.act]
      split_ifs <;> trivial
    · show Asks (Umpire2.act n nround getWalkOver stack cchar (.player g i))
      simp only [Umpire2.act]
      split_ifs
      · trivial
      · trivial
      · split <;> trivial
    · show Asks (Umpire2.act n nround getWalkOver stack cchar (.ask g i k))
      by_cases h : k < nround <;> simp [Umpire2.act, h, Asks]
    · exact ⟨⟨i, rfl⟩, rfl⟩
    · trivial
    · trivial
  umpire := by rintro (i | i) <;> exact List.mem_cons_self
  player := fun i => List.mem_cons_of_mem _ (List.mem_map.2 ⟨i, List.mem_finRange i, rfl⟩)
  room := hroom

/-! ## Between two messages -/

/-- The umpire works on `u`; every player that could be started waits, and has made `made` moves; no pipe holds
anything. -/
structure Quiet (e : Executables n) (made : Fin n → ℕ) (u : Umpire2 n)
    (s : Config (Party n) (Pipe n) Char (Local (Umpire2 n))) : Prop where
  umpire : s.proc .umpire = .running (.umpire u)
  runs : ∀ i, e.runs i = true → ∃ goBuf, s.proc (.player i) = .running (.player (.ask (made i) goBuf))
  unable : ∀ i, e.runs i = false → s.proc (.player i) = .ended (.player .exec)
  pipe : ∀ c, s.pipe c = []

variable (h : (league n nround getWalkOver stack cchar e room).Fair)

/-- The umpire comes from `u` to `u'`, and the players from `made` to `made'`. -/
def Reaches (made : Fin n → ℕ) (u : Umpire2 n) (made' : Fin n → ℕ) (u' : Umpire2 n) : Prop :=
  ∀ s, Quiet e made u s → ∃ ls s', Run h.discipline.mended.Step s ls s' ∧ Quiet e made' u' s'

section Reaches

variable {h} {made made' made'' : Fin n → ℕ} {u u' u'' : Umpire2 n} {g : Asking} {i : Fin n} {k : ℕ}

theorem Reaches.refl : Reaches h made u made u := fun s hs => ⟨[], s, .start, hs⟩

theorem Reaches.trans (h₁ : Reaches h made u made' u') (h₂ : Reaches h made' u' made'' u'') :
    Reaches h made u made'' u'' := by
  intro s hs
  obtain ⟨ls, s', hrun, hs'⟩ := h₁ s hs
  obtain ⟨ms, s'', hrun', hs''⟩ := h₂ s' hs'
  exact ⟨ls ++ ms, s'', hrun.append hrun', hs''⟩

theorem reaches_compute (hact : (league n nround getWalkOver stack cchar e room).act u = .compute (.umpire u')) :
    Reaches h made u made u' := by
  intro s hs
  refine ⟨_, _, .single (next_compute (N := h.discipline.mended) hs.umpire hact),
    ⟨by simp, fun i hi => ?_, fun i hi => ?_, hs.pipe⟩⟩
  · obtain ⟨goBuf, hplayer⟩ := hs.runs i hi
    exact ⟨goBuf, by simpa using hplayer⟩
  · simpa using hs.unable i hi

/-- A message and the answer to it. -/
theorem reaches_answer (made : Fin n → ℕ) (hk : k < nround) (hruns : e.runs i = true) :
    Reaches h made (.ask g i k) (Function.update made i (made i + 1))
      (.ask (g.heard i k [e.chooseMove i (made i)]) i (k + 1)) := by
  intro s hs
  obtain ⟨goBuf, hplayer⟩ := hs.runs i hruns
  have hself := between_self hs.umpire i
  rw [hplayer, hs.pipe, hs.pipe] at hself
  have hact : (league n nround getWalkOver stack cchar e room).act (.ask g i k) =
      .write (.stdIn i) goMsg (.umpire (.hear g i k)) := if_pos hk
  have hgo := go_turn (s := s) (x := .running (.player (.ask (made i) goBuf))) (a := []) (b := []) h hact h.room
  have hanswer := answer (s := s) (i := i) (u := .hear g i k) (a := []) (b := []) h (made i) goBuf
    (le_trans (by decide) h.room)
  have hhear := hear_turn (s := s) (i := i) (u := .hear g i k)
    (x := .running (.player (.ask (made i + 1) (goMsg ++ goBuf.drop 3)))) (a := []) (b := []) h
    (f := fun bytes => .ask (g.heard i k bytes) i (k + 1)) rfl (e.chooseMove i (made i))
  rw [List.nil_append, hself] at hgo
  refine ⟨_, _, (Run.cons hgo hanswer).snoc hhear, ⟨between_umpire, fun j hj => ?_, fun j hj => ?_, ?_⟩⟩
  · by_cases hji : j = i
    · subst hji
      exact ⟨_, by rw [between_player, Function.update_self]⟩
    · obtain ⟨goBuf, hj⟩ := hs.runs j hj
      exact ⟨goBuf, by rw [(between_other hji).1, hj, Function.update_of_ne hji]⟩
  · have hji : j ≠ i := by
      rintro rfl
      rw [hruns] at hj
      cases hj
    rw [(between_other hji).1]
    exact hs.unable j hj
  · rintro (j | j) <;> by_cases hji : j = i
    · subst hji
      exact between_stdIn
    · rw [(between_other hji).2.1]
      exact hs.pipe _
    · subst hji
      exact between_stdOut
    · rw [(between_other hji).2.2]
      exact hs.pipe _

end Reaches

/-! ## Before the first round -/

/-- A player that has been forked, and waits if it could be started. -/
def entered (e : Executables n) (i : Fin n) : Proc (Local (Umpire2 n)) :=
  if e.runs i then .running (.player (.ask 0 (e.goBuf i))) else .ended (.player .exec)

/-- The first `k` players have been forked. -/
structure Enrolled (e : Executables n) (k : ℕ) (s : Config (Party n) (Pipe n) Char (Local (Umpire2 n))) : Prop where
  umpire : s.proc .umpire = .running (.umpire (.start k))
  player : ∀ i : Fin n, s.proc (.player i) = if (i : ℕ) < k then entered e i else .absent
  pipe : ∀ c, s.pipe c = []

theorem enroll_one {k : ℕ} {s : Config (Party n) (Pipe n) Char (Local (Umpire2 n))} (hk : k < n)
    (hs : Enrolled e k s) : ∃ ls s', Run h.discipline.mended.Step s ls s' ∧ Enrolled e (k + 1) s' := by
  have hself := between_self hs.umpire ⟨k, hk⟩
  rw [hs.player, if_neg (lt_irrefl k), hs.pipe, hs.pipe] at hself
  have hact : (league n nround getWalkOver stack cchar e room).act (.start k) =
      .fork (.player ⟨k, hk⟩) (.player .exec) (.umpire (.start (k + 1))) := dif_pos hk
  have hfork := fork_turn (s := s) (a := []) (b := []) h hact
  rw [hself] at hfork
  have henrolled : Enrolled e (k + 1) (between s (.start (k + 1)) ⟨k, hk⟩ (entered e ⟨k, hk⟩) [] []) := by
    refine ⟨between_umpire, fun j => ?_, ?_⟩
    · by_cases hj : j = ⟨k, hk⟩
      · subst hj
        rw [between_player, if_pos (Nat.lt_succ_self k)]
      · have hne : (j : ℕ) ≠ k := fun hjk => hj (Fin.ext hjk)
        rw [(between_other hj).1, hs.player]
        by_cases hjk : (j : ℕ) < k
        · rw [if_pos hjk, if_pos (by omega)]
        · rw [if_neg hjk, if_neg (by omega)]
    · rintro (j | j) <;> by_cases hj : j = ⟨k, hk⟩
      · subst hj
        exact between_stdIn
      · rw [(between_other hj).2.1]
        exact hs.pipe _
      · subst hj
        exact between_stdOut
      · rw [(between_other hj).2.2]
        exact hs.pipe _
  refine ⟨[.umpire, .player ⟨k, hk⟩], _, .cons hfork (.single ?_), henrolled⟩
  unfold entered
  cases hruns : e.runs ⟨k, hk⟩ with
  | true => exact exec_turn h hruns
  | false => exact unable_turn h hruns

theorem enroll {k : ℕ} (hk : k ≤ n) : ∃ ls s, Run h.discipline.mended.Step (opening n) ls s ∧ Enrolled e k s := by
  induction k with
  | zero => exact ⟨[], _, .start, rfl, fun i => (if_neg (Nat.not_lt_zero _)).symm, fun _ => rfl⟩
  | succ k ih =>
    obtain ⟨ls, s, hrun, hs⟩ := ih (by omega)
    obtain ⟨ms, s', hrun', hs'⟩ := enroll_one h (by omega) hs
    exact ⟨_, s', hrun.append hrun', hs'⟩

theorem Enrolled.quiet {s : Config (Party n) (Pipe n) Char (Local (Umpire2 n))} (hs : Enrolled e n s) :
    Quiet e (fun _ => 0) (.start n) s := by
  refine ⟨hs.umpire, fun i hi => ⟨e.goBuf i, ?_⟩, fun i hi => ?_, hs.pipe⟩
  · rw [hs.player, if_pos i.isLt, entered, if_pos hi]
  · rw [hs.player, if_pos i.isLt, entered, if_neg (by simp [hi])]

/-! ## A round -/

section Round

variable {h} {made : Fin n → ℕ} {g g' : Asking} {i : Fin n} {k j : ℕ}

/-- `k` moves of a player have been read, of which the first one is its move number `made`. -/
structure Heard (e : Executables n) (i : Fin n) (made k : ℕ) (g g' : Asking) : Prop where
  tournament : g'.tournament = g.tournament
  out : g'.out = g.out
  pc : g'.pc = g.pc
  row : ∀ j < k, g'.record i j = e.chooseMove i (made + j)
  rows : ∀ p : ℕ, p ≠ i → g'.record p = g.record p

theorem Heard.next {made : ℕ} (hg : Heard e i made k g g') :
    Heard e i made (k + 1) g (g'.heard i k [e.chooseMove i (made + k)]) := by
  refine ⟨hg.tournament, hg.out, hg.pc, fun j hj => ?_, fun p hp => ?_⟩
  · show Function.update g'.record i (Function.update (g'.record i) k _) i j = _
    rw [Function.update_self]
    by_cases hjk : j = k
    · subst hjk
      exact Function.update_self ..
    · rw [Function.update_of_ne hjk]
      exact hg.row j (by omega)
  · show Function.update g'.record i (Function.update (g'.record i) k _) p = _
    rw [Function.update_of_ne hp]
    exact hg.rows p hp

/-- All moves of a player. -/
theorem reaches_moves (made : Fin n → ℕ) (hruns : e.runs i = true) (hk : k ≤ nround) :
    ∃ g', Reaches h made (.ask g i 0) (Function.update made i (made i + k)) (.ask g' i k) ∧
      Heard e i (made i) k g g' := by
  induction k with
  | zero =>
    refine ⟨g, ?_, rfl, rfl, rfl, fun j hj => absurd hj (Nat.not_lt_zero j), fun _ _ => rfl⟩
    rw [Nat.add_zero, Function.update_eq_self]
    exact .refl
  | succ k ih =>
    obtain ⟨g', hreach, hg⟩ := ih (by omega)
    have hnext := reaches_answer (h := h) (g := g') (Function.update made i (made i + k)) (show k < nround by omega)
      hruns
    rw [Function.update_self, Function.update_idem, Nat.add_assoc] at hnext
    exact ⟨_, hreach.trans hnext, hg.next⟩

/-- The moves made when the first `j` players have been asked, if they are active. -/
def asked (s : State) (nround j : ℕ) (made : Fin n → ℕ) (p : Fin n) : ℕ :=
  if (p : ℕ) < j ∧ s.active p = true then made p + nround else made p

/-- What the umpire has read and printed then. -/
structure Midway (e : Executables n) (nround j : ℕ) (g g' : Asking) : Prop where
  tournament : g'.tournament = g.tournament
  out : g'.out = g.out ++
    (survivors j g.tournament.state).zipIdx.flatMap fun x => name x.1 x.2 g.tournament.state.nactive
  pc : g'.pc = (survivors j g.tournament.state).length
  record : ∀ p ∈ survivors j g.tournament.state, ∀ k < nround,
    g'.record p k = e.records nround g.tournament.rounds p k

theorem survivors_succ (j : ℕ) (s : State) :
    survivors (j + 1) s = if s.active j = true then survivors j s ++ [j] else survivors j s := by
  unfold survivors
  rw [List.range_succ, List.filter_append]
  cases hj : s.active j <;> simp [hj]

/-- All active players among the first ones are asked, if they could be started. -/
theorem reaches_midway (made : Fin n → ℕ)
    (hmade : ∀ p : Fin n, g.tournament.state.active p = true → made p = g.tournament.rounds * nround)
    (hpc : g.pc = 0) (hj : j ≤ n)
    (hruns : ∀ p : Fin n, (p : ℕ) < j → g.tournament.state.active p = true → e.runs p = true) :
    ∃ g', Reaches h made (.player g 0) (asked g.tournament.state nround j made) (.player g' j) ∧
      Midway e nround j g g' := by
  induction j with
  | zero =>
    have hnone : asked g.tournament.state nround 0 made = made := funext fun p => if_neg (by simp)
    rw [hnone]
    exact ⟨g, .refl, rfl, by simp [survivors], by simp [survivors, hpc], by simp [survivors]⟩
  | succ j ih =>
    obtain ⟨g', hreach, hg⟩ := ih (by omega) fun p hp => hruns p (by omega)
    have hjn : j < n := by omega
    have hsucc := survivors_succ j g.tournament.state
    cases hactive : g.tournament.state.active j with
    | false =>
      have hsame : asked g.tournament.state nround (j + 1) made = asked g.tournament.state nround j made := by
        funext p
        unfold asked
        by_cases hp : (p : ℕ) = j
        · simp [hp, hactive]
        · simp only [show (p : ℕ) < j + 1 ↔ (p : ℕ) < j by omega]
      have hskip : (league n nround getWalkOver stack cchar e room).act (.player g' j) =
          .compute (.umpire (.player g' (j + 1))) := by
        simp [league, Umpire2.act, hjn, hg.tournament, hactive]
      rw [hactive, if_neg Bool.false_ne_true] at hsucc
      rw [hsame]
      exact ⟨g', hreach.trans (reaches_compute hskip), hg.tournament, hsucc ▸ hg.out, hsucc ▸ hg.pc, hsucc ▸ hg.record⟩
    | true =>
      set i : Fin n := ⟨j, hjn⟩ with hi
      have hmore : Function.update (asked g.tournament.state nround j made) i
          (asked g.tournament.state nround j made i + nround) = asked g.tournament.state nround (j + 1) made := by
        funext p
        by_cases hp : p = i
        · subst hp
          rw [Function.update_self]
          simp [asked, hactive, hi]
        · have hpj : (p : ℕ) ≠ j := fun hpj => hp (Fin.ext hpj)
          rw [Function.update_of_ne hp]
          unfold asked
          simp only [show (p : ℕ) < j + 1 ↔ (p : ℕ) < j by omega]
      -- the name is printed, then come the moves
      set g₁ : Asking := { g' with out := g'.out ++ name j g'.pc g'.tournament.state.nactive, pc := g'.pc + 1 } with hg₁
      have hname : (league n nround getWalkOver stack cchar e room).act (.player g' j) =
          .compute (.umpire (.ask g₁ i 0)) := by
        simp [league, Umpire2.act, hjn, hg.tournament, hactive, hg₁, hi]
      obtain ⟨g₂, hmoves, hheard⟩ := reaches_moves (h := h) (g := g₁) (asked g.tournament.state nround j made)
        (hruns i (Nat.lt_succ_self j) hactive) le_rfl
      have hdone : (league n nround getWalkOver stack cchar e room).act (.ask g₂ i nround) =
          .compute (.umpire (.player g₂ (j + 1))) := if_neg (lt_irrefl nround)
      rw [hmore] at hmoves
      rw [hactive, if_pos rfl] at hsucc
      have hasked : asked g.tournament.state nround j made i = g.tournament.rounds * nround := by
        rw [asked, if_neg (by simp [hi]), hmade i hactive]
      refine ⟨g₂, (hreach.trans (reaches_compute hname)).trans (hmoves.trans (reaches_compute hdone)),
        hheard.tournament.trans hg.tournament, ?_, ?_, fun p hp k hk => ?_⟩
      · rw [hheard.out, hsucc, List.zipIdx_append, List.flatMap_append]
        show g'.out ++ _ = _
        rw [hg.out, hg.pc, hg.tournament]
        simp
      · rw [hheard.pc, hsucc]
        show g'.pc + 1 = _
        rw [hg.pc, List.length_append, List.length_singleton]
      · rw [hsucc] at hp
        rcases List.mem_append.1 hp with hp | hp
        · have hne : p ≠ (i : ℕ) := ((mem_survivors.1 hp).1).ne
          rw [hheard.rows p hne]
          exact hg.record p hp k hk
        · obtain rfl := List.mem_singleton.1 hp
          have hrow := hheard.row k hk
          rw [hasked] at hrow
          rw [Executables.records, dif_pos hjn]
          exact hrow

/-- A round depends on the moves of the active players only. -/
theorem round_congr {s : State} {record record' : ℕ → ℕ → Char} {fuel : ℕ} (hs : Consistent n s) (hf : n ≤ fuel)
    (hrecord : ∀ p ∈ survivors n s, ∀ k < nround, record p k = record' p k) (w : ℕ) :
    round fuel n nround record w s = round fuel n nround record' w s := by
  rw [round_eq hs hf, round_eq hs hf]
  cases hpairs : pairUp (sitsOut (wid w s)) (survivors n s) with
  | none => rfl
  | some ms =>
    have hseat : ∀ m ∈ ms, m.1 ∈ survivors n s ∧ m.2 ∈ survivors n s := fun m hm =>
      ⟨(seats_sublist hpairs).subset (List.mem_flatMap.2 ⟨m, hm, by simp⟩),
        (seats_sublist hpairs).subset (List.mem_flatMap.2 ⟨m, hm, by simp⟩)⟩
    have hall : ms.foldl (settle nround record) s = ms.foldl (settle nround record') s :=
      List.foldl_ext _ _ _ fun s' m hm => settle_congr
        (fun k hk => ⟨hrecord _ (hseat m hm).1 k hk, hrecord _ (hseat m hm).2 k hk⟩) s'
    rw [Option.map_some, Option.map_some, hall]

/-- The names of a round, the last one with the end of the line behind it. -/
theorem names_eq {l : List ℕ} {pc : ℕ} {nactive : ℤ} (hl : l ≠ []) (hlen : nactive = pc + l.length) :
    (l.zipIdx pc).flatMap (fun x => name x.1 x.2 nactive) = [' '].intercalate (l.map tag) ++ ['\n'] := by
  induction l generalizing pc with
  | nil => exact absurd rfl hl
  | cons i l ih =>
    rw [List.zipIdx_cons, List.flatMap_cons]
    rw [List.length_cons] at hlen
    cases l with
    | nil =>
      have hlast : ¬ (pc : ℤ) < nactive - 1 := by simp at hlen; omega
      simp [name, hlast, List.intercalate]
    | cons j l =>
      have hmore : (pc : ℤ) < nactive - 1 := by rw [List.length_cons] at hlen; omega
      rw [ih (List.cons_ne_nil _ _) (by push_cast at hlen ⊢; omega)]
      simp [name, hmore, List.intercalate]

theorem names_lineup {s : State} (hs : Consistent n s) (hpos : 1 ≤ s.nactive) :
    (survivors n s).zipIdx.flatMap (fun x => name x.1 x.2 s.nactive) = lineup n s := by
  unfold Consistent at hs
  refine names_eq ?_ (by simpa using hs)
  rintro hnil
  rw [hnil] at hs
  simp at hs
  omega

/-- The players that are still active have been asked in every round. -/
def Made (nround : ℕ) (t : Tournament) (made : Fin n → ℕ) : Prop :=
  ∀ p : Fin n, t.state.active p = true → made p = t.rounds * nround

theorem reaches_turn {t : Tournament} {out : List Char} (hruns : ∀ p, e.runs p = true)
    (hgoing : Going n nround (e.records nround) g.tournament) (hne : g.tournament.state.nactive ≠ 1)
    (hmade : Made nround g.tournament made)
    (hturn : mainTurn n n nround (e.records nround) getWalkOver g.tournament = some t)
    (hout : out = g.out ++ lineup n g.tournament.state) :
    ∃ made' g', Reaches h made (.turn g) made' (.turn g') ∧ g'.tournament = t ∧ g'.out = out ∧ Made nround t made' := by
  have hstart : (league n nround getWalkOver stack cchar e room).act (.turn g) =
      .compute (.umpire (.player { g with pc := 0 } 0)) := by
    simp [league, Umpire2.act, hne]
  obtain ⟨g', hasked, hg⟩ := reaches_midway (h := h) (g := { g with pc := 0 }) made hmade rfl le_rfl
    fun p _ _ => hruns p
  obtain ⟨⟨s, ms⟩, hround, he⟩ := Option.bind_eq_some_iff.1 hturn
  obtain rfl := Option.some.inj he
  have hsame : mainTurn n n nround (fun _ => g'.record) getWalkOver g'.tournament =
      mainTurn n n nround (e.records nround) getWalkOver g.tournament := by
    have htournament : g'.tournament = g.tournament := hg.tournament
    unfold mainTurn
    rw [htournament, round_congr hgoing.consistent le_rfl hg.record]
  have hend : (league n nround getWalkOver stack cchar e room).act (.player g' n) =
      .compute (.umpire (.turn { g' with tournament :=
        ⟨g.tournament.rounds + 1, s, g.tournament.played ++ ms.map (g.tournament.rounds, ·)⟩ })) := by
    simp only [league, Umpire2.act, lt_irrefl, dite_false, hsame, hturn]
  refine ⟨_, _, ((reaches_compute hstart).trans hasked).trans (reaches_compute hend), rfl, ?_, fun p hp => ?_⟩
  · rw [hout, ← names_lineup hgoing.consistent hgoing.pos]
    exact hg.out
  · -- who is active was active before
    obtain ⟨-, -, -, hactive⟩ := round_some hgoing.consistent le_rfl hround
    have hbefore : g.tournament.state.active p = true := by
      rw [show s.active p = _ from hactive p, Bool.and_eq_true] at hp
      exact hp.1
    rw [asked, if_pos ⟨p.isLt, hbefore⟩, hmade p hbefore]
    show _ = (g.tournament.rounds + 1) * nround
    ring

/-- All rounds. -/
theorem reaches_rounds {fuel : ℕ} {t : Tournament} {out : List Char} (made : Fin n → ℕ) (hruns : ∀ p, e.runs p = true)
    (hgoing : Going n nround (e.records nround) g.tournament) (hmade : Made nround g.tournament made)
    (hplay : play nround getWalkOver e fuel (g.tournament, g.out) = some (t, out)) :
    ∃ made' g', Reaches h made (.turn g) made' (.turn g') ∧ g'.tournament = t ∧ g'.out = out ∧ t.state.nactive = 1 := by
  induction fuel generalizing made g with
  | zero =>
    unfold play whileLoop at hplay
    split at hplay
    · rename_i hstop
      obtain ⟨rfl, rfl⟩ := Prod.mk.inj (Option.some.inj hplay)
      exact ⟨made, g, .refl, rfl, rfl, mainTest_eq_false.1 hstop⟩
    · cases hplay
  | succ fuel ih =>
    by_cases hone : g.tournament.state.nactive = 1
    · have hstop : mainTest g.tournament = some false := mainTest_eq_false.2 hone
      rw [play, whileLoop_stop (by exact hstop)] at hplay
      obtain ⟨rfl, rfl⟩ := Prod.mk.inj (Option.some.inj hplay)
      exact ⟨made, g, .refl, rfl, rfl, hone⟩
    · have hgo : mainTest g.tournament = some true := mainTest_eq_true.2 hone
      cases hturn : mainTurn n n nround (e.records nround) getWalkOver g.tournament with
      | none =>
        rw [play, whileLoop_fault (by exact hgo) (by simp [hturn])] at hplay
        cases hplay
      | some t' =>
        rw [play, whileLoop_turn (by exact hgo) (by simp only [hturn]; rfl)] at hplay
        obtain ⟨made', g', hreach, rfl, hout, hmade'⟩ := reaches_turn hruns hgoing hone hmade hturn rfl
        have hgoing' := (hgoing.turn le_rfl ⟨hgo, hturn⟩).1
        obtain ⟨made'', g'', hreach', hend⟩ := ih made' hgoing' hmade' (by rw [hout]; exact hplay)
        exact ⟨made'', g'', hreach.trans hreach', hend⟩

/-- Without the lines it is the tournament. -/
theorem play_fst (fuel : ℕ) (t : Tournament) (out : List Char) :
    (play nround getWalkOver e fuel (t, out)).map Prod.fst =
      whileLoop mainTest (mainTurn n n nround (e.records nround) getWalkOver) fuel t := by
  induction fuel generalizing t out with
  | zero =>
    unfold play whileLoop
    split <;> rfl
  | succ fuel ih =>
    rcases hc : mainTest t with _ | _ | _
    · cases hc
    · rw [play, whileLoop_stop (by exact hc), whileLoop_stop hc]
      rfl
    · cases hturn : mainTurn n n nround (e.records nround) getWalkOver t with
      | none =>
        rw [play, whileLoop_fault (by exact hc) (by simp [hturn]), whileLoop_fault hc hturn]
        rfl
      | some t' =>
        rw [play, whileLoop_turn (by exact hc) (by simp only [hturn]; rfl), whileLoop_turn hc hturn]
        exact ih t' _

/-- If `getWalkOver` answers with active players, the tournament is played to its end, and the umpire prints it. -/
theorem reaches_over (hn : 1 ≤ n) (hruns : ∀ p, e.runs p = true)
    (hwalk : WalkOversActive n n nround (e.records nround) getWalkOver) :
    ∃ made t out, Reaches h (fun _ => 0) (.start n) made (.over t (out ++ ((printed n t.state).elim [] tag))) ∧
      play nround getWalkOver e n (⟨0, start n, []⟩, []) = some (t, out) ∧
      Decided n nround (e.records nround) t (printed n t.state) := by
  obtain ⟨t, ht⟩ := (whileLoop_decides_iff hn le_rfl).2 hwalk
  obtain ⟨⟨t', out⟩, hplay, rfl⟩ := Option.map_eq_some_iff.1 ((play_fst n ⟨0, start n, []⟩ []).trans ht)
  have hgoing := going_start nround (e.records nround) hn
  obtain ⟨hgoing', hstop⟩ := whileLoop_holds (fun t t' h hturn => (Going.turn le_rfl h hturn).1) hgoing ht
  obtain ⟨made, g, hreach, rfl, rfl, hone⟩ := reaches_rounds (h := h)
    (g := ⟨⟨0, start n, []⟩, stack, cchar, [], 0⟩) (fun _ => 0) hruns hgoing
    (fun p _ => (Nat.zero_mul nround).symm) hplay
  have hfirst : (league n nround getWalkOver stack cchar e room).act (.start n) =
      .compute (.umpire (.turn ⟨⟨0, start n, []⟩, stack, cchar, [], 0⟩)) := dif_neg (lt_irrefl n)
  have hlast : (league n nround getWalkOver stack cchar e room).act (.turn g) =
      .compute (.umpire (.over g.tournament (g.out ++ ((printed n g.tournament.state).elim [] tag)))) := by
    simp [league, Umpire2.act, hone]
  exact ⟨made, g.tournament, g.out, ((reaches_compute hfirst).trans hreach).trans (reaches_compute hlast), hplay,
    hgoing'.decided hone⟩

end Round

/-! ## The end -/

/-- The umpire has ended, and printed the tournament that is played without processes. Its players wait for ever, each
because the others can still write to it; a player that is alone ends. -/
structure Played (nround : ℕ) (getWalkOver : ℕ → ℤ → ℕ) (e : Executables n)
    (s : Config (Party n) (Pipe n) Char (Local (Umpire2 n))) : Prop where
  umpire : ∃ t out, play nround getWalkOver e n (⟨0, start n, []⟩, []) = some (t, out) ∧
    Decided n nround (e.records nround) t (printed n t.state) ∧
    s.proc .umpire = .ended (.umpire (.over t (out ++ ((printed n t.state).elim [] tag))))
  waits : 2 ≤ n → ∀ i, ∃ made goBuf, s.proc (.player i) = .running (.player (.ask made goBuf))
  alone : n = 1 → ∀ i, s.proc (.player i) = .ended (.player .over)
  pipe : ∀ c, s.pipe c = []

theorem mem_others {i : Fin n} {q : Party n} : q ∈ others n i ↔ q ≠ .player i := by
  rcases q with _ | j
  · simp [others]
  · simp [others]

/-- A player that waits as long as somebody else can write to it. -/
theorem held_stdIn {s : Config (Party n) (Pipe n) Char (Local (Umpire2 n))} {i : Fin n} :
    s.held (h.discipline.mended.writers (.stdIn i)) = true ↔ ∃ q, q ≠ .player i ∧ (s.proc q).isRunning = true := by
  rw [held_eq_true]
  exact exists_congr fun q => and_congr_left fun _ => mem_others

theorem played_run (hn : 1 ≤ n) (hruns : ∀ p, e.runs p = true)
    (hwalk : WalkOversActive n n nround (e.records nround) getWalkOver) : ∃ ls t,
    Run h.discipline.mended.Step (opening n) ls t ∧ Halted h.discipline.mended.next t ∧
      Played nround getWalkOver e t := by
  obtain ⟨ls, s, hrun, hs⟩ := enroll (k := n) h le_rfl
  obtain ⟨made, t, out, hreach, hplay, hdecided⟩ := reaches_over (h := h) hn hruns hwalk
  obtain ⟨ms, s', hrun', hs'⟩ := hreach s hs.quiet
  set x : Proc (Local (Umpire2 n)) := .ended (.umpire (.over t (out ++ ((printed n t.state).elim [] tag)))) with hx
  obtain ⟨ks, s₁, hall, hover, hwaits, hpipe⟩ : ∃ ks s₁, Run h.discipline.mended.Step (opening n) ks s₁ ∧
      s₁.proc .umpire = x ∧
      (∀ i, ∃ goBuf, s₁.proc (.player i) = .running (.player (.ask (made i) goBuf))) ∧ ∀ c, s₁.pipe c = [] := by
    have hexit := next_exit (N := h.discipline.mended) hs'.umpire rfl
    refine ⟨_, _, (hrun.append hrun').snoc hexit, by simp [hx], fun i => ?_, hs'.pipe⟩
    obtain ⟨goBuf, hi⟩ := hs'.runs i (hruns i)
    exact ⟨goBuf, by simpa using hi⟩
  by_cases htwo : 2 ≤ n
  · refine ⟨_, _, hall, fun p => ?_, ⟨t, out, hplay, hdecided, hover⟩, fun _ i => ?_, by omega, hpipe⟩
    · rcases p with _ | i
      · exact next_idle (by rw [hover]; rfl)
      · obtain ⟨goBuf, hi⟩ := hwaits i
        have : Nontrivial (Fin n) := Fin.nontrivial_iff_two_le.2 htwo
        obtain ⟨j, hj⟩ := exists_ne i
        obtain ⟨goBuf', hj'⟩ := hwaits j
        exact next_wait hi rfl (hpipe _) ((held_stdIn h).2 ⟨.player j, by simpa using hj, by rw [hj']; rfl⟩)
    · obtain ⟨goBuf, hi⟩ := hwaits i
      exact ⟨made i, goBuf, hi⟩
  · obtain rfl : n = 1 := by omega
    have hzero : ∀ i : Fin 1, i = 0 := fun i => Subsingleton.elim i 0
    obtain ⟨goBuf, hi⟩ := hwaits 0
    -- nobody is left who could write to it
    have hclosed : s₁.held (h.discipline.mended.writers (.stdIn 0)) = false := by
      rw [Bool.eq_false_iff, Ne, held_stdIn h]
      rintro ⟨_ | j, hq, hrunning⟩
      · rw [hover] at hrunning
        cases hrunning
      · exact hq (by rw [hzero j])
    have heof := next_eof (N := h.discipline.mended) hi rfl (hpipe _) hclosed
    have hend := (hall.snoc heof).snoc (next_exit (N := h.discipline.mended) (Function.update_self ..) rfl)
    refine ⟨_, _, hend, fun p => ?_, ⟨t, out, hplay, hdecided, ?_⟩, by omega, fun _ i => ?_, hpipe⟩
    · rcases p with _ | i
      · exact next_idle (by simp [hover, hx, Proc.isRunning])
      · rw [hzero i]
        exact next_idle (by simp [Proc.isRunning])
    · simp [hover, hx]
    · rw [hzero i]
      simp

/-- A write to a player finds the umpire itself with the other end; a move is read in the end. -/
theorem league_attended {t : Config (Party n) (Pipe n) Char (Local (Umpire2 n))} (ht : ∀ j, t.pipe (.stdOut j) = []) :
    ∀ c, Attended h.discipline (opening n) t c := by
  rintro (i | i)
  · exact Or.inl List.mem_cons_self
  · exact Or.inr ⟨List.mem_cons_self, nofun, Or.inl (ht i)⟩

/-- However many players there are, whatever moves they make and in whatever order the processes run: the tournament
takes the same number of turns of each process, no write finds its reader gone, and in the end the umpire has printed
what the tournament without processes prints. -/
theorem tournament_ends (hroom : 3 ≤ room) (hn : 1 ≤ n) (hruns : ∀ p, e.runs p = true)
    (hwalk : WalkOversActive n n nround (e.records nround) getWalkOver) :
    ∃ (ls : List (Party n)) (t : Config (Party n) (Pipe n) Char (Local (Umpire2 n))),
      Played nround getWalkOver e t ∧ Halted (league n nround getWalkOver stack cchar e room).network.next t ∧
      ∀ ms u, Run (league n nround getWalkOver stack cchar e room).network.Step (opening n) ms u →
        (league n nround getWalkOver stack cchar e room).network.Served u ∧
          ∃ ns, Run (league n nround getWalkOver stack cchar e room).network.Step u ns t ∧ ls.Perm (ms ++ ns) := by
  have h : (league n nround getWalkOver stack cchar e room).Fair := league_fair hroom
  obtain ⟨ls, t, hrun, hhalt, hplayed⟩ := played_run h hn hruns hwalk
  have hpipes := league_attended h fun j => hplayed.pipe (.stdOut j)
  have haligned : Aligned h.discipline (opening n) := fun d => dvd_zero _
  exact ⟨ls, t, hplayed, (halts haligned hrun hhalt hpipes .start).1,
    fun ms u hother => (halts haligned hrun hhalt hpipes hother).2⟩

/-- Three players, of which the second one is to sit out of the first round. -/
theorem tournament_ends_of_three :
    let e : Executables 3 := ⟨fun _ => true, fun i _ => ['0', '1', '2'].getD i ' ', fun _ => []⟩
    let G := league 3 2 (fun _ _ => 1) (fun _ _ => 'x') 'x' e 4096
    ∃ (ls : List (Party 3)) (s : Config (Party 3) (Pipe 3) Char (Local (Umpire2 3))),
      (∃ t, s.proc .umpire = .ended (.umpire (.over t "p0 p1 p2\np0 p1\np1".toList))) ∧
      ∀ ms u, Run G.network.Step (opening 3) ms u → ∃ ns, Run G.network.Step u ns s ∧ ls.Perm (ms ++ ns) := by
  intro e G
  have hwalk : WalkOversActive 3 3 2 (e.records 2) fun _ _ => 1 :=
    (whileLoop_decides_iff (by decide) le_rfl).1 ⟨_, rfl⟩
  obtain ⟨ls, s, hplayed, -, hends⟩ : ∃ (ls : List (Party 3)) (s : Config (Party 3) (Pipe 3) Char (Local (Umpire2 3))),
      Played 2 (fun _ _ => 1) e s ∧ Halted G.network.next s ∧ ∀ ms u, Run G.network.Step (opening 3) ms u →
        G.network.Served u ∧ ∃ ns, Run G.network.Step u ns s ∧ ls.Perm (ms ++ ns) :=
    tournament_ends (by decide) (by decide) (fun _ => rfl) hwalk
  obtain ⟨t, out, hplay, -, hs⟩ := hplayed.umpire
  have hprinted : (play 2 (fun _ _ => 1) e 3 (⟨0, start 3, []⟩, [])).map
      (fun x => x.2 ++ ((printed 3 x.1.state).elim [] tag)) = some "p0 p1 p2\np0 p1\np1".toList := rfl
  rw [hplay] at hprinted
  refine ⟨ls, s, ⟨t, ?_⟩, fun ms u hother => (hends ms u hother).2⟩
  rw [hs, ← Option.some.inj hprinted]

/-- The umpire waits for the first move of a player that could not be started, to which it has written. -/
structure Stuck (i : Fin n) (s : Config (Party n) (Pipe n) Char (Local (Umpire2 n))) : Prop where
  umpire : ∃ g, s.proc .umpire = .running (.umpire (.hear g i 0))
  unable : s.proc (.player i) = .ended (.player .exec)
  stdIn : s.pipe (.stdIn i) = goMsg
  stdOut : ∀ j, s.pipe (.stdOut j) = []

theorem stuck_run (hn : 2 ≤ n) (hround : 1 ≤ nround) {i : Fin n} (hi : e.runs i = false)
    (hfirst : ∀ p < i, e.runs p = true) : ∃ ls t,
    Run h.discipline.mended.Step (opening n) ls t ∧ Halted h.discipline.mended.next t ∧ Stuck i t := by
  obtain ⟨ls, s, hrun, hs⟩ := enroll (k := n) h le_rfl
  set g : Asking := ⟨⟨0, start n, []⟩, stack, cchar, [], 0⟩ with hg
  obtain ⟨g', hmidway, hg'⟩ := reaches_midway (h := h) (g := g) (j := i) (fun _ => 0)
    (fun p _ => (Nat.zero_mul nround).symm) rfl i.isLt.le fun p hp _ => hfirst p hp
  have hfork : (league n nround getWalkOver stack cchar e room).act (.start n) = .compute (.umpire (.turn g)) :=
    dif_neg (lt_irrefl n)
  have hstart : (league n nround getWalkOver stack cchar e room).act (.turn g) =
      .compute (.umpire (.player g 0)) := by
    have hne : (n : ℤ) ≠ 1 := by omega
    simp [league, Umpire2.act, hg, start, hne]
  obtain ⟨g₁, hname⟩ : ∃ g₁, (league n nround getWalkOver stack cchar e room).act (.player g' i) =
      .compute (.umpire (.ask g₁ i 0)) := by
    refine ⟨{ g' with out := g'.out ++ name i g'.pc g'.tournament.state.nactive, pc := g'.pc + 1 }, ?_⟩
    simp [league, Umpire2.act, hg'.tournament, hg, start]
  have hreach := ((reaches_compute hfork).trans (reaches_compute hstart)).trans
    (hmidway.trans (reaches_compute hname))
  obtain ⟨ms, s', hrun', hs'⟩ := hreach s hs.quiet
  have hself := between_self hs'.umpire i
  rw [hs'.unable i hi, hs'.pipe, hs'.pipe] at hself
  have hact : (league n nround getWalkOver stack cchar e room).act (.ask g₁ i 0) =
      .write (.stdIn i) goMsg (.umpire (.hear g₁ i 0)) := if_pos (by omega)
  have hgo := go_turn (s := s') (x := .ended (.player .exec)) (a := []) (b := []) h hact h.room
  rw [hself, List.nil_append] at hgo
  have hstdOut : ∀ j, (between s' (.hear g₁ i 0) i (.ended (.player .exec)) goMsg []).pipe (.stdOut j) = [] := by
    intro j
    by_cases hj : j = i
    · subst hj
      exact between_stdOut
    · rw [(between_other hj).2.2]
      exact hs'.pipe _
  refine ⟨_, _, (hrun.append hrun').snoc hgo, fun p => ?_, ⟨g₁, between_umpire⟩, between_player, between_stdIn, hstdOut⟩
  rcases p with _ | j
  · -- the umpire has the other end of the pipe it reads
    exact next_wait (N := h.discipline.mended) between_umpire rfl between_stdOut
      (held_eq_true.2 ⟨.umpire, List.mem_cons_self, by rw [between_umpire]; rfl⟩)
  · by_cases hj : j = i
    · subst hj
      exact next_idle (by rw [between_player]; rfl)
    · cases hruns : e.runs j with
      | false => exact next_idle (by rw [(between_other hj).1, hs'.unable j hruns]; rfl)
      | true =>
        obtain ⟨goBuf, hj'⟩ := hs'.runs j hruns
        have hpipe : (between s' (.hear g₁ i 0) i (.ended (.player .exec)) goMsg []).pipe (.stdIn j) = [] := by
          rw [(between_other hj).2.1]
          exact hs'.pipe _
        exact next_wait (N := h.discipline.mended) ((between_other hj).1.trans hj') rfl hpipe
          ((held_stdIn h).2 ⟨.umpire, by simp, by rw [between_umpire]; rfl⟩)

/-- If a player cannot be started, then in every order the umpire comes to wait for the first such player for ever. -/
theorem tournament_stuck (hroom : 3 ≤ room) (hn : 2 ≤ n) (hround : 1 ≤ nround) {i : Fin n} (hi : e.runs i = false)
    (hfirst : ∀ p < i, e.runs p = true) :
    ∃ (ls : List (Party n)) (t : Config (Party n) (Pipe n) Char (Local (Umpire2 n))),
      Stuck i t ∧ Halted (league n nround getWalkOver stack cchar e room).network.next t ∧
      ∀ ms u, Run (league n nround getWalkOver stack cchar e room).network.Step (opening n) ms u →
        (league n nround getWalkOver stack cchar e room).network.Served u ∧
          ∃ ns, Run (league n nround getWalkOver stack cchar e room).network.Step u ns t ∧ ls.Perm (ms ++ ns) := by
  have h : (league n nround getWalkOver stack cchar e room).Fair := league_fair hroom
  obtain ⟨ls, t, hrun, hhalt, hstuck⟩ := stuck_run h hn hround hi hfirst
  have haligned : Aligned h.discipline (opening n) := fun d => dvd_zero _
  exact ⟨ls, t, hstuck, (halts haligned hrun hhalt (league_attended h hstuck.stdOut) .start).1,
    fun ms u hother => (halts haligned hrun hhalt (league_attended h hstuck.stdOut) hother).2⟩

/-- The second of two players cannot be started. -/
theorem tournament_stuck_of_two :
    let e : Executables 2 := ⟨fun i => i == 0, fun _ _ => '0', fun _ => []⟩
    let G := league 2 1 (fun _ _ => 1) (fun _ _ => 'x') 'x' e 4096
    ∃ (ls : List (Party 2)) (t : Config (Party 2) (Pipe 2) Char (Local (Umpire2 2))), Stuck 1 t ∧
      Halted G.network.next t ∧ ∀ ms u, Run G.network.Step (opening 2) ms u →
        G.network.Served u ∧ ∃ ns, Run G.network.Step u ns t ∧ ls.Perm (ms ++ ns) := by
  intro e G
  exact tournament_stuck (by decide) (by decide) (by decide) (by decide) (by decide)

end Protocol

end CS330.Umpire
