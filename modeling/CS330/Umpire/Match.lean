/-
umpire.c: a match of two players. The umpire writes GO ten times to the first player, starts it and reads ten moves;
then it does the same with the second one, and prints how often each has scored.

Neither the umpire nor the first player closes anything, and the second one closes two ends it inherits. So nobody
ever reads the end of a file: the players are not told that the match is over, and an umpire whose player could not be
started waits for its moves.
-/
import CS330.Umpire.Process
import CS330.Umpire.Round

namespace CS330.Umpire

open CS330.Lib Network

/-! ## The umpire -/

/-- The loop over the moves: `score1` and `score2`. -/
def score (p1 p2 : List Char) : ℕ × ℕ :=
  (List.range 10).foldl (fun score i =>
    if beats (p2.getD i '\x00') (p1.getD i '\x00') then (score.1, score.2 + 1)
    else if beats (p1.getD i '\x00') (p2.getD i '\x00') then (score.1 + 1, score.2)
    else score) (0, 0)

/-- What the umpire works on; it is about the second player as soon as there is `p1`. -/
inductive Umpiring
  | go (p1 : Option (List Char)) (i : ℕ)
  | hear (p1 : Option (List Char)) (moves : List Char)
  | printed (score : ℕ × ℕ)

def seat : Option (List Char) → Fin 2
  | none => 0
  | some _ => 1

/-- `c` is what is on the stack where a move is read to. -/
def Umpiring.act (c : Char) : Umpiring → Action (Party 2) (Pipe 2) Char (Local Umpiring)
  | .go p1 i =>
    if i < 10 then .write (.stdIn (seat p1)) goMsg (.umpire (.go p1 (i + 1)))
    else .fork (.player (seat p1)) (.player .exec) (.umpire (.hear p1 []))
  | .hear p1 moves =>
    if moves.length < 10 then
      .read (.stdOut (seat p1)) 1 fun bytes => .umpire (.hear p1 (moves ++ [bytes.headD c]))
    else
      match p1 with
      | none => .compute (.umpire (.go (some moves) 0))
      | some p1 => .compute (.umpire (.printed (score p1 moves)))
  | .printed _ => .exit

/-- The second player closes the end that writes its stdin and the one that reads its stdout. -/
def duel (c : Char) (executables : Executables 2) (room : ℕ) : Game 2 Umpiring where
  act := Umpiring.act c
  executables := executables
  writers
    | .stdIn i => if i = 0 then [.umpire, .player 0, .player 1] else [.umpire, .player 0]
    | .stdOut _ => [.umpire, .player 0, .player 1]
  readers
    | .stdIn _ => [.umpire, .player 0, .player 1]
    | .stdOut i => if i = 0 then [.umpire, .player 0, .player 1] else [.umpire, .player 0]
  room := room

/-- All pipes are there, and no player. -/
def kickoff : Config (Party 2) (Pipe 2) Char (Local Umpiring) :=
  ⟨fun
    | .umpire => .running (.umpire (.go none 0))
    | .player _ => .absent, fun _ => []⟩

/-! ## What a match is for -/

/-- How often the first of two players scores with the first ten moves of each. -/
def won (e : Executables 2) (i j : Fin 2) : ℕ :=
  (List.range 10).countP fun k => beats (e.chooseMove i k) (e.chooseMove j k)

/-- A player waits for a message, and has made ten moves. -/
def Waits (t : Config (Party 2) (Pipe 2) Char (Local Umpiring)) (i : Fin 2) : Prop :=
  ∃ goBuf, t.proc (.player i) = .running (.player (.ask 10 goBuf))

/-- If both executables can be started, the umpire has printed the score and both players wait; if the first one cannot,
or only the second one, the umpire waits for its moves. -/
structure Outcome (e : Executables 2) (t : Config (Party 2) (Pipe 2) Char (Local Umpiring)) : Prop where
  both : e.runs 0 = true → e.runs 1 = true →
    t.proc .umpire = .ended (.umpire (.printed (won e 0 1, won e 1 0))) ∧ Waits t 0 ∧ Waits t 1
  first : e.runs 0 = false →
    t.proc .umpire = .running (.umpire (.hear none [])) ∧ t.proc (.player 0) = .ended (.player .exec) ∧
      t.proc (.player 1) = .absent
  second : e.runs 0 = true → e.runs 1 = false →
    ∃ p1, t.proc .umpire = .running (.umpire (.hear (some p1) [])) ∧ Waits t 0 ∧
      t.proc (.player 1) = .ended (.player .exec)

section

variable {c : Char} {e : Executables 2} {room : ℕ}

theorem duel_fair (hroom : 30 ≤ room) : (duel c e room).Fair where
  asks := by
    rintro (⟨p1, i⟩ | ⟨p1, moves⟩ | score)
    · show Asks (Umpiring.act c (.go p1 i))
      by_cases hi : i < 10
      · simp [Umpiring.act, hi, Asks]
      · simp [Umpiring.act, hi, Asks]
    · show Asks (Umpiring.act c (.hear p1 moves))
      by_cases hlen : moves.length < 10
      · simp [Umpiring.act, hlen, Asks]
      · cases p1 <;> simp [Umpiring.act, hlen, Asks]
    · trivial
  umpire := by
    rintro (i | i)
    · fin_cases i <;> exact List.mem_cons_self
    · exact List.mem_cons_self
  player := by
    intro i
    fin_cases i <;> simp [duel]
  room := le_trans (by decide) hroom

/-! ## The score -/

/-- The loop of the other umpire, with the players exchanged. -/
theorem score_eq (record : ℕ → ℕ → Char) {p1 p2 : List Char} (h1 : ∀ k < 10, p1.getD k '\x00' = record 0 k)
    (h2 : ∀ k < 10, p2.getD k '\x00' = record 1 k) : score p1 p2 = (scores 10 record 1 0).swap := by
  have hswap : (scores 10 record 1 0).swap = (List.range 10).foldl (fun score i =>
      if beats (record 1 i) (record 0 i) then (score.1, score.2 + 1)
      else if beats (record 0 i) (record 1 i) then (score.1 + 1, score.2) else score) (0, 0) := by
    refine (List.foldl_hom Prod.swap fun score i => ?_).symm
    split_ifs <;> rfl
  rw [hswap]
  refine List.foldl_ext _ _ _ fun score i hi => ?_
  rw [h1 i (List.mem_range.1 hi), h2 i (List.mem_range.1 hi)]

/-- The first ten moves of a player. -/
def moves (e : Executables 2) (i : Fin 2) : List Char := (List.range' 0 10).map (e.chooseMove i)

theorem score_moves (e : Executables 2) : score (moves e 0) (moves e 1) = (won e 0 1, won e 1 0) := by
  have hget : ∀ i, ∀ k < 10, (moves e i).getD k '\x00' = e.chooseMove i k := fun i k hk => by
    simp [moves, List.getD_eq_getElem?_getD, hk]
  rw [score_eq (fun p => if p = 0 then e.chooseMove 0 else e.chooseMove 1) (hget 0) (hget 1), scores_eq]
  rfl

/-! ## One player after the other -/

section Asking

variable {s : Config (Party 2) (Pipe 2) Char (Local Umpiring)} {p1 : Option (List Char)} {i : Fin 2}
  {x : Proc (Local Umpiring)} {u : Umpiring}

/-- So many messages in a row. -/
def gos (k : ℕ) : List Char := (List.replicate k goMsg).flatten

theorem gos_succ (k : ℕ) : gos (k + 1) = gos k ++ goMsg := by
  rw [gos, List.replicate_succ', List.flatten_append]
  simp [gos]

theorem length_gos (k : ℕ) : (gos k).length = 3 * k := by
  simp [gos, goMsg, Nat.mul_comm]

variable (h : (duel c e room).Fair)

theorem go_run (hroom : 30 ≤ room) (hi : seat p1 = i) {k : ℕ} (hk : k ≤ 10) :
    Run h.discipline.mended.Step (between s (.go p1 0) i x [] []) (List.replicate k .umpire)
      (between s (.go p1 k) i x (gos k) []) := by
  subst hi
  induction k with
  | zero => exact .start
  | succ k ih =>
    have hact : (duel c e room).act (.go p1 k) = .write (.stdIn (seat p1)) goMsg (.umpire (.go p1 (k + 1))) :=
      if_pos (by omega)
    rw [List.replicate_succ', gos_succ]
    refine (ih (by omega)).snoc (go_turn h hact ?_)
    show _ ≤ room
    rw [length_gos]
    omega

/-- All messages are answered, whatever the umpire is doing. -/
theorem answer_run (hroom : 30 ≤ room) (i : Fin 2) (k made : ℕ) (goBuf : List Char) {b : List Char}
    (hb : b.length + k ≤ 10) :
    ∃ ls goBuf', Run h.discipline.mended.Step (between s u i (.running (.player (.ask made goBuf))) (gos k) b) ls
      (between s u i (.running (.player (.ask (made + k) goBuf'))) []
        (b ++ (List.range' made k).map (e.chooseMove i))) := by
  induction k generalizing made goBuf b with
  | zero => exact ⟨[], goBuf, by simpa [gos] using Run.start⟩
  | succ k ih =>
    have hfits : b.length + 1 ≤ (duel c e room).room := by
      show _ ≤ room
      omega
    have hfirst := answer (s := s) (u := u) (i := i) (a := gos k) h made goBuf hfits
    obtain ⟨ls, goBuf', hrest⟩ := ih (made + 1) (goMsg ++ goBuf.drop 3) (b := b ++ [e.chooseMove i made])
      (by simp; omega)
    rw [show made + 1 + k = made + (k + 1) by omega, List.append_assoc] at hrest
    exact ⟨_, goBuf', hfirst.append hrest⟩

theorem hear_run (hi : seat p1 = i) (moves : List Char) {a b : List Char} (hlen : moves.length + b.length ≤ 10) :
    Run h.discipline.mended.Step (between s (.hear p1 moves) i x a b) (List.replicate b.length .umpire)
      (between s (.hear p1 (moves ++ b)) i x a []) := by
  subst hi
  induction b generalizing moves with
  | nil => simpa using Run.start
  | cons d b ih =>
    rw [List.length_cons] at hlen
    have hact : (duel c e room).act (.hear p1 moves) =
        .read (.stdOut (seat p1)) 1 fun bytes => .umpire (.hear p1 (moves ++ [bytes.headD c])) :=
      if_pos (by omega)
    have hrest := ih (moves ++ [d]) (by simp; omega)
    rw [List.append_assoc, List.singleton_append] at hrest
    exact .cons (hear_turn h hact d) hrest

/-- The umpire hears ten moves of a player that can be started. -/
theorem asked_run (hroom : 30 ≤ room) (p1 : Option (List Char)) (hi : seat p1 = i) (hruns : e.runs i = true) :
    ∃ ls goBuf, Run h.discipline.mended.Step (between s (.go p1 0) i .absent [] []) ls
      (between s (.hear p1 (moves e i)) i (.running (.player (.ask 10 goBuf))) [] []) := by
  have hfork : (duel c e room).act (.go p1 10) = .fork (.player i) (.player .exec) (.umpire (.hear p1 [])) := by
    subst hi
    rfl
  obtain ⟨ls, goBuf, hanswers⟩ := answer_run (s := s) (u := .hear p1 []) h hroom i 10 0 (e.goBuf i) (b := [])
    (by decide)
  have hstart := ((go_run (s := s) (x := .absent) h hroom hi le_rfl).snoc (fork_turn h hfork)).snoc
    (exec_turn h hruns)
  have hhear := hear_run (s := s) (x := .running (.player (.ask 10 goBuf))) (a := []) (b := moves e i) h hi []
    (by simp [moves])
  exact ⟨_, goBuf, (hstart.append hanswers).append hhear⟩

/-- It hears none of one that cannot. -/
theorem unable_run (hroom : 30 ≤ room) (p1 : Option (List Char)) (hi : seat p1 = i) (hruns : e.runs i = false) :
    ∃ ls, Run h.discipline.mended.Step (between s (.go p1 0) i .absent [] []) ls
      (between s (.hear p1 []) i (.ended (.player .exec)) (gos 10) []) := by
  have hfork : (duel c e room).act (.go p1 10) = .fork (.player i) (.player .exec) (.umpire (.hear p1 [])) := by
    subst hi
    rfl
  exact ⟨_, ((go_run (s := s) (x := .absent) h hroom hi le_rfl).snoc (fork_turn h hfork)).snoc
    (unable_turn h hruns)⟩

end Asking

/-! ## The match -/

/-- Player `i` has had its turn, and the umpire goes on to the second one. -/
def halfTime (e : Executables 2) (goBuf : List Char) : Config (Party 2) (Pipe 2) Char (Local Umpiring) :=
  between kickoff (.go (some (moves e 0)) 0) 0 (.running (.player (.ask 10 goBuf))) [] []

theorem kickoff_between : between kickoff (.go none 0) 0 .absent [] [] = kickoff := between_self rfl 0

theorem halfTime_between (goBuf : List Char) :
    between (halfTime e goBuf) (.go (some (moves e 0)) 0) 1 .absent [] [] = halfTime e goBuf := by
  have hother : (1 : Fin 2) ≠ 0 := by decide
  have hself := between_self (s := halfTime e goBuf) between_umpire 1
  simp only [halfTime, between_other hother] at hself ⊢
  exact hself

theorem halfTime_run (h : (duel c e room).Fair) (hroom : 30 ≤ room) (hruns : e.runs 0 = true) :
    ∃ ls goBuf, Run h.discipline.mended.Step kickoff ls (halfTime e goBuf) := by
  obtain ⟨ls, goBuf, hrun⟩ := asked_run (s := kickoff) (i := 0) h hroom none rfl hruns
  have hact : (duel c e room).act (.hear none (moves e 0)) = .compute (.umpire (.go (some (moves e 0)) 0)) := by
    simp [duel, Umpiring.act, moves]
  rw [kickoff_between] at hrun
  exact ⟨_, goBuf, hrun.snoc (compute_turn h hact)⟩

/-- A player with nothing to read waits, as the first player has the writing end of both. -/
theorem player_waits (h : (duel c e room).Fair) {t : Config (Party 2) (Pipe 2) Char (Local Umpiring)} {i : Fin 2}
    (hi : Waits t i) (h0 : Waits t 0) (hpipe : t.pipe (.stdIn i) = []) :
    h.discipline.mended.next t (.player i) = none := by
  obtain ⟨goBuf, hi⟩ := hi
  obtain ⟨goBuf', h0⟩ := h0
  refine next_wait hi rfl hpipe (held_eq_true.2 ⟨.player 0, ?_, by rw [h0]; rfl⟩)
  fin_cases i <;> simp [Game.Fair.discipline, Discipline.mended, Game.network, duel]

/-- The umpire waits for a move, as it has the writing end itself. -/
theorem umpire_waits (h : (duel c e room).Fair) {t : Config (Party 2) (Pipe 2) Char (Local Umpiring)}
    {p1 : Option (List Char)} (ht : t.proc .umpire = .running (.umpire (.hear p1 [])))
    (hpipe : t.pipe (.stdOut (seat p1)) = []) : h.discipline.mended.next t .umpire = none := by
  have hact : (duel c e room).act (.hear p1 []) =
      .read (.stdOut (seat p1)) 1 fun bytes => .umpire (.hear p1 ([] ++ [bytes.headD c])) := by
    simp [duel, Umpiring.act]
  have hopen : .umpire ∈ (duel c e room).writers (.stdOut (seat p1)) := h.umpire _
  exact next_wait (N := h.discipline.mended) ht hact hpipe (held_eq_true.2 ⟨.umpire, hopen, by rw [ht]; rfl⟩)

/-- The umpire has printed the score and ended. -/
def ended (s : Config (Party 2) (Pipe 2) Char (Local Umpiring)) (score : ℕ × ℕ) :
    Config (Party 2) (Pipe 2) Char (Local Umpiring) :=
  ⟨Function.update s.proc .umpire (.ended (.umpire (.printed score))), s.pipe⟩

theorem ended_player (s : Config (Party 2) (Pipe 2) Char (Local Umpiring)) (score : ℕ × ℕ) (i : Fin 2) :
    (ended s score).proc (.player i) = s.proc (.player i) := by simp [ended]

theorem ended_umpire (s : Config (Party 2) (Pipe 2) Char (Local Umpiring)) (score : ℕ × ℕ) :
    (ended s score).proc .umpire = .ended (.umpire (.printed score)) := by simp [ended]

/-- In one order, the match comes to a halt with its outcome, and no move is left unread. -/
theorem match_run (h : (duel c e room).Fair) (hroom : 30 ≤ room) : ∃ ls t,
    Run h.discipline.mended.Step kickoff ls t ∧ Halted h.discipline.mended.next t ∧ Outcome e t ∧
      t.pipe (.stdOut 1) = [] := by
  have hother : (0 : Fin 2) ≠ 1 := by decide
  have hother' : (1 : Fin 2) ≠ 0 := by decide
  cases h0 : e.runs 0 with
  | false =>
    obtain ⟨ls, hrun⟩ := unable_run (s := kickoff) (i := 0) h hroom none rfl h0
    rw [kickoff_between] at hrun
    have hplayer1 := between_other (s := kickoff) (u := .hear none []) (x := .ended (.player .exec)) (a := gos 10)
      (b := []) hother'
    refine ⟨ls, _, hrun, fun p => ?_, ⟨by simp [h0], fun _ => ⟨by simp, by simp, hplayer1.1⟩, by simp [h0]⟩,
      hplayer1.2.2⟩
    rcases p with _ | i
    · exact umpire_waits h between_umpire between_stdOut
    · revert i
      refine Fin.forall_fin_two.2 ⟨?_, ?_⟩
      · exact next_idle (by rw [between_player]; rfl)
      · exact next_idle (by rw [hplayer1.1]; rfl)
  | true =>
    obtain ⟨ls, goBuf, hhalf⟩ := halfTime_run h hroom h0
    cases h1 : e.runs 1 with
    | false =>
      obtain ⟨ms, hrun⟩ := unable_run (s := halfTime e goBuf) (i := 1) h hroom (some (moves e 0)) rfl h1
      rw [halfTime_between] at hrun
      have hplayer0 := between_other (s := halfTime e goBuf) (u := .hear (some (moves e 0)) [])
        (x := .ended (.player .exec)) (a := gos 10) (b := []) hother
      have hwaits : Waits (between (halfTime e goBuf) (.hear (some (moves e 0)) []) 1 (.ended (.player .exec))
          (gos 10) []) 0 := ⟨goBuf, hplayer0.1.trans between_player⟩
      refine ⟨_, _, hhalf.append hrun, fun p => ?_,
        ⟨by simp [h1], by simp [h0], fun _ _ => ⟨_, between_umpire, hwaits, between_player⟩⟩, between_stdOut⟩
      rcases p with _ | i
      · exact umpire_waits h between_umpire between_stdOut
      · revert i
        refine Fin.forall_fin_two.2 ⟨?_, ?_⟩
        · exact player_waits h hwaits hwaits (hplayer0.2.1.trans between_stdIn)
        · exact next_idle (by rw [between_player]; rfl)
    | true =>
      obtain ⟨ms, goBuf', hrun⟩ := asked_run (s := halfTime e goBuf) (i := 1) h hroom (some (moves e 0)) rfl h1
      rw [halfTime_between] at hrun
      have hact : (duel c e room).act (.hear (some (moves e 0)) (moves e 1)) =
          .compute (.umpire (.printed (score (moves e 0) (moves e 1)))) := by
        simp [duel, Umpiring.act, moves]
      have hprinted := hrun.snoc (compute_turn h hact)
      rw [score_moves] at hprinted
      have hplayer0 := between_other (s := halfTime e goBuf) (u := .printed (won e 0 1, won e 1 0))
        (x := .running (.player (.ask 10 goBuf'))) (a := []) (b := []) hother
      generalize ht : between (halfTime e goBuf) (.printed (won e 0 1, won e 1 0)) 1
        (.running (.player (.ask 10 goBuf'))) [] [] = t at hprinted hplayer0
      have humpire : t.proc .umpire = .running (.umpire (.printed (won e 0 1, won e 1 0))) := ht ▸ between_umpire
      have hstdIn : t.pipe (.stdIn 1) = [] := ht ▸ between_stdIn
      have hstdOut : t.pipe (.stdOut 1) = [] := ht ▸ between_stdOut
      have hwaits0 : Waits (ended t (won e 0 1, won e 1 0)) 0 :=
        ⟨goBuf, (ended_player ..).trans (hplayer0.1.trans between_player)⟩
      have hwaits1 : Waits (ended t (won e 0 1, won e 1 0)) 1 := ⟨goBuf', (ended_player ..).trans (ht ▸ between_player)⟩
      refine ⟨_, ended t (won e 0 1, won e 1 0), (hhalf.append hprinted).snoc (next_exit humpire rfl), fun p => ?_,
        ⟨fun _ _ => ⟨ended_umpire .., hwaits0, hwaits1⟩, by simp [h0], by simp [h1]⟩, hstdOut⟩
      rcases p with _ | i
      · exact next_idle (by rw [ended_umpire]; rfl)
      · revert i
        refine Fin.forall_fin_two.2 ⟨?_, ?_⟩
        · exact player_waits h hwaits0 hwaits0 (hplayer0.2.1.trans between_stdIn)
        · exact player_waits h hwaits1 hwaits0 hstdIn

/-- Whatever the players are, and in whatever order the processes run: a match takes the same number of turns of each
of them, no write finds its reader gone, and in the end nobody can go on, with the outcome of the match. -/
theorem match_ends (hroom : 30 ≤ room) : ∃ (ls : List (Party 2)) (t : Config (Party 2) (Pipe 2) Char (Local Umpiring)),
    Outcome e t ∧ Halted (duel c e room).network.next t ∧ ∀ ms u, Run (duel c e room).network.Step kickoff ms u →
      (duel c e room).network.Served u ∧ ∃ ns, Run (duel c e room).network.Step u ns t ∧ ls.Perm (ms ++ ns) := by
  have h := duel_fair (c := c) (e := e) hroom
  obtain ⟨ls, t, hrun, hhalt, hout, hpipe⟩ := match_run h hroom
  have hpipes : ∀ d, Attended h.discipline kickoff t d := by
    rintro (i | i)
    · exact Or.inl (by fin_cases i <;> simp [Game.network, duel, Game.Fair.discipline])
    · fin_cases i
      · exact Or.inl (by simp [Game.network, duel, Game.Fair.discipline])
      · exact Or.inr ⟨by simp [Game.network, duel, Game.Fair.discipline], nofun, Or.inl hpipe⟩
  have haligned : Aligned h.discipline kickoff := fun d => dvd_zero _
  exact ⟨ls, t, hout, (halts haligned hrun hhalt hpipes .start).1,
    fun ms u hother => (halts haligned hrun hhalt hpipes hother).2⟩

/-- Rock against paper. -/
theorem match_ends_of_rock :
    let e : Executables 2 := ⟨fun _ => true, fun i _ => if i = 0 then '0' else '1', fun _ => []⟩
    ∃ (ls : List (Party 2)) (t : Config (Party 2) (Pipe 2) Char (Local Umpiring)),
      t.proc .umpire = .ended (.umpire (.printed (0, 10))) ∧
      ∀ ms u, Run (duel 'x' e 4096).network.Step kickoff ms u →
        ∃ ns, Run (duel 'x' e 4096).network.Step u ns t ∧ ls.Perm (ms ++ ns) := by
  intro e
  obtain ⟨ls, t, hout, -, hends⟩ := match_ends (c := 'x') (e := e) (show 30 ≤ 4096 by decide)
  have hscore : (won e 0 1, won e 1 0) = (0, 10) := by decide
  refine ⟨ls, t, ?_, fun ms u hother => (hends ms u hother).2⟩
  rw [(hout.both rfl rfl).1, hscore]

end

end CS330.Umpire
