/-
player.c, and the processes and pipes around it: a player is started by the umpire with a pipe as its stdin and one as
its stdout. As long as there is something to read it reads three bytes, which are to begin with GO, and writes a move.

The moves are arbitrary, and so is whether the executable can be started. Calls that cannot fail here are taken not to:
the pipes, forks and `dup2`, and reads and writes except that to a pipe without a reader. Messages to stderr are left
out.
-/
import CS330.Lib.Network

namespace CS330.Umpire

open CS330.Lib Network

/-! ## The parties -/

/-- The umpire and the children it forks. -/
inductive Party (nplayers : ℕ)
  | umpire
  | player (i : Fin nplayers)
  deriving DecidableEq

/-- The pipe a player has as its stdin, and the one it has as its stdout. -/
inductive Pipe (nplayers : ℕ)
  | stdIn (i : Fin nplayers)
  | stdOut (i : Fin nplayers)
  deriving DecidableEq

/-- A child, before `exec` and then in `main`, with the number of moves it has made and the contents of `goBuf`. -/
inductive Player
  | exec
  | ask (made : ℕ) (goBuf : List Char)
  | asked (made : ℕ) (goBuf : List Char)
  | over
  deriving DecidableEq

/-- `U` is what the umpire works on. -/
inductive Local (U : Type*)
  | umpire (u : U)
  | player (l : Player)

/-- What the executables do: which of them can be started, the moves each one makes, and what is in `goBuf` at first. -/
structure Executables (nplayers : ℕ) where
  runs : Fin nplayers → Bool
  chooseMove : Fin nplayers → ℕ → Char
  goBuf : Fin nplayers → List Char

/-- The message with the zero behind it. -/
def goMsg : List Char := ['G', 'O', '\x00']

/-- `strncmp(goBuf, goMsg, 2)` is zero. -/
def isGo (goBuf : List Char) : Bool := goBuf.take 2 == goMsg.take 2

section

variable {n : ℕ} {U : Type*}

/-- The child: `exec`, and the loop of the player. -/
def Player.act (e : Executables n) (i : Fin n) : Player → Action (Party n) (Pipe n) Char (Local U)
  | .exec => if e.runs i then .compute (.player (.ask 0 (e.goBuf i))) else .exit
  | .ask made goBuf => .read (.stdIn i) 3 fun bytes =>
      .player (if bytes = [] then .over else .asked made (bytes ++ goBuf.drop bytes.length))
  | .asked made goBuf =>
    if isGo goBuf then .write (.stdOut i) [e.chooseMove i made] (.player (.ask (made + 1) goBuf)) else .exit
  | .over => .exit

/-- An umpire, and the players it starts. -/
structure Game (n : ℕ) (U : Type*) where
  act : U → Action (Party n) (Pipe n) Char (Local U)
  executables : Executables n
  /-- Who has the end of a pipe that is written, and the one that is read. -/
  writers : Pipe n → List (Party n)
  readers : Pipe n → List (Party n)
  /-- How many bytes a pipe holds. -/
  room : ℕ

def Game.network (G : Game n U) : Network (Party n) (Pipe n) Char (Local U) where
  act
    | .umpire, .umpire u => G.act u
    | .player i, .player l => l.act G.executables i
    | _, _ => .exit
  writers := G.writers
  readers := G.readers
  room := fun _ => G.room

/-- The umpire writes nothing but GO to a player, reads one byte at a time, and forks nothing but players. -/
def Asks : Action (Party n) (Pipe n) Char (Local U) → Prop
  | .write c m _ => (∃ i, c = .stdIn i) ∧ m = goMsg
  | .read c k _ => (∃ i, c = .stdOut i) ∧ k = 1
  | .fork q _ _ => ∃ i, q = .player i
  | _ => True

/-- A player writes one byte at a time to its own stdout, and reads three from its own stdin. -/
def Plays (i : Fin n) : Action (Party n) (Pipe n) Char (Local U) → Prop
  | .write c m _ => c = .stdOut i ∧ m.length = 1
  | .read c k _ => c = .stdIn i ∧ k = 3
  | .fork _ _ _ => False
  | _ => True

theorem Player.plays (e : Executables n) (i : Fin n) (l : Player) : Plays i (l.act (U := U) e i) := by
  rcases l with _ | _ | ⟨made, goBuf⟩ | _
  · by_cases h : e.runs i <;> simp [act, h, Plays]
  · exact ⟨rfl, rfl⟩
  · by_cases h : isGo goBuf <;> simp [act, h, Plays]
  · trivial

/-- What the umpires have in common. -/
structure Game.Fair (G : Game n U) : Prop where
  asks : ∀ u, Asks (G.act u)
  umpire : ∀ c, .umpire ∈ G.writers c
  player : ∀ i, .player i ∈ G.writers (.stdOut i)
  room : 3 ≤ G.room

variable {G : Game n U}

/-- The umpire writes to the players and reads from them. -/
def Game.Fair.discipline (h : G.Fair) : G.network.Discipline where
  writer
    | .stdIn _ => .umpire
    | .stdOut i => .player i
  reader
    | .stdIn i => .player i
    | .stdOut _ => .umpire
  unit
    | .stdIn _ => 3
    | .stdOut _ => 1
  parent := fun _ => .umpire
  unit_pos := by
    rintro (i | i)
    · exact Nat.zero_lt_succ 2
    · exact Nat.one_pos
  write := by
    rintro (_ | i) (u | l) c m l' hact
    · have hasks := h.asks u
      rw [show G.act u = .write c m l' from hact] at hasks
      obtain ⟨⟨i, rfl⟩, rfl⟩ := hasks
      exact ⟨rfl, dvd_rfl, by simp [goMsg], h.room⟩
    · cases hact
    · cases hact
    · have hplays := l.plays (U := U) G.executables i
      rw [show l.act G.executables i = .write c m l' from hact] at hplays
      obtain ⟨rfl, hlen⟩ := hplays
      have hroom := h.room
      exact ⟨rfl, one_dvd _, List.ne_nil_of_length_pos (by omega), show m.length ≤ G.room by omega⟩
  read := by
    rintro (_ | i) (u | l) c k f hact
    · have hasks := h.asks u
      rw [show G.act u = .read c k f from hact] at hasks
      obtain ⟨⟨i, rfl⟩, rfl⟩ := hasks
      exact ⟨rfl, rfl⟩
    · cases hact
    · cases hact
    · have hplays := l.plays (U := U) G.executables i
      rw [show l.act G.executables i = .read c k f from hact] at hplays
      obtain ⟨rfl, rfl⟩ := hplays
      exact ⟨rfl, rfl⟩
  fork := by
    rintro (_ | i) (u | l) q child l' hact
    · rfl
    · cases hact
    · cases hact
    · have hplays := l.plays (U := U) G.executables i
      rw [show l.act G.executables i = .fork q child l' from hact] at hplays
      exact hplays.elim
  writes := by
    rintro (i | i)
    · exact h.umpire _
    · exact h.player i
  inherits := fun c _ _ => h.umpire c

/-! ## The umpire and one player -/

/-- The umpire works on `u`, player `i` is at `x`, and its pipes hold `a` and `b`; the rest is as in `s`. -/
def between (s : Config (Party n) (Pipe n) Char (Local U)) (u : U) (i : Fin n) (x : Proc (Local U)) (a b : List Char) :
    Config (Party n) (Pipe n) Char (Local U) :=
  ⟨Function.update (Function.update s.proc .umpire (.running (.umpire u))) (.player i) x,
    Function.update (Function.update s.pipe (.stdIn i) a) (.stdOut i) b⟩

section Between

variable {s : Config (Party n) (Pipe n) Char (Local U)} {u u' : U} {i : Fin n} {x : Proc (Local U)} {a b : List Char}

@[simp] theorem between_umpire : (between s u i x a b).proc .umpire = .running (.umpire u) := by simp [between]

@[simp] theorem between_player : (between s u i x a b).proc (.player i) = x := by simp [between]

@[simp] theorem between_stdIn : (between s u i x a b).pipe (.stdIn i) = a := by simp [between]

@[simp] theorem between_stdOut : (between s u i x a b).pipe (.stdOut i) = b := by simp [between]

theorem between_other {j : Fin n} (h : j ≠ i) :
    (between s u i x a b).proc (.player j) = s.proc (.player j) ∧
      (between s u i x a b).pipe (.stdIn j) = s.pipe (.stdIn j) ∧
      (between s u i x a b).pipe (.stdOut j) = s.pipe (.stdOut j) := by
  simp [between, h]

/-- A state is what it is between the umpire and any player. -/
theorem between_self (hs : s.proc .umpire = .running (.umpire u)) (i : Fin n) :
    between s u i (s.proc (.player i)) (s.pipe (.stdIn i)) (s.pipe (.stdOut i)) = s := by
  simp [between, ← hs]

@[simp] theorem update_umpire : Function.update (between s u i x a b).proc .umpire (.running (.umpire u')) =
    (between s u' i x a b).proc := by
  unfold between
  rw [Function.update_comm (by simp), Function.update_idem]

@[simp] theorem update_player (y : Proc (Local U)) :
    Function.update (between s u i x a b).proc (.player i) y = (between s u i y a b).proc := by simp [between]

@[simp] theorem update_stdIn (c : List Char) :
    Function.update (between s u i x a b).pipe (.stdIn i) c = (between s u i x c b).pipe := by
  unfold between
  rw [Function.update_comm (by simp), Function.update_idem]

@[simp] theorem update_stdOut (c : List Char) :
    Function.update (between s u i x a b).pipe (.stdOut i) c = (between s u i x a c).pipe := by simp [between]

/-! ### Turns -/

variable (h : G.Fair)

theorem go_turn (hact : G.act u = .write (.stdIn i) goMsg (.umpire u')) (hroom : a.length + 3 ≤ G.room) :
    h.discipline.mended.next (between s u i x a b) .umpire = some (between s u' i x (a ++ goMsg) b) := by
  have hfits : ((between s u i x a b).pipe (.stdIn i)).length + goMsg.length ≤ G.network.room (.stdIn i) := by
    rw [between_stdIn]
    exact hroom
  rw [mended_write h.discipline between_umpire hact hfits, update_umpire, between_stdIn, update_stdIn]
  rfl

theorem fork_turn (hact : G.act u = .fork (.player i) (.player .exec) (.umpire u')) :
    h.discipline.mended.next (between s u i .absent a b) .umpire =
      some (between s u' i (.running (.player .exec)) a b) := by
  rw [next_fork (N := h.discipline.mended) between_umpire hact between_player, update_umpire, update_player]
  rfl

theorem hear_turn {f : List Char → U} (hact : G.act u = .read (.stdOut i) 1 fun bytes => .umpire (f bytes)) (c : Char) :
    h.discipline.mended.next (between s u i x a (c :: b)) .umpire = some (between s (f [c]) i x a b) := by
  have hpipe : (between s u i x a (c :: b)).pipe (.stdOut i) ≠ [] := by simp
  rw [next_read (N := h.discipline.mended) between_umpire hact hpipe, update_umpire, between_stdOut, update_stdOut]
  rfl

theorem compute_turn (hact : G.act u = .compute (.umpire u')) :
    h.discipline.mended.next (between s u i x a b) .umpire = some (between s u' i x a b) := by
  rw [next_compute (N := h.discipline.mended) between_umpire hact, update_umpire]
  rfl

theorem exec_turn (hruns : G.executables.runs i = true) :
    h.discipline.mended.next (between s u i (.running (.player .exec)) a b) (.player i) =
      some (between s u i (.running (.player (.ask 0 (G.executables.goBuf i)))) a b) := by
  have hact : h.discipline.mended.act (.player i) (.player .exec) =
      .compute (.player (.ask 0 (G.executables.goBuf i))) := if_pos hruns
  rw [next_compute (N := h.discipline.mended) between_player hact, update_player]
  rfl

theorem unable_turn (hruns : G.executables.runs i = false) :
    h.discipline.mended.next (between s u i (.running (.player .exec)) a b) (.player i) =
      some (between s u i (.ended (.player .exec)) a b) := by
  have hact : h.discipline.mended.act (.player i) (.player .exec) = .exit := if_neg (by simp [hruns])
  rw [next_exit (N := h.discipline.mended) between_player hact, update_player]
  rfl

theorem ask_turn {made : ℕ} {goBuf : List Char} :
    h.discipline.mended.next (between s u i (.running (.player (.ask made goBuf))) (goMsg ++ a) b) (.player i) =
      some (between s u i (.running (.player (.asked made (goMsg ++ goBuf.drop 3)))) a b) := by
  have hpipe : (between s u i (.running (.player (.ask made goBuf))) (goMsg ++ a) b).pipe (.stdIn i) ≠ [] := by
    simp [goMsg]
  rw [next_read (N := h.discipline.mended) between_player rfl hpipe, update_player, between_stdIn, update_stdIn]
  rfl

theorem move_turn {made : ℕ} {goBuf : List Char} (hgo : isGo goBuf = true) (hroom : b.length + 1 ≤ G.room) :
    h.discipline.mended.next (between s u i (.running (.player (.asked made goBuf))) a b) (.player i) =
      some (between s u i (.running (.player (.ask (made + 1) goBuf))) a
        (b ++ [G.executables.chooseMove i made])) := by
  have hact : G.network.act (.player i) (.player (.asked made goBuf)) =
      .write (.stdOut i) [G.executables.chooseMove i made] (.player (.ask (made + 1) goBuf)) := if_pos hgo
  have hfits : ((between s u i (.running (.player (.asked made goBuf))) a b).pipe (.stdOut i)).length + 1 ≤
      G.network.room (.stdOut i) := by
    rw [between_stdOut]
    exact hroom
  rw [mended_write h.discipline between_player hact hfits, update_player, between_stdOut, update_stdOut]
  rfl

/-- A player that is asked answers with its next move. -/
theorem answer (made : ℕ) (goBuf : List Char) (hroom : b.length + 1 ≤ G.room) :
    Run h.discipline.mended.Step
      (between s u i (.running (.player (.ask made goBuf))) (goMsg ++ a) b) [.player i, .player i]
      (between s u i (.running (.player (.ask (made + 1) (goMsg ++ goBuf.drop 3)))) a
        (b ++ [G.executables.chooseMove i made])) :=
  .cons (ask_turn h) (.single (move_turn h rfl hroom))

end Between

end

end CS330.Umpire
