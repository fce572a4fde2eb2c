/-
umpire2.c: the moves of a round. Each active player is asked for its moves in turn, and they are put into its row of
`record`, with a zero behind them; the array has `nplayers` rows of `nround` cells, one behind the other.

The moves that are read are arbitrary, and there is always one to read. The array is a memory that goes on behind its
last row, with the cells that are written noted.
-/
import CS330.Lib.Region
import CS330.Umpire.Round

namespace CS330.Umpire

open CS330.Lib Relation

/-- What the loop over the players works on, and the cells of `record` it has written. -/
structure Recording where
  activePlayer : List ℕ
  record : ℕ → Char
  stored : List ℕ

def Recording.store (c : Recording) (x : ℕ) (move : Char) : Recording :=
  { c with record := Function.update c.record x move, stored := c.stored ++ [x] }

/-- Where `record[i][k]` is. -/
def cell (nround i k : ℕ) : ℕ := i * nround + k

section

variable (nround : ℕ) (moves : ℕ → ℕ → Char)

/-- The moves of a player, and the zero behind them. -/
def readMoves (c : Recording) (i : ℕ) : Recording :=
  let c := forRange 0 nround (fun k c => c.store (cell nround i k) (moves i k)) c
  c.store (cell nround i nround) '\x00'

/-- The loop over the players; `record` holds what was on the stack at first. -/
def recordMoves (nplayers : ℕ) (record : ℕ → Char) (s : State) : Option Recording :=
  (List.range nplayers).foldlM (fun c i =>
    if !s.active i then some c
    else if (c.activePlayer.length : ℤ) < s.nactive then
      some (readMoves nround moves { c with activePlayer := c.activePlayer ++ [i] } i)
    else none) ⟨[], record, []⟩

/-- What the loops that score a match find. -/
def Recording.row (c : Recording) (p k : ℕ) : Char := c.record (cell nround p k)

/-- The moves of both players of a match are in their rows. -/
def Kept (c : Recording) (m : ℕ × ℕ) : Prop :=
  ∀ k < nround, c.row nround m.1 k = moves m.1 k ∧ c.row nround m.2 k = moves m.2 k

/-- The states the pairing loop goes through, with the matches scored so far. -/
def Scoring (wid : ℤ) (s : State) (c : Recording) (r : Pairing) : Prop :=
  ReflTransGen (Turn (pairTest c.activePlayer) (pairTurn nround (c.row nround) wid c.activePlayer)) ⟨0, s, []⟩ r

end

section Record

variable {nplayers nround n i : ℕ} {moves : ℕ → ℕ → Char} {record : ℕ → Char} {s : State} {c c' : Recording}

/-! ## A row -/

theorem readMoves_eq (c : Recording) (i : ℕ) : readMoves nround moves c i =
    ⟨c.activePlayer, Function.update (copyIn c.record (cell nround i 0) nround (moves i)) (cell nround i nround) '\x00',
      c.stored ++ (List.range (nround + 1)).map (cell nround i)⟩ := by
  have hloop : ∀ n, forRange 0 n (fun k c => c.store (cell nround i k) (moves i k)) c =
      ⟨c.activePlayer, copyIn c.record (cell nround i 0) n (moves i),
        c.stored ++ (List.range n).map (cell nround i)⟩ := by
    intro n
    induction n with
    | zero => simp [copyIn]
    | succ n ih =>
      have hcopy : copyIn c.record (cell nround i 0) (n + 1) (moves i) =
          Function.update (copyIn c.record (cell nround i 0) n (moves i)) (cell nround i n) (moves i n) :=
        forRange_succ (Nat.zero_le n) _ _
      rw [forRange_succ (Nat.zero_le n), ih, List.range_succ, List.map_append, ← List.append_assoc, hcopy]
      rfl
  unfold readMoves
  rw [hloop, List.range_succ, List.map_append, ← List.append_assoc]
  rfl

/-- A row and the zero behind it are where the rows before do not reach. -/
theorem cell_lt_cell {p k : ℕ} (hp : p < i) (hk : k < nround) : cell nround p k < cell nround i 0 := by
  have hrow : (p + 1) * nround ≤ i * nround := Nat.mul_le_mul_right nround hp
  unfold cell
  rw [Nat.succ_mul] at hrow
  omega

/-- What is in the array when the first `n` players have been asked. -/
structure Recorded (nround : ℕ) (moves : ℕ → ℕ → Char) (s : State) (n : ℕ) (c : Recording) : Prop where
  activePlayer : c.activePlayer = survivors n s
  kept : ∀ p ∈ survivors n s, ∀ k < nround, c.row nround p k = moves p k
  stored : ∀ x, x ∈ c.stored ↔ ∃ p ∈ survivors n s, ∃ k ≤ nround, x = cell nround p k

theorem Recorded.skip (h : Recorded nround moves s n c) (hs : s.active n = false) :
    Recorded nround moves s (n + 1) c := by
  have hsame : survivors (n + 1) s = survivors n s := by
    simp [survivors, List.range_succ, hs]
  exact ⟨hsame ▸ h.activePlayer, hsame ▸ h.kept, hsame ▸ h.stored⟩

/-- The rows that are there are not touched, and the zero of the row above is not left in this one. -/
theorem Recorded.turn (h : Recorded nround moves s n c) (hs : s.active n = true) :
    Recorded nround moves s (n + 1) (readMoves nround moves { c with activePlayer := c.activePlayer ++ [n] } n) := by
  have hmore : survivors (n + 1) s = survivors n s ++ [n] := by
    simp [survivors, List.range_succ, hs]
  have hlt : ∀ p ∈ survivors n s, p < n := fun p hp => (mem_survivors.1 hp).1
  rw [readMoves_eq]
  refine ⟨by rw [hmore, h.activePlayer], fun p hp k hk => ?_, fun x => ?_⟩
  · rw [hmore] at hp
    show Function.update (copyIn c.record (cell nround n 0) nround (moves n)) _ _ (cell nround p k) = _
    rcases List.mem_append.1 hp with hp | hp
    · have hbefore := cell_lt_cell (hlt p hp) hk
      have hend : cell nround n 0 ≤ cell nround n nround := Nat.add_le_add_left (Nat.zero_le _) _
      rw [Function.update_of_ne (by omega), copyIn_apply, if_neg (by omega)]
      exact h.kept p hp k hk
    · obtain rfl := List.mem_singleton.1 hp
      unfold cell
      rw [Function.update_of_ne (by omega), copyIn_apply, if_pos (by omega), Nat.add_zero, Nat.add_sub_cancel_left]
  · rw [hmore]
    simp only [List.mem_append, List.mem_map, List.mem_range, h.stored, List.mem_singleton, or_and_right, exists_or,
      exists_eq_left, Nat.lt_succ_iff]
    exact or_congr_right (exists_congr fun k => and_congr_right fun _ => eq_comm)

/-- For each of the active players there is a cell of `activePlayer`, and all of them are asked. -/
theorem recordMoves_eq (nround : ℕ) (h : Consistent nplayers s) (moves : ℕ → ℕ → Char) (record : ℕ → Char) :
    ∃ c, recordMoves nround moves nplayers record s = some c ∧ Recorded nround moves s nplayers c := by
  have hprefix : ∀ n ≤ nplayers, ∃ c, recordMoves nround moves n record s = some c ∧ Recorded nround moves s n c := by
    intro n hn
    induction n with
    | zero => exact ⟨_, rfl, rfl, nofun, fun x => by simp [survivors]⟩
    | succ n ih =>
      obtain ⟨c, hc, hrec⟩ := ih (by omega)
      unfold recordMoves at hc ⊢
      rw [List.range_succ, List.foldlM_append, hc]
      cases hs : s.active n with
      | false => exact ⟨c, by simp [hs], hrec.skip hs⟩
      | true =>
        have hroom : (c.activePlayer.length : ℤ) < s.nactive := by
          -- player `n` is active too, and not among those before
          have hsub : (survivors (n + 1) s).Sublist (survivors nplayers s) :=
            (List.range_sublist.2 hn).filter _
          have hmore : survivors (n + 1) s = survivors n s ++ [n] := by
            simp [survivors, List.range_succ, hs]
          have hle := hsub.length_le
          rw [hmore, List.length_append, List.length_singleton] at hle
          unfold Consistent at h
          rw [hrec.activePlayer]
          omega
        refine ⟨_, ?_, hrec.turn hs⟩
        simp [hs, hroom]
  exact hprefix nplayers le_rfl

/-! ## Scoring -/

/-- A turn of the pairing loop scores at most one match, between two players from the array. -/
theorem pairTurn_played {record : ℕ → ℕ → Char} {wid : ℤ} {a : List ℕ} {r r' : Pairing}
    (h : pairTurn nround record wid a r = some r') :
    r'.played = r.played ∨ ∃ m, (m.1 ∈ a ∧ m.2 ∈ a) ∧ r'.played = r.played ++ [m] := by
  obtain ⟨pid1, h1, h⟩ := Option.bind_eq_some_iff.1 h
  split at h
  · obtain rfl := Option.some.inj h
    exact Or.inl rfl
  · obtain ⟨next, h2, h⟩ := Option.bind_eq_some_iff.1 h
    split at h
    · obtain ⟨pid2, h3, h⟩ := Option.bind_eq_some_iff.1 h
      obtain rfl := Option.some.inj h
      exact Or.inr ⟨(pid1, pid2), ⟨List.mem_of_getElem? h1, List.mem_of_getElem? h3⟩, rfl⟩
    · obtain rfl := Option.some.inj h
      exact Or.inr ⟨(pid1, next), ⟨List.mem_of_getElem? h1, List.mem_of_getElem? h2⟩, rfl⟩

/-- Only players who have been asked are in a match. -/
theorem Scoring.played {wid : ℤ} {r : Pairing} (h : Scoring nround wid s c r) :
    ∀ m ∈ r.played, m.1 ∈ c.activePlayer ∧ m.2 ∈ c.activePlayer := by
  induction h with
  | refl => exact nofun
  | tail _ hturn ih =>
    intro m hm
    rcases pairTurn_played hturn.2 with he | ⟨m', hmem, he⟩
    · rw [he] at hm
      exact ih m hm
    · rw [he] at hm
      rcases List.mem_append.1 hm with hold | hnew
      · exact ih m hold
      · obtain rfl := List.mem_singleton.1 hnew
        exact hmem

/-- The score of a match depends on the rows of its players only. -/
theorem settle_congr {record record' : ℕ → ℕ → Char} {m : ℕ × ℕ}
    (h : ∀ k < nround, record m.1 k = record' m.1 k ∧ record m.2 k = record' m.2 k) (s : State) :
    settle nround record s m = settle nround record' s m := by
  have hscores : scores nround record m.1 m.2 = scores nround record' m.1 m.2 := by
    refine List.foldl_ext _ _ _ fun score k hk => ?_
    obtain ⟨h1, h2⟩ := h k (List.mem_range.1 hk)
    rw [h1, h2]
  unfold settle
  rw [hscores]

/-- A round on the array is the round on the moves that were read. -/
theorem round_recorded (h : Consistent nplayers s) {fuel : ℕ} (hf : nplayers ≤ fuel)
    (hrec : Recorded nround moves s nplayers c)
    (w : ℕ) : round fuel nplayers nround (c.row nround) w s = round fuel nplayers nround moves w s := by
  rw [round_eq h hf, round_eq h hf]
  cases hpairs : pairUp (sitsOut (wid w s)) (survivors nplayers s) with
  | none => rfl
  | some ms =>
    have hsub := seats_sublist hpairs
    have hall : ms.foldl (settle nround (c.row nround)) s = ms.foldl (settle nround moves) s := by
      refine List.foldl_ext _ _ _ fun s' m hm => settle_congr (fun k hk => ?_) s'
      have hseat : ∀ i ∈ [m.1, m.2], i ∈ survivors nplayers s := fun i hi =>
        hsub.subset (List.mem_flatMap.2 ⟨m, hm, hi⟩)
      exact ⟨hrec.kept _ (hseat _ (by simp)) k hk, hrec.kept _ (hseat _ (by simp)) k hk⟩
    rw [Option.map_some, Option.map_some, hall]

/-- For every number of players, and whoever is active: all cells that are written are in the array, and for every
match that is scored the moves of both players are there, exactly if there is no player or the last one is out. In
any case the round on the array is the round on the moves that were read. -/
theorem recordMoves_iff (hn : 1 ≤ nround) (h : Consistent nplayers s) (moves : ℕ → ℕ → Char) (record : ℕ → Char)
    (wid : ℤ) :
    ((∃ c, recordMoves nround moves nplayers record s = some c ∧ (∀ x ∈ c.stored, x < nplayers * nround) ∧
        ∀ r, Scoring nround wid s c r → ∀ m ∈ r.played, Kept nround moves c m) ↔
      nplayers = 0 ∨ s.active (nplayers - 1) = false) ∧
    ∃ c, recordMoves nround moves nplayers record s = some c ∧ ∀ fuel w, nplayers ≤ fuel →
      round fuel nplayers nround (c.row nround) w s = round fuel nplayers nround moves w s := by
  obtain ⟨c, hc, hrec⟩ := recordMoves_eq nround h moves record
  refine ⟨?_, c, hc, fun fuel w hf => round_recorded h hf hrec w⟩
  constructor
  · rintro ⟨c', hc', hstored, -⟩
    obtain rfl := Option.some.inj (hc.symm.trans hc')
    by_contra hno
    push Not at hno
    obtain ⟨hpos, hlast⟩ := hno
    -- the zero behind the last row
    have hmem : cell nround (nplayers - 1) nround ∈ c.stored :=
      (hrec.stored _).2 ⟨nplayers - 1, mem_survivors.2 ⟨by omega, by simpa using hlast⟩, nround, le_rfl, rfl⟩
    have hlt := hstored _ hmem
    obtain ⟨n, rfl⟩ : ∃ n, nplayers = n + 1 := ⟨nplayers - 1, by omega⟩
    rw [cell, Nat.add_sub_cancel, Nat.succ_mul] at hlt
    exact lt_irrefl _ hlt
  · intro hlast
    refine ⟨c, hc, fun x hx => ?_, fun r hr m hm k hk => ?_⟩
    · obtain ⟨p, hp, k, hk, rfl⟩ := (hrec.stored x).1 hx
      obtain ⟨hlt, hactive⟩ := mem_survivors.1 hp
      have hne : p + 1 < nplayers := by
        rcases hlast with rfl | hout
        · omega
        · rcases Nat.lt_or_ge (p + 1) nplayers with h | h
          · exact h
          · obtain rfl : p = nplayers - 1 := by omega
            rw [hactive] at hout
            cases hout
      have hrow : (p + 1) * nround < nplayers * nround := Nat.mul_lt_mul_of_pos_right hne hn
      rw [Nat.succ_mul] at hrow
      unfold cell
      omega
    · obtain ⟨h1, h2⟩ := hr.played m hm
      rw [hrec.activePlayer] at h1 h2
      exact ⟨hrec.kept _ h1 k hk, hrec.kept _ h2 k hk⟩

/-- The first two of three players are left. -/
theorem recordMoves_iff_of_three :
    let s : State := ⟨fun i => i != 2, 2⟩
    let moves : ℕ → ℕ → Char := fun p _ => if p = 0 then '1' else '2'
    ((∃ c, recordMoves 2 moves 3 (fun _ => 'x') s = some c ∧ (∀ x ∈ c.stored, x < 3 * 2) ∧
        ∀ r, Scoring 2 (-1) s c r → ∀ m ∈ r.played, Kept 2 moves c m) ↔
      3 = 0 ∨ s.active (3 - 1) = false) ∧
    ∃ c, recordMoves 2 moves 3 (fun _ => 'x') s = some c ∧ ∀ fuel w, 3 ≤ fuel →
      round fuel 3 2 (c.row 2) w s = round fuel 3 2 moves w s := by
  intro s moves
  have hs : Consistent 3 s := rfl
  exact recordMoves_iff (by decide) hs moves (fun _ => 'x') (-1)

/-- Two players with one move each, the first round: the last zero is stored behind the array. -/
theorem recordMoves_behind :
    (recordMoves 1 (fun _ _ => '0') 2 (fun _ => 'x') (start 2)).map Recording.stored = some [0, 1, 1, 2] ∧
      ¬ ∃ c, recordMoves 1 (fun _ _ => '0') 2 (fun _ => 'x') (start 2) = some c ∧ ∀ x ∈ c.stored, x < 2 * 1 := by
  have hstored : (recordMoves 1 (fun _ _ => '0') 2 (fun _ => 'x') (start 2)).map Recording.stored =
      some [0, 1, 1, 2] := by
    decide
  refine ⟨hstored, ?_⟩
  rintro ⟨c, hc, hin⟩
  rw [hc] at hstored
  have h2 : 2 ∈ c.stored := by
    rw [Option.some.inj hstored]
    decide
  exact absurd (hin 2 h2) (by decide)

end Record

end CS330.Umpire
