/-
umpire2.c: the whole tournament, from the players file to the player that is printed. Rounds are played as long as
`nactive` is not 1, and half of the active players are left each time.

The moves of every round and the answers of `getWalkOver` are arbitrary. Pipes and processes are left out, and with
them the errors that end the program; a program that reads or writes past an array, or does not end, is nothing.
-/
import CS330.Umpire.Players
import CS330.Umpire.Round

namespace CS330.Umpire

open CS330.Lib Relation

/-! ## The main loop -/

/-- What the loop works on, with the rounds so far and the matches of each. -/
structure Tournament where
  rounds : ℕ
  state : State
  played : List (ℕ × ℕ × ℕ)

def mainTest (t : Tournament) : Option Bool := some (t.state.nactive != 1)

section

variable (fuel nplayers nround : ℕ) (records : ℕ → ℕ → ℕ → Char) (getWalkOver : ℕ → ℤ → ℕ)

/-- A round with the moves that are recorded in it, and the answer of `getWalkOver` if it is asked. -/
def mainTurn (t : Tournament) : Option Tournament := do
  let (s, ms) ← round fuel nplayers nround (records t.rounds) (getWalkOver t.rounds t.state.nactive) t.state
  some ⟨t.rounds + 1, s, t.played ++ ms.map (t.rounds, ·)⟩

/-- The player that is printed. -/
def printed (s : State) : Option ℕ := (List.range nplayers).find? s.active

def main (stack : Stack) (file : List UInt8) : Option (Tournament × Option ℕ) := do
  let (nplayers, _) ← readPlayers fuel stack file
  let n := nplayers.toNat
  let t ← whileLoop mainTest (mainTurn fuel n nround records getWalkOver) fuel ⟨0, start n, []⟩
  some (t, printed n t.state)

/-! ## What a tournament is for -/

/-- Player `p` has scored more often than `q`, or as often with the lower index. -/
def Ahead (record : ℕ → ℕ → Char) (p q : ℕ) : Prop :=
  wins nround record q p < wins nround record p q ∨ wins nround record p q = wins nround record q p ∧ p < q

/-- There were no more rounds than it takes to halve the players down to one, one player is active and printed, and
has been ahead in all its matches. -/
structure Decided (t : Tournament) (shown : Option ℕ) : Prop where
  rounds : t.rounds ≤ Nat.clog 2 nplayers
  winner : ∃ p, survivors nplayers t.state = [p] ∧ shown = some p ∧ ∀ k i j, (k, i, j) ∈ t.played →
    (i = p → Ahead nround (records k) p j) ∧ (j = p → Ahead nround (records k) p i)

/-- Before every round with an odd number of players that the tournament comes to, the answer of `getWalkOver` is the
number of an active one. -/
def WalkOversActive : Prop :=
  ∀ t, ReflTransGen (Turn mainTest (mainTurn fuel nplayers nround records getWalkOver)) ⟨0, start nplayers, []⟩ t →
    t.state.nactive ≠ 1 → ¬ Even t.state.nactive → getWalkOver t.rounds t.state.nactive ∈ survivors nplayers t.state

end

section Main

variable {fuel nplayers nround : ℕ} {records : ℕ → ℕ → ℕ → Char} {getWalkOver : ℕ → ℤ → ℕ} {t t' : Tournament}
  {file : List UInt8}

/-! ## The rounds -/

/-- As long as there is a player: what holds of a tournament before each round. -/
structure Going (nplayers nround : ℕ) (records : ℕ → ℕ → ℕ → Char) (t : Tournament) : Prop where
  consistent : Consistent nplayers t.state
  pos : 1 ≤ t.state.nactive
  rounds : Nat.clog 2 t.state.nactive.toNat + t.rounds ≤ Nat.clog 2 nplayers
  out : ∀ k i j, (k, i, j) ∈ t.played → i < j ∧ t.state.active (loser nround (records k) (i, j)) = false

theorem going_start (nround : ℕ) (records : ℕ → ℕ → ℕ → Char) (hn : 1 ≤ nplayers) :
    Going nplayers nround records ⟨0, start nplayers, []⟩ :=
  ⟨consistent_start nplayers, Int.ofNat_le.2 hn, le_rfl, nofun⟩

/-- Halving takes one off the number of rounds that are left. -/
theorem clog_half {m m' : ℤ} (hm : 2 ≤ m) (h : m' = (m + 1) / 2) :
    Nat.clog 2 m'.toNat + 1 = Nat.clog 2 m.toNat := by
  have hhalf : m'.toNat = (m.toNat + 2 - 1) / 2 := by omega
  have hclog : Nat.clog 2 m.toNat = Nat.clog 2 ((m.toNat + 2 - 1) / 2) + 1 :=
    Nat.clog_of_two_le (by omega) (by omega)
  rw [hhalf, hclog]

theorem mainTest_eq_true : mainTest t = some true ↔ t.state.nactive ≠ 1 := by simp [mainTest]

theorem mainTest_eq_false : mainTest t = some false ↔ t.state.nactive = 1 := by simp [mainTest]

theorem Going.turn (hf : nplayers ≤ fuel) (h : Going nplayers nround records t)
    (hturn : Turn mainTest (mainTurn fuel nplayers nround records getWalkOver) t t') :
    Going nplayers nround records t' ∧ t'.state.nactive.toNat < t.state.nactive.toNat := by
  obtain ⟨htest, hbody⟩ := hturn
  have hne := mainTest_eq_true.1 htest
  obtain ⟨⟨s, ms⟩, hround, he⟩ := Option.bind_eq_some_iff.1 hbody
  obtain rfl := Option.some.inj he
  obtain ⟨hc, hhalf, hlt, hactive⟩ := round_some h.consistent hf hround
  have hpos := h.pos
  have hclog := clog_half (by omega) hhalf
  have hrounds := h.rounds
  refine ⟨⟨hc, ?_, ?_, fun k i j hm => ?_⟩, ?_⟩
  · show 1 ≤ s.nactive
    omega
  · show Nat.clog 2 s.nactive.toNat + (t.rounds + 1) ≤ _
    omega
  · show i < j ∧ s.active _ = false
    rcases List.mem_append.1 hm with hold | hnew
    · -- who is out stays out
      obtain ⟨hij, hout⟩ := h.out k i j hold
      exact ⟨hij, by rw [hactive, hout, Bool.false_and]⟩
    · obtain ⟨m, hmem, he⟩ := List.mem_map.1 hnew
      obtain ⟨rfl, rfl⟩ := Prod.mk.inj he
      refine ⟨hlt _ hmem, ?_⟩
      have hloses :
          (ms.any fun m => loser nround (records t.rounds) m == loser nround (records t.rounds) (i, j)) = true :=
        List.any_eq_true.2 ⟨(i, j), hmem, beq_self_eq_true _⟩
      rw [hactive, hloses, Bool.not_true, Bool.and_false]
  · show s.nactive.toNat < t.state.nactive.toNat
    omega

/-- Who is not the loser of a match is ahead in it. -/
theorem ahead_of_not_loser (nround : ℕ) (record : ℕ → ℕ → Char) {i j : ℕ} (hij : i < j) :
    (loser nround record (i, j) ≠ i → Ahead nround record i j) ∧
      (loser nround record (i, j) ≠ j → Ahead nround record j i) := by
  unfold loser Ahead
  have hmax : max i j = j := max_eq_right hij.le
  simp only [hmax]
  constructor <;> intro h <;> split_ifs at h <;> omega

/-- The loop has ended: the one who is active is the winner. -/
theorem Going.decided (h : Going nplayers nround records t) (hone : t.state.nactive = 1) :
    Decided nplayers nround records t (printed nplayers t.state) := by
  have hlen := h.consistent
  unfold Consistent at hlen
  obtain ⟨p, hp⟩ := List.length_eq_one_iff.1 (show (survivors nplayers t.state).length = 1 by omega)
  have hactive : t.state.active p = true := by
    have hmem : p ∈ survivors nplayers t.state := by rw [hp]; exact List.mem_singleton_self p
    exact (List.mem_filter.1 hmem).2
  refine ⟨le_trans (Nat.le_add_left ..) h.rounds, p, hp, ?_, fun k i j hm => ?_⟩
  · rw [printed, ← List.head?_filter]
    exact congrArg List.head? hp
  · obtain ⟨hij, hout⟩ := h.out k i j hm
    have hne : loser nround (records k) (i, j) ≠ p := by
      intro he
      rw [he, hactive] at hout
      cases hout
    obtain ⟨hi, hj⟩ := ahead_of_not_loser nround (records k) hij
    refine ⟨?_, ?_⟩
    · rintro rfl
      exact hi hne
    · rintro rfl
      exact hj hne

/-- The loop ends, and decides the tournament, exactly if it is never asked to let an inactive player sit out. -/
theorem whileLoop_decides_iff (hn : 1 ≤ nplayers) (hf : nplayers ≤ fuel) :
    (∃ t, whileLoop mainTest (mainTurn fuel nplayers nround records getWalkOver) fuel
        ⟨0, start nplayers, []⟩ = some t) ↔
      WalkOversActive fuel nplayers nround records getWalkOver := by
  have hsize : (⟨0, start nplayers, []⟩ : Tournament).state.nactive.toNat ≤ fuel := by
    show (nplayers : ℤ).toNat ≤ fuel
    omega
  rw [whileLoop_ends_iff (Going nplayers nround records) (fun t => t.state.nactive.toNat)
    (fun t t' h hturn => h.turn hf hturn)
    (going_start nround records hn) hsize]
  have hgoing : ∀ t, ReflTransGen (Turn mainTest (mainTurn fuel nplayers nround records getWalkOver))
      ⟨0, start nplayers, []⟩ t → Going nplayers nround records t := by
    intro t hr
    induction hr with
    | refl => exact going_start nround records hn
    | tail _ hturn ih => exact (ih.turn hf hturn).1
  refine forall_congr' fun t => forall_congr' fun hr => ?_
  have hsome : (∃ t', mainTurn fuel nplayers nround records getWalkOver t = some t') ↔
      (round fuel nplayers nround (records t.rounds) (getWalkOver t.rounds t.state.nactive) t.state).isSome = true := by
    unfold mainTurn
    cases round fuel nplayers nround (records t.rounds) (getWalkOver t.rounds t.state.nactive) t.state <;> simp
  rw [round_isSome_iff (hgoing t hr).consistent hf] at hsome
  unfold Turn
  rw [exists_and_left, hsome, mainTest_eq_false, mainTest_eq_true]
  tauto

/-- Without a player there is never one, and no round changes that. -/
theorem whileLoop_empty (fuel' : ℕ) :
    whileLoop mainTest (mainTurn fuel 0 nround records getWalkOver) fuel' ⟨0, start 0, []⟩ = none := by
  refine whileLoop_never (fun t => t.state.nactive = 0) (fun t ht hstop => ?_) (fun t t' ht hbody => ?_) rfl
  · rw [mainTest_eq_false, ht] at hstop
    cases hstop
  · obtain ⟨⟨s, ms⟩, hround, he⟩ := Option.bind_eq_some_iff.1 hbody
    obtain rfl := Option.some.inj he
    have hc : Consistent 0 t.state := ht
    obtain ⟨-, hhalf, -⟩ := round_some hc (Nat.zero_le fuel) hround
    rw [ht] at hhalf
    exact hhalf

theorem main_eq (hf : file.length ≤ fuel) (stack : Stack) :
    main fuel nround records getWalkOver stack file = if Fits file ∧ 0 ≤ count file then
      (whileLoop mainTest (mainTurn fuel (count file).toNat nround records getWalkOver) fuel
        ⟨0, start (count file).toNat, []⟩).map fun t => (t, printed (count file).toNat t.state) else none := by
  unfold main
  rw [readPlayers_eq hf stack]
  split
  · simp only [Option.bind_eq_bind, Option.bind_some, Option.map_eq_bind]
    rfl
  · rfl

/-- For every file, all recorded moves and all answers of `getWalkOver`: the tournament ends, and if there is a player
it is decided, exactly if the lines of the file fit, the first one gives a positive number, and no inactive player is
to sit out. -/
theorem main_decides_iff (hf : file.length ≤ fuel) (hn : (count file).toNat ≤ fuel) (stack : Stack) :
    (∃ t shown, main fuel nround records getWalkOver stack file = some (t, shown) ∧
        (1 ≤ count file → Decided (count file).toNat nround records t shown)) ↔
      Fits file ∧ 1 ≤ count file ∧ WalkOversActive fuel (count file).toNat nround records getWalkOver := by
  rw [main_eq hf]
  by_cases hfits : Fits file
  · rcases lt_trichotomy (count file) 0 with hneg | hzero | hpos
    · rw [if_neg fun h => absurd h.2 (not_le.2 hneg)]
      simp only [reduceCtorEq, false_and, exists_false, false_iff]
      omega
    · -- the loop goes on without a player
      rw [hzero, if_pos ⟨hfits, le_rfl⟩, Int.toNat_zero, whileLoop_empty]
      simp
    · rw [if_pos ⟨hfits, hpos.le⟩]
      have hone : 1 ≤ count file := hpos
      rw [← whileLoop_decides_iff (by omega) hn]
      constructor
      · rintro ⟨t, shown, hend, -⟩
        obtain ⟨t, ht, -⟩ := Option.map_eq_some_iff.1 hend
        exact ⟨hfits, hone, t, ht⟩
      · rintro ⟨-, -, t, ht⟩
        obtain ⟨hgoing, hstop⟩ := whileLoop_holds (fun t t' h hturn => (Going.turn hn h hturn).1)
          (going_start nround records (by omega)) ht
        exact ⟨t, _, by rw [ht]; rfl, fun _ => hgoing.decided (mainTest_eq_false.1 hstop)⟩
  · rw [if_neg fun h => hfits h.1]
    simp [hfits]

/-- Five players, none of them named; the second one is asked to sit out twice. -/
theorem main_decides_iff_of_five :
    let records : ℕ → ℕ → ℕ → Char := fun k p _ => if k = p then '1' else '0'
    let getWalkOver : ℕ → ℤ → ℕ := fun _ _ => 2
    let stack : Stack := ⟨fun _ => 7, 7, fun _ _ => 7⟩
    (∃ t shown, main 5 1 records getWalkOver stack [53] = some (t, shown) ∧
        (1 ≤ count [53] → Decided (count [53]).toNat 1 records t shown)) ↔
      Fits [53] ∧ 1 ≤ count [53] ∧ WalkOversActive 5 (count [53]).toNat 1 records getWalkOver := by
  intro records getWalkOver stack
  exact main_decides_iff (by decide) (by decide) stack

/-- The file is empty, and the loop never ends; the last of three players is to sit out, who has the number 2, and the
loop reads behind the array. -/
theorem main_undecided :
    let records : ℕ → ℕ → ℕ → Char := fun _ _ _ => '0'
    let stack : Stack := ⟨fun _ => 7, 7, fun _ _ => 7⟩
    (∀ fuel, (readPlayers fuel stack []).map Prod.fst = some 0 ∧
      main fuel 1 records (fun _ _ => 1) stack [] = none) ∧
    main 3 1 records (fun _ _ => 3) stack [51] = none ∧
    (main 3 1 records (fun _ _ => 2) stack [51]).map Prod.snd = some (some 0) := by
  intro records stack
  have hfits : Fits [] ∧ 0 ≤ count [] := by decide
  have hcount : count [] = 0 := by decide
  refine ⟨fun fuel => ⟨?_, ?_⟩, by decide +kernel, by decide +kernel⟩
  · rw [readPlayers_eq (Nat.zero_le fuel), if_pos hfits, hcount]
    rfl
  · rw [main_eq (Nat.zero_le fuel), if_pos hfits, hcount, Int.toNat_zero, whileLoop_empty]
    rfl

end Main

end CS330.Umpire
