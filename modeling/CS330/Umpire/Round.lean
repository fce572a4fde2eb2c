/-
umpire2.c: a round of the tournament. The active players are collected in increasing order and paired with their
neighbours; of an odd number of players one sits out, and `getWalkOver`, which is to be replaced, says which one by
its position among the active players. The loser of each match becomes inactive.

What a player does in a round is `record`; the pipes it is read from are left out, and so is the zero behind each row
of moves: it falls on the row below before that is filled, and behind the row of the last player, as long as that one
is active, on the byte behind the array. A round is nothing if it uses an index that is not in `activePlayer`.
-/
import CS330.Lib.Pairing
import CS330.Lib.Run
import CS330.Lib.While

namespace CS330.Umpire

open CS330.Lib

/-! ## The round -/

/-- `active` and `nactive`. -/
structure State where
  active : ℕ → Bool
  nactive : ℤ

/-- Before the first round. -/
def start (nplayers : ℕ) : State := ⟨fun _ => true, nplayers⟩

/-- The loop that fills `activePlayer`, an array of `nactive` cells. -/
def collect (nplayers : ℕ) (s : State) : Option (List ℕ) :=
  (List.range nplayers).foldlM (fun a i =>
    if !s.active i then some a
    else if (a.length : ℤ) < s.nactive then some (a ++ [i])
    else none) []

/-- The moves by which the first of two players scores. -/
def beats (x y : Char) : Bool := (x == '1' && y == '0') || (x == '2' && y == '1') || (x == '0' && y == '2')

section Match

variable (nround : ℕ) (record : ℕ → ℕ → Char)

/-- The loop over the rounds of a match: `score1` and `score2`. -/
def scores (pid1 pid2 : ℕ) : ℕ × ℕ :=
  (List.range nround).foldl (fun score rnd =>
    if beats (record pid1 rnd) (record pid2 rnd) then (score.1 + 1, score.2)
    else if beats (record pid2 rnd) (record pid1 rnd) then (score.1, score.2 + 1)
    else score) (0, 0)

/-- The end of a turn of the pairing loop: one of the two is out. -/
def settle (s : State) (m : ℕ × ℕ) : State :=
  let score := scores nround record m.1 m.2
  let out := if score.1 = score.2 then m.2 else if score.1 > score.2 then m.2 else m.1
  ⟨Function.update s.active out false, s.nactive - 1⟩

end Match

/-- What the pairing loop works on, with the matches so far. -/
structure Pairing where
  pair : ℕ
  state : State
  played : List (ℕ × ℕ)

def pairTest (activePlayer : List ℕ) (r : Pairing) : Option Bool := some (decide (r.pair < activePlayer.length))

def pairTurn (nround : ℕ) (record : ℕ → ℕ → Char) (wid : ℤ) (activePlayer : List ℕ) (r : Pairing) : Option Pairing := do
  let pid1 ← activePlayer[r.pair]?
  if wid = pid1 then some { r with pair := r.pair + 1 }
  else
    let next ← activePlayer[r.pair + 1]?
    if wid = next then
      let pid2 ← activePlayer[r.pair + 2]?
      some ⟨r.pair + 3, settle nround record r.state (pid1, pid2), r.played ++ [(pid1, pid2)]⟩
    else some ⟨r.pair + 2, settle nround record r.state (pid1, next), r.played ++ [(pid1, next)]⟩

/-- What `wid` is when `getWalkOver` answers `w` if it is asked. -/
def wid (w : ℕ) (s : State) : ℤ := if s.nactive.tmod 2 ≠ 0 then w else -1

/-- A turn of the main loop. -/
def round (fuel nplayers nround : ℕ) (record : ℕ → ℕ → Char) (w : ℕ) (s : State) :
    Option (State × List (ℕ × ℕ)) := do
  let activePlayer ← collect nplayers s
  let r ← whileLoop (pairTest activePlayer) (pairTurn nround record (wid w s) activePlayer) fuel ⟨0, s, []⟩
  some (r.state, r.played)

/-! ## What a round is for -/

/-- The active players, in increasing order. -/
def survivors (nplayers : ℕ) (s : State) : List ℕ := (List.range nplayers).filter s.active

/-- How often the first of two players scores. -/
def wins (nround : ℕ) (record : ℕ → ℕ → Char) (i j : ℕ) : ℕ :=
  (List.range nround).countP fun rnd => beats (record i rnd) (record j rnd)

/-- The lower scorer of a match, the higher index on a tie. -/
def loser (nround : ℕ) (record : ℕ → ℕ → Char) (m : ℕ × ℕ) : ℕ :=
  if wins nround record m.1 m.2 < wins nround record m.2 m.1 then m.1
  else if wins nround record m.2 m.1 < wins nround record m.1 m.2 then m.2
  else max m.1 m.2

/-- Of an odd number of players the `w`-th sits out, the others are paired with their neighbours, the losers and
nobody else become inactive, and `nactive` is again the number of active players, half of them rounded up. -/
structure PairsAll (nplayers nround : ℕ) (record : ℕ → ℕ → Char) (w : ℕ) (s : State) (s' : State)
    (ms : List (ℕ × ℕ)) : Prop where
  seats : seats ms =
    if Even s.nactive then survivors nplayers s else (survivors nplayers s).eraseIdx (w - 1)
  active : ∀ i, s'.active i = (s.active i && !ms.any fun m => loser nround record m == i)
  count : s'.nactive = (survivors nplayers s').length
  half : s'.nactive = (s.nactive + 1) / 2

/-- `nactive` is the number of active players. -/
def Consistent (nplayers : ℕ) (s : State) : Prop := s.nactive = (survivors nplayers s).length

section Round

variable {nplayers nround : ℕ} {record : ℕ → ℕ → Char} {s : State}

/-! ## Collecting -/

theorem collect_from {l a : List ℕ} (h : (a.length + (l.filter s.active).length : ℕ) ≤ s.nactive) :
    l.foldlM (fun a i =>
      if !s.active i then some a
      else if (a.length : ℤ) < s.nactive then some (a ++ [i])
      else none) a = some (a ++ l.filter s.active) := by
  induction l generalizing a with
  | nil => simp
  | cons i l ih =>
    rw [List.foldlM_cons]
    cases hi : s.active i with
    | false =>
      rw [List.filter_cons_of_neg (by simp [hi])] at h ⊢
      exact ih h
    | true =>
      rw [List.filter_cons_of_pos hi, List.length_cons] at h
      have hroom : (a.length : ℤ) < s.nactive := by omega
      have hrest := ih (a := a ++ [i]) (by simpa [Nat.add_assoc, Nat.add_comm 1] using h)
      simp only [Bool.not_true, Bool.false_eq_true, if_false, if_pos hroom, Option.bind_eq_bind, Option.bind_some]
      rw [hrest, List.filter_cons_of_pos hi, List.append_assoc, List.singleton_append]

/-- The array holds the active players, and there is a cell for each. -/
theorem collect_eq (h : Consistent nplayers s) : collect nplayers s = some (survivors nplayers s) := by
  have hroom : (([] : List ℕ).length + (survivors nplayers s).length : ℕ) ≤ s.nactive := by
    rw [h, List.length_nil, Nat.zero_add]
  exact collect_from hroom

/-! ## Pairing -/

/-- The player who is given the walkover. -/
def sitsOut (wid : ℤ) (i : ℕ) : Bool := decide (wid = i)

section Turns

variable {wid : ℤ} {a l : List ℕ} {r : Pairing} {x y z : ℕ}

theorem cell_of_drop (h : a.drop r.pair = l) (j : ℕ) : a[r.pair + j]? = l[j]? := by rw [← h, List.getElem?_drop]

theorem pairTurn_skip (h : a.drop r.pair = x :: l) (hx : sitsOut wid x = true) :
    pairTurn nround record wid a r = some { r with pair := r.pair + 1 } := by
  have h0 : a[r.pair]? = some x := cell_of_drop h 0
  simp only [pairTurn, h0, Option.bind_eq_bind, Option.bind_some, if_pos (of_decide_eq_true hx)]

theorem pairTurn_next (h : a.drop r.pair = x :: y :: l) (hx : sitsOut wid x = false) (hy : sitsOut wid y = false) :
    pairTurn nround record wid a r =
      some ⟨r.pair + 2, settle nround record r.state (x, y), r.played ++ [(x, y)]⟩ := by
  have h0 : a[r.pair]? = some x := cell_of_drop h 0
  have h1 : a[r.pair + 1]? = some y := cell_of_drop h 1
  simp only [pairTurn, h0, h1, Option.bind_eq_bind, Option.bind_some, if_neg (of_decide_eq_false hx),
    if_neg (of_decide_eq_false hy)]

theorem pairTurn_over (h : a.drop r.pair = x :: y :: z :: l) (hx : sitsOut wid x = false)
    (hy : sitsOut wid y = true) : pairTurn nround record wid a r =
      some ⟨r.pair + 3, settle nround record r.state (x, z), r.played ++ [(x, z)]⟩ := by
  have h0 : a[r.pair]? = some x := cell_of_drop h 0
  have h1 : a[r.pair + 1]? = some y := cell_of_drop h 1
  have h2 : a[r.pair + 2]? = some z := cell_of_drop h 2
  simp only [pairTurn, h0, h1, h2, Option.bind_eq_bind, Option.bind_some, if_neg (of_decide_eq_false hx),
    if_pos (of_decide_eq_true hy)]

/-- The read behind the last cell. -/
theorem pairTurn_single (h : a.drop r.pair = [x]) (hx : sitsOut wid x = false) :
    pairTurn nround record wid a r = none := by
  have h0 : a[r.pair]? = some x := cell_of_drop h 0
  have h1 : a[r.pair + 1]? = none := cell_of_drop h 1
  simp only [pairTurn, h0, h1, Option.bind_eq_bind, Option.bind_some, Option.bind_none,
    if_neg (of_decide_eq_false hx)]

theorem pairTurn_stuck (h : a.drop r.pair = [x, y]) (hx : sitsOut wid x = false) (hy : sitsOut wid y = true) :
    pairTurn nround record wid a r = none := by
  have h0 : a[r.pair]? = some x := cell_of_drop h 0
  have h1 : a[r.pair + 1]? = some y := cell_of_drop h 1
  have h2 : a[r.pair + 2]? = none := cell_of_drop h 2
  simp only [pairTurn, h0, h1, h2, Option.bind_eq_bind, Option.bind_some, Option.bind_none,
    if_neg (of_decide_eq_false hx), if_pos (of_decide_eq_true hy)]

theorem pairTest_cons (h : a.drop r.pair = x :: l) : pairTest a r = some true := by
  have hlt : r.pair < a.length := List.drop_eq_nil_iff.not.1 (by rw [h]; simp) |> not_le.1
  simp only [pairTest, decide_eq_true hlt]

end Turns

/-- The loop goes through the array as the pairing of lists does, and stays inside where that pairs everybody. -/
theorem whileLoop_pairUp (nround : ℕ) (record : ℕ → ℕ → Char) (wid : ℤ) {a l : List ℕ} {fuel : ℕ} {r : Pairing}
    (h : a.drop r.pair = l) (hf : l.length ≤ fuel) :
    (whileLoop (pairTest a) (pairTurn nround record wid a) fuel r).map (fun r => (r.state, r.played)) =
      (pairUp (sitsOut wid) l).map fun ms => (ms.foldl (settle nround record) r.state, r.played ++ ms) := by
  induction fuel generalizing l r with
  | zero =>
    obtain rfl : l = [] := List.length_eq_zero_iff.1 (Nat.le_zero.1 hf)
    have hstop : pairTest a r = some false := by simp [pairTest, List.drop_eq_nil_iff.1 h]
    rw [whileLoop_stop hstop]
    simp [pairUp]
  | succ fuel ih =>
    have hdrop : ∀ j, a.drop (r.pair + j) = l.drop j := fun j => by rw [← h, List.drop_drop]
    -- by the first cells: nobody is left, one sits out, two meet, or two meet over one who sits out
    cases l with
    | nil =>
      have hstop : pairTest a r = some false := by simp [pairTest, List.drop_eq_nil_iff.1 h]
      rw [whileLoop_stop hstop]
      simp [pairUp]
    | cons x l =>
      have htest := pairTest_cons h
      simp only [List.length_cons] at hf
      cases hx : sitsOut wid x with
      | true =>
        rw [whileLoop_turn htest (pairTurn_skip h hx), ih (hdrop 1) (by simp; omega), pairUp_skip hx]
        rfl
      | false =>
        cases l with
        | nil =>
          rw [whileLoop_fault htest (pairTurn_single h hx), pairUp_single hx]
          rfl
        | cons y l =>
          simp only [List.length_cons] at hf
          cases hy : sitsOut wid y with
          | false =>
            rw [whileLoop_turn htest (pairTurn_next h hx hy), ih (hdrop 2) (by simp; omega), pairUp_next hx hy,
              Option.map_map]
            simp [Function.comp_def]
          | true =>
            cases l with
            | nil =>
              rw [whileLoop_fault htest (pairTurn_stuck h hx hy), pairUp_stuck hx hy]
              rfl
            | cons z l =>
              simp only [List.length_cons] at hf
              rw [whileLoop_turn htest (pairTurn_over h hx hy), ih (hdrop 3) (by simp; omega), pairUp_over hx hy,
                Option.map_map]
              simp [Function.comp_def]

/-- A round is the pairing of the active players, with each match settled. -/
theorem round_eq (h : Consistent nplayers s) {fuel : ℕ} (hf : nplayers ≤ fuel) (w : ℕ) :
    round fuel nplayers nround record w s =
      (pairUp (sitsOut (wid w s)) (survivors nplayers s)).map fun ms => (ms.foldl (settle nround record) s, ms) := by
  have hlen : (survivors nplayers s).length ≤ fuel := by
    refine le_trans (List.length_filter_le ..) ?_
    rwa [List.length_range]
  have hloop := whileLoop_pairUp nround record (wid w s) (a := survivors nplayers s)
    (r := ⟨0, s, []⟩) rfl hlen
  have hround : round fuel nplayers nround record w s = (whileLoop (pairTest (survivors nplayers s))
      (pairTurn nround record (wid w s) (survivors nplayers s)) fuel ⟨0, s, []⟩).map fun r => (r.state, r.played) := by
    simp only [round, collect_eq h, Option.bind_eq_bind, Option.bind_some, Option.map_eq_bind]
    rfl
  exact hround.trans hloop

/-! ## Matches -/

theorem beats_asymm {x y : Char} (h : beats x y = true) : beats y x = false := by
  unfold beats at *
  simp only [Bool.or_eq_true, Bool.and_eq_true, beq_iff_eq] at h
  rcases h with (⟨rfl, rfl⟩ | ⟨rfl, rfl⟩) | ⟨rfl, rfl⟩ <;> decide

theorem scores_eq (nround : ℕ) (record : ℕ → ℕ → Char) (i j : ℕ) :
    scores nround record i j = (wins nround record i j, wins nround record j i) := by
  have hfrom : ∀ (l : List ℕ) (m n : ℕ), l.foldl (fun score rnd =>
      if beats (record i rnd) (record j rnd) then (score.1 + 1, score.2)
      else if beats (record j rnd) (record i rnd) then (score.1, score.2 + 1)
      else score) (m, n) =
        (m + l.countP (fun rnd => beats (record i rnd) (record j rnd)),
          n + l.countP fun rnd => beats (record j rnd) (record i rnd)) := by
    intro l
    induction l with
    | nil => exact fun _ _ => rfl
    | cons rnd l ih =>
      intro m n
      simp only [List.foldl_cons, List.countP_cons]
      cases hi : beats (record i rnd) (record j rnd) with
      | true => simp only [if_true, ih, beats_asymm hi, Bool.false_eq_true, if_false, Prod.mk.injEq]; omega
      | false =>
        cases hj : beats (record j rnd) (record i rnd) with
        | true => simp only [if_true, ih, Bool.false_eq_true, if_false, Prod.mk.injEq]; omega
        | false => simp only [ih, Bool.false_eq_true, if_false, Nat.add_zero]
  have hall := hfrom (List.range nround) 0 0
  rw [Nat.zero_add, Nat.zero_add] at hall
  exact hall

/-- Of two players in order, the loser is out. -/
theorem settle_eq (nround : ℕ) (record : ℕ → ℕ → Char) {m : ℕ × ℕ} (h : m.1 < m.2) (s : State) :
    settle nround record s m = ⟨Function.update s.active (loser nround record m) false, s.nactive - 1⟩ := by
  have hout : (if wins nround record m.1 m.2 = wins nround record m.2 m.1 then m.2
      else if wins nround record m.1 m.2 > wins nround record m.2 m.1 then m.2 else m.1) = loser nround record m := by
    unfold loser
    split_ifs <;> omega
  simp only [settle, scores_eq, hout]

theorem loser_mem (nround : ℕ) (record : ℕ → ℕ → Char) (m : ℕ × ℕ) :
    loser nround record m = m.1 ∨ loser nround record m = m.2 := by
  unfold loser
  split_ifs
  · exact Or.inl rfl
  · exact Or.inr rfl
  · rcases max_choice m.1 m.2 with h | h <;> simp [h]

theorem mem_survivors {i : ℕ} : i ∈ survivors nplayers s ↔ i < nplayers ∧ s.active i = true := by
  simp [survivors]

theorem survivors_increasing (nplayers : ℕ) (s : State) : (survivors nplayers s).Pairwise (· < ·) :=
  List.pairwise_lt_range.filter _

theorem survivors_nodup (nplayers : ℕ) (s : State) : (survivors nplayers s).Nodup := List.nodup_range.filter _

/-- One active player less. -/
theorem survivors_out (nplayers : ℕ) (s : State) (i : ℕ) (n : ℤ) :
    survivors nplayers ⟨Function.update s.active i false, n⟩ = (survivors nplayers s).erase i := by
  rw [(survivors_nodup nplayers s).erase_eq_filter]
  unfold survivors
  rw [List.filter_filter]
  refine List.filter_congr fun j _ => ?_
  by_cases hj : j = i
  · simp [hj]
  · simp [hj, Function.update_of_ne]

/-- Matches between active players, each in order and all of them apart, take one player out each. -/
theorem settle_all (nround : ℕ) (record : ℕ → ℕ → Char) {ms : List (ℕ × ℕ)} (h : Consistent nplayers s)
    (hinc : (seats ms).Pairwise (· < ·)) (hmem : ∀ i ∈ seats ms, i ∈ survivors nplayers s) :
    Consistent nplayers (ms.foldl (settle nround record) s) ∧
    (ms.foldl (settle nround record) s).nactive = s.nactive - ms.length ∧
    ∀ i, (ms.foldl (settle nround record) s).active i =
      (s.active i && !ms.any fun m => loser nround record m == i) := by
  induction ms generalizing s with
  | nil => exact ⟨h, by simp, fun i => by simp⟩
  | cons m ms ih =>
    rw [seats_cons, List.pairwise_cons, List.pairwise_cons] at hinc
    obtain ⟨h1, h2, hinc⟩ := hinc
    -- the loser is one of the two, and out of the rest
    have hout : loser nround record m ∈ survivors nplayers s := by
      rcases loser_mem nround record m with hl | hl <;> rw [hl] <;> exact hmem _ (by simp)
    have hsettle := settle_eq nround record (h1 m.2 (by simp)) s
    have hsurvivors := survivors_out nplayers s (loser nround record m) (s.nactive - 1)
    have hcons : Consistent nplayers (settle nround record s m) := by
      have hpos := List.length_pos_of_mem hout
      unfold Consistent at h ⊢
      rw [hsettle, hsurvivors, List.length_erase_of_mem hout]
      show s.nactive - 1 = _
      omega
    have hrest : ∀ i ∈ seats ms, i ∈ survivors nplayers (settle nround record s m) := by
      intro i hi
      have hne : i ≠ loser nround record m := by
        rcases loser_mem nround record m with hl | hl <;> rw [hl]
        · exact (h1 i (by simp [hi])).ne'
        · exact (h2 i hi).ne'
      rw [hsettle, hsurvivors]
      exact (List.mem_erase_of_ne hne).2 (hmem i (by simp [hi]))
    obtain ⟨hc, hn, ha⟩ := ih hcons hinc hrest
    refine ⟨hc, ?_, fun i => ?_⟩
    · rw [List.foldl_cons, hn, hsettle, List.length_cons]
      push_cast
      ring
    · rw [List.foldl_cons, ha, hsettle, List.any_cons, Bool.not_or, ← Bool.and_assoc]
      congr 1
      by_cases hi : i = loser nround record m
      · simp [hi]
      · simp [hi, Ne.symm hi]

/-! ## Rounds -/

theorem even_survivors (h : Consistent nplayers s) : Even (survivors nplayers s).length ↔ Even s.nactive := by
  rw [h, Int.even_coe_nat]

theorem wid_of_even (h : Even s.nactive) (w : ℕ) : wid w s = -1 :=
  if_neg (not_not.2 (Int.tmod_eq_zero_of_dvd h.two_dvd))

theorem wid_of_odd (h : ¬ Even s.nactive) (w : ℕ) : wid w s = w :=
  if_pos fun hmod => h (even_iff_two_dvd.2 (Int.dvd_of_tmod_eq_zero hmod))

/-- Nobody sits out of an even number of players. -/
theorem pairUp_even (h : Consistent nplayers s) (he : Even s.nactive) (w : ℕ) :
    ∃ ms, pairUp (sitsOut (wid w s)) (survivors nplayers s) = some ms ∧ seats ms = survivors nplayers s := by
  rw [wid_of_even he]
  refine pairUp_of_even (fun i _ => decide_eq_false ?_) ((even_survivors h).2 he)
  omega

/-- Of an odd number of players the one with number `w` sits out, if there is one. -/
theorem pairUp_odd (h : Consistent nplayers s) (ho : ¬ Even s.nactive) {w : ℕ} {pre post : List ℕ}
    (hw : survivors nplayers s = pre ++ w :: post) :
    ∃ ms, pairUp (sitsOut (wid w s)) (survivors nplayers s) = some ms ∧ seats ms = pre ++ post := by
  have hnodup := survivors_nodup nplayers s
  have hlen := mt (even_survivors h).1 ho
  rw [hw] at hnodup hlen
  rw [wid_of_odd ho, hw]
  have hskip : sitsOut w w = true := decide_eq_true rfl
  refine pairUp_of_middle hskip (fun i hi => decide_eq_false ?_) ?_
  · rintro he
    obtain rfl : w = i := Int.ofNat.inj he
    exact (List.nodup_cons.1 (List.perm_middle.nodup_iff.1 hnodup)).1 hi
  · simpa [Nat.even_add_one, ← Nat.add_assoc] using hlen

/-- If there is none, the loop runs out of the array. -/
theorem pairUp_absent (h : Consistent nplayers s) (ho : ¬ Even s.nactive) {w : ℕ} (hw : w ∉ survivors nplayers s) :
    pairUp (sitsOut (wid w s)) (survivors nplayers s) = none := by
  rw [wid_of_odd ho]
  refine pairUp_of_odd (fun i hi => decide_eq_false ?_) (Nat.not_even_iff_odd.1 (mt (even_survivors h).1 ho))
  rintro he
  obtain rfl : w = i := Int.ofNat.inj he
  exact hw hi

/-- A round comes back exactly if nobody has to sit out, or somebody does. -/
theorem round_isSome_iff {fuel : ℕ} (h : Consistent nplayers s) (hf : nplayers ≤ fuel) (w : ℕ) :
    (round fuel nplayers nround record w s).isSome = true ↔ Even s.nactive ∨ w ∈ survivors nplayers s := by
  rw [round_eq h hf, Option.isSome_map]
  by_cases he : Even s.nactive
  · obtain ⟨ms, hms, -⟩ := pairUp_even h he w
    simp [hms, he]
  · constructor
    · intro hsome
      by_contra hno
      rw [pairUp_absent h he fun hw => hno (Or.inr hw)] at hsome
      cases hsome
    · rintro (heven | hw)
      · exact absurd heven he
      · obtain ⟨pre, post, hl⟩ := List.append_of_mem hw
        obtain ⟨ms, hms, -⟩ := pairUp_odd h he hl
        rw [hms]
        rfl

/-- Where everybody who plays is paired, there are half as many matches as players, rounded down. -/
theorem length_pairs (h : Consistent nplayers s) {w : ℕ} {ms : List (ℕ × ℕ)}
    (hpairs : pairUp (sitsOut (wid w s)) (survivors nplayers s) = some ms) : (ms.length : ℤ) = s.nactive / 2 := by
  have hlen := length_seats ms
  by_cases heven : Even s.nactive
  · obtain ⟨ms', hms, hseats⟩ := pairUp_even h heven w
    obtain rfl := Option.some.inj (hpairs.symm.trans hms)
    rw [hseats] at hlen
    rw [h]
    omega
  · have hw : w ∈ survivors nplayers s := by
      by_contra hno
      rw [pairUp_absent h heven hno] at hpairs
      cases hpairs
    obtain ⟨pre, post, hl⟩ := List.append_of_mem hw
    obtain ⟨ms', hms, hseats⟩ := pairUp_odd h heven hl
    obtain rfl := Option.some.inj (hpairs.symm.trans hms)
    unfold Consistent at h
    rw [hl, List.length_append, List.length_cons] at h
    rw [hseats, List.length_append] at hlen
    omega

/-- After a round half of the players are active, rounded up; the losers are not, and nobody else has become active. -/
theorem round_some {fuel : ℕ} {s' : State} {w : ℕ} {ms : List (ℕ × ℕ)} (h : Consistent nplayers s)
    (hf : nplayers ≤ fuel) (hr : round fuel nplayers nround record w s = some (s', ms)) :
    Consistent nplayers s' ∧ s'.nactive = (s.nactive + 1) / 2 ∧ (∀ m ∈ ms, m.1 < m.2) ∧
      ∀ i, s'.active i = (s.active i && !ms.any fun m => loser nround record m == i) := by
  rw [round_eq h hf, Option.map_eq_some_iff] at hr
  obtain ⟨ms', hpairs, he⟩ := hr
  obtain ⟨rfl, rfl⟩ := Prod.mk.inj he
  have hsub := seats_sublist hpairs
  have hinc := (survivors_increasing nplayers s).sublist hsub
  obtain ⟨hc, hn, ha⟩ := settle_all nround record h hinc fun i hi => hsub.subset hi
  have hhalf := length_pairs h hpairs
  exact ⟨hc, by omega, fun m hm => List.pairwise_pair.1 (hinc.sublist (pair_sublist_seats hm)), ha⟩

/-- Where the right players are paired, all of the rest follows. -/
theorem pairsAll_of_seats (h : Consistent nplayers s) {w : ℕ} (hw : 1 ≤ w) (hle : w ≤ s.nactive) {ms : List (ℕ × ℕ)}
    (hseats : seats ms = if Even s.nactive then survivors nplayers s else (survivors nplayers s).eraseIdx (w - 1)) :
    PairsAll nplayers nround record w s (ms.foldl (settle nround record) s) ms := by
  have hsub : (seats ms).Sublist (survivors nplayers s) := by
    rw [hseats]
    split
    · exact .refl _
    · exact List.eraseIdx_sublist ..
  obtain ⟨hc, hn, ha⟩ := settle_all nround record h
    ((survivors_increasing nplayers s).sublist hsub) fun i hi => hsub.subset hi
  refine ⟨hseats, ha, hc, ?_⟩
  have hlen := congrArg List.length hseats
  rw [length_seats] at hlen
  rw [hn]
  unfold Consistent at h
  split at hlen
  · omega
  · rename_i ho
    rw [List.length_eraseIdx_of_lt (by omega)] at hlen
    rw [Int.not_even_iff] at ho
    omega

/-- The player with number `w` and the one at a position are the same if the rest is the same without them. -/
theorem position_of_erased {l pre post : List ℕ} {w k : ℕ} (hl : l.Nodup) (hw : l = pre ++ w :: post)
    (h : pre ++ post = l.eraseIdx k) : l[k]? = some w := by
  have hnot : w ∉ pre ++ post := by
    rw [hw] at hl
    exact (List.nodup_cons.1 (List.perm_middle.nodup_iff.1 hl)).1
  have hat : l[pre.length]? = some w := by simp [hw]
  by_contra hne
  have hk : pre.length ≠ k := fun he => hne (he ▸ hat)
  rw [h] at hnot
  exact hnot (List.mem_eraseIdx_iff_getElem?.2 ⟨pre.length, hk, hat⟩)

end Round

/-- A turn of the main loop that comes back, whatever number of a player `getWalkOver` answers. -/
structure RoundStep (fuel nplayers nround : ℕ) (s : State) (e : ℕ × (ℕ → ℕ → Char)) (s' : State) : Prop where
  running : s.nactive ≠ 1
  walkOver : 1 ≤ e.1 ∧ (e.1 : ℤ) ≤ s.nactive
  exec : ∃ ms, round fuel nplayers nround e.2 e.1 s = some (s', ms)

theorem consistent_start (nplayers : ℕ) : Consistent nplayers (start nplayers) := by
  simp [Consistent, start, survivors]

theorem run_consistent {fuel nplayers nround : ℕ} (hf : nplayers ≤ fuel) {es : List (ℕ × (ℕ → ℕ → Char))} {s : State}
    (h : Run (RoundStep fuel nplayers nround) (start nplayers) es s) : Consistent nplayers s := by
  refine h.invariant (P := Consistent nplayers) (consistent_start nplayers) ?_
  rintro s ⟨w, record⟩ s' hc hs
  obtain ⟨ms, hms⟩ := hs.exec
  exact (round_some hc hf hms).1

/-- Before every round of every tournament, whatever moves are recorded and whatever position `getWalkOver` answers:
the round stays inside `activePlayer` and pairs everybody as it should exactly if the number of active players is
even, or the player at that position is the one whose number the position is. -/
theorem run_rounds {fuel nplayers nround : ℕ} (hf : nplayers ≤ fuel) {es : List (ℕ × (ℕ → ℕ → Char))} {s : State}
    (h : Run (RoundStep fuel nplayers nround) (start nplayers) es s) {w : ℕ} (hw : 1 ≤ w) (hle : w ≤ s.nactive)
    (record : ℕ → ℕ → Char) :
    (∃ s' ms, round fuel nplayers nround record w s = some (s', ms) ∧ PairsAll nplayers nround record w s s' ms) ↔
      Even s.nactive ∨ (survivors nplayers s)[w - 1]? = some w := by
  have hc := run_consistent hf h
  rw [round_eq hc hf]
  by_cases he : Even s.nactive
  · obtain ⟨ms, hms, hseats⟩ := pairUp_even hc he w
    refine ⟨fun _ => Or.inl he, fun _ => ⟨_, ms, by rw [hms]; rfl, pairsAll_of_seats hc hw hle ?_⟩⟩
    rw [hseats, if_pos he]
  · constructor
    · rintro ⟨s', ms, hms, hall⟩
      right
      obtain ⟨ms', hpairs, hm⟩ := Option.map_eq_some_iff.1 hms
      obtain ⟨-, rfl⟩ := Prod.mk.inj hm
      have hmem : w ∈ survivors nplayers s := by
        -- otherwise nobody sits out, and the last one has nobody to meet
        by_contra hno
        rw [pairUp_absent hc he hno] at hpairs
        cases hpairs
      obtain ⟨pre, post, hl⟩ := List.append_of_mem hmem
      obtain ⟨ms'', hpairs', hseats⟩ := pairUp_odd hc he hl
      obtain rfl := Option.some.inj (hpairs.symm.trans hpairs')
      -- the player who sat out is the one with that number, and should be the one at that position
      have herase := hall.seats
      rw [if_neg he] at herase
      exact position_of_erased (survivors_nodup nplayers s) hl (hseats.symm.trans herase)
    · rintro (heven | hat)
      · exact absurd heven he
      · obtain ⟨hlt, hat⟩ := List.getElem?_eq_some_iff.1 hat
        have hl : survivors nplayers s =
            (survivors nplayers s).take (w - 1) ++ w :: (survivors nplayers s).drop (w - 1 + 1) := by
          conv_lhs => rw [← List.take_append_drop (w - 1) (survivors nplayers s), List.drop_eq_getElem_cons hlt, hat]
        obtain ⟨ms, hms, hseats⟩ := pairUp_odd hc he hl
        refine ⟨_, ms, by rw [hms]; rfl, pairsAll_of_seats hc hw hle ?_⟩
        rw [hseats, if_neg he, List.eraseIdx_eq_take_drop_succ]

/-- The second of five players is to sit out of the first round, but player 2 does; in the second round player 2 is the
second. -/
theorem run_rounds_of_five :
    let record : ℕ → ℕ → Char := fun _ _ => '0'
    ∃ s ms, round 5 5 1 record 2 (start 5) = some (s, ms) ∧ survivors 5 s = [0, 2, 3] ∧
      ((∃ s' ms, round 5 5 1 record 2 s = some (s', ms) ∧ PairsAll 5 1 record 2 s s' ms) ↔
        Even s.nactive ∨ (survivors 5 s)[2 - 1]? = some 2) := by
  intro record
  refine ⟨_, _, rfl, by decide, ?_⟩
  have h : Run (RoundStep 5 5 1) (start 5) [(2, record)] _ := .single ⟨by decide, by decide, _, rfl⟩
  exact run_rounds (by decide) h (by decide) (by decide) record

/-- Of three players with equal moves the first is to sit out of the first round; the second does. If the third is to
sit out, the loop reads behind the array. -/
theorem walkOver_is_no_position :
    let record : ℕ → ℕ → Char := fun _ _ => '0'
    (∃ s ms, round 3 3 1 record 1 (start 3) = some (s, ms) ∧ ms = [(0, 2)] ∧
      ¬ PairsAll 3 1 record 1 (start 3) s ms) ∧
    round 3 3 1 record 3 (start 3) = none := by
  intro record
  refine ⟨⟨_, _, rfl, rfl, fun h => ?_⟩, rfl⟩
  have hseats := h.seats
  revert hseats
  decide

end CS330.Umpire
