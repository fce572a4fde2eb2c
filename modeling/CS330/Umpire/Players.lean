/-
umpire2.c: the players file. Its first line is the number of players, the next ones are their executables; both are
read byte by byte into arrays of fixed size. At the end of the file the loop stores the byte it has read last once
more, and the zero that ends the string falls on it.

An index that is not in its array is nothing, and so is an array of negative size. `read` does not fail, and the stack
has room for the arrays; what they hold at first is whatever was there.
-/
import CS330.Lib.CInt
import CS330.Lib.Numeral
import CS330.Lib.Tokens
import CS330.Lib.While
import Mathlib.Data.List.TakeWhile

namespace CS330.Umpire

open CS330.Lib

def newline : UInt8 := 10

/-! ## A line -/

/-- What the loop works on; of the file only what has not been read. -/
structure Reading where
  pos : ℕ
  cells : ℕ → UInt8
  cchar : UInt8
  rdcnt : ℕ
  file : List UInt8

/-- The body of the loop, with an array of `size` bytes. -/
def readTurn (size : ℕ) (r : Reading) : Option Reading :=
  let (rdcnt, cchar, file) : ℕ × UInt8 × List UInt8 :=
    match r.file with
    | [] => (0, r.cchar, [])
    | c :: file => (1, c, file)
  if r.pos < size then some ⟨r.pos + 1, Function.update r.cells r.pos cchar, cchar, rdcnt, file⟩ else none

def readTest (r : Reading) : Option Bool := some (r.rdcnt != 0 && r.cchar != newline)

/-- `do .. while`, and the zero at the end: the array, `cchar`, and the rest of the file. -/
def readLine (fuel size : ℕ) (cells : ℕ → UInt8) (cchar : UInt8) (file : List UInt8) :
    Option ((ℕ → UInt8) × UInt8 × List UInt8) := do
  let r ← readTurn size ⟨0, cells, cchar, 0, file⟩
  let r ← whileLoop readTest (readTurn size) fuel r
  some (Function.update r.cells (r.pos - 1) 0, r.cchar, r.file)

/-! ## The number of players -/

def isSpace (c : UInt8) : Bool := c == 32 || (9 ≤ c && c ≤ 13)

def isDigit (c : UInt8) : Bool := 48 ≤ c && c ≤ 57

/-- `strtol` in base 10: the numeral after the blanks, or the next number there is. -/
def strtol (s : List UInt8) : ℤ :=
  let s := s.dropWhile isSpace
  let (neg, s) := match s with
    | 45 :: s => (true, s)
    | 43 :: s => (false, s)
    | s => (false, s)
  let v : ℕ := (s.takeWhile isDigit).foldl (fun v c => 10 * v + (c.toNat - 48)) 0
  if neg then max (-v : ℤ) (-2 ^ 63) else min (v : ℤ) (2 ^ 63 - 1)

/-- `atoi`: the result of `strtol` as an int. -/
def atoi (s : List UInt8) : ℤ := i32 (strtol s)

/-! ## The file -/

/-- What is on the stack where `nplay`, `cchar` and `executables` are. -/
structure Stack where
  nplay : ℕ → UInt8
  cchar : UInt8
  executables : ℕ → ℕ → UInt8

/-- What the loop over the players works on. -/
structure Rows where
  executables : ℕ → ℕ → UInt8
  cchar : UInt8
  file : List UInt8

def readRow (fuel : ℕ) (r : Rows) (i : ℕ) : Option Rows := do
  let (row, cchar, file) ← readLine fuel 101 (r.executables i) r.cchar r.file
  some ⟨Function.update r.executables i row, cchar, file⟩

/-- `nplayers` and `executables`. -/
def readPlayers (fuel : ℕ) (stack : Stack) (file : List UInt8) : Option (ℤ × (ℕ → ℕ → UInt8)) := do
  let (nplay, cchar, file) ← readLine fuel 64 stack.nplay stack.cchar file
  let text ← textAt nplay 64 0
  let nplayers := atoi text
  if 0 ≤ nplayers then
    let r ← (List.range nplayers.toNat).foldlM (readRow fuel) ⟨stack.executables, cchar, file⟩
    some (nplayers, r.executables)
  else none

/-! ## What the file says -/

/-- Line `k` of a file, from 0 on; there is nothing in a line that is missing. -/
def line (file : List UInt8) (k : ℕ) : List UInt8 := (file.splitOn newline).getD k []

/-- A decimal numeral, perhaps behind blanks and a plus sign, and with something else behind it. -/
def Denotes (s : List UInt8) (n : ℕ) : Prop :=
  ∃ blanks sign digits rest, s = blanks ++ (sign ++ (digits ++ rest)) ∧ (∀ c ∈ blanks, isSpace c = true) ∧
    (sign = [] ∨ sign = [43]) ∧ digits ≠ [] ∧ (∀ c ∈ digits, isDigit c = true) ∧ (∀ c ∈ rest.head?, isDigit c = false) ∧
    evalDigits 10 (digits.map fun c => c.toNat - 48) = n

/-! ## Reading a line -/

/-- What is before the first end of line, and what is behind it. -/
def firstLine (file : List UInt8) : List UInt8 := file.takeWhile (· != newline)

def behind (file : List UInt8) : List UInt8 := (file.dropWhile (· != newline)).tail

section Line

variable {size : ℕ} {file : List UInt8}

theorem firstLine_cons {c : UInt8} (h : c ≠ newline) (file : List UInt8) :
    firstLine (c :: file) = c :: firstLine file ∧ behind (c :: file) = behind file := by
  simp [firstLine, behind, h]

theorem firstLine_newline (file : List UInt8) : firstLine (newline :: file) = [] ∧ behind (newline :: file) = file := by
  simp [firstLine, behind]

/-- A turn that reads the end of the line, or nothing, is the last one. -/
theorem whileLoop_last {fuel : ℕ} {r r' : Reading} (h : readTurn size r = if r.pos < size then some r' else none)
    (hstop : readTest r' = some false) : (readTurn size r).bind (whileLoop readTest (readTurn size) fuel) =
      if r.pos < size then some r' else none := by
  rw [h]
  by_cases hroom : r.pos < size
  · rw [if_pos hroom, Option.bind_some, whileLoop_stop hstop]
  · rw [if_neg hroom, Option.bind_none]

/-- The loop stores the line and one byte more, which is the last one it has read, if there is room for that. -/
theorem whileLoop_line (size fuel pos : ℕ) (cells : ℕ → UInt8) (cchar : UInt8) (rdcnt : ℕ) (hf : file.length ≤ fuel) :
    ∃ last rdcnt', (readTurn size ⟨pos, cells, cchar, rdcnt, file⟩).bind (whileLoop readTest (readTurn size) fuel) =
      if pos + (firstLine file).length < size then
        some ⟨pos + (firstLine file).length + 1, Function.update (copyIn cells pos (firstLine file).length fun j =>
          (firstLine file).getD j 0) (pos + (firstLine file).length) last, last, rdcnt', behind file⟩
      else none := by
  induction file generalizing fuel pos cells cchar rdcnt with
  | nil => exact ⟨cchar, 0, whileLoop_last rfl rfl⟩
  | cons c file ih =>
    by_cases hc : c = newline
    · subst hc
      obtain ⟨hline, hrest⟩ := firstLine_newline file
      refine ⟨newline, 1, ?_⟩
      rw [hline, hrest]
      exact whileLoop_last rfl rfl
    · obtain ⟨hline, hrest⟩ := firstLine_cons hc file
      obtain ⟨fuel, rfl⟩ : ∃ n, fuel = n + 1 := ⟨fuel - 1, by rw [List.length_cons] at hf; omega⟩
      obtain ⟨last, rdcnt', hloop⟩ := ih fuel (pos + 1) (Function.update cells pos c) c 1
        (by rw [List.length_cons] at hf; omega)
      have hgo : readTest ⟨pos + 1, Function.update cells pos c, c, 1, file⟩ = some true := by simp [readTest, hc]
      refine ⟨last, rdcnt', ?_⟩
      rw [hline, hrest, List.length_cons]
      by_cases hroom : pos < size
      · have hturn : readTurn size ⟨pos, cells, cchar, rdcnt, c :: file⟩ =
            some ⟨pos + 1, Function.update cells pos c, c, 1, file⟩ := by simp only [readTurn, if_pos hroom]
        have hcells : copyIn (Function.update cells pos c) (pos + 1) (firstLine file).length
            (fun j => (firstLine file).getD j 0) = copyIn cells pos ((firstLine file).length + 1) fun j =>
              (c :: firstLine file).getD j 0 :=
          copyIn_update cells pos _ fun j => (c :: firstLine file).getD j 0
        rw [hturn, Option.bind_some, whileLoop, hgo]
        exact hloop.trans (by rw [hcells, Nat.add_right_comm pos 1, Nat.add_assoc pos])
      · have hturn : readTurn size ⟨pos, cells, cchar, rdcnt, c :: file⟩ = none := by
          simp only [readTurn, if_neg hroom]
        rw [hturn, if_neg (by omega), Option.bind_none]

/-- A line that is short enough is in the array, with its end; a longer one is written past it. -/
theorem readLine_eq (size fuel : ℕ) (cells : ℕ → UInt8) (cchar : UInt8) (hf : file.length ≤ fuel) :
    ∃ last, readLine fuel size cells cchar file =
      if (firstLine file).length < size then some (storeStr cells 0 (firstLine file), last, behind file) else none := by
  obtain ⟨last, rdcnt, hloop⟩ := whileLoop_line size fuel 0 cells cchar 0 hf
  refine ⟨last, ?_⟩
  have hread : readLine fuel size cells cchar file =
      ((readTurn size ⟨0, cells, cchar, 0, file⟩).bind (whileLoop readTest (readTurn size) fuel)).map fun r =>
        (Function.update r.cells (r.pos - 1) 0, r.cchar, r.file) := by
    unfold readLine
    cases readTurn size ⟨0, cells, cchar, 0, file⟩ with
    | none => rfl
    | some r => simp only [Option.bind_eq_bind, Option.bind_some, Option.map_eq_bind]; rfl
  rw [hread, hloop, Nat.zero_add]
  by_cases hroom : (firstLine file).length < size
  · simp only [if_pos hroom, Option.map_some, Nat.add_sub_cancel, Function.update_idem, storeStr, Nat.zero_add]
  · simp only [if_neg hroom, Option.map_none]

theorem length_behind_le (file : List UInt8) : (behind file).length ≤ file.length := by
  have hle : (file.dropWhile (· != newline)).length ≤ file.length := (List.dropWhile_sublist _).length_le
  rw [behind, List.length_tail]
  omega

theorem length_behind_iterate_le (file : List UInt8) (k : ℕ) : (behind^[k] file).length ≤ file.length := by
  induction k with
  | zero => exact le_rfl
  | succ k ih =>
    rw [Function.iterate_succ_apply']
    exact (length_behind_le _).trans ih

/-- The lines of a file are the first one and those of what is behind it. -/
theorem splitOn_of_mem (h : newline ∈ file) :
    file.splitOn newline = firstLine file :: (behind file).splitOn newline := by
  have hfree : newline ∉ firstLine file := fun hm => by
    have hne := List.all_eq_true.1 List.all_takeWhile newline hm
    cases hne
  have hsplit : firstLine file ++ newline :: behind file = file := by
    have hdrop : file.dropWhile (· != newline) = newline :: behind file := by
      cases hrest : file.dropWhile (· != newline) with
      | nil =>
        have hall := List.dropWhile_eq_nil_iff.1 hrest newline h
        simp at hall
      | cons c rest =>
        have hc := List.head_dropWhile_not (· != newline) (l := file) (by rw [hrest]; exact List.cons_ne_nil _ _)
        simp only [hrest, List.head_cons, bne_eq_false_iff_eq] at hc
        rw [behind, hrest, hc, List.tail_cons]
    rw [← hdrop]
    exact file.takeWhile_append_dropWhile
  conv_lhs => rw [← hsplit]
  exact List.splitOn_append_cons_self_of_not_mem hfree ..

theorem splitOn_of_not_mem (h : newline ∉ file) :
    file.splitOn newline = [firstLine file] ∧ behind file = [] := by
  have hall : ∀ c ∈ file, (c != newline) = true := fun c hc => bne_iff_ne.2 fun he => h (he ▸ hc)
  rw [behind, List.dropWhile_eq_nil_iff.2 hall, firstLine, List.takeWhile_eq_self_iff.2 hall]
  exact ⟨List.splitOn_eq_singleton h, rfl⟩

theorem line_zero (file : List UInt8) : line file 0 = firstLine file := by
  by_cases h : newline ∈ file
  · rw [line, splitOn_of_mem h, List.getD_cons_zero]
  · rw [line, (splitOn_of_not_mem h).1, List.getD_cons_zero]

theorem line_succ (file : List UInt8) (k : ℕ) : line file (k + 1) = line (behind file) k := by
  by_cases h : newline ∈ file
  · rw [line, splitOn_of_mem h, List.getD_cons_succ, line]
  · obtain ⟨hone, hnil⟩ := splitOn_of_not_mem h
    rw [line, hone, List.getD_cons_succ, hnil, line, List.splitOn_nil]
    cases k <;> rfl

theorem firstLine_behind (file : List UInt8) (k : ℕ) : firstLine (behind^[k] file) = line file k := by
  induction k generalizing file with
  | zero => exact (line_zero file).symm
  | succ k ih => rw [Function.iterate_succ_apply, ih, line_succ]

end Line

/-! ## Reading the players -/

section Players

variable {fuel : ℕ} {file : List UInt8}

/-- After `n` players their lines are in the array, and the lines behind them have not been read. -/
theorem foldlM_rows (hf : file.length ≤ fuel) (executables : ℕ → ℕ → UInt8) (cchar : UInt8) (n : ℕ) :
    ∃ last, (List.range n).foldlM (readRow fuel) ⟨executables, cchar, file⟩ =
      if ∀ i < n, (line file i).length < 101 then
        some ⟨fun i => if i < n then storeStr (executables i) 0 (line file i) else executables i, last, behind^[n] file⟩
      else none := by
  induction n with
  | zero => exact ⟨cchar, by simp⟩
  | succ n ih =>
    obtain ⟨last, hrows⟩ := ih
    rw [List.range_succ, List.foldlM_append, hrows]
    by_cases hlines : ∀ i < n, (line file i).length < 101
    · obtain ⟨last', hline⟩ := readLine_eq 101 fuel (executables n) last
        ((length_behind_iterate_le file n).trans hf)
      rw [firstLine_behind] at hline
      refine ⟨last', ?_⟩
      simp only [if_pos hlines, Option.bind_eq_bind, Option.bind_some, List.foldlM_cons, List.foldlM_nil, readRow,
        Nat.lt_irrefl, if_false, hline]
      by_cases hroom : (line file n).length < 101
      · have hall : ∀ i < n + 1, (line file i).length < 101 := fun i hi => by
          rcases Nat.lt_succ_iff_lt_or_eq.1 hi with h | rfl
          · exact hlines i h
          · exact hroom
        have hcells : Function.update
            (fun i => if i < n then storeStr (executables i) 0 (line file i) else executables i)
            n (storeStr (executables n) 0 (line file n)) =
              fun i => if i < n + 1 then storeStr (executables i) 0 (line file i) else executables i := by
          funext i
          by_cases hi : i = n
          · subst hi
            rw [Function.update_self, if_pos (Nat.lt_succ_self i)]
          · rw [Function.update_of_ne hi]
            exact if_congr (by omega) rfl rfl
        rw [if_pos hroom, if_pos hall, ← hcells, Function.iterate_succ_apply']
        rfl
      · rw [if_neg hroom, if_neg fun h => hroom (h n (Nat.lt_succ_self n))]
        rfl
    · refine ⟨last, ?_⟩
      rw [if_neg hlines, if_neg fun h => hlines fun i hi => h i (Nat.lt_succ_of_lt hi)]
      rfl

/-- What `nplayers` becomes. -/
def count (file : List UInt8) : ℤ := atoi ((line file 0).takeWhile (· != 0))

/-- The lines of the file that are read, if they fit. -/
def Fits (file : List UInt8) : Prop :=
  (line file 0).length < 64 ∧ ∀ i < (count file).toNat, (line file (i + 1)).length < 101

instance (file : List UInt8) : Decidable (Fits file) :=
  inferInstanceAs (Decidable (_ ∧ ∀ i < (count file).toNat, _))

theorem readPlayers_eq (hf : file.length ≤ fuel) (stack : Stack) :
    readPlayers fuel stack file = if Fits file ∧ 0 ≤ count file then
      some (count file, fun i =>
        if i < (count file).toNat then storeStr (stack.executables i) 0 (line file (i + 1)) else stack.executables i)
      else none := by
  obtain ⟨last, hline⟩ := readLine_eq 64 fuel stack.nplay stack.cchar hf
  rw [← line_zero] at hline
  unfold readPlayers
  rw [hline]
  by_cases hroom : (line file 0).length < 64
  · have htext : textAt (storeStr stack.nplay 0 (line file 0)) 64 0 = some ((line file 0).takeWhile (· != 0)) :=
      ((cstr_storeStr stack.nplay 0 (line file 0)).text (by omega)).textAt
    obtain ⟨last', hrows⟩ := foldlM_rows ((length_behind_le file).trans hf) stack.executables last (count file).toNat
    simp only [if_pos hroom, Option.bind_eq_bind, Option.bind_some, htext]
    change (if 0 ≤ count file then _ else none) = _
    by_cases hcount : 0 ≤ count file
    · simp only [if_pos hcount, ← line_succ] at hrows ⊢
      rw [show atoi ((line file 0).takeWhile (· != 0)) = count file from rfl, hrows]
      by_cases hlines : ∀ i < (count file).toNat, (line file (i + 1)).length < 101
      · rw [if_pos hlines, if_pos ⟨⟨hroom, hlines⟩, hcount⟩]
        rfl
      · rw [if_neg hlines, if_neg fun h => hlines h.1.2]
        rfl
    · rw [if_neg hcount, if_neg fun h => hcount h.2]
  · rw [if_neg hroom, if_neg fun h => hroom h.1.1]
    rfl

/-! ## The first line -/

theorem ne_of_isSpace {c : UInt8} (h : isSpace c = true) : c ≠ 0 := by
  rintro rfl
  cases h

theorem ne_of_isDigit {c : UInt8} (h : isDigit c = true) : c ≠ 0 := by
  rintro rfl
  cases h

theorem isSpace_of_isDigit {c : UInt8} (h : isDigit c = true) : isSpace c = false := by
  simp only [isDigit, isSpace, Bool.and_eq_true, decide_eq_true_eq, Bool.or_eq_false_iff, Bool.and_eq_false_iff,
    beq_eq_false_iff_ne, decide_eq_false_iff_not, UInt8.le_iff_toNat_le, ne_eq, ← UInt8.toNat_inj] at h ⊢
  have h32 : (32 : UInt8).toNat = 32 := rfl
  have h13 : (13 : UInt8).toNat = 13 := rfl
  have h48 : (48 : UInt8).toNat = 48 := rfl
  omega

/-- A zero in the line is behind the numeral. -/
theorem Denotes.takeWhile {s : List UInt8} {n : ℕ} (h : Denotes s n) : Denotes (s.takeWhile (· != 0)) n := by
  obtain ⟨blanks, sign, digits, rest, rfl, hblanks, hsign, hne, hdigits, hrest, hn⟩ := h
  refine ⟨blanks, sign, digits, rest.takeWhile (· != 0), ?_, hblanks, hsign, hne, hdigits, fun c hc => ?_, hn⟩
  · rw [List.takeWhile_append_of_pos fun c hc => bne_iff_ne.2 (ne_of_isSpace (hblanks c hc)),
      List.takeWhile_append_of_pos fun c hc => ?_,
      List.takeWhile_append_of_pos fun c hc => bne_iff_ne.2 (ne_of_isDigit (hdigits c hc))]
    rcases hsign with rfl | rfl
    · cases hc
    · obtain rfl := List.mem_singleton.1 hc
      rfl
  · cases rest with
    | nil => cases hc
    | cons d rest =>
      rw [List.takeWhile_cons] at hc
      split at hc
      · exact hrest c hc
      · cases hc

theorem strtol_of_denotes {s : List UInt8} {n : ℕ} (h : Denotes s n) : strtol s = min (n : ℤ) (2 ^ 63 - 1) := by
  obtain ⟨blanks, sign, digits, rest, rfl, hblanks, hsign, hne, hdigits, hrest, rfl⟩ := h
  obtain ⟨d, digits, rfl⟩ := List.exists_cons_of_ne_nil hne
  have hd := hdigits d List.mem_cons_self
  have hnumeral : (d :: digits ++ rest).takeWhile isDigit = d :: digits := by
    rw [List.takeWhile_append_of_pos hdigits]
    cases rest with
    | nil => simp
    | cons c rest => rw [List.takeWhile_cons_of_neg (by rw [hrest c rfl]; decide), List.append_nil]
  have hvalue : (d :: digits).foldl (fun (v : ℕ) c => 10 * v + (c.toNat - 48)) 0 =
      evalDigits 10 ((d :: digits).map fun c => c.toNat - 48) := by
    rw [evalDigits, List.foldl_map]
  unfold strtol
  rw [List.dropWhile_append_of_pos hblanks]
  rcases hsign with rfl | rfl
  · have hskip : (d :: digits ++ rest).dropWhile isSpace = d :: (digits ++ rest) :=
      List.dropWhile_cons_of_neg (by rw [isSpace_of_isDigit hd]; decide)
    rw [List.nil_append, hskip]
    have h45 : d ≠ 45 := by rintro rfl; cases hd
    have h43 : d ≠ 43 := by rintro rfl; cases hd
    have hsplit : (match d :: (digits ++ rest) with
        | 45 :: s => (true, s)
        | 43 :: s => (false, s)
        | s => (false, s)) = (false, d :: digits ++ rest) := by
      split
      · rename_i he; exact absurd (List.cons.inj he).1 h45
      · rename_i he; exact absurd (List.cons.inj he).1 h43
      · rfl
    simp only [hsplit, hnumeral, hvalue, Bool.false_eq_true, if_false]
  · have hskip : ([43] ++ (d :: digits ++ rest)).dropWhile isSpace = 43 :: (d :: digits ++ rest) := rfl
    simp only [hskip, hnumeral, hvalue, Bool.false_eq_true, if_false]

theorem atoi_of_denotes {s : List UInt8} {n : ℕ} (h : Denotes s n) (hn : n < 2 ^ 31) : atoi s = n := by
  rw [atoi, strtol_of_denotes h, min_eq_left (by omega)]
  exact i32_of_range (by omega) (by omega)

/-- For every file whose first line is short enough and denotes a number of players there can be, and whose next lines
are short enough: the players are counted, and each one's line is in the row. -/
theorem readPlayers_exact (hf : file.length ≤ fuel) (stack : Stack) {n : ℕ} (hmax : n < 2 ^ 31)
    (hcount : Denotes (line file 0) n) (hfirst : (line file 0).length ≤ 63)
    (hrows : ∀ i < n, (line file (i + 1)).length ≤ 100) :
    ∃ executables, readPlayers fuel stack file = some ((n : ℤ), executables) ∧
      ∀ i < n, CStr (executables i) 0 (line file (i + 1)) := by
  have hatoi : count file = n := atoi_of_denotes hcount.takeWhile hmax
  have hfits : Fits file := ⟨by omega, fun i hi => Nat.lt_succ_of_le (hrows i (by omega))⟩
  have hread := readPlayers_eq hf stack
  rw [if_pos ⟨hfits, by omega⟩, hatoi] at hread
  refine ⟨_, hread, fun i hi => ?_⟩
  rw [Int.toNat_natCast, if_pos hi]
  exact cstr_storeStr ..

/-- Blanks before the number, no end of line behind the first player, and the second one missing. -/
theorem readPlayers_exact_of_two :
    let file : List UInt8 := [32, 50, 10, 97, 98]
    ∃ executables, readPlayers 5 ⟨fun _ => 7, 7, fun _ _ => 7⟩ file = some (((2 : ℕ) : ℤ), executables) ∧
      ∀ i < 2, CStr (executables i) 0 (line file (i + 1)) := by
  intro file
  have hcount : Denotes (line file 0) 2 := ⟨[32], [], [50], [], rfl, List.all_eq_true.1 rfl, Or.inl rfl,
    List.cons_ne_nil _ _, List.all_eq_true.1 rfl, nofun, rfl⟩
  exact readPlayers_exact (by decide) _ (by decide) hcount (by decide) (by decide)

/-- A number of players that no `int` holds, and one line for a player: there is one player. -/
theorem readPlayers_wraps :
    let file : List UInt8 := [52, 50, 57, 52, 57, 54, 55, 50, 57, 55, 10, 65]
    let stack : Stack := ⟨fun _ => 0, 0, fun _ _ => 0⟩
    Denotes (line file 0) 4294967297 ∧ (line file 0).length ≤ 63 ∧ (∀ k, (line file (k + 1)).length ≤ 100) ∧
      (readPlayers 12 stack file).map Prod.fst = some 1 ∧
        ¬ ∃ executables, readPlayers 12 stack file = some (4294967297, executables) := by
  intro file stack
  have hone : (readPlayers 12 stack file).map Prod.fst = some 1 := by decide +kernel
  have hlines : file.splitOn newline = [[52, 50, 57, 52, 57, 54, 55, 50, 57, 55], [65]] := by decide
  have hcount : Denotes (line file 0) 4294967297 := ⟨[], [], [52, 50, 57, 52, 57, 54, 55, 50, 57, 55], [], rfl, nofun,
    Or.inl rfl, List.cons_ne_nil _ _, List.all_eq_true.1 rfl, nofun, rfl⟩
  refine ⟨hcount, by decide, fun k => ?_, hone, ?_⟩
  · rw [line, hlines]
    rcases k with _ | k <;> simp
  · rintro ⟨executables, he⟩
    rw [he] at hone
    cases hone

end Players

end CS330.Umpire
