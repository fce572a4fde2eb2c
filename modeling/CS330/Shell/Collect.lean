/-
executeInParallel.c: the commands have been started, each with its standard output in a pipe of its own. The parent
waits for one of them and then copies the pipes to the output file, one after the other, while the children write as
long as there is room. Nobody closes the parent's copy of a write end, so a pipe that is empty is never at its end.

`read` may return any part of what is in the pipe, and `write` writes everything; neither fails.
-/
import CS330.Lib.Run
import Mathlib.Data.List.GetD

namespace CS330.Shell

open CS330.Lib

/-- The size of `buff`, and of the reads into it. -/
def buffSize : ℕ := 4096

/-- Where the parent is: in `wait`, in the loop over the pipe of a command, behind it, or it has stored behind
`buff`. -/
inductive Parent
  | waiting
  | reading (i : ℕ)
  | returned
  | overrun
deriving DecidableEq

/-- The parent with `status` and what it has written; for each command what is in its pipe, what it has still to
write, and whether it has exited. -/
structure Collection where
  parent : Parent
  status : ℤ
  outfile : List UInt8
  pipe : ℕ → List UInt8
  rest : ℕ → List UInt8
  exited : ℕ → Bool

/-- All commands have been started. -/
def start (outputs : List (List UInt8)) : Collection :=
  ⟨.waiting, 0, [], fun _ => [], fun i => outputs.getD i [], fun _ => false⟩

/-- "UNABLE TO EXECUTE\n". -/
def unable : List UInt8 := "UNABLE TO EXECUTE\n".toList.map fun c => c.toNat.toUInt8

/-- `status` after the string in `buff` has been compared. -/
def compare (status : ℤ) (buff : List UInt8) : ℤ :=
  if status = 0 then (if buff.takeWhile (· != 0) = unable then -1 else 0) else status

/-- The head of the loop over the commands. -/
def turnTo (ncmd i : ℕ) : Parent := if i < ncmd then .reading i else .returned

/-- The body of the `do` loop once these bytes are in `buff`, and its test. The zero behind them has to be in `buff`,
too. -/
def copyOut (ncmd i : ℕ) (s : Collection) (buff : List UInt8) : Collection :=
  if buff.length < buffSize then
    { s with
      status := compare s.status buff
      outfile := s.outfile ++ buff
      parent := if buff.length ≥ buffSize then .reading i else turnTo ncmd (i + 1) }
  else { s with parent := .overrun }

/-- Somebody has a write end of a pipe: the parent, or a command that was started since and has not exited. -/
def Collection.writeOpen (ncmd : ℕ) (s : Collection) (i : ℕ) : Bool :=
  s.parent != .returned || (List.range ncmd).any fun j => decide (i ≤ j) && !s.exited j

/-- A command writes some bytes, or exits; the parent's `wait` returns, or its `read`, with some bytes. -/
inductive Event
  | write (i n : ℕ)
  | exit (i : ℕ)
  | wait
  | read (n : ℕ)

/-- What an event comes to where it can happen. A pipe has room for `capacity` bytes; `read` returns 0 at the end of
the file only; without children `wait` returns at once. -/
def next (capacity ncmd : ℕ) (s : Collection) : Event → Option Collection
  | .write i n =>
    if i < ncmd ∧ 0 < n ∧ n ≤ (s.rest i).length ∧ (s.pipe i).length + n ≤ capacity then
      some { s with
        pipe := Function.update s.pipe i (s.pipe i ++ (s.rest i).take n)
        rest := Function.update s.rest i ((s.rest i).drop n) }
    else none
  | .exit i =>
    if i < ncmd ∧ s.rest i = [] ∧ s.exited i = false then some { s with exited := Function.update s.exited i true }
    else none
  | .wait =>
    if s.parent = .waiting ∧ (ncmd = 0 ∨ (List.range ncmd).any s.exited = true) then
      some { s with parent := turnTo ncmd 0 }
    else none
  | .read n =>
    match s.parent with
    | .reading i =>
      if n ≤ buffSize ∧ n ≤ (s.pipe i).length ∧ (n = 0 → s.pipe i = [] ∧ s.writeOpen ncmd i = false) then
        some (copyOut ncmd i { s with pipe := Function.update s.pipe i ((s.pipe i).drop n) } ((s.pipe i).take n))
      else none
    | _ => none

/-- A step of the parent and its children, in any order. -/
def Step (capacity ncmd : ℕ) (s : Collection) (e : Event) (s' : Collection) : Prop := next capacity ncmd s e = some s'

/-- If it is a read, it returns all its command has written and will ever write. -/
def Whole (s : Collection) (e : Event) : Prop :=
  ∀ i n, s.parent = .reading i → e = .read n → s.rest i = [] ∧ n = (s.pipe i).length

def WholeStep (capacity ncmd : ℕ) (s : Collection) (e : Event) (s' : Collection) : Prop :=
  Step capacity ncmd s e s' ∧ Whole s e

/-- Something, and no more than leaves room for the zero. -/
def Fits (output : List UInt8) : Prop := output ≠ [] ∧ output.length < buffSize

/-- The loop has ended with the outputs of all commands in the file, in order. -/
def Collected (outputs : List (List UInt8)) (s : Collection) : Prop :=
  s.parent = .returned ∧ s.outfile = outputs.flatten

section Steps

variable {capacity ncmd : ℕ} {s s' : Collection} {e : Event}

/-- A read of nothing would be the end of the file, and the parent itself is in the way of that. -/
theorem step_cases (h : Step capacity ncmd s e s') :
    (∃ i n, e = .write i n ∧ i < ncmd ∧ 0 < n ∧ n ≤ (s.rest i).length ∧ s' = { s with
      pipe := Function.update s.pipe i (s.pipe i ++ (s.rest i).take n)
      rest := Function.update s.rest i ((s.rest i).drop n) }) ∨
    (∃ i, e = .exit i ∧ i < ncmd ∧ s.exited i = false ∧ s' = { s with exited := Function.update s.exited i true }) ∨
    (e = .wait ∧ s.parent = .waiting ∧ s' = { s with parent := turnTo ncmd 0 }) ∨
    ∃ i n, e = .read n ∧ s.parent = .reading i ∧ 0 < n ∧ n ≤ buffSize ∧ n ≤ (s.pipe i).length ∧ s' =
      copyOut ncmd i { s with pipe := Function.update s.pipe i ((s.pipe i).drop n) } ((s.pipe i).take n) := by
  unfold Step at h
  cases e with
  | write i n =>
    simp only [next, Option.ite_none_right_eq_some, Option.some.injEq] at h
    obtain ⟨⟨hi, hpos, hn, -⟩, rfl⟩ := h
    exact Or.inl ⟨i, n, rfl, hi, hpos, hn, rfl⟩
  | exit i =>
    simp only [next, Option.ite_none_right_eq_some, Option.some.injEq] at h
    obtain ⟨⟨hi, -, hx⟩, rfl⟩ := h
    exact Or.inr (Or.inl ⟨i, rfl, hi, hx, rfl⟩)
  | wait =>
    simp only [next, Option.ite_none_right_eq_some, Option.some.injEq] at h
    obtain ⟨⟨hw, -⟩, rfl⟩ := h
    exact Or.inr (Or.inr (Or.inl ⟨rfl, hw, rfl⟩))
  | read n =>
    simp only [next] at h
    split at h
    · rename_i i hr
      simp only [Option.ite_none_right_eq_some, Option.some.injEq] at h
      obtain ⟨⟨hsize, hn, hend⟩, rfl⟩ := h
      refine Or.inr (Or.inr (Or.inr ⟨i, n, rfl, hr, Nat.pos_of_ne_zero fun hzero => ?_, hsize, hn, rfl⟩))
      have hopen := (hend hzero).2
      unfold Collection.writeOpen at hopen
      rw [hr] at hopen
      cases hopen
    · cases h

theorem whole_of_not_read (h : ∀ n, e ≠ .read n) : Whole s e := fun _ n _ he => absurd he (h n)

/-! ## Every run ends -/

/-- How many steps the parent has at most before it. -/
def Parent.left (ncmd : ℕ) : Parent → ℕ
  | .waiting => ncmd + 2
  | .reading i => ncmd - i + 1
  | .returned => 0
  | .overrun => 0

/-- How many steps there are at most before all of them. -/
def Collection.left (ncmd : ℕ) (s : Collection) : ℕ :=
  s.parent.left ncmd + ∑ i ∈ Finset.range ncmd, ((s.rest i).length + if s.exited i then 0 else 1)

theorem left_turnTo_lt (ncmd i : ℕ) : (turnTo ncmd (i + 1)).left ncmd < (Parent.reading i).left ncmd := by
  unfold turnTo
  split
  · simp only [Parent.left]
    omega
  · exact Nat.succ_pos _

/-- A command has a step fewer before it. -/
theorem left_lt_of_command {i : ℕ} (hi : i < ncmd) (hp : s'.parent = s.parent)
    (hothers : ∀ j ≠ i, s'.rest j = s.rest j ∧ s'.exited j = s.exited j)
    (hlt : (s'.rest i).length + (if s'.exited i then 0 else 1) < (s.rest i).length + if s.exited i then 0 else 1) :
    s'.left ncmd < s.left ncmd := by
  unfold Collection.left
  rw [hp]
  refine Nat.add_lt_add_left (Finset.sum_lt_sum (fun j _ => ?_) ⟨i, Finset.mem_range.2 hi, hlt⟩) _
  by_cases hji : j = i
  · subst hji
    exact hlt.le
  · obtain ⟨hrest, hexited⟩ := hothers j hji
    rw [hrest, hexited]

theorem step_left (h : Step capacity ncmd s e s') : s'.left ncmd < s.left ncmd := by
  rcases step_cases h with ⟨i, n, -, hi, hpos, hn, rfl⟩ | ⟨i, -, hi, hx, rfl⟩ | ⟨-, hw, rfl⟩ |
    ⟨i, n, -, hr, -, hsize, hn, rfl⟩
  · refine left_lt_of_command hi rfl (fun j hj => ⟨Function.update_of_ne hj .., rfl⟩) ?_
    simp only [Function.update_self, List.length_drop]
    omega
  · refine left_lt_of_command hi rfl (fun j hj => ⟨rfl, Function.update_of_ne hj ..⟩) ?_
    simp [hx]
  · unfold Collection.left
    rw [hw]
    refine Nat.add_lt_add_right ?_ _
    unfold turnTo
    split
    · exact Nat.lt_succ_self _
    · exact Nat.succ_pos _
  · unfold Collection.left copyOut
    rw [hr]
    split
    · rename_i hlt
      rw [if_neg (not_le.2 hlt)]
      exact Nat.add_lt_add_right (left_turnTo_lt ncmd i) _
    · exact Nat.add_lt_add_right (Nat.succ_pos _) _

/-- Before all of it: a step for each byte that is written, one for each exit, and the parent's. -/
theorem left_start (outputs : List (List UInt8)) :
    (start outputs).left outputs.length = outputs.flatten.length + 2 * outputs.length + 2 := by
  have hbytes : ∑ i ∈ Finset.range outputs.length, (outputs.getD i []).length = outputs.flatten.length := by
    induction outputs using List.reverseRecOn with
    | nil => rfl
    | append_singleton outputs o ih =>
      have hbefore : ∑ i ∈ Finset.range outputs.length, ((outputs ++ [o]).getD i []).length =
          ∑ i ∈ Finset.range outputs.length, (outputs.getD i []).length := by
        refine Finset.sum_congr rfl fun i hi => ?_
        rw [List.getD_append _ _ _ _ (Finset.mem_range.1 hi)]
      have hlast : (outputs ++ [o]).getD outputs.length [] = o := by
        rw [List.getD_append_right _ _ _ _ le_rfl, Nat.sub_self]
        rfl
      rw [List.length_append, List.length_singleton, Finset.sum_range_succ, hbefore, hlast, ih, List.flatten_append,
        List.flatten_singleton, List.length_append]
  have hchildren : ∑ i ∈ Finset.range outputs.length, ((outputs.getD i []).length + 1) =
      outputs.flatten.length + outputs.length := by
    rw [Finset.sum_add_distrib, hbytes, Finset.sum_const, Finset.card_range, smul_eq_mul, mul_one]
  have hleft : (start outputs).left outputs.length =
      outputs.length + 2 + ∑ i ∈ Finset.range outputs.length, ((outputs.getD i []).length + 1) := rfl
  rw [hleft, hchildren]
  omega

theorem run_left {s₀ : Collection} {es : List Event} (h : Run (Step capacity ncmd) s₀ es s) :
    es.length + s.left ncmd ≤ s₀.left ncmd := by
  refine h.inv (P := fun es s => es.length + s.left ncmd ≤ s₀.left ncmd) (by simp) ?_
  rintro es s e s' - hle hs
  have hlt := step_left hs
  rw [List.length_append, List.length_singleton]
  omega

end Steps

/-! ## What a step does to the bytes -/

/-- The parent is through with the first `k` pipes. -/
def Parent.Through (ncmd k : ℕ) : Parent → Prop
  | .waiting => k = 0
  | .reading i => k = i ∧ i < ncmd
  | .returned => k = ncmd
  | .overrun => False

/-- Nothing of the other outputs is lost or out of order. -/
def Flows (outputs : List (List UInt8)) (k : ℕ) (s : Collection) : Prop :=
  ∀ i, k ≤ i → s.pipe i ++ s.rest i = outputs.getD i []

theorem take_succ_of_lt {outputs : List (List UInt8)} {k : ℕ} (h : k < outputs.length) :
    outputs.take (k + 1) = outputs.take k ++ [outputs.getD k []] := by
  rw [List.take_add_one, List.getElem?_eq_getElem h, List.getD_eq_getElem _ _ h]
  rfl

theorem through_turnTo {ncmd k : ℕ} (h : k ≤ ncmd) : (turnTo ncmd k).Through ncmd k := by
  unfold turnTo
  split
  · rename_i hlt
    exact ⟨rfl, hlt⟩
  · show k = ncmd
    omega

section Bytes

variable {capacity k : ℕ} {outputs : List (List UInt8)} {s s' : Collection} {e : Event}

/-- A read takes the next bytes of the output whose turn it is. -/
theorem Flows.take (hf : Flows outputs k s) (n : ℕ) : (s.pipe k).take n <+: outputs.getD k [] :=
  ⟨(s.pipe k).drop n ++ s.rest k, by rw [← List.append_assoc, List.take_append_drop, hf k le_rfl]⟩

theorem Flows.whole_iff {n : ℕ} (hf : Flows outputs k s) (hr : s.parent = .reading k) (hn : n ≤ (s.pipe k).length) :
    Whole s (.read n) ↔ (s.pipe k).take n = outputs.getD k [] := by
  have hout := hf k le_rfl
  constructor
  · intro hw
    obtain ⟨hrest, hn'⟩ := hw k n hr rfl
    rw [← hout, hrest, hn', List.take_length, List.append_nil]
  · intro hc j m hj hm
    obtain rfl := Parent.reading.inj (hr.symm.trans hj)
    obtain rfl := Event.read.inj hm
    have hsame := congrArg List.length hc
    rw [List.length_take_of_le hn, ← hout, List.length_append] at hsame
    exact ⟨List.eq_nil_of_length_eq_zero (by omega), by omega⟩

/-- A step that is no read leaves the file as it is. A read that fills `buff` is the last thing the parent does. Any
other read takes the next bytes of the output whose turn it is, and the loop goes on to the next pipe. -/
theorem step_bytes (hk : s.parent.Through outputs.length k) (hf : Flows outputs k s)
    (h : Step capacity outputs.length s e s') :
    (Whole s e ∧ s'.parent.Through outputs.length k ∧ Flows outputs k s' ∧ s'.outfile = s.outfile ∧
      s'.status = s.status) ∨
    (s'.parent = .overrun ∧ k < outputs.length ∧ buffSize ≤ (outputs.getD k []).length) ∨
    ∃ c, c ≠ [] ∧ c.length < buffSize ∧ k < outputs.length ∧ c.length ≤ (outputs.getD k []).length ∧
      (Whole s e ↔ c = outputs.getD k []) ∧ (c.length = (outputs.getD k []).length → c = outputs.getD k []) ∧
      s'.parent.Through outputs.length (k + 1) ∧ Flows outputs (k + 1) s' ∧ s'.outfile = s.outfile ++ c ∧
      s'.status = compare s.status c := by
  rcases step_cases h with ⟨i, n, rfl, -, -, -, rfl⟩ | ⟨i, rfl, -, -, rfl⟩ | ⟨rfl, hw, rfl⟩ |
    ⟨i, n, rfl, hr, hpos, hsize, hn, rfl⟩
  · refine Or.inl ⟨whole_of_not_read fun _ => nofun, hk, fun j hj => ?_, rfl, rfl⟩
    by_cases hji : j = i
    · subst hji
      simp only [Function.update_self]
      rw [List.append_assoc, List.take_append_drop]
      exact hf j hj
    · simp only [Function.update_of_ne hji]
      exact hf j hj
  · exact Or.inl ⟨whole_of_not_read fun _ => nofun, hk, hf, rfl, rfl⟩
  · rw [hw] at hk
    obtain rfl : k = 0 := hk
    exact Or.inl ⟨whole_of_not_read fun _ => nofun, through_turnTo (Nat.zero_le _), hf, rfl, rfl⟩
  · rw [hr] at hk
    obtain ⟨rfl, hlt⟩ : k = i ∧ i < outputs.length := hk
    have hlen : ((s.pipe k).take n).length = n := List.length_take_of_le hn
    have hbegin := hf.take n
    have hle := hbegin.length_le
    rw [hlen] at hle
    unfold copyOut
    rw [hlen]
    by_cases hroom : n < buffSize
    · rw [if_pos hroom, if_neg (not_le.2 hroom)]
      refine Or.inr (Or.inr ⟨(s.pipe k).take n, ?_, by rw [hlen]; exact hroom, hlt, hbegin.length_le,
        hf.whole_iff hr hn, hbegin.eq_of_length, through_turnTo hlt, fun j hj => ?_, rfl, rfl⟩)
      · rw [← List.length_pos_iff, hlen]
        exact hpos
      · have hjk : j ≠ k := by omega
        simp only [Function.update_of_ne hjk]
        exact hf j (by omega)
    · rw [if_neg hroom]
      exact Or.inr (Or.inl ⟨rfl, hlt, by omega⟩)

/-- Having stored behind `buff` the parent is lost. -/
theorem step_overrun (hp : s.parent = .overrun) (h : Step capacity outputs.length s e s') : s'.parent = .overrun := by
  rcases step_cases h with ⟨i, n, -, -, -, -, rfl⟩ | ⟨i, -, -, -, rfl⟩ | ⟨-, hw, -⟩ | ⟨i, n, -, hr, -⟩
  · exact hp
  · exact hp
  · rw [hp] at hw
    cases hw
  · rw [hp] at hr
    cases hr

end Bytes

/-! ## Runs -/

section Runs

variable {capacity : ℕ} {outputs : List (List UInt8)} {es : List Event} {s : Collection}

/-- What is in the file is no longer than the outputs so far, and if it is as long then they fit and every read was
whole. -/
structure Reached (capacity : ℕ) (outputs : List (List UInt8)) (es : List Event) (s : Collection) (k : ℕ) : Prop where
  through : s.parent.Through outputs.length k
  flows : Flows outputs k s
  length : s.outfile.length ≤ (outputs.take k).flatten.length
  whole : s.outfile.length = (outputs.take k).flatten.length →
    Run (WholeStep capacity outputs.length) (start outputs) es s ∧ ∀ o ∈ outputs.take k, Fits o

theorem run_reached (h : Run (Step capacity outputs.length) (start outputs) es s) :
    s.parent = .overrun ∨ ∃ k, Reached capacity outputs es s k := by
  refine h.inv (P := fun es s => s.parent = .overrun ∨ ∃ k, Reached capacity outputs es s k) ?_ ?_
  · exact Or.inr ⟨0, rfl, fun i _ => rfl, le_rfl, fun _ => ⟨.start, by simp⟩⟩
  rintro es s e s' - (hp | ⟨k, hr⟩) hs
  · exact Or.inl (step_overrun hp hs)
  rcases step_bytes hr.through hr.flows hs with ⟨hw, hk, hf, ho, -⟩ | ⟨hp, -⟩ |
    ⟨c, hc, hsize, hlt, hle, hw, hall, hk, hf, ho, -⟩
  · refine Or.inr ⟨k, hk, hf, by rw [ho]; exact hr.length, fun he => ?_⟩
    rw [ho] at he
    obtain ⟨hrun, hfits⟩ := hr.whole he
    exact ⟨hrun.snoc ⟨hs, hw⟩, hfits⟩
  · exact Or.inl hp
  · have hlength := hr.length
    have hnext := congrArg (fun l => l.flatten.length) (take_succ_of_lt hlt)
    simp only [List.flatten_append, List.length_append, List.flatten_singleton] at hnext
    refine Or.inr ⟨k + 1, hk, hf, by rw [ho, List.length_append]; omega, fun he => ?_⟩
    -- both the file so far and the bytes read are as long as they can be
    rw [ho, List.length_append] at he
    obtain ⟨hrun, hfits⟩ := hr.whole (by omega)
    have hsame := hall (by omega)
    refine ⟨hrun.snoc ⟨hs, hw.2 hsame⟩, fun o hm => ?_⟩
    rw [take_succ_of_lt hlt, List.mem_append, List.mem_singleton] at hm
    rcases hm with hm | rfl
    · exact hfits o hm
    · rw [← hsame]
      exact ⟨hc, hsize⟩

/-- `status` after these outputs. -/
def report (outputs : List (List UInt8)) : ℤ := outputs.foldl compare 0

/-- The loop is through with the first `k` pipes, and has done with each output what it is meant to. -/
structure Kept (outputs : List (List UInt8)) (s : Collection) (k : ℕ) : Prop where
  through : s.parent.Through outputs.length k
  flows : Flows outputs k s
  outfile : s.outfile = (outputs.take k).flatten
  status : s.status = report (outputs.take k)

theorem run_kept (hfits : ∀ o ∈ outputs, Fits o) (h : Run (WholeStep capacity outputs.length) (start outputs) es s) :
    ∃ k, Kept outputs s k := by
  refine h.invariant (P := fun s => ∃ k, Kept outputs s k) ?_ ?_
  · exact ⟨0, rfl, fun i _ => rfl, rfl, rfl⟩
  rintro s e s' ⟨k, hs⟩ ⟨hstep, hwhole⟩
  rcases step_bytes hs.through hs.flows hstep with ⟨-, hk, hf, ho, hst⟩ | ⟨-, hlt, hfull⟩ |
    ⟨c, -, -, hlt, -, hw, -, hk, hf, ho, hst⟩
  · exact ⟨k, hk, hf, ho.trans hs.outfile, hst.trans hs.status⟩
  · have hmem : outputs.getD k [] ∈ outputs := by
      rw [List.getD_eq_getElem _ _ hlt]
      exact List.getElem_mem hlt
    exact absurd (hfits _ hmem).2 (not_lt.2 hfull)
  · obtain rfl := hw.1 hwhole
    refine ⟨k + 1, hk, hf, ?_, ?_⟩
    · rw [ho, hs.outfile, take_succ_of_lt hlt, List.flatten_append, List.flatten_singleton]
    · rw [hst, hs.status, take_succ_of_lt hlt, report, report, List.foldl_append]
      rfl

/-- What is returned says whether one of the commands could not be executed. -/
theorem report_eq (outputs : List (List UInt8)) :
    report outputs = if ∃ o ∈ outputs, o.takeWhile (· != 0) = unable then -1 else 0 := by
  unfold report
  induction outputs using List.reverseRecOn with
  | nil => simp
  | append_singleton outputs o ih =>
    rw [List.foldl_append, List.foldl_cons, List.foldl_nil, ih]
    by_cases hsome : ∃ o ∈ outputs, o.takeWhile (· != 0) = unable
    · obtain ⟨o', hm, ho⟩ := hsome
      have hmore : ∃ x ∈ outputs ++ [o], x.takeWhile (· != 0) = unable := ⟨o', List.mem_append_left _ hm, ho⟩
      rw [if_pos ⟨o', hm, ho⟩, if_pos hmore]
      rfl
    · have hlast : (∃ x ∈ outputs ++ [o], x.takeWhile (· != 0) = unable) ↔ o.takeWhile (· != 0) = unable := by
        simp only [List.mem_append, List.mem_singleton, or_and_right, exists_or, exists_eq_left, or_iff_right hsome]
      rw [if_neg hsome]
      simp only [hlast]
      rfl

/-- As long as the parent has not returned somebody can go on. -/
theorem Kept.goes_on {k : ℕ} (h : Kept outputs s k) (hcap : buffSize ≤ capacity) (hfits : ∀ o ∈ outputs, Fits o)
    (hp : s.parent ≠ .returned) : ∃ e s', Step capacity outputs.length s e s' := by
  have hpos : 0 < capacity := lt_of_lt_of_le (by decide) hcap
  -- a command with something to write can write a byte where its pipe has room
  have hwrite : ∀ i < outputs.length, s.rest i ≠ [] → (s.pipe i).length + 1 ≤ capacity →
      ∃ e s', Step capacity outputs.length s e s' := by
    intro i hi hrest hroom
    have hlen := List.length_pos_iff.2 hrest
    exact ⟨.write i 1, _, if_pos ⟨hi, Nat.one_pos, hlen, hroom⟩⟩
  have hfit : ∀ i < outputs.length, Fits (outputs.getD i []) := by
    intro i hi
    rw [List.getD_eq_getElem _ _ hi]
    exact hfits _ (List.getElem_mem hi)
  have hthrough := h.through
  cases hs : s.parent with
  | waiting =>
    by_cases hnone : outputs.length = 0
    · exact ⟨.wait, _, if_pos ⟨hs, Or.inl hnone⟩⟩
    · have h0 : 0 < outputs.length := Nat.pos_of_ne_zero hnone
      rw [hs] at hthrough
      have hflow := congrArg List.length (h.flows 0 (Nat.le_of_eq hthrough))
      have hsmall := (hfit 0 h0).2
      rw [List.length_append] at hflow
      by_cases hrest : s.rest 0 = []
      · cases hexit : s.exited 0 with
        | false => exact ⟨.exit 0, _, if_pos ⟨h0, hrest, hexit⟩⟩
        | true =>
          refine ⟨.wait, _, if_pos ⟨hs, Or.inr ?_⟩⟩
          exact List.any_eq_true.2 ⟨0, List.mem_range.2 h0, hexit⟩
      · have hlen := List.length_pos_iff.2 hrest
        exact hwrite 0 h0 hrest (by omega)
  | reading i =>
    rw [hs] at hthrough
    obtain ⟨rfl, hlt⟩ : k = i ∧ i < outputs.length := hthrough
    by_cases hpipe : s.pipe k = []
    · -- nothing of this output has been read, so there is more to come
      have hflow := h.flows k le_rfl
      rw [hpipe, List.nil_append] at hflow
      refine hwrite k hlt (by rw [hflow]; exact (hfit k hlt).1) ?_
      rw [hpipe]
      exact hpos
    · have hlen := List.length_pos_iff.2 hpipe
      refine ⟨.read 1, ?_⟩
      simp only [Step, next, hs]
      exact ⟨_, if_pos ⟨by decide, hlen, fun hone => absurd hone Nat.one_ne_zero⟩⟩
  | returned => exact absurd hs hp
  | overrun =>
    rw [hs] at hthrough
    exact hthrough.elim

/-- A run that has collected everything was of whole reads, and of commands that fit. -/
theorem Collected.whole (hc : Collected outputs s) (h : Run (Step capacity outputs.length) (start outputs) es s) :
    (∀ o ∈ outputs, Fits o) ∧ Run (WholeStep capacity outputs.length) (start outputs) es s := by
  obtain ⟨hp, ho⟩ := hc
  rcases run_reached h with hover | ⟨k, hr⟩
  · rw [hp] at hover
    cases hover
  · have hthrough := hr.through
    rw [hp] at hthrough
    obtain rfl : k = outputs.length := hthrough
    obtain ⟨hrun, hfits⟩ := hr.whole (by rw [List.take_length, ho])
    rw [List.take_length] at hfits
    exact ⟨hfits, hrun⟩

/-- Where the parent has returned it has been through all pipes. -/
theorem Kept.all {k : ℕ} (h : Kept outputs s k) (hp : s.parent = .returned) :
    Collected outputs s ∧ s.status = report outputs := by
  have hthrough := h.through
  rw [hp] at hthrough
  obtain rfl : k = outputs.length := hthrough
  have hout := h.outfile
  have hstatus := h.status
  rw [List.take_length] at hout hstatus
  exact ⟨⟨hp, hout⟩, hstatus⟩

/-- For all commands, all they write and every way they are scheduled, the pipes are filled and read: every run ends,
and when nothing can go on any more the loop has ended with all outputs in the file, in order, exactly if every command
writes something, fewer bytes than `buff` has, and every read returned all that its command writes. What is returned
says then whether one of the commands could not be executed. -/
theorem run_collects_iff (hcap : buffSize ≤ capacity) (h : Run (Step capacity outputs.length) (start outputs) es s) :
    es.length ≤ outputs.flatten.length + 2 * outputs.length + 2 ∧
    ((∀ e, next capacity outputs.length s e = none) → (Collected outputs s ↔
      (∀ o ∈ outputs, Fits o) ∧ Run (WholeStep capacity outputs.length) (start outputs) es s)) ∧
    (Collected outputs s → s.status = if ∃ o ∈ outputs, o.takeWhile (· != 0) = unable then -1 else 0) := by
  refine ⟨?_, fun hend => ⟨fun hc => hc.whole h, ?_⟩, fun hc => ?_⟩
  · have hleft := run_left h
    rw [left_start] at hleft
    exact (Nat.le_add_right ..).trans hleft
  · rintro ⟨hfits, hrun⟩
    obtain ⟨k, hk⟩ := run_kept hfits hrun
    have hp : s.parent = .returned := by
      by_contra hp
      obtain ⟨e, s', hs⟩ := hk.goes_on hcap hfits hp
      rw [Step, hend e] at hs
      cases hs
    exact (hk.all hp).1
  · obtain ⟨hfits, hrun⟩ := hc.whole h
    obtain ⟨k, hk⟩ := run_kept hfits hrun
    rw [(hk.all hc.1).2, report_eq]

end Runs

/-! ## Schedules -/

/-- Let an event happen. -/
def carryOut (capacity ncmd : ℕ) (s : Collection) (e : Event) : Event × Collection :=
  (e, (next capacity ncmd s e).getD s)

theorem run_schedule {capacity ncmd : ℕ} {s : Collection} {es : List Event}
    (h : Scripted (carryOut capacity ncmd) (fun s e => (next capacity ncmd s e).isSome = true) s es) :
    Run (Step capacity ncmd) s (script (carryOut capacity ncmd) s es).1 (script (carryOut capacity ncmd) s es).2 := by
  refine Run.script _ _ (fun s e he => ?_) h
  obtain ⟨s', hs'⟩ := Option.isSome_iff_exists.1 he
  simp only [Step, carryOut, hs', Option.getD_some]

/-- The parent has returned and the children have exited. -/
theorem next_ended {capacity ncmd : ℕ} {s : Collection} (hp : s.parent = .returned)
    (hc : ∀ i < ncmd, s.rest i = [] ∧ s.exited i = true) (e : Event) : next capacity ncmd s e = none := by
  cases e with
  | write i n =>
    refine if_neg ?_
    rintro ⟨hi, hpos, hn, -⟩
    rw [(hc i hi).1, List.length_nil] at hn
    omega
  | exit i =>
    refine if_neg ?_
    rintro ⟨hi, -, hx⟩
    rw [(hc i hi).2] at hx
    cases hx
  | wait =>
    refine if_neg ?_
    rintro ⟨hw, -⟩
    rw [hp] at hw
    cases hw
  | read n => simp only [next, hp]

/-- Two commands write a line each, the second before the first. -/
def inTurn : List Event := [.write 1 2, .exit 1, .wait, .write 0 2, .exit 0, .read 2, .read 2]

theorem run_collects_iff_of_two :
    let es := (script (carryOut 65536 2) (start [[65, 10], [66, 10]]) inTurn).1
    let s := (script (carryOut 65536 2) (start [[65, 10], [66, 10]]) inTurn).2
    es.length ≤ [65, 10, 66, 10].length + 2 * 2 + 2 ∧
    (Collected [[65, 10], [66, 10]] s ↔ (∀ o ∈ [[65, 10], [66, 10]], Fits o) ∧
      Run (WholeStep 65536 2) (start [[65, 10], [66, 10]]) es s) ∧ s.status = 0 := by
  intro es s
  have h : Run (Step 65536 (List.length [[65, 10], [66, 10]])) (start [[65, 10], [66, 10]]) es s :=
    run_schedule (by decide)
  have hcap : buffSize ≤ 65536 := by decide
  obtain ⟨hlength, hiff, hstatus⟩ := @run_collects_iff 65536 [[65, 10], [66, 10]] es s hcap h
  have hc : Collected [[65, 10], [66, 10]] s := ⟨by decide, by decide⟩
  exact ⟨hlength, hiff (next_ended hc.1 (by decide)), hstatus hc⟩

/-- The first command writes its line in two pieces, and the parent reads in between. -/
theorem run_collects_not :
    let es := [.write 1 2, .exit 1, .wait, .write 0 1, .read 1, .write 0 1, .exit 0, .read 2]
    let s := (script (carryOut 65536 2) (start [[65, 10], [66, 10]]) es).2
    Run (Step 65536 2) (start [[65, 10], [66, 10]]) (script (carryOut 65536 2) (start [[65, 10], [66, 10]]) es).1 s ∧
      (∀ e, next 65536 2 s e = none) ∧ s.outfile = [65, 66, 10] ∧ ¬ Collected [[65, 10], [66, 10]] s :=
  ⟨run_schedule (by decide), next_ended (by decide) (by decide), by decide, fun h => absurd h.2 (by decide)⟩

end CS330.Shell
