/-
executeInParallel.c: what the input file says. The file is read into a buffer on the stack, of which `read` leaves the
rest as it was; `strtok` takes the lines out of the buffer, each is copied, and `strtok` takes the words out of the
copy. The pointers to the words stay pointers into the copy.

The file is read at once. An index that is not in its array, or a string without an end in its buffer, is nothing.
-/
import CS330.Lib.Tokens
import CS330.Lib.While

namespace CS330.Shell

open CS330.Lib

def cmSz : ℕ := 50
def mxBfSz : ℕ := 2049

def newline : UInt8 := 10
def blank : UInt8 := 32

/-! ## The lines -/

/-- `str` once the file has been read into it. -/
def readStr (file : List UInt8) (str : ℕ → UInt8) : ℕ → UInt8 :=
  copyIn str 0 (min file.length mxBfSz) fun i => file.getD i 0

/-- What the loop over `temp_cmd` works on; the length of `cmds` is `ncmd`. -/
structure Scanned where
  tempCmd : Option ℕ
  cursor : ℕ
  str : ℕ → UInt8
  cmds : List (List UInt8)

def cmdsTest (r : Scanned) : Option Bool := some r.tempCmd.isSome

def cmdsTurn (r : Scanned) : Option Scanned := do
  let tempCmd ← r.tempCmd
  let cmd ← textAt r.str mxBfSz tempCmd
  if r.cmds.length < cmSz then
    let next ← strtokAt newline mxBfSz r.str r.cursor
    some ⟨next.1, next.2.1, next.2.2, r.cmds ++ [cmd]⟩
  else none

/-- `cmds`, up to `ncmd`. -/
def scanCmds (fuel : ℕ) (str : ℕ → UInt8) : Option (List (List UInt8)) := do
  let first ← strtokAt newline mxBfSz str 0
  let r ← whileLoop cmdsTest cmdsTurn fuel ⟨first.1, first.2.1, first.2.2, []⟩
  some r.cmds

/-! ## The words of a line -/

/-- What the loop over `arg` works on; the length of `argv` is `narg`. -/
structure Args where
  arg : Option ℕ
  cursor : ℕ
  cmd : ℕ → UInt8
  argv : List ℕ

def argsTest (r : Args) : Option Bool := some r.arg.isSome

/-- A turn, with `argv` and the copy of the line of `size` cells. -/
def argsTurn (size : ℕ) (r : Args) : Option Args := do
  let arg ← r.arg
  if r.argv.length < size then
    let next ← strtokAt blank size r.cmd r.cursor
    some ⟨next.1, next.2.1, next.2.2, r.argv ++ [arg]⟩
  else none

/-- What `execv` finds at the pointers in `argv`, up to the NULL at its end. -/
def splitArgs (fuel : ℕ) (cmd : List UInt8) : Option (List (List UInt8)) := do
  let size := cmd.length + 1
  let first ← strtokAt blank size (storeStr (fun _ => 0) 0 cmd) 0
  let r ← whileLoop argsTest (argsTurn size) fuel ⟨first.1, first.2.1, first.2.2, []⟩
  if r.argv.length < size then r.argv.mapM fun arg => textAt r.cmd size arg else none

/-- `cmds` and the `argv` of each, with what was on the stack where `str` is. -/
def commands (fuel : ℕ) (file : List UInt8) (str : ℕ → UInt8) :
    Option (List (List UInt8) × List (List (List UInt8))) := do
  let cmds ← scanCmds fuel (readStr file str)
  let argvs ← cmds.mapM (splitArgs fuel)
  some (cmds, argvs)

/-! ## What a line is -/

def lines (file : List UInt8) : List (List UInt8) := fields newline file

def words (line : List UInt8) : List (List UInt8) := fields blank line

theorem newline_ne_zero : newline ≠ 0 := by decide

theorem blank_ne_zero : blank ≠ 0 := by decide

section Parse

variable {fuel size a : ℕ} {m str : ℕ → UInt8} {s file : List UInt8}

/-! ## Collecting the lines -/

/-- The loop collects the lines that are left, if there is room for them. -/
theorem whileLoop_cmds {ts : List (List UInt8)} (cmds : List (List UInt8)) (h : Text m mxBfSz a s)
    (hts : fields newline s = ts)
    (hroom : cmds.length ≤ cmSz) (hf : ts.length ≤ fuel) : ∃ first, strtokAt newline mxBfSz m a = some first ∧
      (whileLoop cmdsTest cmdsTurn fuel ⟨first.1, first.2.1, first.2.2, cmds⟩).map Scanned.cmds =
        if cmds.length + ts.length ≤ cmSz then some (cmds ++ ts) else none := by
  induction ts generalizing m a s cmds fuel with
  | nil =>
    have hstop : cmdsTest ⟨none, a + s.length, m, cmds⟩ = some false := rfl
    refine ⟨_, strtokAt_none newline_ne_zero h hts, ?_⟩
    rw [whileLoop_stop hstop, Option.map_some, List.append_nil, List.length_nil, Nat.add_zero, if_pos hroom]
  | cons t ts ih =>
    obtain ⟨p, b, m', r, he, -, -, ht, hr, hrest, -⟩ := strtokAt_some newline_ne_zero h hts
    refine ⟨_, he, ?_⟩
    obtain ⟨fuel, rfl⟩ : ∃ n, fuel = n + 1 := ⟨fuel - 1, by rw [List.length_cons] at hf; omega⟩
    have htest : cmdsTest ⟨some p, b, m', cmds⟩ = some true := rfl
    rw [List.length_cons] at hf ⊢
    by_cases hlt : cmds.length < cmSz
    · have hlen : (cmds ++ [t]).length = cmds.length + 1 := List.length_append
      obtain ⟨next, hnext, hloop⟩ := ih (cmds ++ [t]) hr hrest (by omega) (show ts.length ≤ fuel by omega)
      have hturn : cmdsTurn ⟨some p, b, m', cmds⟩ = some ⟨next.1, next.2.1, next.2.2, cmds ++ [t]⟩ := by
        simp only [cmdsTurn, ht.textAt, hnext, Option.bind_eq_bind, Option.bind_some, if_pos hlt]
      rw [whileLoop_turn htest hturn, hloop, hlen, List.append_assoc, List.singleton_append, Nat.add_assoc,
        Nat.add_comm 1]
    · -- there is no cell for the line
      have hturn : cmdsTurn ⟨some p, b, m', cmds⟩ = none := by
        simp only [cmdsTurn, ht.textAt, Option.bind_eq_bind, Option.bind_some, if_neg hlt]
      rw [whileLoop_fault htest hturn, if_neg (by omega), Option.map_none]

/-- With a string in the buffer the lines are those of the string. -/
theorem scanCmds_eq (h : Text m mxBfSz 0 s) (hf : mxBfSz ≤ fuel) :
    scanCmds fuel m = if (lines s).length ≤ cmSz then some (lines s) else none := by
  have hlen := length_fields_le newline s
  have hfits := h.fits
  obtain ⟨first, he, hloop⟩ := whileLoop_cmds [] h rfl (Nat.zero_le _) (show (fields newline s).length ≤ fuel by omega)
  simp only [List.length_nil, Nat.zero_add, List.nil_append, Option.map_eq_bind] at hloop
  simp only [scanCmds, he, Option.bind_eq_bind, Option.bind_some]
  exact hloop

/-- Without a zero in the buffer `strtok` runs out of it. -/
theorem scanCmds_endless (h : ∀ x < mxBfSz, m x ≠ 0) : scanCmds fuel m = none := by
  unfold scanCmds
  cases hfirst : strtokAt newline mxBfSz m 0 with
  | none => rfl
  | some first =>
    obtain ⟨hsome, hzero⟩ := strtokAt_endless (fun x _ hx => h x hx) hfirst
    have hloop : whileLoop cmdsTest cmdsTurn fuel ⟨first.1, first.2.1, first.2.2, []⟩ = none := by
      refine whileLoop_never (fun r => r.tempCmd.isSome = true ∧ ∀ x, r.cursor ≤ x → x < mxBfSz → r.str x ≠ 0)
        (fun r hr => by simp [cmdsTest, hr.1]) ?_ ⟨hsome, hzero⟩
      rintro r r' ⟨-, hr⟩ hturn
      obtain ⟨p, -, hturn⟩ := Option.bind_eq_some_iff.1 hturn
      obtain ⟨cmd, -, hturn⟩ := Option.bind_eq_some_iff.1 hturn
      split at hturn
      · obtain ⟨next, hnext, hturn⟩ := Option.bind_eq_some_iff.1 hturn
        obtain rfl := Option.some.inj hturn
        exact strtokAt_endless hr hnext
      · cases hturn
    simp only [Option.bind_eq_bind, Option.bind_some, hloop, Option.bind_none]

/-! ## Collecting the words -/

/-- The pointers are to these strings, and all of them end before a position. -/
def Points (m : ℕ → UInt8) (size a : ℕ) (argv : List ℕ) (ws : List (List UInt8)) : Prop :=
  List.Forall₂ (fun p w => Text m size p w ∧ p + w.length ≤ a) argv ws

/-- A call of `strtok` leaves what is behind it as it is. -/
theorem Points.keep {argv : List ℕ} {ws : List (List UInt8)} {b : ℕ} {m' : ℕ → UInt8} (h : Points m size a argv ws)
    (hab : a ≤ b) (hsame : ∀ x, x < a ∨ m x = 0 → m' x = m x) : Points m' size b argv ws := by
  refine List.Forall₂.imp (fun p w hp => ?_) h
  obtain ⟨ht, hle⟩ := hp
  refine ⟨⟨⟨fun j hj => ?_, ?_⟩, ht.zero, ht.fits⟩, hle.trans hab⟩
  · rw [hsame (p + j) (Or.inl (by omega))]
    exact ht.cstr.bytes j hj
  · rw [hsame _ (Or.inr ht.cstr.ended)]
    exact ht.cstr.ended

theorem Points.mapM {argv : List ℕ} {ws : List (List UInt8)} (h : Points m size a argv ws) :
    argv.mapM (fun arg => textAt m size arg) = some ws := by
  induction h with
  | nil => rfl
  | cons hp _ ih => simp only [List.mapM_cons, hp.1.textAt, ih, Option.bind_eq_bind, Option.bind_some, Option.pure_def]

/-- The loop collects pointers to the words that are left, in bounds. -/
theorem whileLoop_args {ts : List (List UInt8)} {argv : List ℕ} {ws : List (List UInt8)} (h : Text m size a s)
    (hts : fields blank s = ts) (hargv : Points m size a argv ws) (hroom : argv.length + ts.length ≤ size)
    (hf : ts.length ≤ fuel) : ∃ first r b, strtokAt blank size m a = some first ∧
      whileLoop argsTest (argsTurn size) fuel ⟨first.1, first.2.1, first.2.2, argv⟩ = some r ∧
      Points r.cmd size b r.argv (ws ++ ts) := by
  induction ts generalizing m a s argv ws fuel with
  | nil =>
    have hstop : argsTest ⟨none, a + s.length, m, argv⟩ = some false := rfl
    refine ⟨_, _, a, strtokAt_none blank_ne_zero h hts, whileLoop_stop hstop fuel, ?_⟩
    rw [List.append_nil]
    exact hargv
  | cons t ts ih =>
    obtain ⟨p, b, m', r, he, hap, hpb, ht, hr, hrest, hsame⟩ := strtokAt_some blank_ne_zero h hts
    obtain ⟨fuel, rfl⟩ : ∃ n, fuel = n + 1 := ⟨fuel - 1, by rw [List.length_cons] at hf; omega⟩
    have htest : argsTest ⟨some p, b, m', argv⟩ = some true := rfl
    rw [List.length_cons] at hf hroom
    have hmore : Points m' size b (argv ++ [p]) (ws ++ [t]) :=
      List.rel_append (hargv.keep (by omega) hsame) (.cons ⟨ht, hpb⟩ .nil)
    have hlen : (argv ++ [p]).length = argv.length + 1 := List.length_append
    obtain ⟨next, r', c, hnext, hloop, hpoints⟩ := ih hr hrest hmore (by omega) (show ts.length ≤ fuel by omega)
    have hlt : argv.length < size := by omega
    have hturn : argsTurn size ⟨some p, b, m', argv⟩ = some ⟨next.1, next.2.1, next.2.2, argv ++ [p]⟩ := by
      simp only [argsTurn, hnext, Option.bind_eq_bind, Option.bind_some, if_pos hlt]
    refine ⟨_, r', c, he, by rw [whileLoop_turn htest hturn, hloop], ?_⟩
    rwa [List.append_assoc, List.singleton_append] at hpoints

theorem splitArgs_eq {cmd : List UInt8} (hzero : (0 : UInt8) ∉ cmd) (hf : cmd.length ≤ fuel) :
    splitArgs fuel cmd = some (words cmd) := by
  have hlen := length_fields_le blank cmd
  have htext : Text (storeStr (fun _ => 0) 0 cmd) (cmd.length + 1) 0 cmd :=
    ⟨cstr_storeStr _ 0 cmd, hzero, by omega⟩
  have hnone : Points (storeStr (fun _ => 0) 0 cmd) (cmd.length + 1) 0 [] [] := .nil
  obtain ⟨first, r, b, he, hloop, hpoints⟩ := whileLoop_args htext rfl hnone
    (show 0 + (fields blank cmd).length ≤ cmd.length + 1 by omega) (hlen.trans hf)
  have hroom : r.argv.length < cmd.length + 1 := by
    rw [hpoints.length_eq, List.nil_append]
    omega
  simp only [splitArgs, he, hloop, Option.bind_eq_bind, Option.bind_some, if_pos hroom]
  exact hpoints.mapM

/-! ## The file -/

theorem readStr_of_lt {j : ℕ} (h : j < file.length) (hfile : file.length ≤ mxBfSz) (str : ℕ → UInt8) :
    readStr file str j = file.getD j 0 := by
  unfold readStr
  rw [copyIn_apply, if_pos (by omega), Nat.sub_zero]

theorem readStr_of_le {j : ℕ} (h : file.length ≤ j) (str : ℕ → UInt8) : readStr file str j = str j := by
  unfold readStr
  rw [copyIn_apply, if_neg (by omega)]

/-- All that follows the lines follows from the string in the buffer. -/
theorem commands_eq (h : Text (readStr file str) mxBfSz 0 s) (hf : mxBfSz ≤ fuel) : commands fuel file str =
    if (lines s).length ≤ cmSz then some (lines s, (lines s).map words) else none := by
  have hfits := h.fits
  simp only [commands, scanCmds_eq h hf, Option.bind_eq_bind]
  split
  · have hargs : (lines s).mapM (splitArgs fuel) = some ((lines s).map words) := by
      have hone : ∀ cmd ∈ lines s, splitArgs fuel cmd = some (words cmd) := fun cmd hcmd =>
        splitArgs_eq (fun hz => h.zero (mem_of_mem_fields hcmd hz))
          ((length_le_of_mem_fields hcmd).trans (by omega))
      generalize lines s = cmds at hone
      induction cmds with
      | nil => rfl
      | cons cmd cmds ih =>
        rw [List.forall_mem_cons] at hone
        simp only [List.mapM_cons, hone.1, ih hone.2, Option.bind_eq_bind, Option.bind_some, Option.pure_def,
          List.map_cons]
    simp only [Option.bind_some, hargs]
  · rfl

/-- The string in the buffer goes up to the first zero. -/
theorem text_of_zero {m : ℕ → UInt8} {z : ℕ} (hz : z < size) (hzero : m z = 0) (hfirst : ∀ j < z, m j ≠ 0) :
    Text m size 0 (slice m z) := by
  refine ⟨⟨fun j hj => ?_, ?_⟩, fun hm => ?_, by simpa using hz⟩
  · rw [Nat.zero_add, List.getD_eq_getElem _ _ hj, getElem_slice]
  · simpa using hzero
  · obtain ⟨j, hj, he⟩ := mem_slice.1 hm
    exact hfirst j hj he

theorem slice_readStr_of_le {z : ℕ} (h : z ≤ file.length) (hfile : file.length ≤ mxBfSz) (str : ℕ → UInt8) :
    slice (readStr file str) z = file.take z := by
  apply List.ext_getElem
  · simp only [length_slice, List.length_take]
    omega
  · intro j h1 h2
    rw [length_slice] at h1
    rw [getElem_slice, readStr_of_lt (by omega) hfile, List.getElem_take, List.getD_eq_getElem _ _ (by omega)]

theorem slice_readStr_of_ge {z : ℕ} (h : file.length ≤ z) (hfile : file.length ≤ mxBfSz) (str : ℕ → UInt8) :
    slice (readStr file str) z = file ++ region str file.length (z - file.length) := by
  apply List.ext_getElem
  · simp only [length_slice, List.length_append, length_region]
    omega
  · intro j h1 h2
    rw [getElem_slice, List.getElem_append]
    split
    · rename_i hj
      rw [readStr_of_lt hj hfile, List.getD_eq_getElem _ _ hj]
    · rename_i hj
      simp only [region, getElem_slice]
      rw [readStr_of_le (not_lt.1 hj), Nat.add_sub_cancel' (not_lt.1 hj)]

/-- The string in the buffer has the lines of the file only if it is the file with nothing but line ends behind it. -/
theorem tail_of_lines {z : ℕ} (hfile : file.length ≤ mxBfSz) (hzero : readStr file str z = 0)
    (hfirst : ∀ j < z, readStr file str j ≠ 0) (h : lines (slice (readStr file str) z) = lines file) :
    (0 : UInt8) ∉ file ∧ file.length ≤ z ∧ str z = 0 ∧ ∀ j, file.length ≤ j → j < z → str j = newline := by
  -- the same lines, so the same bytes but for line ends
  have hsame := congrArg List.flatten h
  unfold lines at hsame
  rw [flatten_fields, flatten_fields] at hsame
  have hle : file.length ≤ z := by
    by_contra hlt
    rw [not_le] at hlt
    have hmem : (0 : UInt8) ∈ file.drop z := by
      rw [readStr_of_lt hlt hfile, List.getD_eq_getElem _ _ hlt] at hzero
      rw [List.drop_eq_getElem_cons hlt, hzero]
      exact List.mem_cons_self
    have hsplit := congrArg (List.filter (· != newline)) (List.take_append_drop z file)
    rw [List.filter_append, ← slice_readStr_of_le hlt.le hfile str, hsame, List.append_right_eq_self] at hsplit
    exact absurd hsplit (List.ne_nil_of_mem (List.mem_filter.2 ⟨hmem, by decide⟩))
  rw [slice_readStr_of_ge hle hfile, List.filter_append, List.append_right_eq_self, List.filter_eq_nil_iff] at hsame
  refine ⟨fun hm => ?_, hle, by rwa [readStr_of_le hle] at hzero, fun j hj hjz => ?_⟩
  · obtain ⟨j, hj, he⟩ := List.getElem_of_mem hm
    refine hfirst j (by omega) ?_
    rw [readStr_of_lt hj hfile, List.getD_eq_getElem _ _ hj, he]
  · have hjmem : str j ∈ region str file.length (z - file.length) :=
      mem_slice.2 ⟨j - file.length, by omega, by rw [Nat.add_sub_cancel' hj]⟩
    simpa using hsame _ hjmem

theorem text_readStr {z : ℕ} (hfile : file.length ≤ mxBfSz) (hfree : (0 : UInt8) ∉ file) (hle : file.length ≤ z)
    (hz : z < mxBfSz) (hzero : str z = 0) (htail : ∀ j, file.length ≤ j → j < z → str j = newline) :
    Text (readStr file str) mxBfSz 0 (file ++ List.replicate (z - file.length) newline) := by
  have hall : region str file.length (z - file.length) = List.replicate (z - file.length) newline := by
    rw [List.eq_replicate_iff]
    refine ⟨length_region .., fun c hc => ?_⟩
    obtain ⟨j, hj, rfl⟩ := mem_slice.1 hc
    exact htail _ (by omega) (by omega)
  rw [← hall, ← slice_readStr_of_ge hle hfile]
  refine text_of_zero hz (by rw [readStr_of_le hle, hzero]) fun j hj => ?_
  by_cases hjf : j < file.length
  · rw [readStr_of_lt hjf hfile, List.getD_eq_getElem _ _ hjf]
    exact fun he => hfree (he ▸ List.getElem_mem hjf)
  · rw [readStr_of_le (not_lt.1 hjf), htail j (not_lt.1 hjf) hj]
    exact newline_ne_zero

/-- The commands are the lines, for a content of the buffer. -/
theorem commands_lines_iff (hf : mxBfSz ≤ fuel) (hfile : file.length ≤ 2048) (hlines : (lines file).length ≤ cmSz)
    (str : ℕ → UInt8) : commands fuel file str = some (lines file, (lines file).map words) ↔
      (0 : UInt8) ∉ file ∧ ∃ z, file.length ≤ z ∧ z < mxBfSz ∧ str z = 0 ∧
        ∀ j, file.length ≤ j → j < z → str j = newline := by
  have hsize : file.length ≤ mxBfSz := hfile.trans (Nat.le_succ _)
  constructor
  · intro h
    by_cases hz : ∃ z, z < mxBfSz ∧ readStr file str z = 0
    · obtain ⟨hzlt, hzero⟩ := Nat.find_spec hz
      have hfirst : ∀ j < Nat.find hz, readStr file str j ≠ 0 := fun j hj he =>
        Nat.find_min hz hj ⟨hj.trans hzlt, he⟩
      rw [commands_eq (text_of_zero hzlt hzero hfirst) hf] at h
      split at h
      · have hsame := (Prod.mk.inj (Option.some.inj h)).1
        obtain ⟨hfree, hle, hstr, htail⟩ := tail_of_lines hsize hzero hfirst hsame
        exact ⟨hfree, Nat.find hz, hle, hzlt, hstr, htail⟩
      · cases h
    · push Not at hz
      simp only [commands, scanCmds_endless hz, Option.bind_eq_bind, Option.bind_none] at h
      cases h
  · rintro ⟨hfree, z, hle, hz, hzero, htail⟩
    have hsame : lines (file ++ List.replicate (z - file.length) newline) = lines file := fields_append_replicate ..
    rw [commands_eq (text_readStr hsize hfree hle hz hzero htail) hf, hsame, if_pos hlines]

/-- For every file that is not too long: for every content of the buffer the commands are the lines of the file that
are not empty, each with its words, exactly if there is no zero in the file, and behind it in the buffer there are
only line ends up to a zero; and there always is a content of the buffer for which they are not. -/
theorem commands_iff (hf : mxBfSz ≤ fuel) (hfile : file.length ≤ 2048) (hlines : (lines file).length ≤ cmSz) :
    (∀ str, commands fuel file str = some (lines file, (lines file).map words) ↔
      (0 : UInt8) ∉ file ∧ ∃ z, file.length ≤ z ∧ z < mxBfSz ∧ str z = 0 ∧
        ∀ j, file.length ≤ j → j < z → str j = newline) ∧
    ∃ str, commands fuel file str ≠ some (lines file, (lines file).map words) := by
  refine ⟨commands_lines_iff hf hfile hlines, fun _ => 120, fun h => ?_⟩
  obtain ⟨-, z, -, -, hzero, -⟩ := (commands_lines_iff hf hfile hlines _).1 h
  exact absurd hzero (by decide)

/-- A file without an end of line: a command with two words between blanks. -/
theorem commands_iff_of_ls :
    (∀ str, commands 2049 [10, 108, 115, 32, 32, 97] str =
        some (lines [10, 108, 115, 32, 32, 97], (lines [10, 108, 115, 32, 32, 97]).map words) ↔
      (0 : UInt8) ∉ [10, 108, 115, 32, 32, 97] ∧ ∃ z, 6 ≤ z ∧ z < mxBfSz ∧ str z = 0 ∧
        ∀ j, 6 ≤ j → j < z → str j = newline) ∧
    ∃ str, commands 2049 [10, 108, 115, 32, 32, 97] str ≠
      some (lines [10, 108, 115, 32, 32, 97], (lines [10, 108, 115, 32, 32, 97]).map words) :=
  commands_iff le_rfl (by decide) (by decide)

/-- The same two letters of a file, and what was on the stack behind them. -/
theorem commands_stale :
    let str : ℕ → UInt8 := fun j => if j < 4 then 120 else 0
    commands 2049 [108, 115] str = some ([[108, 115, 120, 120]], [[[108, 115, 120, 120]]]) ∧
      commands 2049 [108, 115] str ≠ some (lines [108, 115], (lines [108, 115]).map words) ∧
      commands 2049 [108, 115] str ≠ commands 2049 [108, 115] fun _ => 0 := by
  decide +kernel

end Parse

end CS330.Shell
