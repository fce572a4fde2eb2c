/-
executeCommand.c: look for a command in the directories of `CS330_PATH` and run it. The two strings are taken apart
by `strtok`, which keeps its position from call to call; whether a program ran is read off the status that `wait`
leaves. `CS330_PATH` is set, and `fork` succeeds. A character is a byte.

`tok` is as long as the directory and its terminator, and the slash and `argv[0]` are put behind it all the same. How
many bytes there are behind an array of a given size before the next thing on the stack, `argv`, is the compiler's
affair, and a parameter; a text that does not even fit with them is nothing.
-/
import CS330.Lib.Strtok
import CS330.Lib.While

namespace CS330.Shell

open CS330.Lib

abbrev Text := List Char

/-- `strtok`: without a string it goes on where the call before has stopped. Returns that position, too. -/
def strtok (s : Option Text) (delim : Char) (cursor : Text) : Option Text × Text :=
  Lib.strtok delim (s.getD cursor)

/-! ## The words of the command -/

/-- What the loop over `arg` works on; the length of `argv` is `temp`. -/
structure Words where
  arg : Option Text
  cursor : Text
  argv : List Text

def wordsTest (r : Words) : Option Bool := some r.arg.isSome

/-- A turn, with `argv` of `size` cells. -/
def wordsTurn (size : ℕ) (r : Words) : Option Words := do
  let arg ← r.arg
  if r.argv.length < size then
    let next := strtok none ' ' r.cursor
    some ⟨next.1, next.2, r.argv ++ [arg]⟩
  else none

/-- `argv` up to the NULL at its end, and where `strtok` stands then. -/
def splitCommand (fuel : ℕ) (cmd cursor : Text) : Option (List Text × Text) := do
  let first := strtok (some cmd) ' ' cursor
  let r ← whileLoop wordsTest (wordsTurn (cmd.length + 1)) fuel ⟨first.1, first.2, []⟩
  if r.argv.length < cmd.length + 1 then some (r.argv, r.cursor) else none

/-! ## The child -/

/-- The exit status of the program behind a path, if `execv` can execute it. -/
abbrev Disk := Text → Option UInt8

/-- The status of a child that has exited, and of one that was killed by a segmentation fault. -/
def exited (code : UInt8) : ℕ := code.toNat * 256
def killed : ℕ := 11

def wexitstatus (status : ℕ) : ℕ := status / 256 % 256

/-- `strcat`: the text afterwards, where it fits into `room` bytes with its terminator. -/
def strcat (room : ℕ) (dst src : Text) : Option Text :=
  if dst.length + src.length < room then some (dst ++ src) else none

/-- The child's calls of `execv`, and the status it leaves. If `argv[0]` is NULL it does not get as far as that. -/
def child (disk : Disk) (argv : List Text) (room : ℕ) (tok : Text) : Option (List (Text × List Text) × ℕ) :=
  match argv with
  | [] => some ([], killed)
  | arg :: _ => do
    let tok ← strcat room tok arg
    match disk tok with
    | some code => some ([(tok, argv)], exited code)
    | none => some ([(tok, argv)], exited 255)

/-! ## The search -/

/-- What the loop over `token` works on, with the calls of `execv` so far and the value it has returned. -/
structure Search where
  token : Option Text
  cursor : Text
  execs : List (Text × List Text)
  ret : Option ℤ

def searchTest (r : Search) : Option Bool := some (r.token.isSome && r.ret.isNone)

/-- The bytes from the start of `tok` to the next thing on the stack, where `spare n` are left behind an array of
`n`. -/
def tokRoom (spare : ℕ → ℕ) (token : Text) : ℕ := token.length + 1 + spare (token.length + 1)

def searchTurn (disk : Disk) (spare : ℕ → ℕ) (argv : List Text) (r : Search) : Option Search := do
  let token ← r.token
  let tok ← strcat (tokRoom spare token) token ['/']
  let (execs, status) ← child disk argv (tokRoom spare token) tok
  if wexitstatus status = 0 then some { r with execs := r.execs ++ execs, ret := some (wexitstatus status) }
  else
    let next := strtok none ':' r.cursor
    some ⟨next.1, next.2, r.execs ++ execs, none⟩

/-- The calls of `execv` with path and arguments in order, what is printed, and what is returned. -/
structure Outcome where
  execs : List (Text × List Text)
  output : String
  ret : ℤ
deriving DecidableEq

/-- `executeCommand`, with the value of `CS330_PATH`. -/
def executeCommand (fuel : ℕ) (disk : Disk) (spare : ℕ → ℕ) (paths cmd : Text) : Option Outcome := do
  let first := strtok (some paths) ':' []
  let (argv, cursor) ← splitCommand fuel cmd first.2
  let r ← whileLoop searchTest (searchTurn disk spare argv) fuel ⟨first.1, cursor, [], none⟩
  match r.ret with
  | some ret => some ⟨r.execs, "", ret⟩
  | none => some ⟨r.execs, "UNABLE TO EXECUTE\n", -1⟩

/-! ## What it is for -/

/-- The directory, a slash and `argv[0]`. -/
def join (token arg : Text) : Text := token ++ '/' :: arg

/-- The program is looked for in one directory after the other, and run where it is found first. -/
def search (disk : Disk) (argv : List Text) : List Text → Outcome
  | [] => ⟨[], "UNABLE TO EXECUTE\n", -1⟩
  | dir :: dirs =>
    match argv with
    | [] => search disk [] dirs
    | arg :: _ =>
      match disk (join dir arg) with
      | some code => ⟨[(join dir arg, argv)], "", code.toNat⟩
      | none => { search disk argv dirs with execs := (join dir arg, argv) :: (search disk argv dirs).execs }

section Search

variable {disk : Disk} {arg dir : Text}

theorem search_found {code : UInt8} (h : disk (join dir arg) = some code) (args dirs : List Text) :
    search disk (arg :: args) (dir :: dirs) = ⟨[(join dir arg, arg :: args)], "", code.toNat⟩ := by
  simp only [search, h]

theorem search_next (h : disk (join dir arg) = none) (args dirs : List Text) :
    search disk (arg :: args) (dir :: dirs) = { search disk (arg :: args) dirs with
      execs := (join dir arg, arg :: args) :: (search disk (arg :: args) dirs).execs } := by
  simp only [search, h]

/-- How the search for a program comes out: it is run once, with all words and nothing printed, in the first directory
where it is; or it is in none of them. -/
inductive Comes (disk : Disk) (arg : Text) (args dirs : List Text) : Outcome → Prop
  | found (pre : List Text) (dir : Text) (post : List Text) (code : UInt8) : dirs = pre ++ dir :: post →
      (∀ d ∈ pre, disk (join d arg) = none) → disk (join dir arg) = some code →
      Comes disk arg args dirs ⟨(pre ++ [dir]).map fun d => (join d arg, arg :: args), "", code.toNat⟩
  | missing : (∀ d ∈ dirs, disk (join d arg) = none) →
      Comes disk arg args dirs ⟨dirs.map fun d => (join d arg, arg :: args), "UNABLE TO EXECUTE\n", -1⟩

theorem search_comes (disk : Disk) (arg : Text) (args dirs : List Text) :
    Comes disk arg args dirs (search disk (arg :: args) dirs) := by
  induction dirs with
  | nil => exact .missing fun d hd => absurd hd List.not_mem_nil
  | cons dir dirs ih =>
    cases hdir : disk (join dir arg) with
    | some code =>
      rw [search_found hdir]
      exact .found [] dir dirs code rfl (by simp) hdir
    | none =>
      rw [search_next hdir]
      generalize search disk (arg :: args) dirs = o at ih
      cases ih with
      | found pre d post code hdirs hpre hd =>
        exact .found (dir :: pre) d post code (by rw [hdirs, List.cons_append]) (List.forall_mem_cons.2 ⟨hdir, hpre⟩) hd
      | missing hall => exact .missing (List.forall_mem_cons.2 ⟨hdir, hall⟩)

/-- Where there is a directory there is a call. -/
theorem search_execs_ne_nil (disk : Disk) (arg dir : Text) (args dirs : List Text) :
    (search disk (arg :: args) (dir :: dirs)).execs ≠ [] := by
  cases hdir : disk (join dir arg) with
  | none => simp [search_next hdir]
  | some code => simp [search_found hdir]

/-- Without a word nothing is run. -/
theorem search_nil (disk : Disk) (dirs : List Text) : search disk [] dirs = ⟨[], "UNABLE TO EXECUTE\n", -1⟩ := by
  induction dirs with
  | nil => rfl
  | cons dir dirs ih => exact ih

end Search

/-! ## What it does -/

/-- The loop collects the words that are left, in bounds, and leaves `strtok` at the end of the command. -/
theorem whileLoop_words {size fuel : ℕ} {ts argv : List Text} {s : Text} (hs : fields ' ' s = ts)
    (hsize : argv.length + ts.length ≤ size) (hf : ts.length ≤ fuel) :
    whileLoop wordsTest (wordsTurn size) fuel ⟨(Lib.strtok ' ' s).1, (Lib.strtok ' ' s).2, argv⟩ =
      some ⟨none, [], argv ++ ts⟩ := by
  induction ts generalizing s argv fuel with
  | nil =>
    have hstop : wordsTest ⟨none, [], argv⟩ = some false := rfl
    rw [strtok_of_nil hs, List.append_nil]
    exact whileLoop_stop hstop fuel
  | cons t ts ih =>
    simp only [List.length_cons] at hsize hf
    obtain ⟨fuel, rfl⟩ : ∃ n, fuel = n + 1 := ⟨fuel - 1, by omega⟩
    obtain ⟨r, hr, hts⟩ := strtok_of_cons hs
    rw [hr]
    have htest : wordsTest ⟨some t, r, argv⟩ = some true := rfl
    have hturn : wordsTurn size ⟨some t, r, argv⟩ =
        some ⟨(Lib.strtok ' ' r).1, (Lib.strtok ' ' r).2, argv ++ [t]⟩ := by
      have hroom : argv.length < size := by omega
      simp only [wordsTurn, Option.bind_eq_bind, Option.bind_some, if_pos hroom]
      rfl
    have hcells : (argv ++ [t]).length + ts.length ≤ size := by
      rw [List.length_append, List.length_singleton]
      omega
    have hrest := ih hts hcells (show ts.length ≤ fuel by omega)
    rw [whileLoop_turn htest hturn, hrest, List.append_assoc, List.singleton_append]

theorem splitCommand_eq {fuel : ℕ} {cmd : Text} (hf : cmd.length ≤ fuel) (cursor : Text) :
    splitCommand fuel cmd cursor = some (fields ' ' cmd, []) := by
  have hlen := length_fields_le ' ' cmd
  have hcells : ([] : List Text).length + (fields ' ' cmd).length ≤ cmd.length + 1 := by
    rw [List.length_nil]
    omega
  have hloop := whileLoop_words rfl hcells (hlen.trans hf)
  have hroom : (fields ' ' cmd).length < cmd.length + 1 := Nat.lt_succ_of_le hlen
  simp only [splitCommand, strtok, Option.getD_some, hloop, Option.bind_eq_bind, Option.bind_some, List.nil_append,
    if_pos hroom]

theorem wexitstatus_exited (code : UInt8) : wexitstatus (exited code) = code.toNat := by
  have := code.toNat_lt
  unfold wexitstatus exited
  omega

theorem wexitstatus_killed : wexitstatus killed = 0 := rfl

/-- Without a directory there is nothing to try. -/
theorem executeCommand_nil {fuel : ℕ} {paths cmd : Text} (hf : cmd.length ≤ fuel) (h : fields ':' paths = [])
    (disk : Disk) (spare : ℕ → ℕ) :
    executeCommand fuel disk spare paths cmd = some ⟨[], "UNABLE TO EXECUTE\n", -1⟩ := by
  have hstop : searchTest ⟨none, [], [], none⟩ = some false := rfl
  simp only [executeCommand, splitCommand_eq hf, strtok, Option.getD_some, strtok_of_nil h, Option.bind_eq_bind,
    Option.bind_some, whileLoop_stop hstop]

/-- What becomes of a directory: the parent puts the slash behind it, and the child goes on. -/
def tried (disk : Disk) (spare : ℕ → ℕ) (argv : List Text) (dir : Text) : Option (List (Text × List Text) × ℕ) :=
  (strcat (tokRoom spare dir) dir ['/']).bind (child disk argv (tokRoom spare dir))

/-- Without a word the child is killed, if it is forked at all. -/
theorem tried_nil (disk : Disk) (spare : ℕ → ℕ) (dir : Text) :
    tried disk spare [] dir = none ∨ tried disk spare [] dir = some ([], killed) := by
  unfold tried
  cases strcat (tokRoom spare dir) dir ['/'] with
  | none => exact Or.inl rfl
  | some tok => exact Or.inr rfl

/-- The path fits if `argv[0]` and a terminator fit behind `tok`. -/
theorem tried_cons {spare : ℕ → ℕ} {arg dir : Text} (hroom : arg.length < spare (dir.length + 1)) (harg : arg ≠ [])
    (disk : Disk) (args : List Text) : tried disk spare (arg :: args) dir =
      some ([(join dir arg, arg :: args)], exited ((disk (join dir arg)).getD 255)) := by
  have hpos := List.length_pos_iff.2 harg
  have hslash : strcat (tokRoom spare dir) dir ['/'] = some (dir ++ ['/']) := by
    refine if_pos ?_
    unfold tokRoom
    rw [List.length_singleton]
    omega
  have hpath : strcat (tokRoom spare dir) (dir ++ ['/']) arg = some (join dir arg) := by
    have hjoin : dir ++ ['/'] ++ arg = join dir arg := List.append_cons dir '/' arg ▸ rfl
    rw [← hjoin]
    refine if_pos ?_
    unfold tokRoom
    rw [List.length_append, List.length_singleton]
    omega
  rw [tried, hslash, Option.bind_some]
  simp only [child, hpath, Option.bind_eq_bind, Option.bind_some]
  cases disk (join dir arg) with
  | none => rfl
  | some code => rfl

theorem tried_overrun {spare : ℕ → ℕ} {arg dir : Text} (hroom : ¬ arg.length < spare (dir.length + 1)) (disk : Disk)
    (args : List Text) : tried disk spare (arg :: args) dir = none := by
  unfold tried
  cases hslash : strcat (tokRoom spare dir) dir ['/'] with
  | none => rfl
  | some tok =>
    have htok : tok = dir ++ ['/'] := by
      unfold strcat at hslash
      split at hslash
      · exact (Option.some.inj hslash).symm
      · cases hslash
    have hpath : strcat (tokRoom spare dir) tok arg = none := by
      refine if_neg ?_
      unfold tokRoom
      rw [htok, List.length_append, List.length_singleton]
      omega
    simp only [Option.bind_some, child, hpath, Option.bind_eq_bind, Option.bind_none]

/-- Of the directories only the first is tried: by then the words of the command are what `strtok` has been through.
Everything but an exit status of 0 counts as a failure. -/
theorem executeCommand_cons {fuel : ℕ} {paths cmd dir : Text} {dirs : List Text} (hf : cmd.length ≤ fuel)
    (hpos : 0 < fuel) (h : fields ':' paths = dir :: dirs) (disk : Disk) (spare : ℕ → ℕ) :
    executeCommand fuel disk spare paths cmd = (tried disk spare (fields ' ' cmd) dir).map fun r =>
      if wexitstatus r.2 = 0 then ⟨r.1, "", 0⟩ else ⟨r.1, "UNABLE TO EXECUTE\n", -1⟩ := by
  obtain ⟨n, rfl⟩ : ∃ n, fuel = n + 1 := ⟨fuel - 1, by omega⟩
  obtain ⟨r, hr, -⟩ := strtok_of_cons h
  have htest : searchTest ⟨some dir, [], [], none⟩ = some true := rfl
  have hturn : searchTurn disk spare (fields ' ' cmd) ⟨some dir, [], [], none⟩ =
      (tried disk spare (fields ' ' cmd) dir).map fun r =>
        if wexitstatus r.2 = 0 then ⟨some dir, [], r.1, some (wexitstatus r.2)⟩ else ⟨none, [], r.1, none⟩ := by
    simp only [searchTurn, tried, Option.bind_eq_bind, Option.bind_some]
    cases strcat (tokRoom spare dir) dir ['/'] with
    | none => rfl
    | some tok =>
      simp only [Option.bind_some]
      cases child disk (fields ' ' cmd) (tokRoom spare dir) tok with
      | none => rfl
      | some r =>
        simp only [Option.bind_some, Option.map_some, List.nil_append]
        split <;> rfl
  simp only [executeCommand, splitCommand_eq hf, strtok, Option.getD_some, hr, Option.bind_eq_bind, Option.bind_some]
  cases htried : tried disk spare (fields ' ' cmd) dir with
  | none =>
    rw [htried, Option.map_none] at hturn
    rw [whileLoop_fault htest hturn]
    rfl
  | some r =>
    rw [htried, Option.map_some] at hturn
    rw [Option.map_some]
    by_cases hstatus : wexitstatus r.2 = 0
    · have hstop : searchTest ⟨some dir, [], r.1, some (wexitstatus r.2)⟩ = some false := rfl
      rw [if_pos hstatus] at hturn ⊢
      rw [whileLoop_turn htest hturn, whileLoop_stop hstop, hstatus]
      rfl
    · have hstop : searchTest ⟨none, [], r.1, none⟩ = some false := rfl
      rw [if_neg hstatus] at hturn ⊢
      rw [whileLoop_turn htest hturn, whileLoop_stop hstop]
      rfl

theorem ne_nil_of_mem_fields {delim : Char} {s t : Text} (h : t ∈ fields delim s) : t ≠ [] := by
  unfold fields at h
  simpa using (List.mem_filter.1 h).2

/-- For every `CS330_PATH`, command and disk the command is looked for in all directories, in order, and run once
with what it exits with returned, exactly if there is no directory, or if there is a word for which there is room
behind `tok`, and either the program in the first directory exits with 0, or the first directory is the only one and
the program is not there. That is how a search should come out. -/
theorem executeCommand_iff {fuel : ℕ} {paths cmd : Text} (hf : cmd.length < fuel) (disk : Disk) (spare : ℕ → ℕ) :
    (executeCommand fuel disk spare paths cmd = some (search disk (fields ' ' cmd) (fields ':' paths)) ↔
      fields ':' paths = [] ∨ ∃ dir dirs arg args, fields ':' paths = dir :: dirs ∧ fields ' ' cmd = arg :: args ∧
        arg.length < spare (dir.length + 1) ∧
        (disk (join dir arg) = some 0 ∨ dirs = [] ∧ disk (join dir arg) = none)) ∧
    (∀ arg args, fields ' ' cmd = arg :: args →
      Comes disk arg args (fields ':' paths) (search disk (fields ' ' cmd) (fields ':' paths))) ∧
    (fields ' ' cmd = [] → search disk (fields ' ' cmd) (fields ':' paths) = ⟨[], "UNABLE TO EXECUTE\n", -1⟩) := by
  refine ⟨?_, fun arg args hcmd => hcmd ▸ search_comes disk arg args _, fun hcmd => hcmd ▸ search_nil disk _⟩
  cases hpaths : fields ':' paths with
  | nil =>
    rw [executeCommand_nil hf.le hpaths]
    simp [search]
  | cons dir dirs =>
    rw [executeCommand_cons hf.le (Nat.zero_lt_of_lt hf) hpaths]
    cases hcmd : fields ' ' cmd with
    | nil =>
      rcases tried_nil disk spare dir with hnone | hkilled
      · simp [hnone]
      · simp [hkilled, wexitstatus_killed, search_nil]
    | cons arg args =>
      by_cases hroom : arg.length < spare (dir.length + 1)
      · have harg : arg ≠ [] := ne_nil_of_mem_fields (hcmd ▸ List.mem_cons_self .. : arg ∈ fields ' ' cmd)
        rw [tried_cons hroom harg, Option.map_some, wexitstatus_exited]
        cases hdisk : disk (join dir arg) with
        | none =>
          have hfailed : ¬ (255 : UInt8).toNat = 0 := by decide
          rw [Option.getD_none, if_neg hfailed, search_next hdisk]
          cases dirs with
          | nil => simp [search, hdisk, hroom]
          | cons d dirs =>
            -- the code has given up by now, and the search goes on in the next directory
            have hmore := search_execs_ne_nil disk arg d args dirs
            simp [hdisk, Ne.symm hmore]
        | some code =>
          have hzero : code.toNat = 0 ↔ code = 0 := UInt8.toNat_inj (b := 0)
          rw [Option.getD_some, search_found hdisk]
          -- a status other than 0 is taken for a failure
          by_cases hcode : code = 0
          · simp [hcode, hdisk, hroom]
          · have hne : ¬ code.toNat = 0 := mt hzero.1 hcode
            simp [hne, hdisk, hcode]
      · -- the path has overwritten `argv`
        rw [tried_overrun hroom, Option.map_none]
        simp [hroom]

/-- What gcc leaves behind an array of `n` bytes. -/
def gccSpare (n : ℕ) : ℕ := (16 - n % 16) % 16

/-- A program in the only directory, with two words of arguments and blanks around them. -/
theorem executeCommand_iff_of_only :
    let disk : Disk := fun p => if p = ['b', '/', 'l'] then some 0 else none
    let cmd : Text := [' ', 'l', ' ', ' ', 'x', ' ', 'y']
    (executeCommand 8 disk gccSpare [':', 'b'] cmd = some (search disk (fields ' ' cmd) (fields ':' [':', 'b'])) ↔
      fields ':' [':', 'b'] = [] ∨ ∃ dir dirs arg args, fields ':' [':', 'b'] = dir :: dirs ∧
        fields ' ' cmd = arg :: args ∧ arg.length < gccSpare (dir.length + 1) ∧
        (disk (join dir arg) = some 0 ∨ dirs = [] ∧ disk (join dir arg) = none)) ∧
    (∀ arg args, fields ' ' cmd = arg :: args →
      Comes disk arg args (fields ':' [':', 'b']) (search disk (fields ' ' cmd) (fields ':' [':', 'b']))) ∧
    (fields ' ' cmd = [] →
      search disk (fields ' ' cmd) (fields ':' [':', 'b']) = ⟨[], "UNABLE TO EXECUTE\n", -1⟩) :=
  executeCommand_iff (by decide) _ _

/-- A program in the second directory is not found; one that exits with 1 is run, and said to be unable to; an
empty command, which nobody can execute, succeeds; and a name of fourteen letters does not fit behind a directory of
one. -/
theorem second_directory_not_tried :
    let disk : Disk := fun p => if p = ['b', '/', 'l'] then some 0 else if p = ['a', '/', 'k'] then some 1 else none
    let paths : Text := ['a', ':', 'b']
    (executeCommand 8 disk gccSpare paths ['l'] = some ⟨[(['a', '/', 'l'], [['l']])], "UNABLE TO EXECUTE\n", -1⟩ ∧
      search disk (fields ' ' ['l']) (fields ':' paths) =
        ⟨[(['a', '/', 'l'], [['l']]), (['b', '/', 'l'], [['l']])], "", 0⟩) ∧
    (executeCommand 8 disk gccSpare paths ['k'] = some ⟨[(['a', '/', 'k'], [['k']])], "UNABLE TO EXECUTE\n", -1⟩ ∧
      search disk (fields ' ' ['k']) (fields ':' paths) = ⟨[(['a', '/', 'k'], [['k']])], "", 1⟩) ∧
    (executeCommand 8 disk gccSpare paths [] = some ⟨[], "", 0⟩ ∧
      search disk (fields ' ' []) (fields ':' paths) = ⟨[], "UNABLE TO EXECUTE\n", -1⟩) ∧
    executeCommand 15 disk gccSpare ['a'] (List.replicate 14 'k') = none := by
  decide

end CS330.Shell
