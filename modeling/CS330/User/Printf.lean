/-
lib.c: `vuprintf` and `printf`. The format is gone through byte by byte, and what its bytes and conversions stand for
is put into a buffer, whose size `vuprintf` is not told.

A read behind the zero of the format is nothing, as is a conversion that takes an argument of another type than the
next one has. `write` writes all of it.
-/
import CS330.User.Numbers
import Mathlib.Data.List.GetD

namespace CS330.User

open CS330.Lib

/-! ## Strings and arguments -/

/-- The bytes of a string before its zero. -/
structure CString where
  bytes : List UInt8
  ended : (0 : UInt8) ∉ bytes

def IsInt (v : ℤ) : Prop := -2 ^ 31 ≤ v ∧ v < 2 ^ 31

def IsLong (v : ℤ) : Prop := -2 ^ 63 ≤ v ∧ v < 2 ^ 63

instance (v : ℤ) : Decidable (IsInt v) := inferInstanceAs (Decidable (_ ∧ _))

instance (v : ℤ) : Decidable (IsLong v) := inferInstanceAs (Decidable (_ ∧ _))

/-- What is passed behind the format; a string may be a null pointer. -/
inductive Arg
  | int (v : ℤ) (range : IsInt v)
  | long (v : ℤ) (range : IsLong v)
  | str (s : Option CString)

/-- `format[count]`; behind 2^31 - 1 `count` is negative. -/
def fetch (format : CString) (count : ℕ) : Option UInt8 :=
  if count < 2 ^ 31 ∧ count ≤ format.bytes.length then some (format.bytes.getD count 0) else none

/-! ## The loop -/

/-- `case 's'`. -/
def putStr (size : ℕ) (s : Option CString) (out : List UInt8) : Option (List UInt8) :=
  match s with
  | none => some out
  | some s => s.bytes.foldlM (store size) out

/-- The `switch`, with `va_arg`: the buffer, and the arguments that are left. -/
def convert (size : ℕ) (ch : UInt8) (out : List UInt8) (args : List Arg) : Option (List UInt8 × List Arg) :=
  if ch = 99 then
    match args with
    | .int v _ :: args => (store size out (byte v)).map (·, args)
    | _ => none
  else if ch = 100 ∨ ch = 117 then
    match args with
    | .int v _ :: args => (putInt size v out).map (·, args)
    | _ => none
  else if ch = 120 then
    match args with
    | .long v _ :: args => (putLong size v out).map (·, args)
    | _ => none
  else if ch = 115 then
    match args with
    | .str s :: args => (putStr size s out).map (·, args)
    | _ => none
  else (store size out ch).map (·, args)

/-- What the loop works on. -/
structure Printing where
  count : ℕ
  out : List UInt8
  args : List Arg

def formatTest (format : CString) (s : Printing) : Option Bool := (fetch format s.count).map (· != 0)

def formatTurn (size : ℕ) (format : CString) (s : Printing) : Option Printing := do
  let ch ← fetch format s.count
  if ch ≠ 37 then
    let out ← store size s.out ch
    some ⟨s.count + 1, out, s.args⟩
  else
    let ch ← fetch format (s.count + 1)
    let (out, args) ← convert size ch s.out s.args
    some ⟨s.count + 2, out, args⟩

/-- What is in the buffer in the end, as many bytes as are returned. -/
def vuprintf (fuel size : ℕ) (format : CString) (args : List Arg) : Option (List UInt8) :=
  (whileLoop (formatTest format) (formatTurn size format) fuel ⟨0, [], args⟩).map Printing.out

/-- `printf`: the number that is returned, and what is written. -/
def printf (fuel : ℕ) (format : CString) (args : List Arg) : Option (ℕ × List UInt8) := do
  let out ← vuprintf fuel 4096 format args
  some (out.length, out)

/-! ## What a format stands for -/

/-- The text of a conversion, and the arguments behind its own. -/
def conversion (ch : UInt8) (args : List Arg) : Option (List UInt8 × List Arg) :=
  if ch = 99 then
    match args with
    | .int v _ :: args => some ([byte v], args)
    | _ => none
  else if ch = 100 ∨ ch = 117 then
    match args with
    | .int v _ :: args => some (intText v, args)
    | _ => none
  else if ch = 120 then
    match args with
    | .long v _ :: args => some (longText v, args)
    | _ => none
  else if ch = 115 then
    match args with
    | .str s :: args => some ((s.map CString.bytes).getD [], args)
    | _ => none
  else some ([ch], args)

/-- The pieces of the output, if the format is complete and the arguments fit. -/
def pieces : List UInt8 → List Arg → Option (List (List UInt8))
  | [], _ => some []
  | c :: f, args =>
    if c ≠ 37 then (pieces f args).map ([c] :: ·)
    else
      match f with
      | [] => none
      | ch :: f => (conversion ch args).bind fun p => (pieces f p.2).map (p.1 :: ·)

/-- The format ends where the character of a conversion should be. -/
def unfinished : List UInt8 → Bool
  | [] => false
  | c :: f =>
    if c ≠ 37 then unfinished f
    else
      match f with
      | [] => true
      | _ :: f => unfinished f

/-- Each conversion has an argument of its type, and there are no more. -/
def Matching : List UInt8 → List Arg → Prop
  | [], args => args = []
  | c :: f, args =>
    if c ≠ 37 then Matching f args
    else
      match f with
      | [] => args = []
      | ch :: f => ∃ p, conversion ch args = some p ∧ Matching f p.2

/-- How many characters the pieces have together. -/
def total (format : CString) (args : List Arg) : ℕ :=
  (((pieces format.bytes args).getD []).map List.length).sum

section Printf

variable {fuel size : ℕ} {format : CString} {args : List Arg} {s : Printing}

/-! ## One conversion -/

theorem convert_eq (ch : UInt8) {out : List UInt8} (hout : out.length ≤ size) (args : List Arg) :
    convert size ch out args = (conversion ch args).bind fun p => (emit size out p.1).map (·, p.2) := by
  unfold convert conversion
  split
  · -- `c`
    rcases args with _ | ⟨⟨v, _⟩ | ⟨v, _⟩ | s, args⟩ <;> rfl
  · split
    · -- `d` and `u`
      rcases args with _ | ⟨⟨v, hv⟩ | ⟨v, _⟩ | s, args⟩
      · rfl
      · simp only [Option.bind_some, putInt_eq hv.1 hv.2 hout]
      · rfl
      · rfl
    · split
      · -- `x`
        rcases args with _ | ⟨⟨v, _⟩ | ⟨v, hv⟩ | s, args⟩
        · rfl
        · rfl
        · simp only [Option.bind_some, putLong_eq hv.1 hv.2 hout]
        · rfl
      · split
        · -- `s`
          rcases args with _ | ⟨⟨v, _⟩ | ⟨v, _⟩ | _ | s, args⟩
          · rfl
          · rfl
          · rfl
          · simp only [putStr, Option.bind_some, Option.map_none, Option.getD_none, emit_nil hout]
          · simp only [putStr, Option.bind_some, Option.map_some, Option.getD_some, foldlM_store hout]
        · rfl

/-! ## The format -/

theorem fetch_append {pre rest : List UInt8} (h : format.bytes = pre ++ rest) :
    fetch format pre.length = if pre.length < 2 ^ 31 then some (rest.headD 0) else none := by
  have hle : pre.length ≤ format.bytes.length := by rw [h, List.length_append]; omega
  have hat : format.bytes.getD pre.length 0 = rest.headD 0 := by
    rw [h, List.getD_append_right _ _ _ _ le_rfl, Nat.sub_self]
    cases rest <;> rfl
  unfold fetch
  rw [hat]
  exact if_congr (and_iff_left hle) rfl rfl

theorem fetch_behind {count : ℕ} (h : format.bytes.length < count) : fetch format count = none :=
  if_neg fun hc => absurd hc.2 (not_le.2 h)

/-- What the rest of the output is, for the rest of the format. -/
def rest (size : ℕ) (format : CString) (f : List UInt8) (args : List Arg) (out : List UInt8) : Option (List UInt8) :=
  if format.bytes.length < 2 ^ 31 then (pieces f args).bind fun ps => emit size out ps.flatten else none

theorem rest_of_long (h : ¬ format.bytes.length < 2 ^ 31) (f : List UInt8) (args : List Arg) (out : List UInt8) :
    rest size format f args out = none := if_neg h

theorem rest_of_short (size : ℕ) (h : format.bytes.length < 2 ^ 31) (f : List UInt8) (args : List Arg)
    (out : List UInt8) :
    rest size format f args out = (pieces f args).bind fun ps => emit size out ps.flatten := if_pos h

theorem pieces_cons {c : UInt8} (hc : c ≠ 37) (f : List UInt8) (args : List Arg) :
    pieces (c :: f) args = (pieces f args).map ([c] :: ·) := by
  cases f <;> simp [pieces, hc]

theorem pieces_conversion (ch : UInt8) (f : List UInt8) (args : List Arg) :
    pieces (37 :: ch :: f) args = (conversion ch args).bind fun p => (pieces f p.2).map (p.1 :: ·) := by
  simp only [pieces, ne_eq, not_true_eq_false, if_false]

theorem rest_cons (h : format.bytes.length < 2 ^ 31) {c : UInt8} (hc : c ≠ 37) (f : List UInt8) (args : List Arg)
    (out : List UInt8) :
    rest size format (c :: f) args out = (emit size out [c]).bind (rest size format f args) := by
  have hrest := rest_of_short size h f args
  rw [rest_of_short size h, funext hrest, pieces_cons hc]
  cases pieces f args with
  | none => simp
  | some ps => simp only [Option.map_some, Option.bind_some, List.flatten_cons, emit_bind]

theorem rest_conversion (h : format.bytes.length < 2 ^ 31) (ch : UInt8) (f : List UInt8) (args : List Arg)
    (out : List UInt8) : rest size format (37 :: ch :: f) args out =
      (conversion ch args).bind fun p => (emit size out p.1).bind (rest size format f p.2) := by
  rw [rest_of_short size h, pieces_conversion]
  cases conversion ch args with
  | none => rfl
  | some p =>
    have hrest := rest_of_short size h f p.2
    simp only [Option.bind_some, funext hrest]
    cases pieces f p.2 with
    | none => simp
    | some ps => simp only [Option.map_some, Option.bind_some, List.flatten_cons, emit_bind]

/-! ## The loop -/

theorem formatTurn_char {c : UInt8} (hfetch : fetch format s.count = some c) (hc : c ≠ 37) :
    formatTurn size format s = (emit size s.out [c]).map fun out => ⟨s.count + 1, out, s.args⟩ := by
  simp only [formatTurn, hfetch, Option.bind_eq_bind, Option.bind_some, if_pos hc, store_eq, Option.map_eq_bind]
  rfl

theorem formatTurn_conversion {ch : UInt8} (hfetch : fetch format s.count = some 37)
    (hnext : fetch format (s.count + 1) = some ch) (hout : s.out.length ≤ size) : formatTurn size format s =
      (conversion ch s.args).bind fun p => (emit size s.out p.1).map fun out => ⟨s.count + 2, out, p.2⟩ := by
  simp only [formatTurn, hfetch, hnext, convert_eq ch hout, Option.bind_eq_bind, Option.bind_some, ne_eq,
    not_true_eq_false, if_false, Option.bind_assoc, Option.map_eq_bind]
  rfl

/-- A format that is too long for `count` does not end. -/
theorem formatTest_of_long (h : ¬ format.bytes.length < 2 ^ 31) (s : Printing) : formatTest format s ≠ some false := by
  unfold formatTest fetch
  split
  · rename_i hcount
    have hlt : s.count < format.bytes.length := by omega
    have hne : format.bytes[s.count] ≠ 0 := fun he => format.ended (he ▸ List.getElem_mem hlt)
    rw [List.getD_eq_getElem _ _ hlt, Option.map_some]
    simpa using hne
  · simp

/-- Where the character of a conversion is missing, the zero is taken for it, and the loop reads on behind it. -/
theorem whileLoop_unfinished (hshort : format.bytes.length < 2 ^ 31) {pre : List UInt8} (h : format.bytes = pre ++ [37])
    {out : List UInt8} (hout : out.length ≤ size) (fuel : ℕ) :
    whileLoop (formatTest format) (formatTurn size format) (fuel + 1) ⟨pre.length, out, args⟩ = none := by
  have hlen : format.bytes.length = pre.length + 1 := by simp [h]
  have hpercent : fetch format pre.length = some 37 := by
    rw [fetch_append h, if_pos (by omega), List.headD_cons]
  have hzero : fetch format (pre.length + 1) = some 0 := by
    have hend : fetch format (pre ++ [37]).length = if (pre ++ [37]).length < 2 ^ 31 then some 0 else none :=
      fetch_append (by rw [h, List.append_nil])
    rwa [List.length_append, List.length_singleton, if_pos (by omega)] at hend
  have htest : formatTest format ⟨pre.length, out, args⟩ = some true := by simp [formatTest, hpercent]
  rw [whileLoop_go htest, formatTurn_conversion hpercent hzero hout]
  have hconversion : conversion 0 args = some ([0], args) := rfl
  rw [hconversion, Option.bind_some, Option.bind_map, Option.bind_eq_none_iff]
  intro out' _
  have hbehind : fetch format (pre.length + 2) = none := fetch_behind (by omega)
  exact whileLoop_stuck (by simp [formatTest, hbehind]) fuel

/-- Behind a text that has found room the loop goes on with what is left. -/
theorem emit_continue {out text : List UInt8} {next : List UInt8 → Printing} {go : Printing → Option Printing}
    {r : List UInt8 → Option (List UInt8)} (h : ∀ out, out.length ≤ size → (go (next out)).map Printing.out = r out) :
    (((emit size out text).map next).bind go).map Printing.out = (emit size out text).bind r := by
  cases he : emit size out text with
  | none => rfl
  | some out' => exact h out' (length_of_emit he).2

/-- The loop from a place in the format on. -/
theorem whileLoop_format (pre : List UInt8) {f out : List UInt8} (h : format.bytes = pre ++ f) (hf : f.length ≤ fuel)
    (hout : out.length ≤ size) :
    (whileLoop (formatTest format) (formatTurn size format) fuel ⟨pre.length, out, args⟩).map Printing.out =
      rest size format f args out := by
  by_cases hshort : format.bytes.length < 2 ^ 31
  · have hfetch : ∀ {pre f : List UInt8}, format.bytes = pre ++ f → fetch format pre.length = some (f.headD 0) := by
      intro pre f h
      have hle : pre.length ≤ format.bytes.length := by rw [h, List.length_append]; omega
      rw [fetch_append h, if_pos (by omega)]
    induction fuel generalizing pre f out args with
    | zero =>
      obtain rfl : f = [] := List.length_eq_zero_iff.1 (Nat.le_zero.1 hf)
      have hstop : formatTest format ⟨pre.length, out, args⟩ = some false := by simp [formatTest, hfetch h]
      rw [whileLoop_stop hstop, rest_of_short _ hshort]
      exact (emit_nil hout).symm
    | succ fuel ih =>
      cases f with
      | nil =>
        have hstop : formatTest format ⟨pre.length, out, args⟩ = some false := by simp [formatTest, hfetch h]
        rw [whileLoop_stop hstop, rest_of_short _ hshort]
        exact (emit_nil hout).symm
      | cons c f =>
        rw [List.length_cons] at hf
        have hc0 : c ≠ 0 := by
          rintro rfl
          exact format.ended (h ▸ by simp)
        have hc := hfetch h
        rw [List.headD_cons] at hc
        have htest : formatTest format ⟨pre.length, out, args⟩ = some true := by simp [formatTest, hc, hc0]
        by_cases hpercent : c = 37
        · subst hpercent
          cases f with
          | nil =>
            rw [whileLoop_unfinished hshort h hout, rest_of_short _ hshort]
            rfl
          | cons ch f =>
            have hnext : format.bytes = (pre ++ [37]) ++ ch :: f := by simp [h]
            have hch := hfetch hnext
            rw [List.length_append, List.length_singleton, List.headD_cons] at hch
            rw [whileLoop_go htest, formatTurn_conversion hc hch hout, rest_conversion hshort]
            cases conversion ch args with
            | none => rfl
            | some p =>
              refine emit_continue fun out hout => ?_
              have hmore : format.bytes = (pre ++ [37, ch]) ++ f := by simp [h]
              have hrest : (whileLoop (formatTest format) (formatTurn size format) fuel
                  ⟨(pre ++ [37, ch]).length, out, p.2⟩).map Printing.out = rest size format f p.2 out :=
                ih _ hmore (by rw [List.length_cons] at hf; omega) hout
              rwa [List.length_append] at hrest
        · rw [whileLoop_go htest, formatTurn_char hc hpercent, rest_cons hshort hpercent]
          refine emit_continue fun out hout => ?_
          have hmore : format.bytes = (pre ++ [c]) ++ f := by simp [h]
          have hrest : (whileLoop (formatTest format) (formatTurn size format) fuel
              ⟨(pre ++ [c]).length, out, args⟩).map Printing.out = rest size format f args out :=
                ih _ hmore (by omega) hout
          rwa [List.length_append] at hrest
  · rw [rest_of_long hshort, whileLoop_never (fun _ => True) (fun s _ => formatTest_of_long hshort s)
      (fun _ _ _ _ => trivial) trivial]
    rfl

theorem vuprintf_eq (hf : format.bytes.length ≤ fuel) :
    vuprintf fuel size format args = rest size format format.bytes args [] :=
  whileLoop_format [] rfl hf (Nat.zero_le size)

/-- Arguments that match leave a piece out only where the format is not finished. -/
theorem isSome_pieces : ∀ {f : List UInt8} {args : List Arg}, Matching f args → (pieces f args).isSome = !unfinished f
  | [], _, _ => rfl
  | [c], args, hm => by
    by_cases hc : c = 37
    · subst hc
      rfl
    · simp [pieces, unfinished, hc]
  | c :: ch :: f, args, hm => by
    by_cases hc : c = 37
    · subst hc
      simp only [Matching, ne_eq, not_true_eq_false, if_false] at hm
      obtain ⟨p, hp, hm⟩ := hm
      rw [pieces_conversion, hp, Option.bind_some, Option.isSome_map, isSome_pieces hm]
      simp [unfinished]
    · have hm' : Matching (ch :: f) args := by simpa [Matching, hc] using hm
      rw [pieces_cons hc, Option.isSome_map, isSome_pieces hm']
      simp [unfinished, hc]

/-- For every format and arguments that match: `printf` stays in the format and in its buffer, and writes as many
characters as there are in the pieces, exactly if the format does not end inside a conversion, the buffer has room
for the pieces, and `count` reaches the end of the format. -/
theorem printf_safe_iff (hf : format.bytes.length ≤ fuel) (hm : Matching format.bytes args) :
    (∃ written, printf fuel format args = some (written.length, written) ∧ written.length ≤ 4096 ∧
        (total format args ≤ 4096 → written.length = total format args)) ↔
      unfinished format.bytes = false ∧ total format args ≤ 4096 ∧ format.bytes.length < 2 ^ 31 := by
  have hprintf : printf fuel format args =
      (rest 4096 format format.bytes args []).map fun out => (out.length, out) := by
    rw [← vuprintf_eq hf, Option.map_eq_bind]
    rfl
  have hsome := isSome_pieces hm
  rw [hprintf]
  by_cases hshort : format.bytes.length < 2 ^ 31
  · rw [rest_of_short _ hshort]
    cases hp : pieces format.bytes args with
    | none =>
      rw [hp] at hsome
      simp at hsome
      simp [hsome]
    | some ps =>
      have hunfinished : unfinished format.bytes = false := by simpa [hp] using hsome
      have htotal : total format args = ps.flatten.length := by
        rw [total, hp, Option.getD_some, List.length_flatten]
      rw [Option.bind_some, htotal]
      constructor
      · rintro ⟨written, hw, hle, -⟩
        obtain ⟨out, hout, -⟩ := Option.map_eq_some_iff.1 hw
        have hroom := (length_of_emit hout)
        refine ⟨hunfinished, ?_, hshort⟩
        rw [hroom.1, List.nil_append] at hroom
        exact hroom.2
      · rintro ⟨-, hroom, -⟩
        refine ⟨ps.flatten, ?_, hroom, fun _ => rfl⟩
        rw [emit, List.nil_append, List.length_nil, Nat.zero_add, if_pos hroom, Option.map_some]
  · rw [rest_of_long hshort, Option.map_none]
    constructor
    · rintro ⟨_, hw, -⟩
      cases hw
    · exact fun h => absurd h.2.2 hshort

/-- A null string, a percent sign and a long, in a buffer that has room for them. -/
theorem printf_safe_iff_of_three :
    let format : CString := ⟨[37, 115, 37, 37, 37, 120, 10], by decide⟩
    let args : List Arg := [.str none, .long (-255) (by decide)]
    (∃ written, printf 7 format args = some (written.length, written) ∧ written.length ≤ 4096 ∧
        (total format args ≤ 4096 → written.length = total format args)) ↔
      unfinished format.bytes = false ∧ total format args ≤ 4096 ∧ format.bytes.length < 2 ^ 31 := by
  intro format args
  have hm : Matching format.bytes args := ⟨([], [.long (-255) (by decide)]), rfl, _, rfl, _, rfl, rfl⟩
  exact printf_safe_iff (by decide) hm

/-- Of `100%` the zero is put into the buffer, and what is behind it is read. -/
theorem printf_unsafe :
    let format : CString := ⟨[49, 48, 48, 37], by decide⟩
    Matching format.bytes [] ∧
      (formatTurn 4096 format ⟨3, [49, 48, 48], []⟩).map Printing.out = some [49, 48, 48, 0] ∧ fetch format 5 = none ∧
      ∀ fuel, printf fuel format [] = none := by
  intro format
  refine ⟨rfl, by decide, by decide, fun fuel => ?_⟩
  rcases Nat.lt_or_ge fuel 4 with hlt | hge
  · interval_cases fuel <;> decide
  · have hrest : rest 4096 format format.bytes [] [] = none := by decide
    have hvuprintf : vuprintf fuel 4096 format [] = none := (vuprintf_eq hge).trans hrest
    rw [printf, hvuprintf]
    rfl

end Printf

/-! ## Numbers -/

/-- The conversions of numbers. -/
inductive Number
  | d
  | u
  | x
deriving DecidableEq

namespace Number

def char : Number → UInt8
  | d => 100
  | u => 117
  | x => 120

def base : Number → ℕ
  | d => 10
  | u => 10
  | x => 16

def pre : Number → List UInt8
  | d => []
  | u => []
  | x => [48, 120]

/-- The numbers that may be passed. -/
def Range : Number → ℤ → Prop
  | d, v => -2 ^ 31 ≤ v ∧ v < 2 ^ 31
  | u, v => 0 ≤ v ∧ v < 2 ^ 32
  | x, v => -2 ^ 63 ≤ v ∧ v < 2 ^ 63

theorem isInt_i32 (v : ℤ) : IsInt (i32 v) := by
  unfold IsInt i32; omega

theorem isLong_i64 (v : ℤ) : IsLong (i64 v) := by
  unfold IsLong i64; omega

/-- The argument, as `va_arg` takes it. -/
def arg : Number → ℤ → Arg
  | d, v => .int (i32 v) (isInt_i32 v)
  | u, v => .int (i32 v) (isInt_i32 v)
  | x, v => .long (i64 v) (isLong_i64 v)

/-- The numbers whose absolute value has the type of the argument. -/
def Negatable : Number → ℤ → Prop
  | d, v => v ≠ -2 ^ 31
  | u, v => v < 2 ^ 31
  | x, v => v ≠ -2 ^ 63

end Number

section Number

variable {size : ℕ} {format : CString} {args : List Arg} {s : Printing}

/-- What is put into the buffer for a number, which is never too long for the array of digits. -/
theorem conversion_number {k : Number} {v : ℤ} (hv : k.Range v) (args : List Arg) :
    ∃ text, conversion k.char (k.arg v :: args) = some (text, args) ∧ text.length ≤ 19 ∧
      (Spells k.base k.pre text v ↔ k.Negatable v) := by
  cases k with
  | d =>
    have hlen := length_intText_le hv.1 hv.2
    refine ⟨intText (i32 v), rfl, ?_, ?_⟩
    · rw [i32_of_range hv.1 hv.2]
      omega
    · rw [i32_of_range hv.1 hv.2]
      exact intText_spells_iff hv.1 hv.2
  | u =>
    have hlen := length_intText_le (Number.isInt_i32 v).1 (Number.isInt_i32 v).2
    exact ⟨intText (i32 v), rfl, by omega, intText_spells_unsigned_iff hv.1 hv.2⟩
  | x =>
    refine ⟨longText (i64 v), rfl, ?_, ?_⟩
    · rw [i64_of_range hv.1 hv.2]
      exact length_longText_le hv.1 hv.2
    · rw [i64_of_range hv.1 hv.2]
      exact longText_spells_iff hv.1 hv.2

/-- Wherever a number is in a format, and whatever is before it in the buffer: the turn of the loop puts the numeral
of the number there, with its sign and prefix, exactly if the number can be negated. -/
theorem formatTurn_spells_iff {k : Number} {v : ℤ} (hv : k.Range v) (hpercent : fetch format s.count = some 37)
    (hchar : fetch format (s.count + 1) = some k.char) (hargs : s.args = k.arg v :: args)
    (hroom : s.out.length + 19 ≤ size) :
    (∃ text, formatTurn size format s = some ⟨s.count + 2, s.out ++ text, args⟩ ∧ Spells k.base k.pre text v) ↔
      k.Negatable v := by
  obtain ⟨text, hconversion, hlen, hspells⟩ := conversion_number hv args
  have hemit : emit size s.out text = some (s.out ++ text) := if_pos (by omega)
  have hturn : formatTurn size format s = some ⟨s.count + 2, s.out ++ text, args⟩ := by
    rw [formatTurn_conversion hpercent hchar (by omega), hargs, hconversion, Option.bind_some]
    simp only [hemit, Option.map_some]
  rw [hturn, ← hspells]
  constructor
  · rintro ⟨text', he, h⟩
    have hsame : s.out ++ text = s.out ++ text' := congrArg Printing.out (Option.some.inj he)
    rwa [List.append_cancel_left hsame]
  · exact fun h => ⟨text, rfl, h⟩

/-- The second piece of `n=%x`. -/
theorem formatTurn_spells_iff_of_hex :
    let format : CString := ⟨[110, 61, 37, 120], by decide⟩
    let s : Printing := ⟨2, [110, 61], [Number.x.arg (-255)]⟩
    (∃ text, formatTurn 4096 format s = some ⟨4, [110, 61] ++ text, []⟩ ∧ Spells 16 [48, 120] text (-255)) ↔
      Number.x.Negatable (-255) := by
  intro format s
  have hv : Number.x.Range (-255) := ⟨by decide, by decide⟩
  exact formatTurn_spells_iff hv (by decide) (by decide) rfl (by decide)

/-- The largest unsigned number is written as `-1`, and of the smallest int there are only characters before `0`. -/
theorem vuprintf_misspells :
    let unsigned : CString := ⟨[37, 117], by decide⟩
    let signed : CString := ⟨[37, 100], by decide⟩
    vuprintf 2 4096 unsigned [Number.u.arg (2 ^ 32 - 1)] = some [45, 49] ∧ ¬ Spells 10 [] [45, 49] (2 ^ 32 - 1) ∧
    vuprintf 2 4096 signed [Number.d.arg (-2 ^ 31)] = some [45, 46, 47, 44, 41, 44, 40, 45, 42, 44, 40] ∧
      ¬ Spells 10 [] [45, 46, 47, 44, 41, 44, 40, 45, 42, 44, 40] (-2 ^ 31) := by
  intro unsigned signed
  refine ⟨by decide +kernel, fun h => ?_, by decide +kernel, fun h => ?_⟩
  · have hle := (h.of_minus (by decide) (by decide)).1
    revert hle
    decide
  · obtain ⟨-, c, tail, hrest, hc⟩ := h.of_minus (by decide) (by decide)
    obtain rfl := (List.cons.inj hrest).1
    exact absurd hc (by decide)

end Number

end CS330.User
