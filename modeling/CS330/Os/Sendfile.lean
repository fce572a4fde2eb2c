/-
do_sendfile: a read whose cursor is moved before the write that may fail, with error numbers and byte
counts in one integer. Cursors are any `u32` here, also those a failed write has left outside the file.
-/
import CS330.Os.Failure

namespace CS330.Os

open CS330.Lib CS330.Fs

namespace Kernel

variable {k k' k₁ : Kernel} {p : Proc} {x y : Ptr} {f g : File} {i j : ℕ}

/-- An open descriptor. -/
structure OpenAt (k : Kernel) (p : Proc) (fd : Fd) (x : Ptr) (f : File) : Prop where
  slot : k.table p fd = some x
  file : k.files x = some f
  cursor : f.offp < 2 ^ 32

/-! ## The two halves -/

section Halves

variable {outfd infd : Fd} {count : ℤ} {buff : Option (ℕ → UInt8)}

/-- What the temporary page holds before; without a page nothing is copied. -/
def tempPage (buff : Option (ℕ → UInt8)) : ℕ → UInt8 := buff.getD fun _ => 0

/-- Bytes are copied through a page that is not there. -/
def NoPage (buff : Option (ℕ → UInt8)) (f g : File) (readCount : ℤ) : Prop :=
  buff.isNone = true ∧ readCount ≠ 0 ∧ (f.inode.isSome = true ∨ g.inode.isSome = true)

theorem noPage_iff (h : f.inode.isSome = true) {n : ℤ} : NoPage buff f g n ↔ ¬ (buff.isSome = true ∨ n = 0) := by
  cases buff <;> simp [NoPage, h]

theorem doSendfile_ok (hin : k.OpenAt p infd x f) (hout : k.OpenAt p outfd y g) (hr : f.mode &&& oRead ≠ 0)
    (hw : g.mode &&& oWrite ≠ 0) {n ret : ℤ} {page : ℕ → UInt8}
    (hread : k.doReadRegular x (tempPage buff) (u32 count) = .ok (n, page, k₁)) (hpage : ¬ NoPage buff f g n)
    (hwrite : k₁.doWriteRegular y page (u32 n) = .ok (ret, k')) :
    k.doSendfile p outfd infd none count buff = .ok (ret, none, k') := by
  unfold tempPage at hread
  unfold NoPage at hpage
  simp only [doSendfile, hin.slot, hout.slot, file_eq hin.file, file_eq hout.file, bind, Except.bind, if_neg hr,
    if_neg hw, sendfileRead, hread, if_neg hpage, hwrite]

theorem doSendfile_crash (hin : k.OpenAt p infd x f) (hout : k.OpenAt p outfd y g) (hr : f.mode &&& oRead ≠ 0)
    (hw : g.mode &&& oWrite ≠ 0) {n : ℤ} {page : ℕ → UInt8}
    (hread : k.doReadRegular x (tempPage buff) (u32 count) = .ok (n, page, k₁)) (hpage : NoPage buff f g n) :
    k.doSendfile p outfd infd none count buff = .error .nullDeref := by
  unfold tempPage at hread
  unfold NoPage at hpage
  simp only [doSendfile, hin.slot, hout.slot, file_eq hin.file, file_eq hout.file, bind, Except.bind, if_neg hr,
    if_neg hw, sendfileRead, hread, if_pos hpage]

theorem doSendfile_refused (hin : k.OpenAt p infd x f) (hout : k.OpenAt p outfd y g)
    (h : f.mode &&& oRead = 0 ∨ g.mode &&& oWrite = 0) :
    k.doSendfile p outfd infd none count buff = .ok (-eacces, none, k) := by
  simp only [doSendfile, hin.slot, hout.slot, file_eq hin.file, file_eq hout.file, bind, Except.bind]
  by_cases hr : f.mode &&& oRead = 0
  · rw [if_pos hr]
  · rw [if_neg hr, if_pos (h.resolve_left hr)]

end Halves

/-! ## Move or nothing -/

/-- A sendfile that reports bytes has read them through the one object and written them through the other,
and one that reports an error has changed nothing. -/
structure Sends (k k' : Kernel) (x y : Ptr) (f g : File) (page : ℕ → UInt8) (ret : ℤ) : Prop where
  moved : 0 ≤ ret → ∃ page' k₁, k.doReadRegular x page ret.toNat = .ok (ret, page', k₁) ∧
    k₁.doWriteRegular y page' ret.toNat = .ok (ret, k')
  apart : 0 ≤ ret → x ≠ y → (k'.files x).map File.offp = some (u32 (f.offp + ret)) ∧
    (k'.files y).map File.offp = some (u32 (g.offp + ret))
  shared : 0 ≤ ret → x = y → (k'.files x).map File.offp = some (u32 (f.offp + ret + ret))
  unchanged : ret < 0 → Untouched k k'

/-- No more is read into the temporary page than it holds. -/
def FitsPage (k : Kernel) (f g : File) (count : ℤ) : Prop :=
  f.mode &&& oRead ≠ 0 → g.mode &&& oWrite ≠ 0 → ∀ i ∈ f.inode,
    readTurns (k.sb.inode i) count (i32 f.offp) ≤ pageSize

/-- The sendfile returns, having moved bytes or done nothing. -/
def SendsOrNot (k : Kernel) (p : Proc) (outfd infd : Fd) (x y : Ptr) (f g : File) (count : ℤ)
    (buff : Option (ℕ → UInt8)) : Prop :=
  k.FitsPage f g count ∧ ∃ ret offset k', k.doSendfile p outfd infd none count buff = .ok (ret, offset, k') ∧
    Sends k k' x y f g (tempPage buff) ret

/-- How many bytes a sendfile reads. -/
def sendCount (k : Kernel) (f : File) (i : ℕ) (count : ℤ) : ℤ := readable (k.sb.inode i) count (i32 f.offp)

/-- The cursor of the output once the input has been read: it has moved along where it is the same. -/
def outCursor (x y : Ptr) (f g : File) (n : ℤ) : ℕ := if x = y then u32 (f.offp + n) else g.offp

/-- Neither side is a regular file; or the input is one and the output not, and there is nothing to read; or
both are, and what is read fits into the temporary page and behind the output's cursor, or is one byte
through a shared cursor, which the failure of the write then takes back to where it was. -/
def Sendable (k : Kernel) (x y : Ptr) (f g : File) (count : ℤ) (buff : Option (ℕ → UInt8)) : Prop :=
  match f.inode, g.inode with
  | none, none => True
  | none, some _ => False
  | some i, none => k.sendCount f i count = 0
  | some i, some j =>
    (buff.isSome = true ∨ k.sendCount f i count = 0) ∧ k.sendCount f i count ≤ pageSize ∧
      (k.sendCount f i count ≤ roomAt (k.sb.inode j) (i32 (outCursor x y f g (k.sendCount f i count))) ∨
        x = y ∧ k.sendCount f i count = 1)

theorem sendCount_range {count : ℤ} (h : 0 ≤ count) (k : Kernel) (f : File) (i : ℕ) :
    0 ≤ k.sendCount f i count ∧ k.sendCount f i count ≤ count := by
  unfold sendCount readable
  omega

theorem fitsPage_none (hi : f.inode = none) (count : ℤ) : k.FitsPage f g count := by
  intro _ _ i hi'
  rw [hi] at hi'
  cases hi'

theorem fitsPage_iff (hr : f.mode &&& oRead ≠ 0) (hw : g.mode &&& oWrite ≠ 0) (hi : f.inode = some i) {count : ℤ}
    (h : 0 ≤ count) (h' : count < 2 ^ 31) : k.FitsPage f g count ↔ k.sendCount f i count ≤ pageSize := by
  have hturns : (readTurns (k.sb.inode i) count (i32 f.offp) : ℤ) = k.sendCount f i count :=
    readTurns_of_nonneg h h' (k.sb.inode i) (i32 f.offp)
  constructor
  · intro hfits
    have := hfits hr hw i hi
    omega
  · intro hle _ _ j hj
    obtain rfl := Option.some.inj (hi.symm.trans hj)
    omega

/-- The count a non-negative `int` is on the way through `u32`. -/
theorem i32_u32 {n : ℤ} (h : 0 ≤ n) (h' : n < 2 ^ 31) : i32 (u32 n) = n := by
  unfold i32 u32
  omega

/-- Reading through an object with an inode; asking for what was read gives the same. -/
theorem read_some (hf : k.files x = some f) (hi : f.inode = some i) (hr : f.mode &&& oRead ≠ 0) {count : ℤ}
    (h : 0 ≤ count) (h' : count < 2 ^ 31) (page : ℕ → UInt8) :
    ∃ page', k.doReadRegular x page (u32 count) =
        .ok (k.sendCount f i count, page', k.moved x f (u32 (f.offp + k.sendCount f i count))) ∧
      k.doReadRegular x page (k.sendCount f i count).toNat =
        .ok (k.sendCount f i count, page', k.moved x f (u32 (f.offp + k.sendCount f i count))) := by
  obtain ⟨hpos, hle⟩ := sendCount_range h k f i
  have hcount : i32 ((k.sendCount f i count).toNat : ℤ) = k.sendCount f i count := by
    rw [Int.toNat_of_nonneg hpos]
    exact i32_of_range (by omega) (by omega)
  have hret := flatRead_fst h h' (k.sb.inode i) k.mem page (i32 f.offp)
  refine ⟨(flatRead (k.sb.inode i) k.mem page count (i32 f.offp)).2, ?_, ?_⟩
  · rw [doReadRegular_some hf hi hr, i32_u32 h h', hret]
    rfl
  · rw [doReadRegular_some hf hi hr, hcount]
    have hsame := flatRead_readable h (k.sb.inode i) k.mem page (i32 f.offp)
    change flatRead _ _ _ (k.sendCount f i count) _ = _ at hsame
    rw [hsame, hret]
    rfl

/-- Writing what fits through an object with an inode. -/
theorem write_fits (hg : k.files y = some g) (hj : g.inode = some j) (hw : g.mode &&& oWrite ≠ 0) {n : ℤ} (h : 0 ≤ n)
    (h' : n < 2 ^ 31) (hfit : n ≤ roomAt (k.sb.inode j) (i32 g.offp)) (page : ℕ → UInt8) :
    ∃ r : ℤ × Inode × Mem, r.1 = n ∧ k.doWriteRegular y page (u32 n) = .ok (n, k.written y g j r) := by
  have hret : (flatWrite (k.sb.inode j) k.mem page n (i32 g.offp)).1 = n := by
    rw [flatWrite_fst, if_neg (not_lt.2 hfit)]
  have hwrite := doWriteRegular_some hg hj hw page (u32 n)
  rw [i32_u32 h h'] at hwrite
  refine ⟨_, hret, hwrite.trans ?_⟩
  rw [hret]

/-- Writing what does not fit moves the cursor back by one. -/
theorem write_overflows (hg : k.files y = some g) (hj : g.inode = some j) (hw : g.mode &&& oWrite ≠ 0) {n : ℤ}
    (h : i32 (u32 n) > roomAt (k.sb.inode j) (i32 g.offp)) (page : ℕ → UInt8) :
    k.doWriteRegular y page (u32 n) = .ok (-1, k.moved y g (u32 (g.offp + -1))) := by
  rw [doWriteRegular_some hg hj hw, flatWrite_failed h]
  simp only [written, Function.update_eq_self]

/-- The object written to, after the read. -/
theorem files_afterRead (hf : k.files x = some f) (hg : k.files y = some g) (n : ℤ) :
    (k.moved x f (u32 (f.offp + n))).files y = some { g with offp := outCursor x y f g n } := by
  unfold outCursor
  rw [files_moved]
  by_cases hxy : x = y
  · subst hxy
    obtain rfl := Option.some.inj (hf.symm.trans hg)
    rw [Function.update_self, if_pos rfl]
  · rw [Function.update_of_ne (Ne.symm hxy), if_neg hxy, hg]

theorem untouched_moved (hf : k.files x = some f) : Untouched k (k.moved x f f.offp) := by
  refine ⟨fun z => ?_, fun _ => rfl, rfl⟩
  rw [files_moved, Function.update_apply]
  split
  · rename_i hz
    rw [hz, hf]
  · rfl

theorem not_untouched_moved (hf : k.files x = some f) {n : ℕ} (hn : n ≠ f.offp) (g : File) :
    ¬ Untouched k (k.moved x g n) := by
  intro h
  have hcursor := h.cursors x
  rw [files_moved, Function.update_self, hf] at hcursor
  exact hn (Option.some.inj hcursor)

section Cases

variable {outfd infd : Fd} {count : ℤ} {buff : Option (ℕ → UInt8)}

theorem not_sends {ret : ℤ} {offset : Option ℤ} (h : k.doSendfile p outfd infd none count buff = .ok (ret, offset, k'))
    (hneg : ret < 0) (hn : ¬ Untouched k k') : ¬ k.SendsOrNot p outfd infd x y f g count buff := by
  rintro ⟨-, ret', offset', k'', h', hsends⟩
  obtain ⟨rfl, hrest⟩ := Prod.mk.inj (Except.ok.inj (h.symm.trans h'))
  obtain ⟨-, rfl⟩ := Prod.mk.inj hrest
  exact hn (hsends.unchanged hneg)

theorem not_sends_crash (h : k.doSendfile p outfd infd none count buff = .error .nullDeref) :
    ¬ k.SendsOrNot p outfd infd x y f g count buff := by
  rintro ⟨-, ret, offset, k', h', -⟩
  rw [h] at h'
  cases h'

theorem sends_failed {ret : ℤ} {offset : Option ℤ} (hfits : k.FitsPage f g count) (hneg : ret < 0)
    (hk : Untouched k k')
    (h : k.doSendfile p outfd infd none count buff = .ok (ret, offset, k')) :
    k.SendsOrNot p outfd infd x y f g count buff :=
  ⟨hfits, ret, offset, k', h, fun h0 => by omega, fun h0 => by omega, fun h0 => by omega, fun _ => hk⟩

/-- From no file to no file: refused by both sides. -/
theorem sends_none_none (hin : k.OpenAt p infd x f) (hout : k.OpenAt p outfd y g) (hr : f.mode &&& oRead ≠ 0)
    (hw : g.mode &&& oWrite ≠ 0) (hi : f.inode = none) (hj : g.inode = none) :
    k.SendsOrNot p outfd infd x y f g count buff := by
  have hpage : ¬ NoPage buff f g (-einval) := by
    rintro ⟨-, -, h | h⟩
    · rw [hi] at h
      cases h
    · rw [hj] at h
      cases h
  exact sends_failed (fitsPage_none hi count) (by decide) (.refl k)
    (doSendfile_ok hin hout hr hw (doReadRegular_none hin.file hi ..) hpage (doWriteRegular_none hout.file hj ..))

/-- From no file to a file: the error of the read is the count of the write. -/
theorem not_sends_none_some (hin : k.OpenAt p infd x f) (hout : k.OpenAt p outfd y g) (hr : f.mode &&& oRead ≠ 0)
    (hw : g.mode &&& oWrite ≠ 0) (hi : f.inode = none) (hj : g.inode = some j) :
    ¬ k.SendsOrNot p outfd infd x y f g count buff := by
  have hread := doReadRegular_none hin.file hi (tempPage buff) (u32 count)
  by_cases hpage : NoPage buff f g (-einval)
  · exact not_sends_crash (doSendfile_crash hin hout hr hw hread hpage)
  · have hcount : i32 (u32 (-einval)) = -1 := by decide
    have hwrite := doWriteRegular_some hout.file hj hw (tempPage buff) (u32 (-einval))
    rw [hcount] at hwrite
    have hret : (flatWrite (k.sb.inode j) k.mem (tempPage buff) (-1) (i32 g.offp)).1 = -1 := by
      rw [flatWrite_fst]
      split <;> rfl
    have hneg : (flatWrite (k.sb.inode j) k.mem (tempPage buff) (-1) (i32 g.offp)).1 < 0 := by
      rw [hret]
      decide
    obtain ⟨-, n, hfile, -, hne⟩ := written_moves hneg (by rw [hret]; decide) k y j
    refine not_sends (doSendfile_ok hin hout hr hw hread hpage hwrite) hneg fun hk => ?_
    have hcursor := hk.cursors y
    rw [hfile, hout.file] at hcursor
    exact hne (Option.some.inj hcursor)

/-- From a file to no file: the cursor has moved when the write is refused. -/
theorem sends_some_none_iff (hin : k.OpenAt p infd x f) (hout : k.OpenAt p outfd y g) (hr : f.mode &&& oRead ≠ 0)
    (hw : g.mode &&& oWrite ≠ 0) (hi : f.inode = some i) (hj : g.inode = none) (h : 0 ≤ count) (h' : count < 2 ^ 31) :
    k.SendsOrNot p outfd infd x y f g count buff ↔ k.sendCount f i count = 0 := by
  obtain ⟨hpos, hle⟩ := sendCount_range h k f i
  obtain ⟨page', hread, -⟩ := read_some hin.file hi hr h h' (tempPage buff)
  have hcursor := hin.cursor
  have hfile := files_afterRead hin.file hout.file (k.sendCount f i count)
  by_cases hpage : NoPage buff f g (k.sendCount f i count)
  · exact iff_of_false (not_sends_crash (doSendfile_crash hin hout hr hw hread hpage)) hpage.2.1
  · have hsend := doSendfile_ok hin hout hr hw hread hpage (doWriteRegular_none hfile hj ..)
    -- by then the read has moved its cursor, except by nothing
    by_cases hzero : k.sendCount f i count = 0
    · have hfits := (fitsPage_iff (k := k) hr hw hi h h').2 (by rw [hzero]; exact Int.natCast_nonneg _)
      refine iff_of_true (sends_failed hfits (by decide) ?_ hsend) hzero
      have hsame : u32 ((f.offp : ℤ) + k.sendCount f i count) = f.offp := by
        rw [hzero, add_zero]
        exact u32_natCast hcursor
      rw [hsame]
      exact untouched_moved hin.file
    · refine iff_of_false (not_sends hsend (by decide) (not_untouched_moved hin.file ?_ f)) hzero
      unfold u32
      omega

/-- From a file to a file, with room for what is read. -/
theorem sends_fits (hin : k.OpenAt p infd x f) (hout : k.OpenAt p outfd y g) (hr : f.mode &&& oRead ≠ 0)
    (hw : g.mode &&& oWrite ≠ 0) (hi : f.inode = some i) (hj : g.inode = some j) (h : 0 ≤ count) (h' : count < 2 ^ 31)
    (hpage : ¬ NoPage buff f g (k.sendCount f i count)) (hsmall : k.sendCount f i count ≤ pageSize)
    (hfit : k.sendCount f i count ≤ roomAt (k.sb.inode j) (i32 (outCursor x y f g (k.sendCount f i count)))) :
    k.SendsOrNot p outfd infd x y f g count buff := by
  have hfits := (fitsPage_iff hr hw hi h h').2 hsmall
  obtain ⟨hpos, hle⟩ := sendCount_range h k f i
  obtain ⟨page', hread, hagain⟩ := read_some hin.file hi hr h h' (tempPage buff)
  have hfile := files_afterRead hin.file hout.file (k.sendCount f i count)
  obtain ⟨r, hret, hwrite⟩ := write_fits hfile hj hw hpos (by omega) hfit page'
  generalize k.sendCount f i count = n at *
  have hcount : u32 n = n.toNat := by
    unfold u32
    omega
  refine ⟨hfits, n, none, _, doSendfile_ok hin hout hr hw hread hpage hwrite, fun _ => ⟨page', _, hagain, ?_⟩, ?_, ?_,
    fun hneg => by omega⟩
  · rw [hcount] at hwrite
    exact hwrite
  · intro _ hxy
    simp only [files_written, files_moved, Function.update_of_ne hxy, Function.update_self, hret, outCursor, if_neg hxy,
      Option.map_some, and_self]
  · rintro - rfl
    have hsum : u32 ((u32 (f.offp + n) : ℤ) + n) = u32 (f.offp + n + n) := by
      unfold u32
      omega
    simp only [files_written, Function.update_self, hret, outCursor, if_true, Option.map_some, hsum]

/-- From a file to a file, without that room: the write fails after the read has moved its cursor, and moves
its own back by one. -/
theorem sends_overflows_iff (hin : k.OpenAt p infd x f) (hout : k.OpenAt p outfd y g) (hr : f.mode &&& oRead ≠ 0)
    (hw : g.mode &&& oWrite ≠ 0) (hi : f.inode = some i) (hj : g.inode = some j) (h : 0 ≤ count) (h' : count < 2 ^ 31)
    (hpage : ¬ NoPage buff f g (k.sendCount f i count))
    (hover : k.sendCount f i count > roomAt (k.sb.inode j) (i32 (outCursor x y f g (k.sendCount f i count)))) :
    k.SendsOrNot p outfd infd x y f g count buff ↔ x = y ∧ k.sendCount f i count = 1 := by
  obtain ⟨hpos, hle⟩ := sendCount_range h k f i
  obtain ⟨page', hread, -⟩ := read_some hin.file hi hr h h' (tempPage buff)
  have hfile := files_afterRead hin.file hout.file (k.sendCount f i count)
  have hcount := i32_u32 hpos (by omega : k.sendCount f i count < 2 ^ 31)
  have hwrite := write_overflows (n := k.sendCount f i count) hfile hj hw (by rw [hcount]; exact hover) page'
  have hsend := doSendfile_ok hin hout hr hw hread hpage hwrite
  have hcursor := hin.cursor
  have hcursor' := hout.cursor
  have hfits := fitsPage_iff (k := k) hr hw hi h h'
  generalize k.sendCount f i count = n at *
  by_cases hxy : x = y
  · -- both steps are on one cursor, on by what was read and back by one
    subst hxy
    obtain rfl := Option.some.inj (hin.file.symm.trans hout.file)
    have hmoved : (k.moved x f (u32 (f.offp + n))).moved x { f with offp := outCursor x x f f n }
        (u32 ((outCursor x x f f n : ℤ) + -1)) = k.moved x f (u32 (f.offp + n + -1)) := by
      have hsum : u32 ((u32 (f.offp + n) : ℤ) + -1) = u32 (f.offp + n + -1) := by
        unfold u32
        omega
      simp only [Kernel.moved, setFile, Function.update_idem, outCursor, if_true, hsum]
    simp only at hsend
    rw [hmoved] at hsend
    by_cases hone : n = 1
    · refine iff_of_true (sends_failed (hfits.2 ?_) (by decide) ?_ hsend) ⟨rfl, hone⟩
      · rw [hone]
        decide
      have hsame : u32 ((f.offp : ℤ) + n + -1) = f.offp := by
        rw [hone, add_neg_cancel_right]
        exact u32_natCast hcursor
      rw [hsame]
      exact untouched_moved hin.file
    · refine iff_of_false (not_sends hsend (by decide) (not_untouched_moved hin.file ?_ f)) fun hc => hone hc.2
      unfold u32
      omega
  · -- the output's own cursor has gone back by one, and a `u32` minus one is another
    refine iff_of_false (not_sends hsend (by decide) fun hk => ?_) fun hc => hxy hc.1
    have hback := hk.cursors y
    rw [files_moved, Function.update_self, hout.file] at hback
    have hback : u32 ((outCursor x y f g n : ℤ) + -1) = g.offp := Option.some.inj hback
    rw [outCursor, if_neg hxy] at hback
    unfold u32 at hback
    omega

theorem sendable_iff (hin : k.OpenAt p infd x f) (hout : k.OpenAt p outfd y g) (hr : f.mode &&& oRead ≠ 0)
    (hw : g.mode &&& oWrite ≠ 0) (h : 0 ≤ count) (h' : count < 2 ^ 31) :
    k.SendsOrNot p outfd infd x y f g count buff ↔ k.Sendable x y f g count buff := by
  unfold Sendable
  cases hi : f.inode with
  | none =>
    cases hj : g.inode with
    | none => exact iff_of_true (sends_none_none hin hout hr hw hi hj) trivial
    | some j => exact iff_of_false (not_sends_none_some hin hout hr hw hi hj) not_false
  | some i =>
    cases hj : g.inode with
    | none => exact sends_some_none_iff hin hout hr hw hi hj h h'
    | some j =>
      have hinode : f.inode.isSome = true := by rw [hi]; rfl
      by_cases hserved : buff.isSome = true ∨ k.sendCount f i count = 0
      swap
      · obtain ⟨page', hread, -⟩ := read_some hin.file hi hr h h' (tempPage buff)
        have hcrash := doSendfile_crash hin hout hr hw hread ((noPage_iff hinode).2 hserved)
        exact iff_of_false (not_sends_crash hcrash) fun hc => hserved hc.1
      · have hpage : ¬ NoPage buff f g (k.sendCount f i count) := fun hno => (noPage_iff hinode).1 hno hserved
        by_cases hsmall : k.sendCount f i count ≤ pageSize
        swap
        · exact iff_of_false (fun hs => hsmall ((fitsPage_iff hr hw hi h h').1 hs.1)) fun hc => hsmall hc.2.1
        by_cases hfit : k.sendCount f i count ≤ roomAt (k.sb.inode j) (i32 (outCursor x y f g (k.sendCount f i count)))
        · exact iff_of_true (sends_fits hin hout hr hw hi hj h h' hpage hsmall hfit) ⟨hserved, hsmall, .inl hfit⟩
        · rw [sends_overflows_iff hin hout hr hw hi hj h h' hpage (not_le.1 hfit)]
          exact ⟨fun hc => ⟨hserved, hsmall, .inr hc⟩, fun hc => hc.2.2.resolve_left hfit⟩

end Cases

end Kernel

open Kernel

/-- For any two open descriptors, with any cursors and on any objects: a sendfile moves the bytes it reports,
no more than a page of them, or does nothing, if and only if it is refused by a mode, or is sendable. -/
theorem sends_iff {k : Kernel} {p : Proc} {outfd infd : Fd} {x y : Ptr} {f g : File} (hin : k.OpenAt p infd x f)
    (hout : k.OpenAt p outfd y g) {count : ℤ} (h : 0 ≤ count) (h' : count < 2 ^ 31) (buff : Option (ℕ → UInt8)) :
    k.SendsOrNot p outfd infd x y f g count buff ↔
      f.mode &&& oRead = 0 ∨ g.mode &&& oWrite = 0 ∨ k.Sendable x y f g count buff := by
  by_cases hr : f.mode &&& oRead = 0
  · exact iff_of_true (sends_failed (fun hno => absurd hr hno) (by decide) (.refl k)
      (doSendfile_refused hin hout (.inl hr))) (.inl hr)
  · by_cases hw : g.mode &&& oWrite = 0
    · exact iff_of_true (sends_failed (fun _ hno => absurd hw hno) (by decide) (.refl k)
        (doSendfile_refused hin hout (.inr hw))) (.inr (.inl hw))
    · rw [sendable_iff hin hout hr hw h h']
      exact ⟨fun hs => .inr (.inr hs), fun hs => (hs.resolve_left hr).resolve_left hw⟩

/-- Process 1 with the standard input and output, a file of five bytes with its cursor at the start, and an
empty file. -/
def fourOpen : Kernel :=
  (script (Call.next 1) first [.openStd 1 0 (some (4096, zeroPage)), .openStd 1 1 (some (8192, zeroPage)),
    .openFile 1 [97] 11 3 (some (12288, zeroPage)), .openFile 1 [98] 11 3 (some (16384, zeroPage)),
    .write 1 3 (fun j => [5, 6, 7, 8, 9].getD j 0) 5 0, .lseek 1 3 0 0]).2

theorem stdin_fourOpen : fourOpen.OpenAt 1 0 4096 (stdFile 0 zeroPage) := by
  refine ⟨?_, ?_, ?_⟩ <;> decide +kernel

theorem stdout_fourOpen : fourOpen.OpenAt 1 1 8192 (stdFile 1 zeroPage) := by
  refine ⟨?_, ?_, ?_⟩ <;> decide +kernel

theorem full_fourOpen : fourOpen.OpenAt 1 3 12288 ⟨.regular, 3, 0, 1, some 0, regularOps, none⟩ := by
  refine ⟨?_, ?_, ?_⟩ <;> decide +kernel

theorem empty_fourOpen : fourOpen.OpenAt 1 4 16384 ⟨.regular, 3, 0, 1, some 1, regularOps, none⟩ := by
  refine ⟨?_, ?_, ?_⟩ <;> decide +kernel

/-- Three bytes of the one file to the other. -/
theorem sends_iff_of_files :
    fourOpen.SendsOrNot 1 4 3 12288 16384 ⟨.regular, 3, 0, 1, some 0, regularOps, none⟩
        ⟨.regular, 3, 0, 1, some 1, regularOps, none⟩ 3 (some fun _ => 0) ↔
      (3 : UInt32) &&& oRead = 0 ∨ (3 : UInt32) &&& oWrite = 0 ∨
        fourOpen.Sendable 12288 16384 ⟨.regular, 3, 0, 1, some 0, regularOps, none⟩
          ⟨.regular, 3, 0, 1, some 1, regularOps, none⟩ 3 (some fun _ => 0) :=
  sends_iff full_fourOpen empty_fourOpen (by decide) (by decide) (some fun _ => 0)

/-- From a file to the console an error is returned and the cursor of the file has moved. From the keyboard
to a file the error of the read is the count of the write, whose loop turns 2^64 - 1 times. -/
theorem sendfile_errors_change_files :
    let out := fourOpen.doSendfile 1 1 3 none 3 (some fun _ => 0)
    let kbd := fourOpen.doSendfile 1 3 0 none 3 (some fun _ => 0)
    (out.toOption.map fun r => r.1) = some (-einval) ∧
      (out.toOption.map fun r => (r.2.2.files 12288).map File.offp) = some (some 3) ∧
      (kbd.toOption.map fun r => r.1) = some (-1) ∧
      (kbd.toOption.map fun r => (r.2.2.files 12288).map File.offp) = some (some (2 ^ 32 - 1)) ∧
      writeTurns (fourOpen.sb.inode 0) (i32 (u32 (-einval))) 0 = 2 ^ 64 - 1 ∧
      ¬ fourOpen.SendsOrNot 1 1 3 12288 8192 ⟨.regular, 3, 0, 1, some 0, regularOps, none⟩ (stdFile 1 zeroPage) 3
        (some fun _ => 0) ∧
      ¬ fourOpen.SendsOrNot 1 3 0 4096 12288 (stdFile 0 zeroPage) ⟨.regular, 3, 0, 1, some 0, regularOps, none⟩ 3
        (some fun _ => 0) := by
  intro out kbd
  refine ⟨by decide +kernel, by decide +kernel, by decide +kernel, by decide +kernel, by decide +kernel, ?_, ?_⟩
  · rw [sends_some_none_iff full_fourOpen stdout_fourOpen (by decide) (by decide) rfl rfl (by decide) (by decide)]
    decide +kernel
  · exact not_sends_none_some stdin_fourOpen full_fourOpen (by decide) (by decide) rfl rfl

end CS330.Os
