/-
What reading, writing and seeking through a descriptor come to: nothing, or a move of the cursor of
one file object, with the bytes between.
-/
import CS330.Fs.Spec
import CS330.Os.Lifecycle

namespace CS330.Os

open CS330.Lib CS330.Fs

namespace Kernel

variable {k : Kernel} {p : Proc} {fd : Fd} {x : Ptr} {f : File} {i : ℕ}

/-- The cursor of an object is set. -/
def moved (x : Ptr) (f : File) (n : ℕ) (k : Kernel) : Kernel := k.setFile x { f with offp := n }

/-- What a write to inode `i` leaves of the store, with the cursor of the object moved by its return
value. -/
def written (x : Ptr) (f : File) (i : ℕ) (r : ℤ × Inode × Mem) (k : Kernel) : Kernel :=
  { k with sb := { k.sb with inode := Function.update k.sb.inode i r.2.1 }, mem := r.2.2 }.moved x f
    (u32 (f.offp + r.1))

theorem files_moved (k : Kernel) (x : Ptr) (f : File) (n : ℕ) :
    (k.moved x f n).files = Function.update k.files x (some { f with offp := n }) := rfl

theorem files_written (k : Kernel) (x : Ptr) (f : File) (i : ℕ) (r : ℤ × Inode × Mem) :
    (k.written x f i r).files = Function.update k.files x (some { f with offp := u32 (f.offp + r.1) }) := rfl

theorem mem_written (k : Kernel) (x : Ptr) (f : File) (i : ℕ) (r : ℤ × Inode × Mem) :
    (k.written x f i r).mem = r.2.2 := rfl

/-! ## Outcomes -/

/-- The object behind a descriptor of inode `i`, as far as an access with mode bit `bit` gets. -/
structure Reaches (k : Kernel) (p : Proc) (fd : Fd) (x : Ptr) (f : File) (i : ℕ) (bit : UInt32) : Prop where
  slot : k.table p fd = some x
  file : k.files x = some f
  inode : f.inode = some i
  mode : f.mode &&& bit ≠ 0

theorem doReadRegular_none (hf : k.files x = some f) (hi : f.inode = none) (buff : ℕ → UInt8) (count : ℕ) :
    k.doReadRegular x buff count = .ok (-einval, buff, k) := by
  simp only [doReadRegular, file_eq hf, bind, Except.bind, hi]

/-- A read moves the cursor by what it returns. -/
theorem doReadRegular_some (hf : k.files x = some f) (hi : f.inode = some i) (hm : f.mode &&& oRead ≠ 0)
    (buff : ℕ → UInt8) (count : ℕ) : k.doReadRegular x buff count =
      .ok ((flatRead (k.sb.inode i) k.mem buff (i32 count) (i32 f.offp)).1,
        (flatRead (k.sb.inode i) k.mem buff (i32 count) (i32 f.offp)).2,
        k.moved x f (u32 (f.offp + (flatRead (k.sb.inode i) k.mem buff (i32 count) (i32 f.offp)).1))) := by
  simp only [doReadRegular, file_eq hf, bind, Except.bind, hi, if_neg hm, moved]

theorem doWriteRegular_none (hf : k.files x = some f) (hi : f.inode = none) (buff : ℕ → UInt8) (count : ℕ) :
    k.doWriteRegular x buff count = .ok (-einval, k) := by
  simp only [doWriteRegular, file_eq hf, bind, Except.bind, hi]

/-- A write moves the cursor by what it returns. -/
theorem doWriteRegular_some (hf : k.files x = some f) (hi : f.inode = some i) (hm : f.mode &&& oWrite ≠ 0)
    (buff : ℕ → UInt8) (count : ℕ) : k.doWriteRegular x buff count =
      .ok ((flatWrite (k.sb.inode i) k.mem buff (i32 count) (i32 f.offp)).1,
        k.written x f i (flatWrite (k.sb.inode i) k.mem buff (i32 count) (i32 f.offp))) := by
  simp only [doWriteRegular, file_eq hf, bind, Except.bind, hi, if_neg hm, written, moved]

theorem doReadRegular_cases (hf : k.files x = some f) (buff : ℕ → UInt8) (count : ℕ) :
    (∃ ret ≤ 0, k.doReadRegular x buff count = .ok (ret, buff, k)) ∨
    ∃ i, f.inode = some i ∧ f.mode &&& oRead ≠ 0 ∧ k.doReadRegular x buff count =
      .ok ((flatRead (k.sb.inode i) k.mem buff (i32 count) (i32 f.offp)).1,
        (flatRead (k.sb.inode i) k.mem buff (i32 count) (i32 f.offp)).2,
        k.moved x f (u32 (f.offp + (flatRead (k.sb.inode i) k.mem buff (i32 count) (i32 f.offp)).1))) := by
  cases hi : f.inode with
  | none => exact Or.inl ⟨-einval, by decide, doReadRegular_none hf hi buff count⟩
  | some i =>
    by_cases hm : f.mode &&& oRead = 0
    · refine Or.inl ⟨-eacces, by decide, ?_⟩
      simp only [doReadRegular, file_eq hf, bind, Except.bind, hi, if_pos hm]
    · exact Or.inr ⟨i, rfl, hm, doReadRegular_some hf hi hm buff count⟩

theorem doWriteRegular_cases (hf : k.files x = some f) (buff : ℕ → UInt8) (count : ℕ) :
    (∃ ret < 0, k.doWriteRegular x buff count = .ok (ret, k)) ∨
    ∃ i, f.inode = some i ∧ f.mode &&& oWrite ≠ 0 ∧ k.doWriteRegular x buff count =
      .ok ((flatWrite (k.sb.inode i) k.mem buff (i32 count) (i32 f.offp)).1,
        k.written x f i (flatWrite (k.sb.inode i) k.mem buff (i32 count) (i32 f.offp))) := by
  cases hi : f.inode with
  | none => exact Or.inl ⟨-einval, by decide, doWriteRegular_none hf hi buff count⟩
  | some i =>
    by_cases hm : f.mode &&& oWrite = 0
    · refine Or.inl ⟨-eacces, by decide, ?_⟩
      simp only [doWriteRegular, file_eq hf, bind, Except.bind, hi, if_pos hm]
    · exact Or.inr ⟨i, rfl, hm, doWriteRegular_some hf hi hm buff count⟩

/-- A read leaves everything alone, or is one of a regular file that may be read. -/
theorem doFileRead_cases (hlive : ∀ x, k.table p fd = some x → ∃ f, k.files x = some f) (buff : ℕ → UInt8)
    (count : ℕ) (kbd : ℕ → UInt8) :
    (∃ ret buff', k.doFileRead p fd buff count kbd = .ok (ret, buff', k) ∧ (buff' = buff ∨ ∃ x f,
      k.table p fd = some x ∧ k.files x = some f ∧ f.fops.read = some .doReadKbd)) ∨
    ∃ x f i, k.Reaches p fd x f i oRead ∧ k.doFileRead p fd buff count kbd =
      .ok ((flatRead (k.sb.inode i) k.mem buff (i32 (u32 count)) (i32 f.offp)).1,
        (flatRead (k.sb.inode i) k.mem buff (i32 (u32 count)) (i32 f.offp)).2,
        k.moved x f (u32 (f.offp + (flatRead (k.sb.inode i) k.mem buff (i32 (u32 count)) (i32 f.offp)).1))) := by
  unfold doFileRead
  cases hs : k.table p fd with
  | none => exact Or.inl ⟨-einval, buff, rfl, Or.inl rfl⟩
  | some x =>
    obtain ⟨f, hf⟩ := hlive x hs
    simp only [file_eq hf, bind, Except.bind]
    by_cases hm : f.mode &&& oRead = oRead
    · rw [if_neg (not_not.2 hm)]
      cases hop : f.fops.read with
      | none => exact Or.inl ⟨-einval, buff, rfl, Or.inl rfl⟩
      | some op =>
        cases op with
        | doReadKbd => exact Or.inl ⟨1, kbd, rfl, Or.inr ⟨x, f, rfl, hf, hop⟩⟩
        | doReadRegular =>
          rcases doReadRegular_cases hf buff (u32 count) with ⟨ret, -, hr⟩ | ⟨i, hi, hb, hr⟩
          · exact Or.inl ⟨ret, buff, hr, Or.inl rfl⟩
          · exact Or.inr ⟨x, f, i, ⟨hs, hf, hi, hb⟩, hr⟩
    · exact Or.inl ⟨-eacces, buff, by rw [if_pos hm], Or.inl rfl⟩

/-- A write leaves everything alone, or is one to a regular file that may be written. -/
theorem doFileWrite_cases (hlive : ∀ x, k.table p fd = some x → ∃ f, k.files x = some f) (buff : ℕ → UInt8)
    (count : ℕ) (console : ℤ) :
    (∃ ret, k.doFileWrite p fd buff count console = .ok (ret, k)) ∨
    ∃ x f i, k.Reaches p fd x f i oWrite ∧ k.doFileWrite p fd buff count console =
      .ok ((flatWrite (k.sb.inode i) k.mem buff (i32 (u32 count)) (i32 f.offp)).1,
        k.written x f i (flatWrite (k.sb.inode i) k.mem buff (i32 (u32 count)) (i32 f.offp))) := by
  unfold doFileWrite
  cases hs : k.table p fd with
  | none => exact Or.inl ⟨-einval, rfl⟩
  | some x =>
    obtain ⟨f, hf⟩ := hlive x hs
    simp only [file_eq hf, bind, Except.bind]
    by_cases hm : f.mode &&& oWrite = 0
    · exact Or.inl ⟨-eacces, by rw [if_pos hm]⟩
    · rw [if_neg hm]
      cases hop : f.fops.write with
      | none => exact Or.inl ⟨-einval, rfl⟩
      | some op =>
        cases op with
        | doWriteConsole => exact Or.inl ⟨console, rfl⟩
        | doWriteRegular =>
          rcases doWriteRegular_cases hf buff (u32 count) with ⟨ret, -, hr⟩ | ⟨i, hi, hb, hr⟩
          · exact Or.inl ⟨ret, hr⟩
          · exact Or.inr ⟨x, f, i, ⟨hs, hf, hi, hb⟩, hr⟩

/-- A seek leaves everything alone, sets a cursor inside the file, or finds no inode. -/
theorem doLseek_cases (hlive : ∀ x, k.table p fd = some x → ∃ f, k.files x = some f) (offset whence : ℤ) :
    (∃ ret, k.doLseek p fd offset whence = .ok (ret, k)) ∨
    (∃ x f i, ∃ n : ℤ, k.table p fd = some x ∧ k.files x = some f ∧ f.inode = some i ∧ 0 ≤ n ∧
      n ≤ (k.sb.inode i).fileSize ∧ k.doLseek p fd offset whence = .ok (u32 n, k.moved x f (u32 n))) ∨
    k.doLseek p fd offset whence = .error .nullDeref := by
  unfold doLseek
  cases hs : k.table p fd with
  | none => exact Or.inl ⟨-einval, rfl⟩
  | some x =>
    obtain ⟨f, hf⟩ := hlive x hs
    simp only [file_eq hf, bind, Except.bind]
    cases hop : f.fops.lseek with
    | none => exact Or.inl ⟨-einval, rfl⟩
    | some op =>
      simp only [doLseekRegular, file_eq hf, bind, Except.bind]
      by_cases hw : whence = seekSet ∨ whence = seekCur ∨ whence = seekEnd
      · rw [if_pos hw]
        cases hi : f.inode with
        | none => exact Or.inr (Or.inr rfl)
        | some i =>
          simp only
          generalize (if whence = seekSet then offset else _) = n
          by_cases hn : n > (k.sb.inode i).fileSize ∨ n < 0
          · exact Or.inl ⟨-einval, by rw [if_pos hn]⟩
          · refine Or.inr (Or.inl ⟨x, f, i, n, rfl, hf, hi, by omega, by omega, ?_⟩)
            simp only [if_neg hn, moved, hi]
      · exact Or.inl ⟨-einval, by rw [if_neg hw]⟩

/-! ## Cursors and counts -/

/-- Moving a cursor is no matter of the counts. -/
theorem Counted.moved (h : Counted k) (hf : k.files x = some f) (n : ℕ) : Counted (k.moved x f n) := by
  refine ⟨h.refs.congr rfl fun z _ => ?_, h.queues⟩
  rw [files_moved]
  by_cases hz : z = x
  · subst hz
    rw [Function.update_self, hf]
    rfl
  · rw [Function.update_of_ne hz]

theorem Counted.written (h : Counted k) (hf : k.files x = some f) (i : ℕ) (r : ℤ × Inode × Mem) :
    Counted (k.written x f i r) := by
  have hstore : Counted { k with sb := { k.sb with inode := Function.update k.sb.inode i r.2.1 }, mem := r.2.2 } :=
    ⟨h.refs.congr rfl fun _ _ => rfl, h.queues⟩
  exact hstore.moved hf _

end Kernel

end CS330.Os
