/-
Files keep to their own bytes: over whole runs, a write stays inside the region of the file it is
made to, a read returns bytes of the content of its file, and every cursor stays inside the content.
What can break this is a cursor that a failed write takes back below zero.
-/
import CS330.Os.Cursor

namespace CS330.Os

open CS330.Lib CS330.Fs

namespace Kernel

/-- An open description of inode `i`, its cursor inside the content. -/
structure InStore (sb : SuperBlock) (f : File) (i : ℕ) : Prop where
  known : i < numInodes
  valid : (sb.inode i).isValid = true
  ops : f.fops.read = some .doReadRegular ∧ f.fops.write = some .doWriteRegular
  cursor : f.offp ≤ (sb.inode i).fileSize

/-- The store is laid out in disjoint regions, and every open description of a file is inside it. -/
structure Sound (k : Kernel) : Prop where
  counted : Counted k
  laid : ∀ i < numInodes, Laid (k.sb.inode i)
  apart : ∀ i < numInodes, ∀ j < numInodes, i ≠ j →
    (k.sb.inode i).ePos ≤ (k.sb.inode j).sPos ∨ (k.sb.inode j).ePos ≤ (k.sb.inode i).sPos
  regular : ∀ x f i, k.files x = some f → f.inode = some i → InStore k.sb f i

variable {k k' : Kernel} {p : Proc} {fd : Fd} {x : Ptr} {f : File} {i : ℕ}

/-! ## Sharing and opening -/

/-- Regions stay where they are, content does not shrink, valid inodes stay valid. -/
structure Extends (sb sb' : SuperBlock) : Prop where
  sPos : ∀ i < numInodes, (sb'.inode i).sPos = (sb.inode i).sPos
  ePos : ∀ i < numInodes, (sb'.inode i).ePos = (sb.inode i).ePos
  laid : ∀ i < numInodes, Laid (sb'.inode i)
  valid : ∀ i < numInodes, (sb.inode i).isValid = true →
    (sb'.inode i).isValid = true ∧ (sb.inode i).fileSize ≤ (sb'.inode i).fileSize

theorem Extends.refl {sb : SuperBlock} (h : ∀ i < numInodes, Laid (sb.inode i)) : Extends sb sb :=
  ⟨fun _ _ => rfl, fun _ _ => rfl, h, fun _ _ hv => ⟨hv, le_rfl⟩⟩

theorem InStore.extends {sb sb' : SuperBlock} (h : InStore sb f i) (hx : Extends sb sb') : InStore sb' f i :=
  ⟨h.known, (hx.valid i h.known h.valid).1, h.ops, h.cursor.trans (hx.valid i h.known h.valid).2⟩

/-- What a call must show of the objects it leaves. -/
theorem Sound.of_files (h : Sound k) (hc : Counted k') (hx : Extends k.sb k'.sb)
    (hf : ∀ x f i, k'.files x = some f → f.inode = some i → InStore k'.sb f i) : Sound k' := by
  refine ⟨hc, hx.laid, fun i hi j hj hij => ?_, hf⟩
  rw [hx.sPos i hi, hx.sPos j hj, hx.ePos i hi, hx.ePos j hj]
  exact h.apart i hi j hj hij

/-- Counts have no part in it. -/
theorem Sound.counts (h : Sound k) (hc : Counted k') (hk : OnlyCounts k k') : Sound k' := by
  refine h.of_files hc (by rw [hk.sb]; exact .refl h.laid) fun x g i hg hi => ?_
  obtain ⟨f, hf, c, rfl⟩ := hk.files x g hg
  obtain ⟨hn, hv, ho, hp⟩ := h.regular x f i hf hi
  rw [hk.sb]
  exact ⟨hn, hv, ho, hp⟩

/-- One object more or changed. -/
theorem Sound.update (h : Sound k) (hc : Counted k') (hx : Extends k.sb k'.sb) {v : Option File}
    (hf : k'.files = Function.update k.files x v) (hv : ∀ f ∈ v, ∀ i, f.inode = some i → InStore k'.sb f i) :
    Sound k' := by
  refine h.of_files hc hx fun z g i hg hi => ?_
  rw [hf] at hg
  by_cases hz : z = x
  · subst hz
    rw [Function.update_self] at hg
    exact hv g hg i hi
  · rw [Function.update_of_ne hz] at hg
    exact (h.regular z g i hg hi).extends hx

theorem Finds.extends {filename : List UInt8} {mode : UInt64} {sb : SuperBlock} (h : Sound k)
    (hfinds : k.Finds filename mode i sb) : Extends k.sb sb := by
  obtain ⟨-, -, hother, hmade⟩ := hfinds.spec
  -- only an inode that was free is made over
  rcases hmade with ⟨-, rfl⟩ | ⟨hold, hnew⟩
  · exact .refl h.laid
  · constructor
    · intro j _
      by_cases hj : j = i
      · rw [hj, hnew]
      · rw [hother j hj]
    · intro j _
      by_cases hj : j = i
      · rw [hj, hnew]
      · rw [hother j hj]
    · intro j hjn
      by_cases hj : j = i
      · have hl := h.laid j hjn
        rw [hj] at hl ⊢
        rw [hnew]
        exact ⟨hl.room, hl.bound, rfl, Nat.zero_le _⟩
      · rw [hother j hj]
        exact h.laid j hjn
    · intro j _ hv
      have hj : j ≠ i := by
        rintro rfl
        rw [hold] at hv
        cases hv
      rw [hother j hj]
      exact ⟨hv, le_rfl⟩

theorem Sound.openFile (h : Sound k) (hc : Counted k') {filename : List UInt8} {flags mode : UInt64} {held : File}
    {ret : ℤ} (hret : k.doRegularFileOpen p filename flags mode (some (x, held)) = .ok (ret, k')) : Sound k' := by
  rcases doRegularFileOpen_ok hret with rfl | ⟨i, sb, hfinds, rfl, -, hfiles⟩
  · exact h
  · refine h.update hc (hfinds.extends h) hfiles fun g hg j hj => ?_
    obtain rfl := Option.some.inj hg
    obtain rfl := Option.some.inj hj
    exact ⟨hfinds.spec.1, hfinds.spec.2.1, ⟨rfl, rfl⟩, Nat.zero_le _⟩

theorem Sound.openStd (h : Sound k) (hc : Counted k') {type : StdType} {held : File} {ret : ℤ}
    (hwiped : k.table p (stdFd type) = none → held.inode = none)
    (hret : k.openStandardIo p type (some (x, held)) = .ok (ret, k')) : Sound k' := by
  rcases openStandardIo_ok (fun y hy => h.counted.refs.live y (used_of_slot hy)) hret with hk | ⟨hs, hsb, -, hfiles⟩
  · exact h.counts hc hk
  · refine h.update hc (by rw [hsb]; exact .refl h.laid) hfiles fun g hg j hj => ?_
    obtain rfl := Option.some.inj hg
    have hnone : (stdFile type held).inode = none := hwiped hs
    rw [hnone] at hj
    cases hj

/-! ## Cursors -/

theorem Sound.moved (h : Sound k) (hf : k.files x = some f) {n : ℕ}
    (hn : ∀ i, f.inode = some i → n ≤ (k.sb.inode i).fileSize) : Sound (k.moved x f n) := by
  refine h.update (h.counted.moved hf n) (.refl h.laid) (files_moved ..) fun g hg i hi => ?_
  obtain rfl := Option.some.inj hg
  obtain ⟨hk, hv, ho, -⟩ := h.regular x f i hf hi
  exact ⟨hk, hv, ho, hn i hi⟩

/-- Where the cursor of an open description is, as the file system reads it. -/
theorem Sound.offp (h : Sound k) (hf : k.files x = some f) (hi : f.inode = some i) :
    f.offp ≤ maxFileSize ∧ i32 f.offp = f.offp := by
  obtain ⟨hn, -, -, hc⟩ := h.regular x f i hf hi
  have hfits := (h.laid i hn).fits
  simp only [maxFileSize] at hfits ⊢
  exact ⟨by omega, i32_of_range (by omega) (by omega)⟩

/-- What a write to inode `i` that fits leaves. -/
def stored (x : Ptr) (f : File) (i n : ℕ) (buff : ℕ → UInt8) (k : Kernel) : Kernel :=
  k.written x f i (n, grown (k.sb.inode i) f.offp n, copyIn k.mem ((k.sb.inode i).sPos + f.offp) n buff)

theorem Sound.stored (h : Sound k) (hf : k.files x = some f) (hi : f.inode = some i) {n : ℕ}
    (hle : f.offp + n ≤ maxFileSize) (buff : ℕ → UInt8) : Sound (k.stored x f i n buff) := by
  obtain ⟨hn, hv, ho, hc⟩ := h.regular x f i hf hi
  have hinode : ∀ j, (k.stored x f i n buff).sb.inode j =
      if j = i then grown (k.sb.inode i) f.offp n else k.sb.inode j := fun j => Function.update_apply ..
  -- only the inode written changes, and it only grows
  have hx : Extends k.sb (k.stored x f i n buff).sb := by
    constructor
    · intro j _
      rw [hinode]
      split
      · subst j; rfl
      · rfl
    · intro j _
      rw [hinode]
      split
      · subst j; rfl
      · rfl
    · intro j hj
      rw [hinode]
      split
      · exact laid_grown (h.laid i hn) hle
      · exact h.laid j hj
    · intro j _ hvj
      rw [hinode]
      split
      · subst j
        exact ⟨hv, le_max_left ..⟩
      · exact ⟨hvj, le_rfl⟩
  refine h.update (h.counted.written hf ..) hx (files_written ..) fun g hg j hj => ?_
  obtain rfl := Option.some.inj hg
  obtain rfl := Option.some.inj (hi.symm.trans hj)
  refine ⟨hn, (hx.valid i hn hv).1, ho, ?_⟩
  -- the cursor stops at the end of what was written
  have hsize : u32 ((f.offp : ℤ) + n) = f.offp + n := by
    simp only [maxFileSize] at hle
    unfold u32
    omega
  rw [hinode, if_pos rfl]
  exact hsize.trans_le (le_max_right ..)

/-! ## Reading, writing and seeking -/

/-- A write at the cursor either fits and is stored, or fails and takes the cursor back by one. -/
theorem Sound.doFileWrite_eq (h : Sound k) (hr : k.Reaches p fd x f i oWrite) (buff : ℕ → UInt8) {count n : ℕ}
    (hn : i32 (u32 count) = n) (console : ℤ) :
    k.doFileWrite p fd buff count console = if f.offp + n ≤ maxFileSize then .ok (n, k.stored x f i n buff)
      else .ok (-1, k.moved x f (u32 (f.offp + -1))) := by
  obtain ⟨hs, hf, hi, hm⟩ := hr
  obtain ⟨hk, -, ho, -⟩ := h.regular x f i hf hi
  have hrun : k.doFileWrite p fd buff count console =
      .ok ((flatWrite (k.sb.inode i) k.mem buff (i32 (u32 count)) (i32 f.offp)).1,
        k.written x f i (flatWrite (k.sb.inode i) k.mem buff (i32 (u32 count)) (i32 f.offp))) := by
    simp only [doFileWrite, hs, file_eq hf, bind, Except.bind, if_neg hm, ho.2, doWriteRegular, hi, written,
      Kernel.moved]
  rw [hrun, hn, (h.offp hf hi).2]
  split
  · rename_i hle
    rw [flatWrite_of_le (h.laid i hk) k.mem buff hle]
    rfl
  · rename_i hgt
    rw [flatWrite_of_gt (h.laid i hk) k.mem buff (not_le.1 hgt)]
    simp only [written, Function.update_eq_self]

theorem Sound.doFileRead_eq (h : Sound k) (hs : k.table p fd = some x) (hf : k.files x = some f)
    (hi : f.inode = some i) (buff : ℕ → UInt8) {count n : ℕ} (hn : i32 (u32 count) = n) (kbd : ℕ → UInt8) :
    (∃ ret ≤ 0, k.doFileRead p fd buff count kbd = .ok (ret, buff, k)) ∨
    k.doFileRead p fd buff count kbd = .ok (((min n ((k.sb.inode i).fileSize - f.offp) : ℕ) : ℤ),
      copyIn buff 0 (min n ((k.sb.inode i).fileSize - f.offp)) fun j => k.mem ((k.sb.inode i).sPos + f.offp + j),
      k.moved x f (u32 (f.offp + (min n ((k.sb.inode i).fileSize - f.offp) : ℕ)))) := by
  obtain ⟨hk, -, ho, -⟩ := h.regular x f i hf hi
  simp only [doFileRead, hs, file_eq hf, bind, Except.bind, ho.1]
  by_cases hm : f.mode &&& oRead = oRead
  · rw [if_neg (not_not.2 hm)]
    rcases doReadRegular_cases hf buff (u32 count) with ⟨ret, hret, hrun⟩ | ⟨j, hj, -, hrun⟩
    · exact Or.inl ⟨ret, hret, hrun⟩
    · obtain rfl := Option.some.inj (hi.symm.trans hj)
      refine Or.inr ?_
      rw [hrun, hn, (h.offp hf hi).2, flatRead_eq (h.laid i hk)]
  · exact Or.inl ⟨-eacces, by decide, by rw [if_pos hm]⟩

/-- No byte and no valid inode differs. -/
def SameStore (k k' : Kernel) : Prop :=
  k'.mem = k.mem ∧ ∀ i, (k.sb.inode i).isValid = true → k'.sb.inode i = k.sb.inode i

theorem OnlyCounts.sameStore (h : OnlyCounts k k') : SameStore k k' := ⟨h.mem, fun i _ => by rw [h.sb]⟩

theorem Sound.read (h : Sound k) (p : Proc) (fd : Fd) (buff kbd : ℕ → UInt8) {count : ℕ}
    (hcount : 0 ≤ i32 (u32 count)) :
    ∃ r, k.doFileRead p fd buff count kbd = .ok r ∧ Sound r.2.2 ∧ SameStore k r.2.2 := by
  rcases doFileRead_cases (fun y hy => h.counted.refs.live y (used_of_slot hy)) buff count kbd with
    ⟨ret, buff', hret, -⟩ | ⟨x, f, i, ⟨hs, hf, hi, -⟩, -⟩
  · exact ⟨_, hret, h, rfl, fun _ _ => rfl⟩
  · obtain ⟨n, hn⟩ := Int.eq_ofNat_of_zero_le hcount
    rcases h.doFileRead_eq hs hf hi buff hn kbd with ⟨ret, -, hret⟩ | hret
    · exact ⟨_, hret, h, rfl, fun _ _ => rfl⟩
    · refine ⟨_, hret, h.moved hf fun j hj => ?_, rfl, fun _ _ => rfl⟩
      obtain rfl := Option.some.inj (hi.symm.trans hj)
      obtain ⟨hk, -, -, hc⟩ := h.regular x f i hf hi
      have hfits := (h.laid i hk).fits
      simp only [maxFileSize] at hfits
      unfold u32
      omega

theorem Sound.lseek (h : Sound k) {offset whence : ℤ} {ret : ℤ}
    (hret : k.doLseek p fd offset whence = .ok (ret, k')) : Sound k' ∧ SameStore k k' := by
  rcases doLseek_cases (fun y hy => h.counted.refs.live y (used_of_slot hy)) offset whence with
    ⟨ret', he⟩ | ⟨x, f, i, n, hs, hf, hi, hn, hsize, he⟩ | he
  · rw [he] at hret
    obtain ⟨-, rfl⟩ := Prod.mk.inj (Except.ok.inj hret)
    exact ⟨h, rfl, fun _ _ => rfl⟩
  · rw [he] at hret
    obtain ⟨-, rfl⟩ := Prod.mk.inj (Except.ok.inj hret)
    refine ⟨h.moved hf fun j hj => ?_, rfl, fun _ _ => rfl⟩
    obtain rfl := Option.some.inj (hi.symm.trans hj)
    have hfits := (h.laid i (h.regular x f i hf hi).known).fits
    simp only [maxFileSize] at hfits
    unfold u32
    omega
  · rw [he] at hret
    cases hret

/-- The call is a write through a descriptor of inode `i` that may be written. -/
def WritesTo (k : Kernel) (c : Call) (i : ℕ) : Prop :=
  ∃ p fd buff count console x f, c = .write p fd buff count console ∧ k.Reaches p fd x f i oWrite

/-- A byte that changes lies in the region of the file written to, and the content of no other file
changes. -/
structure Isolated (k : Kernel) (c : Call) (k' : Kernel) : Prop where
  bytes : ∀ a, k'.mem a ≠ k.mem a → ∃ i, k.WritesTo c i ∧ (k.sb.inode i).sPos ≤ a ∧ a < (k.sb.inode i).ePos
  others : ∀ i < numInodes, (k.sb.inode i).isValid = true → ¬ k.WritesTo c i →
    content (k'.sb.inode i) k'.mem = content (k.sb.inode i) k.mem

theorem SameStore.isolated (h : SameStore k k') (c : Call) : Isolated k c k' := by
  constructor
  · intro a ha
    rw [h.1] at ha
    exact absurd rfl ha
  · intro i _ hv _
    rw [h.1, h.2 i hv]

theorem Sound.stored_isolated (h : Sound k) (hr : k.Reaches p fd x f i oWrite) (buff : ℕ → UInt8) {count n : ℕ}
    (console : ℤ) (hle : f.offp + n ≤ maxFileSize) :
    Isolated k (.write p fd buff count console) (k.stored x f i n buff) := by
  have hw : k.WritesTo (.write p fd buff count console) i := ⟨p, fd, buff, count, console, x, f, rfl, hr⟩
  have hk := (h.regular x f i hr.file hr.inode).known
  have hroom := (h.laid i hk).room
  have hmem : (k.stored x f i n buff).mem = copyIn k.mem ((k.sb.inode i).sPos + f.offp) n buff := rfl
  constructor
  · intro a ha
    rw [hmem, copyIn_apply] at ha
    split at ha
    · exact ⟨i, hw, by omega, by omega⟩
    · exact absurd rfl ha
  · intro j hj _ hother
    have hji : j ≠ i := by
      rintro rfl
      exact hother hw
    have hinode : (k.stored x f i n buff).sb.inode j = k.sb.inode j := Function.update_of_ne hji ..
    have hfits := (h.laid j hj).fits
    have hroomj := (h.laid j hj).room
    rw [hinode, hmem]
    refine region_copyIn_disjoint _ ?_
    rcases h.apart j hj i hk hji with hbelow | habove
    · exact Or.inl (by omega)
    · exact Or.inr (by omega)

/-- A write is isolated; it leaves cursors inside, unless it fails at the start of the file. -/
theorem Sound.write (h : Sound k) (p : Proc) (fd : Fd) (buff : ℕ → UInt8) {count : ℕ} (console : ℤ)
    (hcount : 0 ≤ i32 (u32 count)) :
    ∃ ret k', k.doFileWrite p fd buff count console = .ok (ret, k') ∧ Isolated k (.write p fd buff count console) k' ∧
      ((∀ x f i, k.Reaches p fd x f i oWrite → f.offp = 0 → i32 (u32 count) ≤ maxFileSize) → Sound k') := by
  rcases doFileWrite_cases (fun y hy => h.counted.refs.live y (used_of_slot hy)) buff count console with
    ⟨ret, hret⟩ | ⟨x, f, i, hr, -⟩
  · exact ⟨ret, k, hret, SameStore.isolated ⟨rfl, fun _ _ => rfl⟩ _, fun _ => h⟩
  · obtain ⟨n, hn⟩ := Int.eq_ofNat_of_zero_le hcount
    rw [h.doFileWrite_eq hr buff hn console]
    split
    · rename_i hle
      exact ⟨n, _, rfl, h.stored_isolated hr buff console hle, fun _ => h.stored hr.file hr.inode hle buff⟩
    · rename_i hgt
      have hsame : SameStore k (k.moved x f (u32 (f.offp + -1))) := ⟨rfl, fun _ _ => rfl⟩
      refine ⟨-1, _, rfl, hsame.isolated _, fun hcare => h.moved hr.file fun j hj => ?_⟩
      obtain rfl := Option.some.inj (hr.inode.symm.trans hj)
      -- the cursor was not at the start, where a write this long is excluded
      have hpos : f.offp ≠ 0 := fun h0 => by
        have := hcare x f i hr h0
        omega
      have hoff := (h.offp hr.file hr.inode).1
      have hcur := (h.regular x f i hr.file hr.inode).cursor
      simp only [maxFileSize] at hoff
      unfold u32
      omega

/-- A write that fails at the start of a file takes the cursor below zero, to the largest one. -/
theorem Sound.write_wraps (h : Sound k) (hr : k.Reaches p fd x f i oWrite) (h0 : f.offp = 0) (buff : ℕ → UInt8)
    {count : ℕ} (console : ℤ) (hcount : (maxFileSize : ℤ) < i32 (u32 count)) :
    k.doFileWrite p fd buff count console = .ok (-1, k.moved x f (2 ^ 32 - 1)) := by
  obtain ⟨n, hn⟩ := Int.eq_ofNat_of_zero_le (show 0 ≤ i32 (u32 count) by omega)
  rw [h.doFileWrite_eq hr buff hn console, if_neg (by omega), h0]
  rfl

theorem Finds.sameStore {filename : List UInt8} {mode : UInt64} {sb : SuperBlock}
    (hfinds : k.Finds filename mode i sb) (hsb : k'.sb = sb) (hmem : k'.mem = k.mem) : SameStore k k' := by
  obtain ⟨-, -, hother, hmade⟩ := hfinds.spec
  refine ⟨hmem, fun j hv => ?_⟩
  rw [hsb]
  by_cases hj : j = i
  · rcases hmade with ⟨-, rfl⟩ | ⟨hold, -⟩
    · rfl
    · rw [hj, hold] at hv
      cases hv
  · exact hother j hj

/-! ## Runs -/

/-- Every open description of a file has its cursor inside the content, and the content lies inside
the region. -/
def Bounded (k : Kernel) : Prop :=
  ∀ x f i, k.files x = some f → f.inode = some i → f.offp ≤ (k.sb.inode i).fileSize ∧
    (k.sb.inode i).maxPos = (k.sb.inode i).sPos + (k.sb.inode i).fileSize ∧ (k.sb.inode i).maxPos ≤ (k.sb.inode i).ePos

/-- What a read through a descriptor of a file returns are bytes of the file's content, and the rest
of the buffer is left alone. -/
def ReadsInside (k : Kernel) : Call → Prop
  | .read p fd buff count kbd => ∀ x f i ret buff' k', k.table p fd = some x → k.files x = some f → f.inode = some i →
      k.doFileRead p fd buff count kbd = .ok (ret, buff', k') →
      (∀ j : ℕ, j < ret → ∃ a, (k.sb.inode i).sPos ≤ a ∧ a < (k.sb.inode i).sPos + (k.sb.inode i).fileSize ∧
        buff' j = k.mem a) ∧ ∀ j : ℕ, ret ≤ j → buff' j = buff j
  | _ => True

theorem Sound.bounded (h : Sound k) : k.Bounded := by
  intro x f i hf hi
  obtain ⟨hk, -, -, hc⟩ := h.regular x f i hf hi
  have hl := h.laid i hk
  have hroom := hl.room
  have hmax := hl.maxPos
  have hfits := hl.fits
  exact ⟨hc, hmax, by omega⟩

theorem Sound.reads (h : Sound k) {buff kbd : ℕ → UInt8} {count : ℕ} (hcount : 0 ≤ i32 (u32 count)) :
    k.ReadsInside (.read p fd buff count kbd) := by
  intro x f i ret buff' k' hs hf hi hret
  obtain ⟨n, hn⟩ := Int.eq_ofNat_of_zero_le hcount
  rcases h.doFileRead_eq hs hf hi buff hn kbd with ⟨ret', hneg, he⟩ | he
  · rw [he] at hret
    obtain ⟨rfl, hrest⟩ := Prod.mk.inj (Except.ok.inj hret)
    obtain ⟨rfl, -⟩ := Prod.mk.inj hrest
    exact ⟨fun j hj => by omega, fun _ _ => rfl⟩
  · rw [he] at hret
    obtain ⟨rfl, hrest⟩ := Prod.mk.inj (Except.ok.inj hret)
    obtain ⟨rfl, -⟩ := Prod.mk.inj hrest
    constructor
    · intro j hj
      refine ⟨(k.sb.inode i).sPos + f.offp + j, by omega, by omega, ?_⟩
      rw [copyIn_apply, if_pos (by omega), Nat.sub_zero]
    · intro j hj
      rw [copyIn_apply, if_neg (by omega)]

end Kernel

namespace Call

open Kernel

/-- The calls on files, and reading, writing and seeking. -/
def OnStore : Call → Prop
  | read .. | write .. | lseek .. => True
  | c => c.OnFiles

/-- A stream is put on a page that names no inode: `create_standard_IO` leaves what it finds there. -/
def Wiped (k : Kernel) : Call → Prop
  | openStd p type page => k.table p (stdFd type) = none → ∀ x ∈ page, x.2.inode = none
  | _ => True

/-- A count that is non-negative as `int`. -/
def CountInt : Call → Prop
  | read _ _ _ count _ | write _ _ _ count _ => 0 ≤ i32 (u32 count)
  | _ => True

/-- At the start of a file no more is written than fits. -/
def FitsStart (k : Kernel) : Call → Prop
  | write p fd _ count _ => ∀ x ∈ k.table p fd, ∀ f ∈ k.files x, f.inode.isSome = true → f.mode &&& oWrite ≠ 0 →
      f.offp = 0 → i32 (u32 count) ≤ maxFileSize
  | _ => True

instance (c : Call) : Decidable c.OnStore := by
  rcases c <;> unfold OnStore <;> infer_instance

instance (k : Kernel) (c : Call) : Decidable (c.Wiped k) := by
  rcases c <;> unfold Wiped <;> infer_instance

instance (c : Call) : Decidable c.CountInt := by
  rcases c <;> unfold CountInt <;> infer_instance

instance (k : Kernel) (c : Call) : Decidable (c.FitsStart k) := by
  rcases c <;> unfold FitsStart <;> infer_instance

end Call

/-- A call on the store that the system can make. -/
structure StoreCall (k : Kernel) (c : Call) : Prop where
  onStore : c.OnStore
  legal : c.Legal k
  served : c.Served
  wiped : c.Wiped k
  count : c.CountInt

namespace Kernel

variable {k k' : Kernel} {c : Call} {ret : ℤ}

theorem exec_inj {r r' : ℤ × Kernel} {e : Except Fault (ℤ × Kernel)} (h : e = .ok r)
    (h' : e = .ok r') : r.2 = r'.2 := by
  rw [h] at h'
  exact congrArg Prod.snd (Except.ok.inj h')

/-- A call that changes no file other than in its counts keeps the store as it is. -/
theorem Sound.share (h : Sound k) (hsh : Shares k k') : Isolated k c k' ∧ (c.FitsStart k → Sound k') :=
  ⟨hsh.keeps.sameStore.isolated c, fun _ => h.counts hsh.counted hsh.keeps⟩

theorem Sound.opens (h : Sound k) (hc : FileCall k c) (hcare : c.Careful k) (hret : c.exec 1 k = .ok (ret, k')) :
    Counted k' := by
  obtain ⟨ret', k'', he, hcount, -⟩ := h.counted.step hc hcare
  obtain rfl : k' = k'' := exec_inj hret he
  exact hcount

/-- One call: it is isolated, and cursors stay inside unless a write fails at the start of a file. -/
theorem Sound.step (h : Sound k) (hc : StoreCall k c) (hcare : c.Careful k) (hret : c.exec 1 k = .ok (ret, k')) :
    Isolated k c k' ∧ (c.FitsStart k → Sound k') := by
  obtain ⟨hon, hlegal, hserved, hwiped, hcount⟩ := hc
  cases c with
  | openFile p filename flags mode page =>
    obtain ⟨⟨x, f⟩, rfl⟩ := Option.isSome_iff_exists.1 hserved
    have hfile : FileCall k (.openFile p filename flags mode (some (x, f))) := ⟨trivial, hlegal, hserved⟩
    have hcounted := h.opens hfile hcare hret
    refine ⟨?_, fun _ => h.openFile hcounted hret⟩
    rcases doRegularFileOpen_ok hret with rfl | ⟨i, sb, hfinds, hsb, hmem, -⟩
    · exact (SameStore.isolated ⟨rfl, fun _ _ => rfl⟩ _)
    · exact (hfinds.sameStore hsb hmem).isolated _
  | openStd p type page =>
    obtain ⟨⟨x, f⟩, rfl⟩ := Option.isSome_iff_exists.1 hserved
    have hfile : FileCall k (.openStd p type (some (x, f))) := ⟨trivial, hlegal, hserved⟩
    have hcounted := h.opens hfile hcare hret
    refine ⟨?_, fun _ => h.openStd hcounted (fun hs => hwiped hs _ rfl) hret⟩
    rcases openStandardIo_ok (fun y hy => h.counted.refs.live y (used_of_slot hy)) hret with hk | ⟨-, hsb, hmem, -⟩
    · exact hk.sameStore.isolated _
    · exact SameStore.isolated ⟨hmem, fun _ _ => by rw [hsb]⟩ _
  | read p fd buff count kbd =>
    obtain ⟨r, hr, hsound, hsame⟩ := h.read p fd buff kbd hcount
    have he : (Call.read p fd buff count kbd).exec 1 k = .ok (r.1, r.2.2) := by
      simp only [Call.exec, hr, Functor.map, Except.map]
    obtain rfl : k' = r.2.2 := exec_inj hret he
    exact ⟨hsame.isolated _, fun _ => hsound⟩
  | write p fd buff count console =>
    obtain ⟨ret', k'', he, hiso, hsound⟩ := h.write p fd buff console hcount
    obtain rfl : k' = k'' := exec_inj hret he
    -- only a write that fails at the start takes the cursor outside
    refine ⟨hiso, fun hfit => hsound fun x f i hr h0 => ?_⟩
    exact hfit x hr.slot f hr.file (by rw [hr.inode]; rfl) hr.mode h0
  | lseek p fd offset whence =>
    obtain ⟨hsound, hsame⟩ := h.lseek hret
    exact ⟨hsame.isolated _, fun _ => hsound⟩
  | dup2 p old new =>
    obtain ⟨ret', k'', he, hsh⟩ := h.counted.dup2 hcare
    obtain rfl : k' = k'' := exec_inj hret he
    exact h.share hsh
  | close p fd unset =>
    obtain ⟨ret', k'', he, hsh⟩ := h.counted.close p fd unset
    obtain rfl : k' = k'' := exec_inj hret he
    exact h.share hsh
  | fork p child =>
    obtain ⟨ret', k'', he, hsh⟩ := h.counted.fork hcare hlegal.child
    obtain rfl : k' = k'' := exec_inj hret he
    exact h.share hsh
  | exit p =>
    obtain ⟨k'', hk'', hsh⟩ := h.counted.exit hcare
    have he : (Call.exit p).exec 1 k = .ok (0, k'') := by simp only [Call.exec, hk'', Functor.map, Except.map]
    obtain rfl : k' = k'' := exec_inj hret he
    exact h.share hsh
  | sendfile | createQueue | msg | closeQueue => exact hon.elim

/-- A write that fails at the start of a file leaves a cursor outside. -/
theorem Sound.unbounded (h : Sound k) (hc : StoreCall k c) (hfit : ¬ c.FitsStart k)
    (hret : c.exec 1 k = .ok (ret, k')) :
    ¬ k'.Bounded := by
  cases c with
  | write p fd buff count console =>
    simp only [Call.FitsStart, not_forall] at hfit
    obtain ⟨x, hs, f, hf, hi, hm, h0, hlong⟩ := hfit
    obtain ⟨i, hi⟩ := Option.isSome_iff_exists.1 hi
    have he := h.write_wraps ⟨hs, hf, hi, hm⟩ h0 buff console (not_le.1 hlong)
    obtain rfl : k' = k.moved x f (2 ^ 32 - 1) := exec_inj hret he
    intro hb
    have hlarge : 2 ^ 32 - 1 ≤ (k.sb.inode i).fileSize :=
      (hb x { f with offp := 2 ^ 32 - 1 } i (Function.update_self ..) hi).1
    have hfits := (h.laid i (h.regular x f i hf hi).known).fits
    simp only [maxFileSize] at hfits
    omega
  | _ => exact absurd trivial hfit

end Kernel

/-- The frames of the store, as the frame allocator hands them out: different ones, below the 32-bit
bound. -/
structure Frames (pfn : ℕ → ℕ) (d : Disk) : Prop where
  fits : ∀ i < numInodes, (pfn (frameOf d.next i) + 1) * pageSize < 2 ^ 32
  distinct : ∀ i < numInodes, ∀ j < numInodes, pfn (frameOf d.next i) = pfn (frameOf d.next j) → i = j

/-- A call on the store that came back, with no write that fails at the start of a file. -/
structure StoreStep (k : Kernel) (c : Call) (k' : Kernel) : Prop where
  call : StoreCall k c
  fits : c.FitsStart k
  exec : ∃ ret, c.exec 1 k = .ok (ret, k')

section Runs

variable {pfn : ℕ → ℕ} {sb : SuperBlock} {d : Disk} {k₀ k : Kernel} {cs : List Call}

theorem sound_init (hframes : Frames pfn d) (h₀ : k₀.Idle) (hsb : k₀.sb = (initFileSystem pfn sb d).1) : k₀.Sound := by
  refine ⟨h₀.counted, fun i hi => ?_, fun i hi j hj hij => ?_, fun x f i hf => ?_⟩
  · rw [hsb]
    exact laid_initFileSystem sb hi (hframes.fits i hi)
  · have hne := mt (hframes.distinct i hi j hj) hij
    have hfi := hframes.fits i hi
    have hfj := hframes.fits j hj
    rw [hsb, inode_initFileSystem pfn sb d hi, inode_initFileSystem pfn sb d hj]
    generalize pfn (frameOf d.next i) = a at *
    generalize pfn (frameOf d.next j) = b at *
    simp only [freshInode, pageSize, maxFileSize] at *
    unfold u32 u64
    omega
  · rw [h₀.files] at hf
    cases hf

/-- In every state that calls lead to, none of them a write that fails at the start of a file, every
cursor is inside its content. A next call reads inside the content of its file and writes inside the
region of its file, and leaves every cursor inside if and only if it is no such write either. -/
theorem run_isolated (hframes : Frames pfn d) (h₀ : k₀.Idle) (hsb : k₀.sb = (initFileSystem pfn sb d).1)
    (hrun : Run StoreStep k₀ cs k) :
    k.Bounded ∧ ∀ c, StoreCall k c → k.ReadsInside c ∧ ∀ ret k', c.exec 1 k = .ok (ret, k') →
      k.Isolated c k' ∧ (k'.Bounded ↔ c.FitsStart k) := by
  have hstep : ∀ k c ret k', k.Sound → StoreCall k c → c.exec 1 k = .ok (ret, k') →
      k.Isolated c k' ∧ (c.FitsStart k → k'.Sound) := by
    intro k c ret k' h hc hret
    by_cases hcare : c.Careful k
    · exact h.step hc hcare hret
    · obtain ⟨e, he⟩ := h.counted.careless hcare
      rw [he] at hret
      cases hret
  have hinv : k.Sound := by
    refine hrun.invariant (sound_init hframes h₀ hsb) fun k c k' h hs => ?_
    obtain ⟨ret, hret⟩ := hs.exec
    exact (hstep k c ret k' h hs.call hret).2 hs.fits
  refine ⟨hinv.bounded, fun c hc => ⟨?_, fun ret k' hret => ?_⟩⟩
  · cases c with
    | read p fd buff count kbd => exact hinv.reads hc.count
    | _ => trivial
  · obtain ⟨hiso, hsound⟩ := hstep k c ret k' hinv hc hret
    refine ⟨hiso, fun hb => ?_, fun hfit => (hsound hfit).bounded⟩
    by_contra hfit
    exact hinv.unbounded hc hfit hret hb

end Runs

theorem run_store {k : Kernel} {cs : List Call}
    (h : Scripted (Call.next 1) (fun k c =>
      (c.OnStore ∧ c.Legal k ∧ c.Served ∧ c.Wiped k ∧ c.CountInt ∧ c.FitsStart k) ∧ c.returns 1 k = true) k cs) :
    Run StoreStep k (script (Call.next 1) k cs).1 (script (Call.next 1) k cs).2 := by
  refine Run.script (Call.next 1) _ ?_ h
  rintro k c ⟨⟨hon, hlegal, hserved, hwiped, hcount, hfit⟩, hret⟩
  exact ⟨⟨hon, hlegal, hserved, hwiped, hcount⟩, hfit, Call.exec_next hret⟩

/-- Creating three files and opening each for reading and writing. -/
def threeFiles : List Call :=
  [.openFile 1 [97] 11 3 (some (4096, zeroPage)), .openFile 1 [98] 11 3 (some (8192, zeroPage)),
    .openFile 1 [99] 11 3 (some (12288, zeroPage))]

/-- Process 1 writes to the second of three files, seeks to its start and reads it through a
duplicate. -/
theorem run_isolated_of_three :
    let cs := threeFiles ++ [.write 1 4 (fun _ => 7) 3 0, .lseek 1 4 0 0, .dup2 1 4 6,
      .read 1 6 (fun _ => 0) 2 fun _ => 0,
      .close 1 4 0]
    let k := (script (Call.next 1) first cs).2
    k.Bounded ∧ ∀ c, StoreCall k c → k.ReadsInside c ∧ ∀ ret k', c.exec 1 k = .ok (ret, k') →
      k.Isolated c k' ∧ (k'.Bounded ↔ c.FitsStart k) := by
  intro cs k
  exact @run_isolated (· + 8) ⟨0, fun _ => freshInode 0 0⟩ ⟨0, fun _ => 0⟩ first k (script (Call.next 1) first cs).1
    ⟨by decide, by decide⟩ (Kernel.idle_boot ..) rfl (@run_store first cs (by decide +kernel))

/-- A write of 5000 bytes to the empty third file fails and leaves its cursor at the largest
position; a write of one byte through it then goes to the last byte of the second file's region. -/
theorem failed_write_corrupts_neighbour :
    let k := (script (Call.next 1) first threeFiles).2
    let k' := ((Call.write 1 5 (fun _ => 7) 5000 0).next 1 k).2
    let k'' := ((Call.write 1 5 (fun _ => 7) 1 0).next 1 k').2
    Run StoreStep first threeFiles k ∧ StoreCall k (.write 1 5 (fun _ => 7) 5000 0) ∧
      (k'.files 12288).map File.offp = some (2 ^ 32 - 1) ∧ (k'.sb.inode 2).fileSize = 0 ∧
      StoreCall k' (.write 1 5 (fun _ => 7) 1 0) ∧ (k'.sb.inode 1).sPos ≤ 45055 ∧ 45055 < (k'.sb.inode 1).ePos ∧
      k'.mem 45055 = 0 ∧ k''.mem 45055 = 7 := by
  intro k k' k''
  refine ⟨@run_store first threeFiles (by decide +kernel),
    ⟨trivial, by decide +kernel, trivial, trivial, by decide⟩, ?_, ?_,
    ⟨trivial, by decide +kernel, trivial, trivial, by decide⟩, ?_, ?_, ?_, ?_⟩ <;> decide +kernel

end CS330.Os
