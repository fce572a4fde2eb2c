/-
do_regular_file_open as a transaction: it takes an inode, a file object and a slot in this order, and gives
none of them back when it stops in between.
-/
import CS330.Os.Lifecycle

namespace CS330.Os

open CS330.Lib CS330.Fs

/-- The smallest free descriptor from 3 on. -/
structure LowestFree (t : Table) (fd : Fd) : Prop where
  low : 3 ≤ fd.val
  free : t fd = none
  least : ∀ j : Fd, 3 ≤ j.val → j < fd → t j ≠ none

theorem firstFree_eq_some {t : Table} {fd : Fd} : firstFree t = some fd ↔ LowestFree t fd := by
  unfold firstFree
  rw [← Fin.find?_eq_find?_finRange, Fin.find?_eq_some_iff]
  constructor
  · rintro ⟨hfd, hleast⟩
    simp only [Bool.and_eq_true, decide_eq_true_eq, Option.isNone_iff_eq_none] at hfd
    refine ⟨hfd.1, hfd.2, fun j hj hlt hnone => ?_⟩
    simpa [hj, hnone] using hleast j hlt
  · rintro ⟨hlow, hfree, hleast⟩
    refine ⟨by simp [hlow, hfree], fun j hlt => ?_⟩
    by_contra hj
    simp only [Bool.not_eq_false, Bool.and_eq_true, decide_eq_true_eq, Option.isNone_iff_eq_none] at hj
    exact hleast j hj.1 hlt hj.2

theorem firstFree_eq_none {t : Table} : firstFree t = none ↔ ∀ fd : Fd, 3 ≤ fd.val → t fd ≠ none := by
  unfold firstFree
  rw [← Fin.find?_eq_find?_finRange, Fin.find?_eq_none_iff]
  refine forall_congr' fun fd => ?_
  cases t fd <;> simp

namespace Kernel

/-! ## What an open may do -/

/-- Nothing has happened to the files tables, to the directory, or to what is allocated. -/
structure Undone (k k' : Kernel) : Prop where
  table : k'.table = k.table
  valid : ∀ i, (k'.sb.inode i).isValid = (k.sb.inode i).isValid
  numFiles : k'.sb.numFiles = k.sb.numFiles
  live : ∀ x, (k'.files x).isSome = (k.files x).isSome
  fileObjects : k'.fileObjects = k.fileObjects

/-- A new file object is behind the smallest free descriptor, and an inode was made at most where the request
asked for one that was missing. -/
structure NewFile (k k' : Kernel) (p : Proc) (filename : List UInt8) (flags : UInt64) (fd : Fd) : Prop where
  lowest : LowestFree (k.table p) fd
  object : ∃ x, (k.files x).isSome = false ∧
    k'.table = Function.update k.table p (Function.update (k.table p) fd (some x)) ∧
    ∀ y, (k'.files y).isSome = true ↔ y = x ∨ (k.files y).isSome = true
  fileObjects : k'.fileObjects = k.fileObjects + 1
  inode : (k'.sb.numFiles = k.sb.numFiles ∧ ∀ i, (k'.sb.inode i).isValid = (k.sb.inode i).isValid) ∨
    (flags &&& oCreat.toUInt64 ≠ 0 ∧ flatLookupInode k.sb filename = none ∧ k'.sb.numFiles = k.sb.numFiles + 1 ∧
      ∃ i, (k.sb.inode i).isValid = false ∧
        ∀ j, (k'.sb.inode j).isValid = true ↔ j = i ∨ (k.sb.inode j).isValid = true)

/-- An open comes back; with a negative value nothing has happened, otherwise it made the descriptor it returns. -/
def OpensOrNot (k : Kernel) (p : Proc) (filename : List UInt8) (flags mode : UInt64) (page : Option (Ptr × File)) :
    Prop :=
  ∃ ret k', k.doRegularFileOpen p filename flags mode page = .ok (ret, k') ∧ (ret < 0 → Undone k k') ∧
    (0 ≤ ret → ∃ fd : Fd, ret = fd.val ∧ NewFile k k' p filename flags fd)

/-- All an open may need is there: a page, a slot, and room for the name. -/
structure Provided (k : Kernel) (p : Proc) (filename : List UInt8) (flags : UInt64) (page : Option (Ptr × File)) :
    Prop where
  page : page.isSome = true
  slot : ∃ fd : Fd, 3 ≤ fd.val ∧ k.table p fd = none
  name : k.NameFits filename flags

variable {k k' : Kernel} {p : Proc} {filename : List UInt8} {flags mode : UInt64} {page : Option (Ptr × File)}

/-! ## The stages -/

/-- The others go on with an inode, which is there or is made. -/
theorem open_proceeds (h : ¬ k.TurnedDown filename flags) (hname : k.NameFits filename flags) (p : Proc) (mode : UInt64)
    (page : Option (Ptr × File)) :
    ∃ i sb, k.Finds filename mode i sb ∧ (sb = k.sb ∨ flags &&& oCreat.toUInt64 ≠ 0) ∧
      k.doRegularFileOpen p filename flags mode page =
        { k with sb := sb }.openInode p i (flags ^^^ oCreat.toUInt64) page := by
  unfold TurnedDown at h
  push Not at h
  obtain ⟨haccess, hmade⟩ := h
  cases hl : flatLookupInode k.sb filename with
  | some i => exact ⟨i, k.sb, Or.inl ⟨hl, rfl⟩, Or.inl rfl, by simp only [doRegularFileOpen, if_neg haccess, hl]⟩
  | none =>
    obtain ⟨hcreat, hfree⟩ := hmade hl
    obtain ⟨i, hi⟩ := Option.ne_none_iff_exists'.1 hfree
    have hshort := hname haccess hl hcreat (by rw [hi]; rfl)
    have hc : ∃ sb, flatCreateInode k.sb filename mode.toUInt32 = (some i, sb) := by
      simp only [flatCreateInode, hl, Option.isSome_none, Bool.false_eq_true, if_false, hi]
      exact ⟨_, rfl⟩
    obtain ⟨sb, hc⟩ := hc
    refine ⟨i, sb, Or.inr ⟨hl, hc⟩, Or.inr hcreat, ?_⟩
    simp only [doRegularFileOpen, if_neg haccess, hl, if_neg hcreat, hc, if_neg (not_le.2 hshort)]

theorem openInode_noPage (k : Kernel) (p : Proc) (i : ℕ) (flags : UInt64) :
    k.openInode p i flags none = .error .nullDeref := by
  simp only [openInode, ne_eq, not_true_eq_false, if_false, UInt32.and_zero, allocFile, bind, Except.bind]

/-- What the directory gained is one inode at most. -/
theorem Finds.gained {i : ℕ} {sb : SuperBlock} (h : k.Finds filename mode i sb)
    (hcreat : sb = k.sb ∨ flags &&& oCreat.toUInt64 ≠ 0) :
    (sb.numFiles = k.sb.numFiles ∧ ∀ i, (sb.inode i).isValid = (k.sb.inode i).isValid) ∨
    (flags &&& oCreat.toUInt64 ≠ 0 ∧ flatLookupInode k.sb filename = none ∧ sb.numFiles = k.sb.numFiles + 1 ∧
      ∃ i, (k.sb.inode i).isValid = false ∧
        ∀ j, (sb.inode j).isValid = true ↔ j = i ∨ (k.sb.inode j).isValid = true) := by
  rcases h with ⟨-, rfl⟩ | ⟨hl, hc⟩
  · exact Or.inl ⟨rfl, fun _ => rfl⟩
  · obtain ⟨hfree, -, rfl⟩ := flatCreateInode_some hc
    have hflag : flags &&& oCreat.toUInt64 ≠ 0 := by
      refine hcreat.resolve_left fun he => ?_
      have hnum : k.sb.numFiles + 1 = k.sb.numFiles := congrArg SuperBlock.numFiles he
      omega
    refine Or.inr ⟨hflag, hl, rfl, i, (getFreeInode_some hfree).2, fun j => ?_⟩
    by_cases hj : j = i <;> simp [hj]

/-- With everything there, the open succeeds. -/
theorem Provided.opens (h : k.Provided p filename flags page) (hpage : ∀ o ∈ page, k.Fresh o.1)
    (ht : ¬ k.TurnedDown filename flags) : k.OpensOrNot p filename flags mode page := by
  obtain ⟨⟨x, held⟩, rfl⟩ := Option.isSome_iff_exists.1 h.page
  obtain ⟨i, sb, hfinds, hcreat, he⟩ := open_proceeds ht h.name p mode (some (x, held))
  obtain ⟨fd, hfd⟩ : ∃ fd, firstFree (k.table p) = some fd := by
    rw [← Option.ne_none_iff_exists', Ne, firstFree_eq_none]
    obtain ⟨fd, hlow, hfree⟩ := h.slot
    exact fun hno => hno fd hlow hfree
  rw [openInode_eq] at he
  have hfd' : firstFree ({ k with sb := sb }.table p) = some fd := hfd
  rw [hfd'] at he
  refine ⟨fd.val, _, he, fun hneg => absurd hneg (by omega), fun _ => ⟨fd, rfl, ?_⟩⟩
  have hfresh : k.files x = none := (hpage _ rfl).files
  refine ⟨firstFree_eq_some.1 hfd, ⟨x, by rw [hfresh]; rfl, table_setSlot .., fun y => ?_⟩, rfl, hfinds.gained hcreat⟩
  rw [files_setSlot, files_alloced]
  by_cases hy : y = x <;> simp [hy]

/-- Where something is missing, the open has gone too far when it finds out. -/
theorem not_opens (hpage : ∀ o ∈ page, k.Fresh o.1) (ht : ¬ k.TurnedDown filename flags)
    (h : ¬ k.Provided p filename flags page) : ¬ k.OpensOrNot p filename flags mode page := by
  rintro ⟨ret, k', he, hneg, hpos⟩
  by_cases hname : k.NameFits filename flags
  · obtain ⟨i, sb, hfinds, -, hopen⟩ := open_proceeds ht hname p mode page
    rw [he] at hopen
    cases page with
    | none =>
      rw [openInode_noPage] at hopen
      cases hopen
    | some o =>
      obtain ⟨x, held⟩ := o
      have hfull : firstFree ({ k with sb := sb }.table p) = none := by
        show firstFree (k.table p) = none
        refine firstFree_eq_none.2 fun fd hlow hfree => h ⟨rfl, ⟨fd, hlow, hfree⟩, hname⟩
      rw [openInode_eq, hfull] at hopen
      obtain ⟨rfl, rfl⟩ := Prod.mk.inj (Except.ok.inj hopen)
      -- the object is allocated, and no descriptor leads to it
      have hlive := (hneg (by decide)).live x
      rw [files_alloced, Function.update_self, (hpage _ rfl).files] at hlive
      cases hlive
  · rw [doRegularFileOpen_long hname] at he
    cases he

end Kernel

open Kernel

/-- Whatever the directory, the files table, the name, the flags and the mode, and whether or not there is a
page: an open has no effect where it fails and makes exactly the descriptor, the object and at most the inode it
should where it succeeds, if and only if it is turned down before anything is allocated, or there is a page, a
free slot, and room for the name of a file to be made. -/
theorem open_atomic_iff {k : Kernel} {page : Option (Ptr × File)} (hpage : ∀ o ∈ page, k.Fresh o.1) (p : Proc)
    (filename : List UInt8) (flags mode : UInt64) :
    k.OpensOrNot p filename flags mode page ↔ k.TurnedDown filename flags ∨ k.Provided p filename flags page := by
  constructor
  · intro h
    by_contra hno
    push Not at hno
    exact not_opens hpage hno.1 hno.2 h
  · intro h
    by_cases ht : k.TurnedDown filename flags
    · obtain ⟨ret, hneg, he⟩ := ht.eq p mode page
      exact ⟨ret, k, he, fun _ => ⟨rfl, fun _ => rfl, rfl, fun _ => rfl, rfl⟩, fun h0 => absurd hneg (not_lt.2 h0)⟩
    · exact (h.resolve_left ht).opens hpage ht

/-- Process 1 creates a file on a machine where nothing is open. -/
theorem open_atomic_iff_of_first :
    first.OpensOrNot 1 [97] 11 3 (some (4096, zeroPage)) ↔
      first.TurnedDown [97] 11 ∨ first.Provided 1 [97] 11 (some (4096, zeroPage)) :=
  open_atomic_iff (by decide +kernel) 1 [97] 11 3

/-- Process 1 opens standard input and duplicates it to every descriptor from 3 on. -/
def fillTable : List Call :=
  .openStd 1 0 (some (4096, zeroPage)) :: (List.finRange 13).map fun j => .dup2 1 0 (j.natAdd 3)

def allOpen : Kernel := (script (Call.next 1) first fillTable).2

theorem run_allOpen : Run CarefulStep first (script (Call.next 1) first fillTable).1 allOpen := by
  unfold allOpen
  exact run_careful (by decide +kernel)

/-- A file is created although there is no descriptor left: the open answers `-ENOMEM`, and the directory has a file
more, and one more object is allocated, which nothing refers to. -/
theorem open_without_slot_leaks :
    Run CarefulStep first (script (Call.next 1) first fillTable).1 allOpen ∧
      (∀ o ∈ some ((8192 : Ptr), zeroPage), allOpen.Fresh o.1) ∧
    ∃ k', allOpen.doRegularFileOpen 1 [97] 11 3 (some (8192, zeroPage)) = .ok (-enomem, k') ∧
      (allOpen.sb.numFiles = 0 ∧ (allOpen.sb.inode 0).isValid = false ∧ (allOpen.files 8192).isSome = false) ∧
      k'.sb.numFiles = 1 ∧ (k'.sb.inode 0).isValid = true ∧ (k'.files 8192).isSome = true ∧
      k'.fileObjects = allOpen.fileObjects + 1 ∧ ∀ fd, k'.table 1 fd ≠ some 8192 := by
  have hcall : ((allOpen.doRegularFileOpen 1 [97] 11 3 (some (8192, zeroPage))).toOption.any fun r => decide
      (r.1 = -enomem ∧ r.2.sb.numFiles = 1 ∧ (r.2.sb.inode 0).isValid = true ∧ (r.2.files 8192).isSome = true ∧
        r.2.fileObjects = allOpen.fileObjects + 1 ∧ ∀ fd, r.2.table 1 fd ≠ some 8192)) = true := by decide +kernel
  refine ⟨run_allOpen, by decide +kernel, ?_⟩
  cases he : allOpen.doRegularFileOpen 1 [97] 11 3 (some (8192, zeroPage)) with
  | error e =>
    rw [he] at hcall
    cases hcall
  | ok r =>
    rw [he] at hcall
    obtain ⟨hret, hafter⟩ := of_decide_eq_true hcall
    exact ⟨r.2, by rw [← hret], by decide +kernel, hafter⟩

end CS330.Os
