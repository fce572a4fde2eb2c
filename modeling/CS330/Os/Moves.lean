/-
What each call on descriptors comes to. All of them are made of a few moves (an object is put on a
page, a slot gives up its reference, a slot takes one), and fork and exit, which go through a whole
table, move every count at once.
-/
import CS330.Fs.Directory
import CS330.Os.Process

namespace CS330.Os

open CS330.Lib CS330.Fs CS330.Queue

/-- A count after `n` steps of `d`, each stored in 32 bits. -/
def counted (c : ℕ) (d : ℤ) (n : ℕ) : ℕ := if n = 0 then c else u32 (c + d * n)

theorem counted_succ (c : ℕ) (d : ℤ) (n : ℕ) : u32 (counted c d n + d) = counted c d (n + 1) := by
  unfold counted
  rw [if_neg n.succ_ne_zero]
  split
  · subst n
    simp
  · have hsum : (c : ℤ) + d * (n + 1 : ℕ) = c + d * n + d := by push_cast; ring
    rw [hsum]
    generalize (c : ℤ) + d * n = a
    unfold u32
    omega

namespace File

/-- An object whose count has taken `n` steps of `d`. -/
def bump (d : ℤ) (n : ℕ) (f : File) : File := { f with refCount := counted f.refCount d n }

@[simp] theorem refCount_bump (d : ℤ) (n : ℕ) (f : File) : (f.bump d n).refCount = counted f.refCount d n := rfl
@[simp] theorem msgQueue_bump (d : ℤ) (n : ℕ) (f : File) : (f.bump d n).msgQueue = f.msgQueue := rfl

theorem bump_succ (d : ℤ) (n : ℕ) (f : File) :
    { f.bump d n with refCount := u32 ((f.bump d n).refCount + d) } = f.bump d (n + 1) :=
  congrArg (fun c => { f with refCount := c }) (counted_succ ..)

/-- What is left of an object when it loses `n` references one after the other. -/
def drop (n : ℕ) (f : File) : Option File :=
  if n ≠ 0 ∧ (f.bump (-1) n).refCount = 0 then none else some (f.bump (-1) n)

@[simp] theorem drop_zero (f : File) : f.drop 0 = some f := rfl

/-- As long as references are left, nothing but the count changes. -/
theorem drop_some {f g : File} {n : ℕ} (h : f.drop n = some g) : g = f.bump (-1) n := by
  unfold drop at h
  split at h
  · cases h
  · exact (Option.some.inj h).symm

theorem drop_succ {f g : File} {n : ℕ} (h : f.drop n = some g) : g.drop 1 = f.drop (n + 1) := by
  obtain rfl := drop_some h
  have hstep : (f.bump (-1) n).bump (-1) 1 = f.bump (-1) (n + 1) :=
    (bump_succ (-1) 0 (f.bump (-1) n)).symm.trans (bump_succ (-1) n f)
  unfold drop
  simp [hstep]

end File

theorem firstFree_some {t : Table} {fd : Fd} (h : firstFree t = some fd) : t fd = none := by
  unfold firstFree at h
  have := List.find?_some h
  simp only [Bool.and_eq_true, Option.isNone_iff_eq_none] at this
  exact this.2

namespace Kernel

variable {k : Kernel} {p : Proc} {fd : Fd} {x y : Ptr} {f g : File}

/-! ## The moves -/

/-- The kernel after one reference to `x` was given up. -/
def dropped (x : Ptr) (f : File) (k : Kernel) : Kernel :=
  if u32 (f.refCount - 1) = 0 then
    { k with files := Function.update k.files x none, fileObjects := k.fileObjects - 1 }
  else k.setFile x { f with refCount := u32 (f.refCount - 1) }

/-- A slot that refers to `x` is emptied and its reference given up. -/
def released (p : Proc) (fd : Fd) (x : Ptr) (f : File) (k : Kernel) : Kernel := (k.setSlot p fd none).dropped x f

/-- A slot takes a reference to `x`. -/
def acquired (p : Proc) (fd : Fd) (x : Ptr) (f : File) (k : Kernel) : Kernel :=
  (k.setFile x { f with refCount := u32 (f.refCount + (1 : ℕ)) }).setSlot p fd (some x)

/-- A file object is put on a page. -/
def alloced (x : Ptr) (f : File) (k : Kernel) : Kernel :=
  { k with files := Function.update k.files x (some f), fileObjects := k.fileObjects + 1 }

theorem dropRef_eq (h : k.files x = some f) : k.dropRef x = .ok (k.dropped x f) := by
  simp only [dropRef, file_eq h, bind, Except.bind, dropped]
  split
  · simp only [freeFileObject, Function.update_self, Function.update_idem, setFile]
  · rfl

theorem addRef_eq (h : k.files x = some f) (n : ℕ) :
    k.addRef x n = .ok (k.setFile x { f with refCount := u32 (f.refCount + n) }) := by
  simp only [addRef, file_eq h, bind, Except.bind]

theorem files_alloced (k : Kernel) (x : Ptr) (f : File) :
    (k.alloced x f).files = Function.update k.files x (some f) := rfl

@[simp] theorem table_alloced (k : Kernel) (x : Ptr) (f : File) : (k.alloced x f).table = k.table := rfl

theorem dropped_eq (k : Kernel) (x : Ptr) (f : File) :
    ∃ n, k.dropped x f = { k with files := Function.update k.files x (f.drop 1), fileObjects := n } := by
  have hn : f.bump (-1) 1 = { f with refCount := u32 (f.refCount - 1) } := (File.bump_succ (-1) 0 f).symm
  unfold dropped File.drop
  rw [hn]
  split
  · rename_i h
    exact ⟨_, by rw [if_pos ⟨one_ne_zero, h⟩]⟩
  · rename_i h
    exact ⟨_, by rw [if_neg fun h' => h h'.2]; rfl⟩

@[simp] theorem table_dropped (k : Kernel) (x : Ptr) (f : File) : (k.dropped x f).table = k.table := by
  obtain ⟨n, hn⟩ := k.dropped_eq x f
  rw [hn]
  rfl

theorem files_dropped (k : Kernel) (x : Ptr) (f : File) :
    (k.dropped x f).files = Function.update k.files x (f.drop 1) := by
  obtain ⟨n, hn⟩ := k.dropped_eq x f
  rw [hn]

theorem dropped_setSlot (k : Kernel) (x : Ptr) (f : File) (p : Proc) (fd : Fd) (v : Option Ptr) :
    (k.setSlot p fd v).dropped x f = (k.dropped x f).setSlot p fd v := by
  unfold dropped; split <;> rfl

theorem setSlot_setSlot (k : Kernel) (p : Proc) (fd : Fd) (v w : Option Ptr) :
    (k.setSlot p fd v).setSlot p fd w = k.setSlot p fd w := by
  unfold setSlot
  rw [table_setTable, Function.update_self, Function.update_idem]
  simp only [setTable, Function.update_idem]

theorem files_released (k : Kernel) (p : Proc) (fd : Fd) (x : Ptr) (f : File) :
    (k.released p fd x f).files = Function.update k.files x (f.drop 1) := files_dropped ..

@[simp] theorem table_released (k : Kernel) (p : Proc) (fd : Fd) (x : Ptr) (f : File) :
    (k.released p fd x f).table = Function.update k.table p (Function.update (k.table p) fd none) := by
  unfold released; simp

theorem files_acquired (k : Kernel) (p : Proc) (fd : Fd) (x : Ptr) (f : File) :
    (k.acquired p fd x f).files =
      Function.update k.files x (some { f with refCount := u32 (f.refCount + (1 : ℕ)) }) := rfl

@[simp] theorem table_acquired (k : Kernel) (p : Proc) (fd : Fd) (x : Ptr) (f : File) :
    (k.acquired p fd x f).table = Function.update k.table p (Function.update (k.table p) fd (some x)) := by
  unfold acquired; simp

/-- Files change in nothing but their counts, apart from those that are freed. -/
structure OnlyCounts (k k' : Kernel) : Prop where
  files : ∀ x g, k'.files x = some g → ∃ f, k.files x = some f ∧ ∃ c, g = { f with refCount := c }
  queues : k'.queues = k.queues
  sb : k'.sb = k.sb
  mem : k'.mem = k.mem

theorem OnlyCounts.refl (k : Kernel) : OnlyCounts k k := ⟨fun _ g h => ⟨g, h, g.refCount, rfl⟩, rfl, rfl, rfl⟩

theorem OnlyCounts.trans {k₁ k₂ k₃ : Kernel} (h : OnlyCounts k₁ k₂) (h' : OnlyCounts k₂ k₃) : OnlyCounts k₁ k₃ := by
  refine ⟨fun x g hg => ?_, h'.queues.trans h.queues, h'.sb.trans h.sb, h'.mem.trans h.mem⟩
  obtain ⟨f, hf, c, rfl⟩ := h'.files x g hg
  obtain ⟨e, he, d, rfl⟩ := h.files x f hf
  exact ⟨e, he, c, rfl⟩

theorem onlyCounts_released (hf : k.files x = some f) : OnlyCounts k (k.released p fd x f) := by
  obtain ⟨n, hn⟩ := (k.setSlot p fd none).dropped_eq x f
  have hrest : k.released p fd x f = { k.setSlot p fd none with
    files := Function.update k.files x (f.drop 1), fileObjects := n } := hn
  refine ⟨fun z g hg => ?_, by rw [hrest]; rfl, by rw [hrest]; rfl, by rw [hrest]; rfl⟩
  rw [files_released] at hg
  by_cases hz : z = x
  · subst hz
    rw [Function.update_self] at hg
    exact ⟨f, hf, _, File.drop_some hg⟩
  · rw [Function.update_of_ne hz] at hg
    exact ⟨g, hg, g.refCount, rfl⟩

theorem onlyCounts_acquired (hf : k.files x = some f) : OnlyCounts k (k.acquired p fd x f) := by
  refine ⟨fun z g hg => ?_, rfl, rfl, rfl⟩
  rw [files_acquired] at hg
  by_cases hz : z = x
  · subst hz
    rw [Function.update_self] at hg
    exact ⟨f, hf, _, (Option.some.inj hg).symm⟩
  · rw [Function.update_of_ne hz] at hg
    exact ⟨g, hg, g.refCount, rfl⟩

/-! ## Opening -/

/-- What a stream is opened for. -/
def stdMode (type : StdType) : UInt32 := if type = 0 then oRead else oWrite

/-- The object `create_standard_IO` makes of a page. -/
def stdFile (type : StdType) (held : File) : File :=
  { held with
    type := stdFileType type
    mode := stdMode type
    offp := 0
    refCount := 1
    fops := { FileOps.zero with
      read := if type = 0 then some .doReadKbd else none
      write := if type = 0 then none else some .doWriteConsole
      close := some .stdClose } }

/-- The object `do_regular_file_open` makes of a page. -/
def openedFile (held : File) (inode : ℕ) (flags : UInt64) : File :=
  regularFile { held with fops := .zero, refCount := 1, offp := 0 } inode flags.toUInt32

theorem createStandardIo_eq (type : StdType) (x : Ptr) (held : File) (k : Kernel) :
    k.createStandardIo type (some (x, held)) = .ok (x, k.alloced x (stdFile type held)) := by
  simp only [createStandardIo, allocFile, bind, Except.bind, file, Function.update_self, setFile,
    Function.update_idem, alloced, stdFile, stdMode]
  split <;> rfl

theorem openStandardIo_none {type : StdType} (h : k.table p (stdFd type) = none) (x : Ptr) (held : File) :
    k.openStandardIo p type (some (x, held)) =
      .ok (type.val, (k.alloced x (stdFile type held)).setSlot p (stdFd type) (some x)) := by
  simp only [openStandardIo, h, createStandardIo_eq, bind, Except.bind]

theorem openStandardIo_some {type : StdType} (h : k.table p (stdFd type) = some x) (hf : k.files x = some f)
    (page : Option (Ptr × File)) :
    k.openStandardIo p type page = match firstFree (k.table p) with
      | some fd => .ok (fd.val, k.acquired p fd x f)
      | none => .error .pastTable := by
  simp only [openStandardIo, h, addRef_eq hf, bind, Except.bind, table_setFile]
  rfl

/-- The permission check never refuses: it compares the flags with themselves. -/
theorem openInode_eq (k : Kernel) (p : Proc) (i : ℕ) (flags : UInt64) (x : Ptr) (held : File) :
    k.openInode p i flags (some (x, held)) = match firstFree (k.table p) with
      | some fd => .ok (fd.val, (k.alloced x (openedFile held i flags)).setSlot p fd (some x))
      | none => .ok (-enomem, k.alloced x (openedFile held i flags)) := by
  simp only [openInode, ne_eq, not_true_eq_false, if_false, UInt32.and_zero, allocFile, bind, Except.bind,
    file, Function.update_self, setFile, Function.update_idem]
  rfl

/-- A name the call has to store in an inode fits there. -/
def NameFits (k : Kernel) (filename : List UInt8) (flags : UInt64) : Prop :=
  flags &&& (oRead ||| oRdwr).toUInt64 ≠ 0 → flatLookupInode k.sb filename = none →
    flags &&& oCreat.toUInt64 ≠ 0 → (getFreeInode k.sb).isSome = true → filename.length < 256

/-- A request that is turned down before anything is allocated. -/
def TurnedDown (k : Kernel) (filename : List UInt8) (flags : UInt64) : Prop :=
  flags &&& (oRead ||| oRdwr).toUInt64 = 0 ∨
    flatLookupInode k.sb filename = none ∧ (flags &&& oCreat.toUInt64 = 0 ∨ getFreeInode k.sb = none)

instance (k : Kernel) (filename : List UInt8) (flags : UInt64) : Decidable (k.TurnedDown filename flags) := by
  unfold TurnedDown; infer_instance

theorem TurnedDown.eq {filename : List UInt8} {flags : UInt64} (h : k.TurnedDown filename flags) (p : Proc)
    (mode : UInt64) (page : Option (Ptr × File)) :
    ∃ ret < 0, k.doRegularFileOpen p filename flags mode page = .ok (ret, k) := by
  by_cases haccess : flags &&& (oRead ||| oRdwr).toUInt64 = 0
  · exact ⟨-einval, by decide, by simp only [doRegularFileOpen, if_pos haccess]⟩
  obtain ⟨hl, hwhy⟩ := h.resolve_left haccess
  by_cases hcreat : flags &&& oCreat.toUInt64 = 0
  · exact ⟨-einval, by decide, by simp only [doRegularFileOpen, if_neg haccess, hl, if_pos hcreat]⟩
  have hfree := hwhy.resolve_left hcreat
  refine ⟨-enomem, by decide, ?_⟩
  simp only [doRegularFileOpen, if_neg haccess, hl, if_neg hcreat, flatCreateInode, Option.isSome_none,
    Bool.false_eq_true, if_false, hfree]

/-- Which inode an open is about, and the directory it leaves. -/
def Finds (k : Kernel) (filename : List UInt8) (mode : UInt64) (i : ℕ) (sb : SuperBlock) : Prop :=
  (flatLookupInode k.sb filename = some i ∧ sb = k.sb) ∨
    (flatLookupInode k.sb filename = none ∧ flatCreateInode k.sb filename mode.toUInt32 = (some i, sb))

theorem doRegularFileOpen_cases (k : Kernel) (p : Proc) (filename : List UInt8) (flags mode : UInt64)
    (page : Option (Ptr × File)) :
    k.doRegularFileOpen p filename flags mode page = .ok (-einval, k) ∨
    (∃ sb, flatCreateInode k.sb filename mode.toUInt32 = (none, sb) ∧
      k.doRegularFileOpen p filename flags mode page = .ok (-enomem, { k with sb := sb })) ∨
    (¬ k.NameFits filename flags ∧ k.doRegularFileOpen p filename flags mode page = .error .pastName) ∨
    ∃ i sb, k.Finds filename mode i sb ∧ k.doRegularFileOpen p filename flags mode page =
      { k with sb := sb }.openInode p i (flags ^^^ oCreat.toUInt64) page := by
  unfold doRegularFileOpen
  split
  · exact Or.inl rfl
  · rename_i haccess
    cases hl : flatLookupInode k.sb filename with
    | some i => exact Or.inr (Or.inr (Or.inr ⟨i, k.sb, Or.inl ⟨hl, rfl⟩, rfl⟩))
    | none =>
      simp only
      split
      · exact Or.inl rfl
      · rename_i hcreat
        rcases hc : flatCreateInode k.sb filename mode.toUInt32 with ⟨i, sb⟩
        cases i with
        | none => exact Or.inr (Or.inl ⟨sb, rfl, rfl⟩)
        | some i =>
          have hfree : getFreeInode k.sb = some i := (flatCreateInode_some hc).1
          -- a longer name is copied past its field
          by_cases hlong : 256 ≤ filename.length
          · refine Or.inr (Or.inr (Or.inl ⟨fun h => ?_, by simp only [if_pos hlong]⟩))
            have := h haccess hl hcreat (by rw [hfree]; rfl)
            omega
          · exact Or.inr (Or.inr (Or.inr ⟨i, sb, Or.inr ⟨hl, hc⟩, by simp only [if_neg hlong]⟩))

/-- The inode an open is about is valid afterwards; it was before, or it is made over and the others
stay as they were. -/
theorem Finds.spec {filename : List UInt8} {mode : UInt64} {i : ℕ} {sb : SuperBlock} (h : k.Finds filename mode i sb) :
    i < numInodes ∧ (sb.inode i).isValid = true ∧ (∀ j ≠ i, sb.inode j = k.sb.inode j) ∧
      (flatLookupInode k.sb filename = some i ∧ sb = k.sb ∨
        (k.sb.inode i).isValid = false ∧ sb.inode i = { k.sb.inode i with
        isValid := true, mode := mode.toUInt32, filename := filename, maxPos := (k.sb.inode i).sPos, fileSize := 0,
        refCount := 0 }) := by
  rcases h with ⟨hl, rfl⟩ | ⟨hl, hc⟩
  · obtain ⟨hi, hp, -⟩ := firstIdx_some hl
    simp only [Bool.and_eq_true] at hp
    exact ⟨hi, hp.1, fun _ _ => rfl, Or.inl ⟨hl, rfl⟩⟩
  · obtain ⟨hfree, -, rfl⟩ := flatCreateInode_some hc
    obtain ⟨hj, hp, -⟩ := firstIdx_some hfree
    simp only [Bool.not_eq_eq_eq_not, Bool.not_true] at hp
    refine ⟨hj, by simp only [Function.update_self], fun l hl => Function.update_of_ne hl .., Or.inr ⟨hp, ?_⟩⟩
    exact Function.update_self ..

/-- An open that comes back leaves everything alone, or puts one object on its page. -/
theorem doRegularFileOpen_ok {filename : List UInt8} {flags mode : UInt64} {held : File} {ret : ℤ} {k' : Kernel}
    (h : k.doRegularFileOpen p filename flags mode (some (x, held)) = .ok (ret, k')) :
    k' = k ∨ ∃ i sb, k.Finds filename mode i sb ∧ k'.sb = sb ∧ k'.mem = k.mem ∧
      k'.files = Function.update k.files x (some (openedFile held i (flags ^^^ oCreat.toUInt64))) := by
  rcases k.doRegularFileOpen_cases p filename flags mode (some (x, held)) with
    he | ⟨sb, hc, he⟩ | ⟨-, he⟩ | ⟨i, sb, hfinds, he⟩
  · rw [he] at h
    exact Or.inl (Prod.mk.inj (Except.ok.inj h)).2.symm
  · rw [he, (flatCreateInode_none hc).1] at h
    exact Or.inl (Prod.mk.inj (Except.ok.inj h)).2.symm
  · rw [he] at h
    cases h
  · rw [he, openInode_eq] at h
    refine Or.inr ⟨i, sb, hfinds, ?_⟩
    split at h
    · obtain ⟨-, rfl⟩ := Prod.mk.inj (Except.ok.inj h)
      exact ⟨rfl, rfl, rfl⟩
    · obtain ⟨-, rfl⟩ := Prod.mk.inj (Except.ok.inj h)
      exact ⟨rfl, rfl, rfl⟩

/-- An open of a standard stream that comes back takes a reference, or puts one object on its page,
where the stream is not open. -/
theorem openStandardIo_ok {type : StdType} {held : File} {ret : ℤ} {k' : Kernel}
    (hlive : ∀ y, k.table p (stdFd type) = some y → ∃ g, k.files y = some g)
    (h : k.openStandardIo p type (some (x, held)) = .ok (ret, k')) :
    OnlyCounts k k' ∨ k.table p (stdFd type) = none ∧ k'.sb = k.sb ∧ k'.mem = k.mem ∧
      k'.files = Function.update k.files x (some (stdFile type held)) := by
  cases hs : k.table p (stdFd type) with
  | none =>
    rw [openStandardIo_none hs] at h
    obtain ⟨-, rfl⟩ := Prod.mk.inj (Except.ok.inj h)
    exact Or.inr ⟨rfl, rfl, rfl, rfl⟩
  | some y =>
    obtain ⟨g, hg⟩ := hlive y hs
    rw [openStandardIo_some hs hg] at h
    split at h
    · obtain ⟨-, rfl⟩ := Prod.mk.inj (Except.ok.inj h)
      exact Or.inl (onlyCounts_acquired hg)
    · cases h

/-! ## Descriptors -/

theorem doClose_eq (h : k.table p fd = some x) (hf : k.files x = some f) (unset : ℤ) :
    k.doClose p fd unset =
      if f.fops.close = none then .ok (-einval, k) else .ok (unset, k.released p fd x f) := by
  have hdrop : (k.setSlot p fd none).dropRef x = .ok (k.released p fd x f) := dropRef_eq hf
  simp only [doClose, h, file_eq hf, bind, Except.bind]
  cases hc : f.fops.close with
  | none => rfl
  | some c => cases c <;> simp [stdClose, doFileClose, hdrop, bind, Except.bind]

theorem fdDup2_empty {old new : Fd} (h : k.table p old = some x) (hn : k.table p new = none) (hf : k.files x = some f) :
    k.fdDup2 p old new = .ok (new.val, k.acquired p new x f) := by
  have hf' : (k.setSlot p new (some x)).files x = some f := hf
  simp only [fdDup2, h, hn, bind, Except.bind, addRef_eq hf']
  rfl

/-- Over an open descriptor a duplicate is a close and then a duplicate, as long as the object is
still there when its new reference is taken. -/
theorem fdDup2_open {old new : Fd} (h : k.table p old = some x) (hn : k.table p new = some y) (hf : k.files y = some f)
    (hg : (k.released p new y f).files x = some g) :
    k.fdDup2 p old new = .ok (new.val, (k.released p new y f).acquired p new x g) := by
  have hg' : ((k.dropped y f).setSlot p new (some x)).files x = some g := by
    rw [files_setSlot, files_dropped, ← files_released k p new y f]
    exact hg
  have hslot : ((k.dropped y f).setSlot p new (some x)).setFile x { g with refCount := u32 (g.refCount + (1 : ℕ)) } =
      (k.released p new y f).acquired p new x g := by
    unfold acquired released
    rw [dropped_setSlot]
    exact congrArg (fun k : Kernel => k.setFile x { g with refCount := u32 (g.refCount + (1 : ℕ)) })
      (setSlot_setSlot (k.dropped y f) p new none (some x)).symm
  simp only [fdDup2, h, hn, doFileClose, dropRef_eq hf, bind, Except.bind, Functor.map, Except.map, addRef_eq hg',
    hslot]

/-- A duplicate over the object's last counted reference follows a freed pointer. -/
theorem fdDup2_freed {old new : Fd} (h : k.table p old = some x) (hn : k.table p new = some x) (hf : k.files x = some f)
    (hlast : f.drop 1 = none) : k.fdDup2 p old new = .error .useAfterFree := by
  have hgone : ((k.dropped x f).setSlot p new (some x)).files x = none := by
    rw [files_setSlot, files_dropped, Function.update_self, hlast]
  simp only [fdDup2, h, hn, doFileClose, dropRef_eq hf, bind, Except.bind, Functor.map, Except.map, addRef, file, hgone]

/-! ## Fork and exit -/

/-- Along a list of all descriptors, the count of those done is below the whole where one is left. -/
theorem countP_lt_held {t : Table} {pre post : List Fd} {fd : Fd} (hl : List.finRange maxOpenFiles = pre ++ fd :: post)
    {x : Ptr} (h : t fd = some x) : pre.countP (fun i => t i = some x) < held t x := by
  have hall : held t x = (pre ++ fd :: post).countP fun i => t i = some x := by
    rw [← hl]
    exact (countP_eq_held (List.nodup_finRange _) List.mem_finRange).symm
  rw [hall, List.countP_append, List.countP_cons_of_pos (by simpa using h)]
  omega

theorem countP_snoc {t : Table} {pre : List Fd} {fd : Fd} {x : Ptr} (h : t fd = some x) (z : Ptr) :
    (pre ++ [fd]).countP (fun i => t i = some z) = pre.countP (fun i => t i = some z) + if x = z then 1 else 0 := by
  simp [List.countP_append, List.countP_cons, h]

theorem countP_skip {t : Table} {pre : List Fd} {fd : Fd} (h : t fd = none) (z : Ptr) :
    (pre ++ [fd]).countP (fun i => t i = some z) = pre.countP fun i => t i = some z := by
  simp [List.countP_append, h]

/-- Objects have gained `n x` times `bump` references. -/
def gained (bump : ℕ) (n : Ptr → ℕ) (k : Kernel) : Kernel :=
  { k with files := fun x => (k.files x).map (File.bump bump (n x)) }

/-- Objects have lost `n x` references. -/
def lost (n : Ptr → ℕ) (objects : ℤ) (k : Kernel) : Kernel :=
  { k with files := fun x => (k.files x).bind (File.drop (n x)), fileObjects := objects }

@[simp] theorem table_gained (k : Kernel) (bump : ℕ) (n : Ptr → ℕ) : (k.gained bump n).table = k.table := rfl
@[simp] theorem table_lost (k : Kernel) (n : Ptr → ℕ) (objects : ℤ) : (k.lost n objects).table = k.table := rfl

theorem gained_zero (bump : ℕ) (k : Kernel) : k.gained bump (fun _ => 0) = k := by
  have hid : ∀ o : Option File, o.map (File.bump bump 0) = o := by rintro (_ | _) <;> rfl
  simp only [gained, hid]

theorem lost_zero (k : Kernel) : k.lost (fun _ => 0) k.fileObjects = k := by
  have hid : ∀ o : Option File, o.bind (File.drop 0) = o := by rintro (_ | _) <;> rfl
  simp only [lost, hid]

theorem addRef_gained {bump : ℕ} {n : Ptr → ℕ} (hf : k.files x = some f) :
    (k.gained bump n).addRef x bump = .ok (k.gained bump fun z => n z + if x = z then 1 else 0) := by
  refine (addRef_eq (congrArg (Option.map _) hf) bump).trans (congrArg Except.ok ?_)
  refine congrArg (fun F => { k with files := F }) (funext fun z => ?_)
  beta_reduce
  by_cases hz : x = z
  · subst hz
    rw [Function.update_self, if_pos rfl, hf]
    exact congrArg some (File.bump_succ ..)
  · rw [Function.update_of_ne (Ne.symm hz), if_neg hz]
    rfl

theorem dropRef_lost {n : Ptr → ℕ} (objects : ℤ) (hf : k.files x = some f) (hg : (f.drop (n x)).isSome) :
    ∃ objects', (k.lost n objects).dropRef x = .ok (k.lost (fun z => n z + if x = z then 1 else 0) objects') := by
  obtain ⟨g, hg⟩ := Option.isSome_iff_exists.1 hg
  have hfile : (k.lost n objects).files x = some g := (congrArg (·.bind (File.drop (n x))) hf).trans hg
  obtain ⟨objects', hdrop⟩ := dropped_eq (k.lost n objects) x g
  refine ⟨objects', (dropRef_eq hfile).trans (congrArg Except.ok (hdrop.trans ?_))⟩
  refine congrArg (fun F => { k with files := F, fileObjects := objects' }) (funext fun z => ?_)
  beta_reduce
  by_cases hz : x = z
  · subst hz
    rw [Function.update_self, if_pos rfl, hf]
    exact File.drop_succ hg
  · rw [Function.update_of_ne (Ne.symm hz), if_neg hz]
    rfl

theorem setupChildContext_eq {bump : ℕ} {child : Proc}
    (hlive : ∀ fd x, k.table child fd = some x → ∃ f, k.files x = some f) :
    k.setupChildContext bump child = .ok (k.gained bump (held (k.table child))) := by
  have hloop := foldlM_ok (l := List.finRange maxOpenFiles) (f := inheritAt bump child) (s := k)
    (fun pre k' => k' = k.gained bump fun x => pre.countP fun i => k.table child i = some x)
    (gained_zero bump k).symm ?_
  · obtain ⟨k', hk', rfl⟩ := hloop
    refine hk'.trans (congrArg Except.ok ?_)
    simp only [countP_eq_held (List.nodup_finRange _) List.mem_finRange]
  · rintro pre fd post k' hl rfl
    refine ⟨_, ?_, rfl⟩
    rw [inheritAt, table_gained]
    cases ht : k.table child fd with
    | none => simp only [countP_skip ht]
    | some x =>
      obtain ⟨f, hf⟩ := hlive fd x ht
      simp only [countP_snoc ht]
      exact addRef_gained hf

/-- The slots of the table still hold what they have given up their references to. -/
theorem doFileExit_eq (hlive : ∀ fd x, k.table p fd = some x → ∃ f, k.files x = some f ∧
      ∀ n < held (k.table p) x, (f.drop n).isSome) :
    ∃ objects, k.doFileExit p = .ok (k.lost (held (k.table p)) objects) := by
  have hloop := foldlM_ok (l := List.finRange maxOpenFiles) (f := exitAt p) (s := k)
    (fun pre k' => ∃ objects, k' = k.lost (fun x => pre.countP fun i => k.table p i = some x) objects)
    ⟨k.fileObjects, (lost_zero k).symm⟩ ?_
  · obtain ⟨k', hk', n, rfl⟩ := hloop
    refine ⟨n, hk'.trans (congrArg Except.ok ?_)⟩
    simp only [countP_eq_held (List.nodup_finRange _) List.mem_finRange]
  · rintro pre fd post k' hl ⟨n, rfl⟩
    rw [exitAt, table_lost]
    cases ht : k.table p fd with
    | none => exact ⟨_, rfl, n, by simp only [countP_skip ht]⟩
    | some x =>
      obtain ⟨f, hf, hleft⟩ := hlive fd x ht
      obtain ⟨n', hn'⟩ := dropRef_lost (n := fun x => pre.countP fun i => k.table p i = some x) n hf
        (hleft _ (countP_lt_held hl ht))
      refine ⟨_, hn', n', ?_⟩
      simp only [countP_snoc ht]

end Kernel

end CS330.Os
