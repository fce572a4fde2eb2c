/-
What the calls on files are for, without file objects, inodes and memory: files are byte lists under names, an open
description is a name with a cursor, and processes share descriptions through their descriptors.
-/
import CS330.Fs.Names
import CS330.Os.Seek

namespace CS330.Os

open CS330.Lib CS330.Fs

/-- An open description: a file with a cursor, or one of the standard streams. -/
inductive Desc where
  | file (name : List UInt8) (offset : ℕ) (readable writable : Bool)
  | keyboard
  | console

/-- The description an open of a file asks for: at the start, for what the flags say. -/
def Desc.asked (filename : List UInt8) (flags : UInt64) : Desc :=
  .file filename 0 (decide (flags.toUInt32 &&& oRead ≠ 0)) (decide (flags.toUInt32 &&& oWrite ≠ 0))

/-- What a call gives back: its value, and the caller's buffer after a read. -/
structure Returned where
  ret : ℤ
  buff : Option (ℕ → UInt8)

structure Machine where
  table : Proc → Table
  desc : Ptr → Option Desc
  files : Files

namespace Machine

/-- No descriptor is open, and there are no files. -/
def empty : Machine := ⟨fun _ _ => none, fun _ => none, .empty⟩

def setSlot (p : Proc) (fd : Fd) (v : Option Ptr) (m : Machine) : Machine :=
  { m with table := Function.update m.table p (Function.update (m.table p) fd v) }

def setDesc (x : Ptr) (d : Desc) (m : Machine) : Machine := { m with desc := Function.update m.desc x (some d) }

/-- The description behind a descriptor. -/
def behind (m : Machine) (p : Proc) (fd : Fd) : Option (Ptr × Desc) :=
  (m.table p fd).bind fun x => (m.desc x).map (Prod.mk x)

/-- A new description goes behind the smallest free descriptor. -/
def enter (p : Proc) (x : Ptr) (d : Desc) (m : Machine) : ℤ × Machine :=
  match firstFree (m.table p) with
  | some fd => (fd.val, (m.setDesc x d).setSlot p fd (some x))
  | none => (-enomem, m)

/-- Open a file, or create it empty where that is asked for. -/
def openFile (p : Proc) (filename : List UInt8) (flags : UInt64) (x : Ptr) (m : Machine) : ℤ × Machine :=
  if flags &&& (oRead ||| oRdwr).toUInt64 = 0 then (-einval, m)
  else if filename ∈ m.files.names then m.enter p x (.asked filename flags)
  else if flags &&& oCreat.toUInt64 = 0 then (-einval, m)
  else if m.files.names.card = numInodes then (-enomem, m)
  else { m with files := m.files.create filename }.enter p x (.asked filename flags)

/-- A stream goes behind its own descriptor; where that is taken, what is there is duplicated. -/
def openStd (p : Proc) (type : Kernel.StdType) (x : Ptr) (m : Machine) : Option (ℤ × Machine) :=
  match m.table p (Kernel.stdFd type) with
  | none => some (type.val, (m.setDesc x (if type = 0 then .keyboard else .console)).setSlot p
      (Kernel.stdFd type) (some x))
  | some y => (firstFree (m.table p)).map fun fd => (fd.val, m.setSlot p fd (some y))

/-- The bytes a read of at most `count` bytes finds at the cursor, put at the front of the buffer. -/
def read (p : Proc) (fd : Fd) (buff : ℕ → UInt8) (count : ℕ) (kbd : ℕ → UInt8) (m : Machine) : Returned × Machine :=
  match m.behind p fd with
  | none => (⟨-einval, some buff⟩, m)
  | some (_, .keyboard) => (⟨1, some kbd⟩, m)
  | some (_, .console) => (⟨-eacces, some buff⟩, m)
  | some (x, .file name offset readable writable) =>
    if readable then
      let bytes := ((m.files.text name).drop offset).take count
      (⟨bytes.length, some (copyIn buff 0 bytes.length fun j => bytes.getD j 0)⟩,
        m.setDesc x (.file name (offset + bytes.length) readable writable))
    else (⟨-eacces, some buff⟩, m)

/-- A write that does not fit writes nothing, and takes the cursor back by one. -/
def write (p : Proc) (fd : Fd) (buff : ℕ → UInt8) (count : ℕ) (console : ℤ) (m : Machine) : ℤ × Machine :=
  match m.behind p fd with
  | none => (-einval, m)
  | some (_, .keyboard) => (-eacces, m)
  | some (_, .console) => (console, m)
  | some (x, .file name offset readable writable) =>
    if writable then
      if offset + count ≤ maxFileSize then
        (count, { m with files := m.files.write name offset (slice buff count) }.setDesc x
          (.file name (offset + count) readable writable))
      else (-1, m.setDesc x (.file name (offset - 1) readable writable))
    else (-eacces, m)

/-- The cursor goes to the position asked for, if that is inside the file. -/
def lseek (p : Proc) (fd : Fd) (offset whence : ℤ) (m : Machine) : ℤ × Machine :=
  match m.behind p fd with
  | some (x, .file name pos readable writable) =>
    match seekTarget pos (m.files.text name).length offset whence with
    | some t =>
      if 0 ≤ t ∧ t ≤ (m.files.text name).length then (t, m.setDesc x (.file name t.toNat readable writable))
      else (-einval, m)
    | none => (-einval, m)
  | _ => (-einval, m)

def dup2 (p : Proc) (oldfd newfd : Fd) (m : Machine) : ℤ × Machine :=
  match m.table p oldfd with
  | none => (-einval, m)
  | some x => (newfd.val, m.setSlot p newfd (some x))

def close (p : Proc) (fd : Fd) (unset : ℤ) (m : Machine) : ℤ × Machine :=
  match m.table p fd with
  | none => (-einval, m)
  | some _ => (unset, m.setSlot p fd none)

/-- A child shares all descriptions of its parent. -/
def fork (p child : Proc) (m : Machine) : ℤ × Machine :=
  (child.val, { m with table := Function.update m.table child (m.table p) })

def exit (p : Proc) (m : Machine) : ℤ × Machine :=
  (0, { m with table := Function.update m.table p fun _ => none })

end Machine

namespace Call

/-- The answer of a call that fills no buffer. -/
def plain {σ : Type} (r : ℤ × σ) : Returned × σ := (⟨r.1, none⟩, r.2)

/-- What the machine answers; it has no queues. -/
def serve (m : Machine) : Call → Option (Returned × Machine)
  | openFile p filename flags _ page => page.map fun x => plain (m.openFile p filename flags x.1)
  | openStd p type page => page.bind fun x => (m.openStd p type x.1).map plain
  | read p fd buff count kbd => some (m.read p fd buff (countInt count).toNat kbd)
  | write p fd buff count console => some (plain (m.write p fd buff (countInt count).toNat console))
  | lseek p fd offset whence => some (plain (m.lseek p fd offset whence))
  | dup2 p oldfd newfd => some (plain (m.dup2 p oldfd newfd))
  | close p fd unset => some (plain (m.close p fd unset))
  | fork p child => some (plain (m.fork p child))
  | exit p => some (plain (m.exit p))
  | sendfile .. | createQueue .. | msg .. | closeQueue .. => none

end Call

/-- A call and its answer, as the machine makes it. -/
def Machine.Step (m : Machine) (l : Call × Returned) (m' : Machine) : Prop := l.1.serve m = some (l.2, m')

/-! ## What a call leaves alone -/

namespace Call

/-- The description a call reads, writes or seeks through. -/
def through (t : Proc → Table) : Call → Option Ptr
  | read p fd .. | write p fd .. | lseek p fd .. => t p fd
  | _ => none

/-- Where a call may put a new description. -/
def places : Call → Option Ptr
  | openFile _ _ _ _ page | openStd _ _ page => page.map Prod.fst
  | _ => none

end Call

namespace Machine

variable {m m' : Machine} {l : Call × Returned} {p : Proc} {fd : Fd} {x y : Ptr} {d : Desc} {name : List UInt8}

/-- The call writes to a file through a description that may write. -/
def WritesTo (m : Machine) (c : Call) (name : List UInt8) : Prop :=
  ∃ p fd buff count console y off r,
    c = .write p fd buff count console ∧ m.behind p fd = some (y, .file name off r true)

theorem behind_some (h : m.behind p fd = some (y, d)) : m.table p fd = some y ∧ m.desc y = some d := by
  obtain ⟨z, hz, hd⟩ := Option.bind_eq_some_iff.1 h
  obtain ⟨e, he, hzy⟩ := Option.map_eq_some_iff.1 hd
  obtain ⟨rfl, rfl⟩ := Prod.mk.inj hzy
  exact ⟨hz, he⟩

theorem desc_setDesc_of_ne (hxy : x ≠ y) (d : Desc) (m : Machine) : (m.setDesc y d).desc x = m.desc x :=
  Function.update_of_ne hxy ..

theorem desc_enter (hxy : x ≠ y) (p : Proc) (d : Desc) (m : Machine) : (m.enter p y d).2.desc x = m.desc x := by
  unfold enter
  split
  · exact desc_setDesc_of_ne hxy d m
  · rfl

theorem desc_openFile (hxy : x ≠ y) (p : Proc) (filename : List UInt8) (flags : UInt64) (m : Machine) :
    (m.openFile p filename flags y).2.desc x = m.desc x := by
  unfold openFile
  split_ifs
  · rfl
  · exact desc_enter hxy ..
  · rfl
  · rfl
  · exact desc_enter hxy ..

/-- A description that a call does not go through is as it was, unless a new one took its place. -/
theorem Step.desc (h : m.Step l m') (hx : l.1.through m.table ≠ some x) (hnew : l.1.places ≠ some x) :
    m'.desc x = m.desc x := by
  obtain ⟨c, a⟩ := l
  unfold Step at h
  have hne : ∀ {p : Proc} {fd : Fd} {y : Ptr} {d : Desc}, m.behind p fd = some (y, d) → m.table p fd ≠ some x →
      x ≠ y := by
    rintro p fd y d hb ht rfl
    exact ht (behind_some hb).1
  cases c with
  | openFile p filename flags mode page =>
    cases page with
    | none => cases h
    | some page =>
      cases h
      exact desc_openFile (fun hxy => hnew (by rw [hxy]; rfl)) ..
  | openStd p type page =>
    cases page with
    | none => cases h
    | some page =>
      have hxy : x ≠ page.1 := fun hxy => hnew (by rw [hxy]; rfl)
      simp only [Call.serve, Option.bind_some, openStd] at h
      split at h
      · cases h
        exact desc_setDesc_of_ne hxy ..
      · cases hfree : firstFree (m.table p) with
        | none => rw [hfree] at h; cases h
        | some fd => rw [hfree] at h; cases h; rfl
  | read p fd buff count kbd =>
    simp only [Call.serve, read] at h
    split at h
    · cases h; rfl
    · cases h; rfl
    · cases h; rfl
    · rename_i hb
      split at h
      · cases h
        exact desc_setDesc_of_ne (hne hb hx) ..
      · cases h; rfl
  | write p fd buff count console =>
    simp only [Call.serve, write] at h
    split at h
    · cases h; rfl
    · cases h; rfl
    · cases h; rfl
    · rename_i hb
      split at h
      · split at h
        · cases h
          exact desc_setDesc_of_ne (hne hb hx) ..
        · cases h
          exact desc_setDesc_of_ne (hne hb hx) ..
      · cases h; rfl
  | lseek p fd offset whence =>
    simp only [Call.serve, lseek] at h
    split at h
    · rename_i hb
      split at h
      · split at h
        · cases h
          exact desc_setDesc_of_ne (hne hb hx) ..
        · cases h; rfl
      · cases h; rfl
    · cases h; rfl
  | dup2 p old new =>
    simp only [Call.serve, dup2] at h
    split at h <;> cases h <;> rfl
  | close p fd unset =>
    simp only [Call.serve, close] at h
    split at h <;> cases h <;> rfl
  | fork p child => cases h; rfl
  | exit p => cases h; rfl
  | sendfile | createQueue | msg | closeQueue => cases h

theorem files_enter (p : Proc) (x : Ptr) (d : Desc) (m : Machine) : (m.enter p x d).2.files = m.files := by
  unfold enter
  split <;> rfl

/-- A file that is there stays, with what it holds unless the call writes to it. -/
theorem Step.text (h : m.Step l m') (hname : name ∈ m.files.names) (hw : ¬ m.WritesTo l.1 name) :
    name ∈ m'.files.names ∧ m'.files.text name = m.files.text name := by
  obtain ⟨c, a⟩ := l
  have hkeep : m'.files = m.files → name ∈ m'.files.names ∧ m'.files.text name = m.files.text name := by
    intro he
    rw [he]
    exact ⟨hname, rfl⟩
  unfold Step at h
  cases c with
  | openFile p filename flags mode page =>
    cases page with
    | none => cases h
    | some page =>
      cases h
      unfold openFile at hkeep ⊢
      split_ifs at hkeep ⊢ with haccess hthere hcreat hfull
      · exact hkeep rfl
      · exact hkeep (files_enter ..)
      · exact hkeep rfl
      · exact hkeep rfl
      · -- the file created is another one
        have hne : name ≠ filename := by
          rintro rfl
          exact hthere hname
        rw [files_enter, Files.text_create, if_neg hne]
        exact ⟨Finset.mem_insert_of_mem hname, rfl⟩
  | openStd p type page =>
    cases page with
    | none => cases h
    | some page =>
      simp only [Call.serve, Option.bind_some, openStd] at h
      split at h
      · cases h
        exact hkeep rfl
      · cases hfree : firstFree (m.table p) with
        | none => rw [hfree] at h; cases h
        | some fd => rw [hfree] at h; cases h; exact hkeep rfl
  | read p fd buff count kbd =>
    simp only [Call.serve, read] at h
    split at h
    · cases h; exact hkeep rfl
    · cases h; exact hkeep rfl
    · cases h; exact hkeep rfl
    · split at h <;> cases h <;> exact hkeep rfl
  | write p fd buff count console =>
    simp only [Call.serve, write] at h
    split at h
    · cases h; exact hkeep rfl
    · cases h; exact hkeep rfl
    · cases h; exact hkeep rfl
    · rename_i y other off r w hb
      split at h
      · rename_i hwritable
        subst hwritable
        split at h
        · cases h
          have hne : name ≠ other := by
            rintro rfl
            exact hw ⟨p, fd, buff, count, console, y, off, r, rfl, hb⟩
          refine ⟨hname, ?_⟩
          change (m.files.write other off _).text name = _
          rw [Files.text_write, if_neg hne]
        · cases h; exact hkeep rfl
      · cases h; exact hkeep rfl
  | lseek p fd offset whence =>
    simp only [Call.serve, lseek] at h
    split at h
    · split at h
      · split at h <;> cases h <;> exact hkeep rfl
      · cases h; exact hkeep rfl
    · cases h; exact hkeep rfl
  | dup2 p old new =>
    simp only [Call.serve, dup2] at h
    split at h <;> cases h <;> exact hkeep rfl
  | close p fd unset =>
    simp only [Call.serve, close] at h
    split at h <;> cases h <;> exact hkeep rfl
  | fork p child => cases h; exact hkeep rfl
  | exit p => cases h; exact hkeep rfl
  | sendfile | createQueue | msg | closeQueue => cases h

end Machine

end CS330.Os
