/-
What processes do together through a description they share by dup2 and fork: readers take the file apart into what
each of them gets, byte for byte, and what writers write follows one another in the file.
-/
import CS330.Os.Refine

namespace CS330.Os

open CS330.Lib CS330.Fs Kernel

/-! ## Through one description -/

/-- The bytes a read delivered. -/
def Returned.bytes (a : Returned) : List UInt8 := a.buff.elim [] fun b => slice b a.ret.toNat

/-- The bytes a write stored. -/
def written (l : Call × Returned) : List UInt8 :=
  match l.1 with
  | .write _ _ buff _ _ => slice buff l.2.ret.toNat
  | _ => []

namespace Machine

variable {m m' : Machine} {l : Call × Returned} {p : Proc} {fd : Fd} {x : Ptr} {name : List UInt8} {off : ℕ}
  {r w : Bool}

theorem behind_of (ht : m.table p fd = some x) {d : Desc} (hd : m.desc x = some d) : m.behind p fd = some (x, d) := by
  rw [behind, ht, Option.bind_some, hd, Option.map_some]

/-- A read delivers what is at the cursor, and takes the cursor behind it. -/
theorem read_through (buff : ℕ → UInt8) (count : ℕ) (kbd : ℕ → UInt8) (ht : m.table p fd = some x)
    (hd : m.desc x = some (.file name off r w)) :
    ∃ n, (m.read p fd buff count kbd).1.bytes = ((m.files.text name).drop off).take n ∧
      (m.read p fd buff count kbd).2.desc x =
        some (.file name (off + (m.read p fd buff count kbd).1.bytes.length) r w) := by
  have hb := behind_of ht hd
  cases r with
  | false =>
    refine ⟨0, ?_, ?_⟩ <;> simp [read, hb, Returned.bytes, eacces, hd]
  | true =>
    set bytes := ((m.files.text name).drop off).take count with hbytes
    have hanswer : (m.read p fd buff count kbd).1.bytes = bytes := by
      have hslice : slice (copyIn buff 0 bytes.length fun j => bytes.getD j 0) bytes.length = bytes := by
        rw [← slice_getD bytes, length_slice]
        refine slice_congr fun j hj => ?_
        rw [copyIn_apply, if_pos (by omega), slice_getD]
        rfl
      simpa [read, hb, Returned.bytes, ← hbytes] using hslice
    refine ⟨count, hanswer, ?_⟩
    rw [hanswer]
    simp [read, hb, ← hbytes, setDesc]

theorem names_write (m : Machine) (p : Proc) (fd : Fd) (buff : ℕ → UInt8) (count : ℕ) (console : ℤ) :
    (m.write p fd buff count console).2.files.names = m.files.names := by
  unfold write
  split
  · rfl
  · rfl
  · rfl
  · split_ifs <;> rfl

/-- A write that does not fail for room stores its bytes at the cursor, and takes the cursor behind them. -/
theorem write_through (buff : ℕ → UInt8) (count : ℕ) (console : ℤ) (ht : m.table p fd = some x)
    (hd : m.desc x = some (.file name off r w)) (hret : (m.write p fd buff count console).1 ≠ -1) :
    (m.write p fd buff count console).2.files.text name =
        splice (m.files.text name) off (slice buff (m.write p fd buff count console).1.toNat) ∧
      (m.write p fd buff count console).2.desc x =
        some (.file name (off + (slice buff (m.write p fd buff count console).1.toNat).length) r w) := by
  have hb := behind_of ht hd
  cases w with
  | false => constructor <;> simp [write, hb, eacces, hd]
  | true =>
    by_cases hfit : off + count ≤ maxFileSize
    · constructor <;> simp [write, hb, hfit, setDesc, Files.write]
    · refine absurd ?_ hret
      simp [write, hb, hfit]

end Machine

/-! ## Readers and writers -/

/-- The call writes to the file of a name. -/
def Kernel.WritesFile (k : Kernel) (c : Call) (name : List UInt8) : Prop :=
  ∃ i, flatLookupInode k.sb name = some i ∧ k.WritesTo c i

/-- What a call read through a description, and what it wrote through one. -/
def readThrough (x : Ptr) (k : Kernel) (l : Call × Returned) : List UInt8 :=
  if l.1.through k.table = some x then l.2.bytes else []

def writtenThrough (x : Ptr) (k : Kernel) (l : Call × Returned) : List UInt8 :=
  if l.1.through k.table = some x then written l else []

/-- A call while the description on page `x` is open: nobody writes to its file, and what goes through it are reads.
What they deliver is collected. -/
structure Drains (x : Ptr) (name : List UInt8) (s : Kernel × List UInt8) (l : Call × Returned)
    (s' : Kernel × List UInt8) : Prop where
  step : AnsweredStep s.1 l s'.1
  used : 0 < s.1.used x
  quiet : ¬ s.1.WritesFile l.1 name
  reads : l.1.through s.1.table = some x → ∃ p fd buff count kbd, l.1 = .read p fd buff count kbd
  bytes : s'.2 = s.2 ++ readThrough x s.1 l

/-- A call while the description on page `x` is open: nobody writes to its file in another way, and what goes through
it are writes that do not fail for room. What they store is collected. -/
structure Fills (x : Ptr) (name : List UInt8) (s : Kernel × List UInt8) (l : Call × Returned)
    (s' : Kernel × List UInt8) : Prop where
  step : AnsweredStep s.1 l s'.1
  used : 0 < s.1.used x
  sole : s.1.WritesFile l.1 name → l.1.through s.1.table = some x
  writes : l.1.through s.1.table = some x →
    (∃ p fd buff count console, l.1 = .write p fd buff count console) ∧ l.2.ret ≠ -1
  bytes : s'.2 = s.2 ++ writtenThrough x s.1 l

namespace Shows

variable {k k' : Kernel} {m m' : Machine} {l : Call × Returned} {c : Call} {x : Ptr} {f : File} {i : ℕ}
  {name : List UInt8}

theorem writesFile (h : Shows k m) (hw : m.WritesTo c name) : k.WritesFile c name := by
  obtain ⟨p, fd, buff, count, console, y, off, r, rfl, hb⟩ := hw
  obtain ⟨ht, hd⟩ := Machine.behind_some hb
  rw [h.table] at ht
  obtain ⟨g, d, hg, hd', hof⟩ := h.desc y (used_of_slot ht)
  obtain rfl := Option.some.inj (hd.symm.trans hd')
  obtain ⟨-, -, ⟨i, hi, rfl⟩, -, hm⟩ := hof
  obtain ⟨hin, hv, -, -⟩ := h.sound.regular y g i hg hi
  exact ⟨i, h.files.lookup hin hv, p, fd, buff, count, console, y, g, rfl, ht, hg, hi, of_decide_eq_true hm.symm⟩

/-- The description of an open file. -/
theorem desc_file (h : Shows k m) (hused : 0 < k.used x) (hf : k.files x = some f) (hi : f.inode = some i) :
    (∃ r w, m.desc x = some (.file (k.sb.inode i).filename f.offp r w)) ∧ (k.sb.inode i).filename ∈ m.files.names ∧
      m.files.text (k.sb.inode i).filename = content (k.sb.inode i) k.mem := by
  obtain ⟨hin, hv, hops, -⟩ := h.sound.regular x f i hf hi
  refine ⟨?_, (h.files.names _).2 ⟨i, h.files.lookup hin hv⟩, h.files.text_of hin hv⟩
  obtain ⟨f', d, hf', hd, hof⟩ := h.desc x hused
  obtain rfl := Option.some.inj (hf.symm.trans hf')
  cases d with
  | file name off r w =>
    obtain ⟨-, rfl, ⟨j, hj, rfl⟩, -, -⟩ := hof
    obtain rfl := Option.some.inj (hi.symm.trans hj)
    exact ⟨r, w, hd⟩
  | keyboard =>
    rw [hof.1] at hops
    cases hops.1
  | console =>
    rw [hof.1] at hops
    cases hops.1

/-- The cursor of an open description is the machine's. -/
theorem offp_of (h : Shows k m) (hused : 0 < k.used x) {off : ℕ} {r w : Bool}
    (hd : m.desc x = some (.file name off r w)) : ∃ g, k.files x = some g ∧ g.offp = off := by
  obtain ⟨g, d, hg, hd', hof⟩ := h.desc x hused
  obtain rfl := Option.some.inj (hd.symm.trans hd')
  exact ⟨g, hg, hof.2.1⟩

/-- An open description is not placed anew. -/
theorem places_ne (h : Shows k m) (hc : StoreCall k c) (hused : 0 < k.used x) : c.places ≠ some x := by
  obtain ⟨f, d, hf, -⟩ := h.desc x hused
  have hpages := hc.legal.pages
  have hfresh : ∀ page : Option (Ptr × File), (∀ o ∈ page, k.Fresh o.1) → page.map Prod.fst ≠ some x := by
    rintro page hpage hx
    obtain ⟨o, ho, rfl⟩ := Option.map_eq_some_iff.1 hx
    have hnone := (hpage o ho).files
    rw [hf] at hnone
    cases hnone
  cases c with
  | openFile p filename flags mode page => exact hfresh page hpages
  | openStd p type page => exact hfresh page hpages
  | _ => exact fun he => by cases he

/-- A call that does not go through an open description, and does not write to its file. -/
theorem apart (h : Shows k m) (hs : AnsweredStep k l k') (hm : m.Step l m') (hused : 0 < k.used x)
    (hx : l.1.through k.table ≠ some x) (hname : name ∈ m.files.names) (hw : ¬ k.WritesFile l.1 name) :
    m'.desc x = m.desc x ∧ name ∈ m'.files.names ∧ m'.files.text name = m.files.text name := by
  rw [← h.table] at hx
  exact ⟨hm.desc hx (h.places_ne hs.call hused), hm.text hname fun hmw => hw (h.writesFile hmw)⟩

end Shows

section Runs

variable {pfn : ℕ → ℕ} {sb : SuperBlock} {d : Disk} {k₀ k k' : Kernel} {ls ls' : List (Call × Returned)} {x : Ptr}
  {f : File} {i : ℕ} {bytes : List UInt8}

end Runs

/-! ## Two processes and a file -/

/-- Carry a call out, and collect what `taken` finds in it. -/
def Call.collected (taken : Kernel → Call × Returned → List UInt8) (s : Kernel × List UInt8) (c : Call) :
    (Call × Returned) × Kernel × List UInt8 :=
  ((Call.answered s.1 c).1, (Call.answered s.1 c).2, s.2 ++ taken s.1 (Call.answered s.1 c).1)

def Call.isRead : Call → Bool
  | read .. => true
  | _ => false

def Call.isWrite : Call → Bool
  | write .. => true
  | _ => false

theorem answered_fst (k : Kernel) {c : Call} (h : c.Answerable k) : (Call.answered k c).1.1 = c := by
  obtain ⟨ret, he⟩ := Call.exec_next h.2
  unfold Call.answered
  rw [he]

theorem not_writesFile {k : Kernel} {c : Call} (h : c.isWrite = false) (name : List UInt8) : ¬ k.WritesFile c name := by
  rintro ⟨i, -, p, fd, buff, count, console, x, f, rfl, -⟩
  cases h

theorem run_readers {x : Ptr} {name : List UInt8} {s : Kernel × List UInt8} {cs : List Call}
    (h : Scripted (Call.collected (readThrough x)) (fun s c => c.Answerable s.1 ∧ 0 < s.1.used x ∧ c.isWrite = false ∧
      (c.through s.1.table = some x → c.isRead = true)) s cs) :
    Run (Drains x name) s (script (Call.collected (readThrough x)) s cs).1
      (script (Call.collected (readThrough x)) s cs).2 := by
  refine Run.script (Call.collected (readThrough x)) _ ?_ h
  rintro s c ⟨hans, hused, hquiet, hreads⟩
  have hc := answered_fst s.1 hans
  refine ⟨answered_step hans, hused, ?_, fun hx => ?_, rfl⟩
  · simp only [Call.collected, hc]
    exact not_writesFile hquiet name
  · simp only [Call.collected, hc] at hx ⊢
    have hread := hreads hx
    cases c with
    | read p fd buff count kbd => exact ⟨p, fd, buff, count, kbd, rfl⟩
    | _ => cases hread

theorem run_writers {x : Ptr} {name : List UInt8} {s : Kernel × List UInt8} {cs : List Call}
    (h : Scripted (Call.collected (writtenThrough x)) (fun s c => c.Answerable s.1 ∧ 0 < s.1.used x ∧
      (c.isWrite = true ↔ c.through s.1.table = some x) ∧ (Call.answered s.1 c).1.2.ret ≠ -1) s cs) :
    Run (Fills x name) s (script (Call.collected (writtenThrough x)) s cs).1
      (script (Call.collected (writtenThrough x)) s cs).2 := by
  refine Run.script (Call.collected (writtenThrough x)) _ ?_ h
  rintro s c ⟨hans, hused, hsole, hroom⟩
  have hc := answered_fst s.1 hans
  refine ⟨answered_step hans, hused, fun hw => ?_, fun hx => ⟨?_, hroom⟩, rfl⟩
  · simp only [Call.collected, hc] at hw ⊢
    refine hsole.1 (by_contra fun hno => not_writesFile (by simpa using hno) name hw)
  · simp only [Call.collected, hc] at hx ⊢
    have hwrite := hsole.2 hx
    cases c with
    | write p fd buff count console => exact ⟨p, fd, buff, count, console, rfl⟩
    | _ => cases hwrite

/-- Process 1 creates a file, writes to it, goes back to its start and forks. -/
def forked : List Call :=
  [.openFile 1 [97] 11 3 (some (4096, zeroPage)), .write 1 3 (fun j => UInt8.ofNat j) 9 0, .lseek 1 3 0 0, .fork 1 2]

/-- What both processes have open then. -/
def shared : File := ⟨.regular, 3, 0, 2, some 0, regularOps, none⟩

end CS330.Os
