/-
The flat store by name: which files there are, and the bytes each of them holds. Creating adds an empty file, writing
splices bytes into one, and neither touches another.
-/
import CS330.Fs.Directory

namespace CS330.Fs

open CS330.Lib

/-- Files are names with bytes; a name that is not there has bytes that do not matter. -/
structure Files where
  names : Finset (List UInt8)
  text : List UInt8 → List UInt8

namespace Files

def empty : Files := ⟨∅, fun _ => []⟩

def create (s : Files) (name : List UInt8) : Files := ⟨insert name s.names, Function.update s.text name []⟩

def write (s : Files) (name : List UInt8) (off : ℕ) (data : List UInt8) : Files :=
  { s with text := Function.update s.text name (splice (s.text name) off data) }

theorem text_create (s : Files) (name n : List UInt8) :
    (s.create name).text n = if n = name then [] else s.text n := Function.update_apply ..

theorem text_write (s : Files) (name : List UInt8) (off : ℕ) (data n : List UInt8) :
    (s.write name off data).text n = if n = name then splice (s.text name) off data else s.text n :=
  Function.update_apply ..

/-- The files are those of a store: the names of its valid inodes, each with what the inode holds. -/
structure In (s : Files) (sb : SuperBlock) (mem : Mem) : Prop where
  names : ∀ name, name ∈ s.names ↔ ∃ i, flatLookupInode sb name = some i
  text : ∀ name i, flatLookupInode sb name = some i → s.text name = content (sb.inode i) mem
  count : (s.names.card : ℤ) = sb.numFiles
  mirrors : ∃ m, Mirrors sb m

variable {s : Files} {sb sb' : SuperBlock} {mem mem' : Mem} {name : List UInt8} {i : ℕ}

/-- A valid inode is the file of its name. -/
theorem In.lookup (h : s.In sb mem) (hi : i < numInodes) (hv : (sb.inode i).isValid = true) :
    flatLookupInode sb (sb.inode i).filename = some i := by
  obtain ⟨m, hm⟩ := h.mirrors
  exact hm.lookup.2 (hm.entry.2 ⟨hi, hv, rfl⟩)

theorem In.text_of (h : s.In sb mem) (hi : i < numInodes) (hv : (sb.inode i).isValid = true) :
    s.text (sb.inode i).filename = content (sb.inode i) mem := h.text _ i (h.lookup hi hv)

theorem In.absent (h : s.In sb mem) : name ∉ s.names ↔ flatLookupInode sb name = none := by
  rw [h.names, not_exists, Option.eq_none_iff_forall_ne_some]

/-- The store is full when there are as many files as inodes. -/
theorem In.full (h : s.In sb mem) : getFreeInode sb = none ↔ s.names.card = numInodes := by
  obtain ⟨m, hm⟩ := h.mirrors
  have hsize : s.names.card = m.size numInodes := by
    have hcount := h.count
    rw [hm.count] at hcount
    exact_mod_cast hcount
  -- every slot has a name exactly if every inode is valid
  rw [getFreeInode_none, hsize]
  unfold Registry.size
  have hcard : (Finset.range numInodes).card = numInodes := Finset.card_range _
  constructor
  · intro hall
    rw [Finset.filter_true_of_mem fun i hi => ?_, hcard]
    have hi' := Finset.mem_range.1 hi
    rw [hm.slots, if_pos ⟨hi', hall i hi'⟩]
    rfl
  · intro heq i hi
    have hfull := Finset.filter_card_eq (heq.trans hcard.symm) i (Finset.mem_range.2 hi)
    by_contra hv
    rw [(hm.vacant hi).2 (by simpa using hv)] at hfull
    cases hfull

theorem in_initFileSystem (pfn : ℕ → ℕ) (sb : SuperBlock) (d : Disk) (mem : Mem) :
    empty.In (initFileSystem pfn sb d).1 mem := by
  have hm := mirrors_initFileSystem pfn sb d
  have hnone : ∀ name, flatLookupInode (initFileSystem pfn sb d).1 name = none := fun name =>
    hm.lookup_none.2 fun i he => by cases he
  refine ⟨fun name => ?_, fun name i hl => ?_, ?_, _, hm⟩
  · simp [hnone, empty]
  · rw [hnone] at hl
    cases hl
  · rw [hm.count]
    simp [empty]

/-- Creating a file. -/
theorem In.create (h : s.In sb mem) {mode : UInt32} (hc : flatCreateInode sb name mode = (some i, sb')) :
    (s.create name).In sb' mem := by
  obtain ⟨m, hm⟩ := h.mirrors
  have hm' := hm.create hc
  obtain ⟨hfree, hl, hsb'⟩ := flatCreateInode_some hc
  have hlookup : ∀ n j, flatLookupInode sb' n = some j ↔ if j = i then n = name else flatLookupInode sb n = some j := by
    intro n j
    rw [hm'.lookup, Function.update_apply]
    split
    · simp [eq_comm]
    · exact hm.lookup.symm
  have hi : m i = none := (hm.vacant (getFreeInode_some hfree).1).2 (getFreeInode_some hfree).2
  have hother : ∀ n j, flatLookupInode sb n = some j → j ≠ i := by
    rintro n j hj rfl
    rw [hm.lookup, hi] at hj
    cases hj
  refine ⟨fun n => ?_, fun n j hj => ?_, ?_, _, hm'⟩
  · rw [Files.create, Finset.mem_insert, h.names]
    constructor
    · rintro (rfl | ⟨j, hj⟩)
      · exact ⟨i, (hlookup n i).2 (by rw [if_pos rfl])⟩
      · exact ⟨j, (hlookup n j).2 (by rwa [if_neg (hother n j hj)])⟩
    · rintro ⟨j, hj⟩
      rw [hlookup] at hj
      split at hj
      · exact Or.inl hj
      · exact Or.inr ⟨j, hj⟩
  · rw [hlookup] at hj
    rw [text_create]
    split at hj
    · subst j n
      have hmade : (sb'.inode i).fileSize = 0 := by
        rw [hsb']
        simp only [Function.update_self]
      rw [if_pos rfl, content, hmade]
      rfl
    · rename_i hji
      have hn : n ≠ name := by
        rintro rfl
        rw [hl] at hj
        cases hj
      have hold : sb'.inode j = sb.inode j := by
        rw [hsb']
        simp only [Function.update_of_ne hji]
      rw [if_neg hn, hold]
      exact h.text n j hj
  · have hnew : name ∉ s.names := h.absent.2 hl
    rw [Files.create, Finset.card_insert_of_notMem hnew, Nat.cast_add, h.count, hsb']
    rfl

/-- Writing to a file: names stay, and only the inode written to holds something else. -/
theorem In.write (h : s.In sb mem) (hi : i < numInodes) (hv : (sb.inode i).isValid = true) {f : Inode}
    (hfv : f.isValid = true) (hname : f.filename = (sb.inode i).filename) (off : ℕ) (data : List UInt8)
    (hself : content f mem' = splice (content (sb.inode i) mem) off data)
    (hother : ∀ j < numInodes, (sb.inode j).isValid = true → j ≠ i →
      content (sb.inode j) mem' = content (sb.inode j) mem) :
    (s.write (sb.inode i).filename off data).In { sb with inode := Function.update sb.inode i f } mem' := by
  obtain ⟨m, hm⟩ := h.mirrors
  have hm' : Mirrors { sb with inode := Function.update sb.inode i f } m := by
    refine ⟨fun j => ?_, hm.distinct, hm.count⟩
    have hsame : Function.update m i (some (sb.inode i).filename) = m :=
      Function.update_eq_self_iff.2 (hm.entry.2 ⟨hi, hv, rfl⟩).symm
    rw [← hsame]
    exact hm.slots_update hi (by rw [hfv, hname]; rfl) j
  have hlookup : ∀ n j, flatLookupInode { sb with inode := Function.update sb.inode i f } n = some j ↔
      flatLookupInode sb n = some j := fun n j => hm'.lookup.trans hm.lookup.symm
  refine ⟨fun n => ?_, fun n j hj => ?_, h.count, m, hm'⟩
  · rw [Files.write, h.names]
    exact exists_congr fun j => (hlookup n j).symm
  · rw [hlookup] at hj
    obtain ⟨hjn, hjv, hjf⟩ := hm.entry.1 (hm.lookup.1 hj)
    rw [text_write]
    by_cases hji : j = i
    · subst hji
      rw [if_pos hjf.symm]
      simp only [Function.update_self]
      rw [hself, h.text_of hi hv]
    · have hne : n ≠ (sb.inode i).filename := by
        rintro rfl
        exact hji (Option.some.inj (hj.symm.trans (h.lookup hi hv)))
      rw [if_neg hne]
      simp only [Function.update_of_ne hji]
      rw [hother j hjn hjv hji]
      exact h.text n j hj

end Files

end CS330.Fs
