/-
The directory of the flat store is a finite map as long as it is asked to remove only what it has: at most 32
names, each in a slot of its own, with the number of names kept beside them.
-/
import CS330.Fs.Spec
import CS330.Lib.Registry

namespace CS330.Fs

open CS330.Lib

/-! ## Creating -/

theorem flatCreateInode_some {sb sb' : SuperBlock} {filename : List UInt8} {mode : UInt32} {i : ℕ}
    (h : flatCreateInode sb filename mode = (some i, sb')) :
    getFreeInode sb = some i ∧ flatLookupInode sb filename = none ∧ sb' = { sb with
      inode := Function.update sb.inode i { sb.inode i with
        isValid := true, mode := mode, filename := filename, maxPos := (sb.inode i).sPos, fileSize := 0, refCount := 0 }
      numFiles := sb.numFiles + 1 } := by
  unfold flatCreateInode at h
  simp only at h
  split at h
  · cases (Prod.mk.inj h).1
  · rename_i hl
    split at h
    · rename_i j hj
      obtain ⟨hji, rfl⟩ := Prod.mk.inj h
      obtain rfl := Option.some.inj hji
      exact ⟨hj, Option.not_isSome_iff_eq_none.1 hl, rfl⟩
    · cases (Prod.mk.inj h).1

theorem flatCreateInode_none {sb sb' : SuperBlock} {filename : List UInt8} {mode : UInt32}
    (h : flatCreateInode sb filename mode = (none, sb')) :
    sb' = sb ∧ ((flatLookupInode sb filename).isSome = true ∨ getFreeInode sb = none) := by
  unfold flatCreateInode at h
  simp only at h
  split at h
  · rename_i hl
    exact ⟨(Prod.mk.inj h).2.symm, Or.inl hl⟩
  · split at h
    · cases (Prod.mk.inj h).1
    · rename_i hfree
      exact ⟨(Prod.mk.inj h).2.symm, Or.inr hfree⟩

theorem getFreeInode_none {sb : SuperBlock} :
    getFreeInode sb = none ↔ ∀ i < numInodes, (sb.inode i).isValid = true := by
  unfold getFreeInode
  rw [firstIdx_none]
  exact forall₂_congr fun i _ => by simp

theorem getFreeInode_some {sb : SuperBlock} {i : ℕ} (h : getFreeInode sb = some i) :
    i < numInodes ∧ (sb.inode i).isValid = false := by
  obtain ⟨hi, hp, -⟩ := firstIdx_some h
  exact ⟨hi, by simpa using hp⟩

/-! ## The calls -/

/-- A call on the directory; an inode pointer is an index, or `none` for NULL. -/
inductive DirCall where
  | create (fileName : List UInt8) (mode : UInt32)
  | remove (inode : Option ℕ)
  | openInode (inode : ℕ)
  | closeInode (inode : ℕ)

/-- An inode that may be removed. -/
def Removable (sb : SuperBlock) (inode : Option ℕ) : Prop :=
  ∃ i ∈ inode, (sb.inode i).isValid = true ∧ (sb.inode i).refCount = 0

instance (sb : SuperBlock) (inode : Option ℕ) : Decidable (Removable sb inode) := by
  unfold Removable
  infer_instance

namespace DirCall

/-- The value a call returns and the directory it leaves, if it comes back. -/
def exec (sb : SuperBlock) : DirCall → Option (ℤ × SuperBlock)
  | create fileName mode =>
    match flatCreateInode sb fileName mode with
    | (some i, sb) => some (i, sb)
    | (none, sb) => some (-1, sb)
  | remove inode => flatRemoveInode sb inode
  | openInode i => some (flatOpen sb i)
  | closeInode i => some (flatClose sb i)

/-- Names fit, and inode pointers are NULL or inodes of the directory. -/
def Legal : DirCall → Prop
  | create fileName _ => fileName.length < 256
  | remove inode => ∀ i ∈ inode, i < numInodes
  | openInode i | closeInode i => i < numInodes

/-- Only what is removable is removed. -/
def Tidy (sb : SuperBlock) : DirCall → Prop
  | remove inode => Removable sb inode
  | _ => True

/-- A call that has to be refused, when `m` says what was created where. -/
def Refused (m : Registry (List UInt8)) (sb : SuperBlock) : DirCall → Prop
  | create fileName _ => (∃ i, m i = some fileName) ∨ ∀ i < numInodes, (sb.inode i).isValid = true
  | remove inode => ¬ Removable sb inode
  | openInode _ | closeInode _ => False

instance : DecidablePred Legal := fun c => by rcases c <;> unfold Legal <;> infer_instance
instance (sb : SuperBlock) : DecidablePred (Tidy sb) := fun c => by rcases c <;> unfold Tidy <;> infer_instance

end DirCall

/-- A call and what it returned. -/
structure DirDone where
  call : DirCall
  ret : ℤ

/-- What a call does to the names created and not removed since. -/
def DirDone.enter (m : Registry (List UInt8)) (d : DirDone) : Registry (List UInt8) :=
  match d.call with
  | .create fileName _ => if 0 ≤ d.ret then Function.update m d.ret.toNat (some fileName) else m
  | .remove (some i) => if d.ret = 0 then Function.update m i none else m
  | _ => m

/-- The name that was created in each slot and not removed since. -/
def entered (ds : List DirDone) : Registry (List UInt8) := ds.foldl DirDone.enter fun _ => none

theorem entered_snoc (ds : List DirDone) (d : DirDone) : entered (ds ++ [d]) = d.enter (entered ds) := by
  simp [entered]

/-- One tidy call. -/
structure DirStep (sb : SuperBlock) (d : DirDone) (sb' : SuperBlock) : Prop where
  legal : d.call.Legal
  tidy : d.call.Tidy sb
  exec : d.call.exec sb = some (d.ret, sb')

/-! ## The directory and the names -/

/-- The valid inodes are the names entered, and the counter says how many there are. -/
structure Mirrors (sb : SuperBlock) (m : Registry (List UInt8)) : Prop where
  slots : ∀ i, m i = if i < numInodes ∧ (sb.inode i).isValid = true then some (sb.inode i).filename else none
  distinct : m.Distinct
  count : sb.numFiles = m.size numInodes

namespace Mirrors

variable {sb sb' : SuperBlock} {m : Registry (List UInt8)} {i : ℕ} {name : List UInt8}

theorem entry (h : Mirrors sb m) :
    m i = some name ↔ i < numInodes ∧ (sb.inode i).isValid = true ∧ (sb.inode i).filename = name := by
  rw [h.slots]
  split <;> simp_all

theorem vacant (h : Mirrors sb m) (hi : i < numInodes) : m i = none ↔ (sb.inode i).isValid = false := by
  rw [h.slots]
  cases hv : (sb.inode i).isValid <;> simp [hi]

theorem lookup (h : Mirrors sb m) : flatLookupInode sb name = some i ↔ m i = some name := by
  refine (h.distinct.firstIdx_eq fun j hj => ?_).trans ⟨And.right, fun hm => ⟨(h.entry.1 hm).1, hm⟩⟩
  rw [h.entry]
  simp [hj]

theorem lookup_none (h : Mirrors sb m) : flatLookupInode sb name = none ↔ ∀ i, m i ≠ some name := by
  rw [Option.eq_none_iff_forall_ne_some]
  exact forall_congr' fun i => not_congr h.lookup

/-- An inode is made over and its entry with it. -/
theorem slots_update (h : Mirrors sb m) (hi : i < numInodes) {f : Inode} {v : Option (List UInt8)}
    (hv : v = if f.isValid = true then some f.filename else none) (j : ℕ) :
    Function.update m i v j = if j < numInodes ∧ ((Function.update sb.inode i f) j).isValid = true then
      some ((Function.update sb.inode i f) j).filename else none := by
  by_cases hj : j = i
  · subst hj
    simp [hi, hv]
  · simp only [Function.update_of_ne hj]
    exact h.slots j

theorem create (h : Mirrors sb m) {mode : UInt32} (hc : flatCreateInode sb name mode = (some i, sb')) :
    Mirrors sb' (Function.update m i (some name)) := by
  obtain ⟨hfree, hl, rfl⟩ := flatCreateInode_some hc
  obtain ⟨hi, hv⟩ := getFreeInode_some hfree
  refine ⟨h.slots_update hi rfl, h.distinct.enter (h.lookup_none.1 hl) i, ?_⟩
  show sb.numFiles + 1 = _
  rw [Registry.size_enter hi ((h.vacant hi).2 hv), h.count]
  push_cast
  rfl

theorem remove (h : Mirrors sb m) (hi : i < numInodes) (hv : (sb.inode i).isValid = true) {ret : ℤ}
    (hr : flatRemoveInode sb (some i) = some (ret, sb')) : ret = 0 ∧ Mirrors sb' (Function.update m i none) := by
  obtain ⟨rfl, rfl⟩ := Prod.mk.inj (Option.some.inj hr)
  refine ⟨rfl, h.slots_update hi rfl, h.distinct.erase i, ?_⟩
  have hsize := Registry.size_erase hi (h.entry.2 ⟨hi, hv, rfl⟩)
  show sb.numFiles - 1 = _
  rw [h.count, ← hsize]
  push_cast
  ring

/-- References to an inode are no matter of the directory. -/
theorem refer (h : Mirrors sb m) (i n : ℕ) :
    Mirrors { sb with inode := Function.update sb.inode i { sb.inode i with refCount := n } } m := by
  refine ⟨fun j => ?_, h.distinct, h.count⟩
  rw [h.slots]
  by_cases hj : j = i
  · subst hj
    simp
  · simp only [Function.update_of_ne hj]

/-- What a legal call is answered, and what it does to the names. -/
theorem answer (h : Mirrors sb m) {c : DirCall} (hl : c.Legal) (ht : c.Tidy sb) :
    ∃ ret sb', c.exec sb = some (ret, sb') ∧ Mirrors sb' (DirDone.enter m ⟨c, ret⟩) ∧
      (ret = -1 ∧ sb' = sb ↔ c.Refused m sb) := by
  cases c with
  | create fileName mode =>
    rcases hc : flatCreateInode sb fileName mode with ⟨_ | i, sb'⟩
    -- refused: the name is there, or no inode is free
    · obtain ⟨rfl, hwhy⟩ := flatCreateInode_none hc
      refine ⟨-1, sb', by simp only [DirCall.exec, hc], by simpa [DirDone.enter] using h,
        ⟨fun _ => ?_, fun _ => ⟨rfl, rfl⟩⟩⟩
      rcases hwhy with hl | hfree
      · obtain ⟨i, hi⟩ := Option.isSome_iff_exists.1 hl
        exact Or.inl ⟨i, h.lookup.1 hi⟩
      · exact Or.inr (getFreeInode_none.1 hfree)
    · obtain ⟨hfree, hl, -⟩ := flatCreateInode_some hc
      obtain ⟨hi, hv⟩ := getFreeInode_some hfree
      refine ⟨i, sb', by simp only [DirCall.exec, hc], ?_, ⟨fun h => absurd h.1 (by omega), ?_⟩⟩
      · simpa [DirDone.enter] using h.create hc
      · rintro (⟨j, hj⟩ | hfull)
        · exact absurd hj (h.lookup_none.1 hl j)
        · rw [hfull i hi] at hv
          cases hv
  | remove inode =>
    obtain ⟨i, rfl, hv, hr⟩ := ht
    obtain ⟨-, hm⟩ := h.remove (hl i rfl) hv rfl
    refine ⟨0, _, rfl, by simpa [DirDone.enter] using hm, ⟨fun h => absurd h.1 (by decide), fun hno => ?_⟩⟩
    exact absurd ⟨i, rfl, hv, hr⟩ hno
  | openInode i | closeInode i =>
    exact ⟨0, _, rfl, h.refer i _, ⟨fun h => absurd h.1 (by decide), False.elim⟩⟩

end Mirrors

/-! ## The law -/

/-- The directory is the finite map `m`. -/
structure IsMap (sb : SuperBlock) (m : Registry (List UInt8)) : Prop where
  distinct : ∀ i < numInodes, ∀ j < numInodes, (sb.inode i).isValid = true → (sb.inode j).isValid = true →
    (sb.inode i).filename = (sb.inode j).filename → i = j
  count : sb.numFiles = ((Finset.range numInodes).filter fun i => (sb.inode i).isValid = true).card
  lookup : ∀ name i, flatLookupInode sb name = some i ↔ m i = some name
  inodeNo : ∀ name, ∀ i : ℕ, flatGetInodeNo sb name = i ↔ m i = some name
  absent : ∀ name, flatLookupInode sb name = none ↔ flatGetInodeNo sb name = -1

theorem Mirrors.isMap {sb : SuperBlock} {m : Registry (List UInt8)} (h : Mirrors sb m) : IsMap sb m := by
  have hno : ∀ name, flatGetInodeNo sb name = (flatLookupInode sb name).elim (-1) fun i => (i : ℤ) := by
    intro name
    unfold flatGetInodeNo flatLookupInode
    cases firstIdx numInodes fun i => (sb.inode i).isValid && (sb.inode i).filename == name <;> rfl
  refine ⟨fun i hi j hj hvi hvj he => ?_, ?_, fun name i => h.lookup, fun name i => ?_, fun name => ?_⟩
  · exact h.distinct i j _ (h.entry.2 ⟨hi, hvi, he⟩) (h.entry.2 ⟨hj, hvj, rfl⟩)
  · rw [h.count]
    unfold Registry.size
    refine congrArg (fun s : Finset ℕ => (s.card : ℤ)) (Finset.filter_congr fun i hi => ?_)
    rw [h.slots]
    simp [Finset.mem_range.1 hi]
  · rw [hno, ← h.lookup]
    cases flatLookupInode sb name with
    | none => simp
    | some j => simp
  · rw [hno]
    cases flatLookupInode sb name with
    | none => simp
    | some j => simp

/-- A call comes back, is refused exactly where it has to be and then changes nothing, and leaves a finite map:
the one it was called on with the call's own change. -/
def Answers (sb : SuperBlock) (ds : List DirDone) (c : DirCall) : Prop :=
  ∃ ret sb', c.exec sb = some (ret, sb') ∧ (ret = -1 ∧ sb' = sb ↔ c.Refused (entered ds) sb) ∧
    IsMap sb' (entered (ds ++ [⟨c, ret⟩]))

theorem mirrors_initFileSystem (pfn : ℕ → ℕ) (sb : SuperBlock) (d : Disk) :
    Mirrors (initFileSystem pfn sb d).1 fun _ => none := by
  refine ⟨fun i => ?_, Registry.distinct_empty, by simp; rfl⟩
  by_cases hi : i < numInodes
  · rw [inode_initFileSystem pfn sb d hi]
    simp [freshInode]
  · simp [hi]

/-- A call that is not tidy removes something else: it does not come back, or it is not refused. -/
theorem not_answers {sb : SuperBlock} {ds : List DirDone} {c : DirCall} (ht : ¬ c.Tidy sb) : ¬ Answers sb ds c := by
  rintro ⟨ret, sb', he, hrefused, -⟩
  cases c with
  | remove inode =>
    obtain ⟨hret, -⟩ := hrefused.2 ht
    cases inode with
    | none => cases he
    | some i =>
      obtain ⟨rfl, -⟩ := Prod.mk.inj (Option.some.inj he)
      exact absurd hret (by decide)
  | create | openInode | closeInode => exact ht trivial

/-- In every run of creations, openings, closings and tidy removals on the store as it is set up, the directory
is the finite map of what was created and not removed since; and a next call is answered as it should be, and
leaves such a map, if and only if it is tidy. -/
theorem run_directory (pfn : ℕ → ℕ) (sb₀ : SuperBlock) (d : Disk) {ds : List DirDone} {sb : SuperBlock}
    (hrun : Run DirStep (initFileSystem pfn sb₀ d).1 ds sb) :
    IsMap sb (entered ds) ∧ ∀ c : DirCall, c.Legal → (Answers sb ds c ↔ c.Tidy sb) := by
  have hinv : Mirrors sb (entered ds) := by
    refine hrun.inv (P := fun ds sb => Mirrors sb (entered ds)) (mirrors_initFileSystem pfn sb₀ d) ?_
    rintro ds sb ⟨c, ret⟩ sb' - h hs
    obtain ⟨ret', sb'', he, h', -⟩ := h.answer hs.legal hs.tidy
    obtain ⟨rfl, rfl⟩ := Prod.mk.inj (Option.some.inj (hs.exec.symm.trans he))
    rw [entered_snoc]
    exact h'
  refine ⟨hinv.isMap, fun c hl => ⟨fun ha => by_contra fun ht => not_answers ht ha, fun ht => ?_⟩⟩
  obtain ⟨ret, sb', he, h', hrefused⟩ := hinv.answer hl ht
  exact ⟨ret, sb', he, hrefused, by rw [entered_snoc]; exact h'.isMap⟩

/-! ## A store -/

/-- Carry a call out. -/
def DirCall.next (sb : SuperBlock) (c : DirCall) : DirDone × SuperBlock :=
  match c.exec sb with
  | some r => (⟨c, r.1⟩, r.2)
  | none => (⟨c, -1⟩, sb)

theorem run_dirCalls {sb : SuperBlock} {cs : List DirCall}
    (h : Scripted DirCall.next (fun sb c => (c.Legal ∧ c.Tidy sb) ∧ (c.exec sb).isSome = true) sb cs) :
    Run DirStep sb (script DirCall.next sb cs).1 (script DirCall.next sb cs).2 := by
  refine Run.script DirCall.next _ ?_ h
  rintro sb c ⟨⟨hl, ht⟩, hret⟩
  obtain ⟨r, hr⟩ := Option.isSome_iff_exists.1 hret
  unfold DirCall.next
  rw [hr]
  exact ⟨hl, ht, hr⟩

/-- The store as it is set up on empty frames from the eighth on. -/
def emptyStore : SuperBlock := (initFileSystem (· + 8) ⟨0, fun _ => freshInode 0 0⟩ ⟨0, fun _ => 0⟩).1

/-- Two names, the first removed and its slot taken by a third; the second name again is refused. -/
theorem run_directory_of_five :
    let r := script DirCall.next emptyStore
      [.create [97] 1, .create [98] 3, .remove (some 0), .create [99] 1, .create [98] 1]
    IsMap r.2 (entered r.1) ∧ ∀ c : DirCall, c.Legal → (Answers r.2 r.1 c ↔ c.Tidy r.2) := by
  intro r
  exact run_directory (· + 8) _ _ (@run_dirCalls emptyStore
    [.create [97] 1, .create [98] 3, .remove (some 0), .create [99] 1, .create [98] 1] (by decide +kernel))

/-- A file removed twice: both removals answer 0, and the store counts -1 files where no inode is valid. An inode
with a reference is removed like any other, and a NULL pointer is followed. -/
theorem remove_twice_miscounts :
    let sb := (script DirCall.next emptyStore [.create [97] 1, .remove (some 0)]).2
    let held := (script DirCall.next emptyStore [.create [97] 1, .openInode 0]).2
    (∃ ds, Run DirStep emptyStore ds sb) ∧ (DirCall.remove (some 0)).Legal ∧
    (∃ sb', flatRemoveInode sb (some 0) = some (0, sb') ∧ sb'.numFiles = -1 ∧
      ∀ i < numInodes, (sb'.inode i).isValid = false) ∧
    (∃ ds, Run DirStep emptyStore ds held) ∧ (held.inode 0).refCount = 1 ∧
    (∃ sb', flatRemoveInode held (some 0) = some (0, sb') ∧ (sb'.inode 0).isValid = false) ∧
    flatRemoveInode sb none = none := by
  intro sb held
  refine ⟨⟨_, @run_dirCalls emptyStore [.create [97] 1, .remove (some 0)] (by decide +kernel)⟩, by decide,
    ⟨_, rfl, by decide +kernel, by decide +kernel⟩,
    ⟨_, @run_dirCalls emptyStore [.create [97] 1, .openInode 0] (by decide +kernel)⟩, by decide +kernel,
    ⟨_, rfl, by decide +kernel⟩, rfl⟩

end CS330.Fs
