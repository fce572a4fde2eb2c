/-
The kernel refines the machine of named files and shared descriptions: through file objects, inodes and memory, every
run of calls on the store answers as the machine does.
-/
import CS330.Os.Access
import CS330.Os.Machine

namespace CS330.Os

open CS330.Lib CS330.Fs Kernel

/-! ## Descriptions -/

/-- The operations of a standard stream. -/
def stdOps (type : StdType) : FileOps where
  read := if type = 0 then some .doReadKbd else none
  write := if type = 0 then none else some .doWriteConsole
  lseek := none
  close := some .stdClose

/-- The description a file object stands for. -/
def Desc.Of (sb : SuperBlock) (f : File) : Desc → Prop
  | .file name offset readable writable => f.fops = regularOps ∧ f.offp = offset ∧
      (∃ i, f.inode = some i ∧ (sb.inode i).filename = name) ∧
      readable = decide (f.mode &&& oRead ≠ 0) ∧ writable = decide (f.mode &&& oWrite ≠ 0)
  | .keyboard => f.fops = stdOps 0 ∧ f.mode = oRead
  | .console => f.fops = stdOps 1 ∧ f.mode = oWrite

theorem Desc.Of.counts {sb : SuperBlock} {f : File} {d : Desc} (h : d.Of sb f) (c : ℕ) :
    d.Of sb { f with refCount := c } := by
  cases d with
  | file name offset readable writable => exact h
  | keyboard => exact h
  | console => exact h

/-- Inodes in use keep their names. -/
def KeepsNames (sb sb' : SuperBlock) : Prop :=
  ∀ i < numInodes, (sb.inode i).isValid = true → (sb'.inode i).filename = (sb.inode i).filename

theorem Desc.Of.store {k : Kernel} (hk : k.Sound) {x : Ptr} {f : File} (hf : k.files x = some f) {d : Desc}
    (h : d.Of k.sb f) {sb : SuperBlock} (hsb : KeepsNames k.sb sb) : d.Of sb f := by
  cases d with
  | file name offset readable writable =>
    obtain ⟨hops, hoff, ⟨i, hi, hname⟩, hrest⟩ := h
    obtain ⟨hn, hv, -, -⟩ := hk.regular x f i hf hi
    exact ⟨hops, hoff, ⟨i, hi, (hsb i hn hv).trans hname⟩, hrest⟩
  | keyboard => exact h
  | console => exact h

/-! ## The relation -/

/-- Both have the same tables, a description stands for every object in use, and the files are those of the store. -/
structure Shows (k : Kernel) (m : Machine) : Prop where
  sound : k.Sound
  table : m.table = k.table
  desc : ∀ x, 0 < k.used x → ∃ f d, k.files x = some f ∧ m.desc x = some d ∧ d.Of k.sb f
  files : m.files.In k.sb k.mem

namespace Shows

variable {k k' : Kernel} {m m' : Machine} {p : Proc} {fd : Fd} {x : Ptr} {f : File} {d : Desc} {i : ℕ} {ret : ℤ}
  {s : Files}

theorem behind (h : Shows k m) (hs : k.table p fd = some x) :
    ∃ f d, k.files x = some f ∧ m.behind p fd = some (x, d) ∧ d.Of k.sb f := by
  obtain ⟨f, d, hf, hd, ho⟩ := h.desc x (used_of_slot hs)
  refine ⟨f, d, hf, ?_, ho⟩
  rw [Machine.behind, h.table, hs, Option.bind_some, hd, Option.map_some]

theorem behind_none (h : Shows k m) (hs : k.table p fd = none) : m.behind p fd = none := by
  rw [Machine.behind, h.table, hs, Option.bind_none]

/-- A call that only moves slots and counts. -/
theorem counts (h : Shows k m) (hk : k'.Sound) (ho : OnlyCounts k k') (hu : ∀ x, 0 < k'.used x → 0 < k.used x) :
    Shows k' { m with table := k'.table } := by
  refine ⟨hk, rfl, fun x hx => ?_, by rw [ho.sb, ho.mem]; exact h.files⟩
  obtain ⟨g, hg⟩ := hk.counted.refs.live x hx
  obtain ⟨f, hf, c, rfl⟩ := ho.files x g hg
  obtain ⟨f', d, hf', hd, hof⟩ := h.desc x (hu x hx)
  obtain rfl := Option.some.inj (hf.symm.trans hf')
  exact ⟨_, d, hg, hd, by rw [ho.sb]; exact hof.counts c⟩

/-- A call that changes or makes the object of one description, and perhaps the files. -/
theorem object (h : Shows k m) (hk : k'.Sound) (hf : k'.files = Function.update k.files x (some f))
    (hsb : KeepsNames k.sb k'.sb) (hu : ∀ z ≠ x, 0 < k'.used z → 0 < k.used z) (hd : d.Of k'.sb f)
    (ht : m'.table = k'.table) (hm : m'.desc = Function.update m.desc x (some d)) (hs : m'.files.In k'.sb k'.mem) :
    Shows k' m' := by
  refine ⟨hk, ht, fun z hz => ?_, hs⟩
  rw [hf, hm]
  by_cases hzx : z = x
  · subst hzx
    exact ⟨f, d, Function.update_self .., Function.update_self .., hd⟩
  · obtain ⟨g, e, hg, he, hof⟩ := h.desc z (hu z hzx hz)
    refine ⟨g, e, by rw [Function.update_of_ne hzx, hg], ?_, hof.store h.sound hg hsb⟩
    rw [Function.update_of_ne hzx, he]

/-- An object that no slot refers to shows nothing. -/
theorem leaked (h : Shows k m) (hk : k'.Sound) (hx : k.files x = none)
    (hf : k'.files = Function.update k.files x (some f)) (ht : k'.table = k.table) (hsb : KeepsNames k.sb k'.sb)
    (hs : s.In k'.sb k'.mem) : Shows k' { m with files := s } := by
  refine ⟨hk, h.table.trans ht.symm, fun z hz => ?_, hs⟩
  rw [used_congr ht] at hz
  have hzx : z ≠ x := by
    rintro rfl
    have := h.sound.counted.refs.unused hx
    omega
  obtain ⟨g, e, hg, he, hof⟩ := h.desc z hz
  exact ⟨g, e, by rw [hf, Function.update_of_ne hzx, hg], he, hof.store h.sound hg hsb⟩

theorem used_setSlot {v : Option Ptr} (ht : k'.table = Function.update k.table p (Function.update (k.table p) fd v))
    {z : Ptr} (hz : v ≠ some z) (hu : 0 < k'.used z) : 0 < k.used z := by
  have hused := used_slot ht z
  rw [if_neg hz] at hused
  omega

/-- A slot is set to nothing, or to an object in use. -/
theorem slot (h : Shows k m) (hk : k'.Sound) (ho : OnlyCounts k k') {v : Option Ptr}
    (ht : k'.table = Function.update k.table p (Function.update (k.table p) fd v)) (hv : ∀ z ∈ v, 0 < k.used z) :
    Shows k' (m.setSlot p fd v) := by
  have hnew := h.counts hk ho fun z hu => ?_
  · unfold Machine.setSlot
    rwa [h.table, ← ht]
  · by_cases hz : v = some z
    · exact hv z hz
    · exact used_setSlot ht hz hu

/-! ## Opening -/

theorem keepsNames_refl (sb : SuperBlock) : KeepsNames sb sb := fun _ _ _ => rfl

theorem keepsNames_finds {filename : List UInt8} {mode : UInt64} {sb : SuperBlock} (h : k.Finds filename mode i sb) :
    KeepsNames k.sb sb := by
  obtain ⟨-, -, hother, hmade⟩ := h.spec
  intro j _ hv
  by_cases hj : j = i
  · rcases hmade with ⟨-, rfl⟩ | ⟨hold, -⟩
    · rfl
    · rw [hj, hold] at hv
      cases hv
  · rw [hother j hj]

theorem asked_of {sb : SuperBlock} {filename : List UInt8} (hname : (sb.inode i).filename = filename) (held : File)
    (flags : UInt64) : (Desc.asked filename flags).Of sb (openedFile held i (flags ^^^ oCreat.toUInt64)) := by
  refine ⟨rfl, rfl, ⟨i, rfl, hname⟩, ?_, ?_⟩
  · rw [← toggle_and flags (by decide : oCreat &&& oRead = 0)]
    rfl
  · rw [← toggle_and flags (by decide : oCreat &&& oWrite = 0)]
    rfl

/-- An open that has its inode makes the description asked for, or finds no slot for it. -/
theorem openInode (h : Shows k m) (hx : k.files x = none) {filename : List UInt8} {flags mode : UInt64}
    {sb : SuperBlock} (hfinds : k.Finds filename mode i sb) (hname : (sb.inode i).filename = filename)
    (hs : s.In sb k.mem) {held : File} (hk : k'.Sound)
    (hret : { k with sb := sb }.openInode p i (flags ^^^ oCreat.toUInt64) (some (x, held)) = .ok (ret, k')) :
    ∃ m', { m with files := s }.enter p x (.asked filename flags) = (ret, m') ∧ Shows k' m' := by
  have hkeep := keepsNames_finds hfinds
  rw [openInode_eq] at hret
  unfold Machine.enter
  rw [show ({ m with files := s } : Machine).table p = k.table p by rw [← h.table]]
  rw [show ({ k with sb := sb } : Kernel).table p = k.table p from rfl] at hret
  cases hfree : firstFree (k.table p) with
  | some fd =>
    rw [hfree] at hret
    obtain ⟨rfl, rfl⟩ := Prod.mk.inj (Except.ok.inj hret)
    refine ⟨_, rfl, h.object hk rfl hkeep (fun z hz hu => ?_) (asked_of hname held flags) ?_ rfl hs⟩
    · exact used_setSlot (k := { k with sb := sb }) (table_setSlot ..) (fun he => hz (Option.some.inj he).symm) hu
    · rw [table_setSlot]
      exact congrArg (fun t : Proc → Table => Function.update t p (Function.update (t p) fd (some x))) h.table
  | none =>
    rw [hfree] at hret
    obtain ⟨rfl, rfl⟩ := Prod.mk.inj (Except.ok.inj hret)
    exact ⟨_, rfl, h.leaked hk hx rfl rfl hkeep hs⟩

theorem openFile (h : Shows k m) (hx : k.files x = none) {filename : List UInt8} {flags mode : UInt64} {held : File}
    (hk : k'.Sound) (hret : k.doRegularFileOpen p filename flags mode (some (x, held)) = .ok (ret, k')) :
    ∃ m', m.openFile p filename flags x = (ret, m') ∧ Shows k' m' := by
  unfold doRegularFileOpen at hret
  unfold Machine.openFile
  split at hret
  · rename_i haccess
    obtain ⟨rfl, rfl⟩ := Prod.mk.inj (Except.ok.inj hret)
    exact ⟨m, by simp only [if_pos haccess], h⟩
  rename_i haccess
  simp only [if_neg haccess]
  cases hl : flatLookupInode k.sb filename with
  | some i =>
    have hthere : filename ∈ m.files.names := (h.files.names filename).2 ⟨i, hl⟩
    have hname : (k.sb.inode i).filename = filename := by
      have hp := (firstIdx_some hl).2.1
      simp only [Bool.and_eq_true, beq_iff_eq] at hp
      exact hp.2
    have hfinds : k.Finds filename mode i k.sb := Or.inl ⟨hl, rfl⟩
    simp only [hl] at hret
    rw [if_pos hthere]
    exact h.openInode hx hfinds hname h.files hk hret
  | none =>
    simp only [hl] at hret
    rw [if_neg (h.files.absent.2 hl)]
    split at hret
    · rename_i hcreat
      obtain ⟨rfl, rfl⟩ := Prod.mk.inj (Except.ok.inj hret)
      exact ⟨m, by rw [if_pos hcreat], h⟩
    rename_i hcreat
    rw [if_neg hcreat]
    rcases hc : flatCreateInode k.sb filename mode.toUInt32 with ⟨_ | i, sb⟩
    · -- the name is new, so it is an inode that is missing
      obtain ⟨rfl, hwhy⟩ := flatCreateInode_none hc
      have hfull := hwhy.resolve_left (by rw [hl]; exact Bool.noConfusion)
      simp only [hc] at hret
      obtain ⟨rfl, rfl⟩ := Prod.mk.inj (Except.ok.inj hret)
      exact ⟨m, by rw [if_pos (h.files.full.1 hfull)], h⟩
    · obtain ⟨hfree, -, hsb⟩ := flatCreateInode_some hc
      have hroom : m.files.names.card ≠ numInodes := by
        rw [Ne, ← h.files.full, hfree]
        exact Option.some_ne_none i
      simp only [hc] at hret
      rw [if_neg hroom]
      split at hret
      · cases hret
      · have hname : (sb.inode i).filename = filename := by
          rw [hsb]
          simp only [Function.update_self]
        exact h.openInode hx (Or.inr ⟨hl, hc⟩) hname (h.files.create hc) hk hret

theorem openStd (h : Shows k m) {type : StdType} {held : File} (hk : k'.Sound)
    (hret : k.openStandardIo p type (some (x, held)) = .ok (ret, k')) :
    ∃ m', m.openStd p type x = some (ret, m') ∧ Shows k' m' := by
  unfold Machine.openStd
  rw [h.table]
  cases hs : k.table p (stdFd type) with
  | none =>
    rw [openStandardIo_none hs] at hret
    obtain ⟨rfl, rfl⟩ := Prod.mk.inj (Except.ok.inj hret)
    refine ⟨_, rfl, h.object hk rfl (keepsNames_refl _) (fun z hz hu => ?_) ?_ ?_ rfl h.files⟩
    · exact used_setSlot (table_setSlot ..) (fun he => hz (Option.some.inj he).symm) hu
    · by_cases ht : type = 0
      · subst ht
        exact ⟨rfl, rfl⟩
      · rw [if_neg ht]
        refine ⟨?_, ?_⟩ <;> simp [stdFile, stdMode, stdOps, ht, FileOps.zero]
    · rw [table_setSlot]
      exact congrArg (fun t : Proc → Table => Function.update t p (Function.update (t p) (stdFd type) (some x))) h.table
  | some y =>
    obtain ⟨f, -, hf, -⟩ := h.behind hs
    rw [openStandardIo_some hs hf] at hret
    cases hfree : firstFree (k.table p) with
    | none =>
      rw [hfree] at hret
      cases hret
    | some fd =>
      rw [hfree] at hret
      obtain ⟨rfl, rfl⟩ := Prod.mk.inj (Except.ok.inj hret)
      refine ⟨_, rfl, h.slot hk (onlyCounts_acquired hf) (table_acquired ..) fun z hz => ?_⟩
      exact Option.some.inj hz ▸ used_of_slot hs

/-! ## Reading, writing and seeking -/

theorem and_oRead_eq {mode : UInt32} : mode &&& oRead = oRead ↔ mode &&& oRead ≠ 0 := by
  refine ⟨oRead_ne_zero, fun h => ?_⟩
  have hmod : (mode &&& oRead).toNat = mode.toNat % 2 := Nat.and_one_is_mod _
  rw [Ne, ← UInt32.toNat_inj, hmod] at h
  rw [← UInt32.toNat_inj, hmod]
  simp only [oRead, UInt32.toNat_zero, UInt32.toNat_one] at h ⊢
  omega

/-- A read through a descriptor that may be read. -/
theorem doFileRead_some (h : k.Sound) (hr : k.Reaches p fd x f i oRead) (buff : ℕ → UInt8) {count n : ℕ}
    (hn : countInt count = n) (kbd : ℕ → UInt8) :
    k.doFileRead p fd buff count kbd = .ok (((min n ((k.sb.inode i).fileSize - f.offp) : ℕ) : ℤ),
      copyIn buff 0 (min n ((k.sb.inode i).fileSize - f.offp)) fun j => k.mem ((k.sb.inode i).sPos + f.offp + j),
      k.moved x f (u32 (f.offp + (min n ((k.sb.inode i).fileSize - f.offp) : ℕ)))) := by
  obtain ⟨hs, hf, hi, hm⟩ := hr
  obtain ⟨hk, -, ho, -⟩ := h.regular x f i hf hi
  unfold countInt at hn
  simp only [doFileRead, hs, file_eq hf, bind, Except.bind, if_neg (not_not.2 (and_oRead_eq.2 hm)), ho.1]
  rw [doReadRegular_some hf hi hm, hn, (h.offp hf hi).2, flatRead_eq (h.laid i hk)]

/-- The bytes of a file from a cursor on, as they lie in memory. -/
theorem bytes_eq (fi : Inode) (mem : Mem) (off n : ℕ) :
    ((content fi mem).drop off).take n = slice (fun j => mem (fi.sPos + off + j)) (min n (fi.fileSize - off)) := by
  rw [← slice_read fi mem (fun _ => 0) off n]
  refine slice_congr fun j hj => ?_
  rw [copyIn_apply, if_pos (by omega), Nat.sub_zero]

theorem read (h : Shows k m) {buff kbd buff' : ℕ → UInt8} {count : ℕ} (hcount : 0 ≤ countInt count) (hk : k'.Sound)
    (hret : k.doFileRead p fd buff count kbd = .ok (ret, buff', k')) :
    ∃ m', m.read p fd buff (countInt count).toNat kbd = (⟨ret, some buff'⟩, m') ∧ Shows k' m' := by
  unfold Machine.read
  cases hs : k.table p fd with
  | none =>
    simp only [doFileRead, hs] at hret
    cases hret
    exact ⟨m, by rw [h.behind_none hs], h⟩
  | some x =>
    obtain ⟨f, d, hf, hbehind, hof⟩ := h.behind hs
    rw [hbehind]
    cases d with
    | keyboard =>
      simp only [doFileRead, hs, file_eq hf, bind, Except.bind, hof.1, hof.2, stdOps] at hret
      cases hret
      exact ⟨m, rfl, h⟩
    | console =>
      simp only [doFileRead, hs, file_eq hf, bind, Except.bind, hof.2] at hret
      cases hret
      exact ⟨m, rfl, h⟩
    | file name offset readable writable =>
      obtain ⟨hops, rfl, ⟨i, hi, rfl⟩, rfl, rfl⟩ := hof
      by_cases hm : f.mode &&& oRead = 0
      · rw [read_refused hs hf hm] at hret
        cases hret
        exact ⟨m, by simp [hm], h⟩
      obtain ⟨n, hn⟩ := Int.eq_ofNat_of_zero_le hcount
      obtain ⟨hin, hv, -, hcur⟩ := h.sound.regular x f i hf hi
      have hfits := (h.sound.laid i hin).fits
      rw [doFileRead_some h.sound ⟨hs, hf, hi, hm⟩ buff hn kbd] at hret
      cases hret
      -- the bytes of the machine are those in memory
      have hbytes := bytes_eq (k.sb.inode i) k.mem f.offp n
      have hlen : (slice (fun j => k.mem ((k.sb.inode i).sPos + f.offp + j))
        (min n ((k.sb.inode i).fileSize - f.offp))).length = min n ((k.sb.inode i).fileSize - f.offp) := length_slice ..
      refine ⟨m.setDesc x (.file (k.sb.inode i).filename (f.offp + min n ((k.sb.inode i).fileSize - f.offp))
        (decide (f.mode &&& oRead ≠ 0)) (decide (f.mode &&& oWrite ≠ 0))), ?_, ?_⟩
      · simp only [hm, ne_eq, not_false_eq_true, decide_true, if_true, h.files.text_of hin hv, hn, Int.toNat_natCast,
          hbytes, hlen, copyIn_slice]
      · have hoff : u32 ((f.offp : ℤ) + (min n ((k.sb.inode i).fileSize - f.offp) : ℕ)) =
            f.offp + min n ((k.sb.inode i).fileSize - f.offp) := by
          simp only [maxFileSize] at hfits
          unfold u32
          omega
        refine h.object hk (files_moved ..) (keepsNames_refl _) (fun z _ hu => hu) ?_ h.table rfl h.files
        exact ⟨hops, hoff, ⟨i, hi, rfl⟩, rfl, rfl⟩

theorem inode_stored (k : Kernel) (x : Ptr) (f : File) (i n : ℕ) (buff : ℕ → UInt8) (j : ℕ) :
    (k.stored x f i n buff).sb.inode j = if j = i then grown (k.sb.inode i) f.offp n else k.sb.inode j :=
  Function.update_apply ..

/-- What a write that fits stores are the machine's files after it. -/
theorem stored_files (h : Shows k m) (hr : k.Reaches p fd x f i oWrite) (buff : ℕ → UInt8) {n : ℕ}
    (hle : f.offp + n ≤ maxFileSize) :
    (m.files.write (k.sb.inode i).filename f.offp (slice buff n)).In (k.stored x f i n buff).sb
      (k.stored x f i n buff).mem := by
  obtain ⟨hin, hv, -, hcur⟩ := h.sound.regular x f i hr.file hr.inode
  have hiso := @Sound.stored_isolated k p fd x f i h.sound hr buff n n 0 hle
  refine h.files.write hin hv (f := grown (k.sb.inode i) f.offp n) hv rfl f.offp (slice buff n) ?_
    fun j hj hvj hne => ?_
  · exact content_grown _ _ _ hcur n
  · have hnot : ¬ k.WritesTo (.write p fd buff n 0) j := by
      rintro ⟨p', fd', buff', count', console', x', f', he, hr'⟩
      obtain ⟨rfl, rfl, -, -, -⟩ := Call.write.inj he
      obtain rfl := Option.some.inj (hr.slot.symm.trans hr'.slot)
      obtain rfl := Option.some.inj (hr.file.symm.trans hr'.file)
      exact hne (Option.some.inj (hr'.inode.symm.trans hr.inode))
    have hother := hiso.others j hj hvj hnot
    rwa [inode_stored, if_neg hne] at hother

theorem write (h : Shows k m) {buff : ℕ → UInt8} {count : ℕ} {console : ℤ} (hcount : 0 ≤ countInt count)
    (hfit : (Call.write p fd buff count console).FitsStart k) (hk : k'.Sound)
    (hret : k.doFileWrite p fd buff count console = .ok (ret, k')) :
    ∃ m', m.write p fd buff (countInt count).toNat console = (ret, m') ∧ Shows k' m' := by
  unfold Machine.write
  cases hs : k.table p fd with
  | none =>
    simp only [doFileWrite, hs] at hret
    cases hret
    exact ⟨m, by rw [h.behind_none hs], h⟩
  | some x =>
    obtain ⟨f, d, hf, hbehind, hof⟩ := h.behind hs
    rw [hbehind]
    cases d with
    | keyboard =>
      simp only [doFileWrite, hs, file_eq hf, bind, Except.bind, hof.2] at hret
      cases hret
      exact ⟨m, rfl, h⟩
    | console =>
      simp only [doFileWrite, hs, file_eq hf, bind, Except.bind, hof.1, hof.2, stdOps] at hret
      cases hret
      exact ⟨m, rfl, h⟩
    | file name offset readable writable =>
      obtain ⟨hops, rfl, ⟨i, hi, rfl⟩, rfl, rfl⟩ := hof
      by_cases hm : f.mode &&& oWrite = 0
      · rw [write_refused hs hf hm] at hret
        cases hret
        exact ⟨m, by simp [hm], h⟩
      obtain ⟨n, hn⟩ := Int.eq_ofNat_of_zero_le hcount
      have hr : k.Reaches p fd x f i oWrite := ⟨hs, hf, hi, hm⟩
      obtain ⟨hin, hv, -, hcur⟩ := h.sound.regular x f i hf hi
      rw [h.sound.doFileWrite_eq hr buff hn console] at hret
      simp only [hm, ne_eq, not_false_eq_true, decide_true, if_true, hn, Int.toNat_natCast]
      split at hret
      · rename_i hle
        cases hret
        refine ⟨_, by rw [if_pos hle], ?_⟩
        have hoff : u32 ((f.offp : ℤ) + n) = f.offp + n := by
          simp only [maxFileSize] at hle
          unfold u32
          omega
        refine h.object hk (files_written ..) (fun j hj _ => ?_) (fun z _ hu => hu) ?_ h.table rfl
          (h.stored_files hr buff hle)
        · rw [inode_stored]
          split
          · subst j
            rfl
          · rfl
        · refine ⟨hops, hoff, ⟨i, hi, ?_⟩, by simp, by simp [hm]⟩
          rw [inode_stored, if_pos rfl]
          rfl
      · rename_i hgt
        cases hret
        refine ⟨_, by rw [if_neg hgt], ?_⟩
        -- at the start of a file a write fits
        have hoff : u32 ((f.offp : ℤ) + -1) = f.offp - 1 := by
          have hoffp := (h.sound.offp hf hi).1
          have h0 : f.offp ≠ 0 := fun h0 => by
            have hlong := hfit x hs f hf (by rw [hi]; rfl) hm h0
            unfold countInt at hn
            omega
          simp only [maxFileSize] at hoffp
          unfold u32
          omega
        refine h.object hk (files_moved ..) (keepsNames_refl _) (fun z _ hu => hu) ?_ h.table rfl h.files
        exact ⟨hops, hoff, ⟨i, hi, rfl⟩, by simp, by simp [hm]⟩

theorem lseek (h : Shows k m) {offset whence : ℤ} (hlow : -2 ^ 63 ≤ offset) (hhigh : offset < 2 ^ 63) (hk : k'.Sound)
    (hret : k.doLseek p fd offset whence = .ok (ret, k')) :
    ∃ m', m.lseek p fd offset whence = (ret, m') ∧ Shows k' m' := by
  unfold Machine.lseek
  cases hs : k.table p fd with
  | none =>
    simp only [doLseek, hs] at hret
    cases hret
    exact ⟨m, by rw [h.behind_none hs], h⟩
  | some x =>
    obtain ⟨f, d, hf, hbehind, hof⟩ := h.behind hs
    rw [hbehind]
    cases d with
    | keyboard =>
      simp only [doLseek, hs, file_eq hf, bind, Except.bind, hof.1, stdOps] at hret
      cases hret
      exact ⟨m, rfl, h⟩
    | console =>
      simp only [doLseek, hs, file_eq hf, bind, Except.bind, hof.1, stdOps] at hret
      cases hret
      exact ⟨m, rfl, h⟩
    | file name pos readable writable =>
      obtain ⟨hops, rfl, ⟨i, hi, rfl⟩, rfl, rfl⟩ := hof
      obtain ⟨hin, hv, -, hcur⟩ := h.sound.regular x f i hf hi
      have hfits := (h.sound.laid i hin).fits
      have hsize : (m.files.text (k.sb.inode i).filename).length = (k.sb.inode i).fileSize := by
        rw [h.files.text_of hin hv, length_content]
      simp only [maxFileSize] at hfits
      rw [doLseek_eq hs hf hops] at hret
      simp only [hsize]
      cases ht : seekTarget f.offp (k.sb.inode i).fileSize offset whence with
      | none =>
        rw [doLseekRegular_other hf offset (seekTarget_none.1 ht)] at hret
        cases hret
        exact ⟨m, rfl, h⟩
      | some t =>
        have hw := not_not.1 (mt seekTarget_none.2 (by rw [ht]; exact Option.some_ne_none t))
        obtain ⟨hrefused, hexact⟩ := seekSum_accepted (by omega) (by omega) hlow hhigh ht
        rw [doLseekRegular_eq hf hi offset hw] at hret
        simp only [hrefused] at hret
        split at hret
        · cases hret
          exact ⟨m, by simp only; rw [if_neg (by omega)], h⟩
        · rename_i hin'
          rw [hexact (by omega) (by omega)] at hret
          cases hret
          have hval : (u32 t : ℤ) = t := u32_of_range (by omega) (by omega)
          have hnat : u32 t = t.toNat := by omega
          refine ⟨_, by simp only; rw [if_pos (by omega), hval], ?_⟩
          refine h.object hk (files_moved k x f (u32 t)) (keepsNames_refl _) (fun z _ hu => hu) ?_ h.table rfl h.files
          exact ⟨hops, hnat, ⟨i, hi, rfl⟩, rfl, rfl⟩

/-! ## Sharing and giving up -/

theorem fdDup2_ret {old new : Fd} (ho : k.table p old = some x) (hret : k.fdDup2 p old new = .ok (ret, k')) :
    ret = new.val := by
  have hadd : ∀ k₁ : Kernel, (do
      let k₂ ← (k₁.setSlot p new (some x)).addRef x 1
      .ok ((new.val : ℤ), k₂) : Except Fault (ℤ × Kernel)) = .ok (ret, k') → ret = new.val := by
    intro k₁ he
    cases ha : (k₁.setSlot p new (some x)).addRef x 1 with
    | error e => rw [ha] at he; cases he
    | ok k₂ => rw [ha] at he; exact (Prod.mk.inj (Except.ok.inj he)).1.symm
  simp only [fdDup2, ho] at hret
  cases hn : k.table p new with
  | none =>
    rw [hn] at hret
    exact hadd k hret
  | some y =>
    rw [hn] at hret
    cases hc : k.doFileClose y with
    | error e => simp only [hc] at hret; cases hret
    | ok r => simp only [hc] at hret; exact hadd r.2 hret

theorem dup2 (h : Shows k m) {old new : Fd} (hsole : ¬ k.Sole p old new) (hk : k'.Sound)
    (hret : k.fdDup2 p old new = .ok (ret, k')) : ∃ m', m.dup2 p old new = (ret, m') ∧ Shows k' m' := by
  have hcount := h.sound.counted
  unfold Machine.dup2
  rw [h.table]
  cases ho : k.table p old with
  | none =>
    simp only [fdDup2, ho] at hret
    cases hret
    exact ⟨m, rfl, h⟩
  | some x =>
    obtain rfl := fdDup2_ret ho hret
    obtain ⟨ret', k'', he, hsh⟩ := hcount.dup2 hsole
    obtain rfl : k' = k'' := exec_inj hret he
    refine ⟨_, rfl, h.slot hk hsh.keeps ?_ fun z hz => Option.some.inj hz ▸ used_of_slot ho⟩
    -- whether the target was open or not, its slot is now one more for the object
    rcases hcount.refs.dup2_cases hsole fun _ _ _ _ _ _ hm => absurd trivial hm with
      he | ⟨x', f, ho', hn, hf, he⟩ | ⟨x', y, g, f, ho', hn, hg, hf, -, he⟩
    · rw [he] at hret
      have hneg := (Prod.mk.inj (Except.ok.inj hret)).1
      unfold einval at hneg
      omega
    · obtain rfl := Option.some.inj (ho.symm.trans ho')
      obtain rfl : k' = k.acquired p new x f := exec_inj hret he
      exact table_acquired ..
    · obtain rfl := Option.some.inj (ho.symm.trans ho')
      obtain rfl : k' = (k.released p new y g).acquired p new x f := exec_inj hret he
      rw [table_acquired, table_released, Function.update_self, Function.update_idem, Function.update_idem]

theorem close (h : Shows k m) {unset : ℤ} (hk : k'.Sound) (hret : k.doClose p fd unset = .ok (ret, k')) :
    ∃ m', m.close p fd unset = (ret, m') ∧ Shows k' m' := by
  unfold Machine.close
  rw [h.table]
  cases hs : k.table p fd with
  | none =>
    simp only [doClose, hs] at hret
    cases hret
    exact ⟨m, rfl, h⟩
  | some x =>
    obtain ⟨f, d, hf, -, hof⟩ := h.behind hs
    have hclose : f.fops.close ≠ none := by
      cases d with
      | file name offset readable writable =>
        rw [hof.1]
        exact Option.some_ne_none _
      | keyboard =>
        rw [hof.1]
        exact Option.some_ne_none _
      | console =>
        rw [hof.1]
        exact Option.some_ne_none _
    rw [doClose_eq hs hf, if_neg hclose] at hret
    cases hret
    exact ⟨_, rfl, h.slot hk (onlyCounts_released hf) (table_released ..) fun z hz => by cases hz⟩

theorem fork (h : Shows k m) (hplain : k.Unqueued p) {child : Proc} (hc : (k.ctx child).isNone = true) (hk : k'.Sound)
    (hret : k.doFork 1 p child = .ok (ret, k')) : ∃ m', m.fork p child = (ret, m') ∧ Shows k' m' := by
  obtain ⟨ret', k'', he, hsh⟩ := h.sound.counted.fork hplain hc
  obtain rfl : k' = k'' := exec_inj hret he
  rw [h.sound.counted.doFork_eq, if_pos hplain] at hret
  cases hret
  have ht := table_setTable k child (k.table p)
  have hnew := h.counts hk hsh.keeps fun z hu => ?_
  · rw [table_gained, ht] at hnew
    refine ⟨_, rfl, ?_⟩
    rwa [h.table]
  · obtain ⟨q, fd, hq⟩ := used_pos.1 hu
    rw [table_gained, ht, Function.update_apply] at hq
    split at hq
    · exact used_of_slot hq
    · exact used_of_slot hq

theorem exit (h : Shows k m) (hplain : k.Unqueued p) (hk : k'.Sound) (hret : k.doExit p = .ok k') :
    ∃ m', m.exit p = (0, m') ∧ Shows k' m' := by
  obtain ⟨k'', he, hsh⟩ := h.sound.counted.exit hplain
  obtain rfl : k' = k'' := Except.ok.inj (hret.symm.trans he)
  obtain ⟨objects, he⟩ := h.sound.counted.doExit_eq p
  rw [if_pos hplain] at he
  obtain rfl := Except.ok.inj (hret.symm.trans he)
  have ht := table_vacated (k.lost (held (k.table p)) objects) p
  rw [table_lost] at ht
  have hnew := h.counts hk hsh.keeps fun z hu => ?_
  · rw [ht] at hnew
    refine ⟨_, rfl, ?_⟩
    rwa [h.table]
  · obtain ⟨q, fd, hq⟩ := used_pos.1 hu
    rw [ht, Function.update_apply] at hq
    split at hq
    · cases hq
    · exact used_of_slot hq

end Shows

/-! ## Runs -/

/-- A seek's offset is a `long`. -/
def Call.LongOffset : Call → Prop
  | lseek _ _ offset _ => -2 ^ 63 ≤ offset ∧ offset < 2 ^ 63
  | _ => True

instance (c : Call) : Decidable c.LongOffset := by
  rcases c <;> unfold Call.LongOffset <;> infer_instance

/-- What a read leaves in the caller's buffer. -/
def Call.buffer (k : Kernel) : Call → Option (ℕ → UInt8)
  | read p fd buff count kbd => (k.doFileRead p fd buff count kbd).toOption.map fun r => r.2.1
  | _ => none

/-- A call on the store that came back with its answer, with no write that fails at the start of a file. -/
structure AnsweredStep (k : Kernel) (l : Call × Returned) (k' : Kernel) : Prop where
  call : StoreCall k l.1
  fits : l.1.FitsStart k
  offset : l.1.LongOffset
  exec : l.1.exec 1 k = .ok (l.2.ret, k')
  buff : l.2.buff = l.1.buffer k

namespace Shows

variable {k k' : Kernel} {m : Machine}

/-- Each step of the kernel is one of the machine. -/
theorem step {l : Call × Returned} (h : Shows k m) (hs : AnsweredStep k l k') : ∃ m', m.Step l m' ∧ Shows k' m' := by
  obtain ⟨⟨hon, hlegal, hserved, hwiped, hcount⟩, hfit, hoffset, hexec, hbuff⟩ := hs
  obtain ⟨c, ret, buff⟩ := l
  have hcare : c.Careful k := by
    by_contra hcare
    obtain ⟨e, he⟩ := h.sound.counted.careless hcare
    rw [he] at hexec
    cases hexec
  have hk : k'.Sound := (h.sound.step ⟨hon, hlegal, hserved, hwiped, hcount⟩ hcare hexec).2 hfit
  have hpages := hlegal.pages
  unfold Machine.Step
  cases c with
  | openFile p filename flags mode page =>
    obtain ⟨⟨x, f⟩, rfl⟩ := Option.isSome_iff_exists.1 hserved
    obtain ⟨m', hm, h'⟩ := h.openFile (hpages _ rfl).files hk hexec
    obtain rfl : buff = none := hbuff
    exact ⟨m', congrArg (fun r => some (Call.plain r)) hm, h'⟩
  | openStd p type page =>
    obtain ⟨⟨x, f⟩, rfl⟩ := Option.isSome_iff_exists.1 hserved
    obtain ⟨m', hm, h'⟩ := h.openStd hk hexec
    obtain rfl : buff = none := hbuff
    exact ⟨m', congrArg (Option.map Call.plain) hm, h'⟩
  | read p fd old count kbd =>
    cases hr : k.doFileRead p fd old count kbd with
    | error e => simp only [Call.exec, hr, Functor.map, Except.map] at hexec; cases hexec
    | ok r =>
      obtain ⟨ret', buff', k''⟩ := r
      simp only [Call.exec, hr, Functor.map, Except.map] at hexec
      cases hexec
      obtain ⟨m', hm, h'⟩ := h.read hcount hk hr
      obtain rfl : buff = some buff' := by
        refine hbuff.trans ?_
        simp only [Call.buffer, hr, Except.toOption, Option.map_some]
      exact ⟨m', congrArg some hm, h'⟩
  | write p fd data count console =>
    obtain ⟨m', hm, h'⟩ := h.write hcount hfit hk hexec
    obtain rfl : buff = none := hbuff
    exact ⟨m', congrArg (fun r => some (Call.plain r)) hm, h'⟩
  | lseek p fd offset whence =>
    obtain ⟨m', hm, h'⟩ := h.lseek hoffset.1 hoffset.2 hk hexec
    obtain rfl : buff = none := hbuff
    exact ⟨m', congrArg (fun r => some (Call.plain r)) hm, h'⟩
  | dup2 p old new =>
    obtain ⟨m', hm, h'⟩ := h.dup2 hcare hk hexec
    obtain rfl : buff = none := hbuff
    exact ⟨m', congrArg (fun r => some (Call.plain r)) hm, h'⟩
  | close p fd unset =>
    obtain ⟨m', hm, h'⟩ := h.close hk hexec
    obtain rfl : buff = none := hbuff
    exact ⟨m', congrArg (fun r => some (Call.plain r)) hm, h'⟩
  | fork p child =>
    obtain ⟨m', hm, h'⟩ := h.fork hcare hlegal.child hk hexec
    obtain rfl : buff = none := hbuff
    exact ⟨m', congrArg (fun r => some (Call.plain r)) hm, h'⟩
  | exit p =>
    cases hx : k.doExit p with
    | error e => simp only [Call.exec, hx, Functor.map, Except.map] at hexec; cases hexec
    | ok k'' =>
      simp only [Call.exec, hx, Functor.map, Except.map] at hexec
      cases hexec
      obtain ⟨m', hm, h'⟩ := h.exit hcare hk hx
      obtain rfl : buff = none := hbuff
      exact ⟨m', congrArg (fun r => some (Call.plain r)) hm, h'⟩
  | sendfile | createQueue | msg | closeQueue => exact hon.elim

end Shows

theorem shows_empty {pfn : ℕ → ℕ} {sb : SuperBlock} {d : Disk} {k₀ : Kernel} (hframes : Frames pfn d) (h₀ : k₀.Idle)
    (hsb : k₀.sb = (initFileSystem pfn sb d).1) : Shows k₀ .empty := by
  have hsound : k₀.Sound := sound_init hframes h₀ hsb
  refine ⟨hsound, ?_, fun x hx => ?_, ?_⟩
  · funext p fd
    rw [h₀.table]
    rfl
  · obtain ⟨f, hf⟩ := hsound.counted.refs.live x hx
    rw [h₀.files] at hf
    cases hf
  · rw [hsb]
    exact Files.in_initFileSystem pfn sb d k₀.mem

/-- Carry a call out, with its answer. -/
def Call.answered (k : Kernel) (c : Call) : (Call × Returned) × Kernel :=
  match c.exec 1 k with
  | .ok r => ((c, ⟨r.1, c.buffer k⟩), r.2)
  | .error _ => ((c, ⟨0, none⟩), k)

/-- A call of these that comes back. -/
def Call.Answerable (k : Kernel) (c : Call) : Prop :=
  (c.OnStore ∧ c.Legal k ∧ c.Served ∧ c.Wiped k ∧ c.CountInt ∧ c.FitsStart k ∧ c.LongOffset) ∧ c.returns 1 k = true

instance (k : Kernel) (c : Call) : Decidable (c.Answerable k) := by
  unfold Call.Answerable
  infer_instance

theorem answered_step {k : Kernel} {c : Call} (h : c.Answerable k) :
    AnsweredStep k (Call.answered k c).1 (Call.answered k c).2 := by
  obtain ⟨⟨hon, hlegal, hserved, hwiped, hcount, hfit, hoffset⟩, hret⟩ := h
  obtain ⟨ret, he⟩ := Call.exec_next hret
  unfold Call.answered
  rw [he]
  exact ⟨⟨hon, hlegal, hserved, hwiped, hcount⟩, hfit, hoffset, he, rfl⟩

theorem run_answered {k : Kernel} {cs : List Call} (h : Scripted Call.answered (fun k c => c.Answerable k) k cs) :
    Run AnsweredStep k (script Call.answered k cs).1 (script Call.answered k cs).2 :=
  Run.script Call.answered _ (fun _ _ => answered_step) h

end CS330.Os
