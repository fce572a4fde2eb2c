/-
The inodes as bytes: `struct inode` field by field, 32 of them one behind the other on the pages
`init_file_inode` takes. A file's name is copied into its inode byte by byte, up to the NUL at its end.

A name is the bytes before its NUL, and not part of this memory. A pointer's bytes are kept, its value is not used.
-/
import CS330.Fs.Directory
import CS330.Lib.Bytes

namespace CS330.Fs

open CS330.Lib

/-! ## `struct inode` -/

/-- The fields, in the order of their declaration. -/
inductive Field where
  | isValid | filename | mode | type | inodeNo | refCount | sPos | ePos | maxPos | fileSize
  | sb | readFn | writeFn | openFn | closeFn
deriving DecidableEq

namespace Field

/-- Where a field lies in the structure. -/
def offset : Field → ℕ
  | isValid => 0 | filename => 4 | mode => 260 | type => 264 | inodeNo => 268 | refCount => 272 | sPos => 276
  | ePos => 280 | maxPos => 284 | fileSize => 288 | sb => 296 | readFn => 304 | writeFn => 312 | openFn => 320
  | closeFn => 328

def size : Field → ℕ
  | filename => 256
  | sb | readFn | writeFn | openFn | closeFn => 8
  | _ => 4

/-- The fields a new file is made of. -/
def created : List Field := [isValid, filename, mode, refCount, maxPos, fileSize]

end Field

/-- `sizeof(struct inode)`. -/
def sizeofInode : ℕ := 336

theorem Field.within (f : Field) : f.offset + f.size ≤ sizeofInode := by
  cases f <;> decide

theorem Field.apart {f g : Field} (h : f ≠ g) : f.offset + f.size ≤ g.offset ∨ g.offset + g.size ≤ f.offset := by
  revert h
  cases f <;> cases g <;> decide

/-! ## The table -/

/-- The super block and the memory its inodes lie in. -/
structure InodeTable where
  numFiles : ℤ
  inode : ℕ → ℕ
  mem : ℕ → UInt8

/-- `init_file_inode`: the inodes are laid out from the first page taken for them. -/
def initFileInode (inodePfn : ℕ) (inode : ℕ → ℕ) : ℕ → ℕ :=
  (forRange 0 numInodes (fun index s => (s.1 + sizeofInode, Function.update s.2 index s.1)) (inodePfn, inode)).2

namespace InodeTable

/-- `&sb->inode[i]->f`. -/
def addr (s : InodeTable) (i : ℕ) (f : Field) : ℕ := s.inode i + f.offset

/-- `is_valid_inode`. -/
def isValidInode (s : InodeTable) (i : ℕ) : Bool := load32 s.mem (s.addr i .isValid) != 0

/-- `flat_lookup_inode`. -/
def flatLookupInode (s : InodeTable) (filename : List UInt8) : Option ℕ :=
  firstIdx numInodes fun i => s.isValidInode i && strEq s.mem (s.addr i .filename) filename

/-- `get_free_inode`. -/
def getFreeInode (s : InodeTable) : Option ℕ := firstIdx numInodes fun i => !s.isValidInode i

/-- The stores of `flat_create_inode` into the inode at an address; `s_pos` is read once the name is there. -/
def fillInode (mem : ℕ → UInt8) (inode : ℕ) (fileName : List UInt8) (mode : UInt32) : ℕ → UInt8 :=
  let mem := store32 mem (inode + Field.isValid.offset) 1
  let mem := store32 mem (inode + Field.mode.offset) mode.toNat
  let mem := storeStr mem (inode + Field.filename.offset) fileName
  let mem := store32 mem (inode + Field.maxPos.offset) (load32 mem (inode + Field.sPos.offset))
  let mem := store32 mem (inode + Field.fileSize.offset) 0
  store32 mem (inode + Field.refCount.offset) 0

/-- `flat_create_inode`. The index of the copy is a `u32`: it never gets to the end of a name of 2^32 bytes. -/
def flatCreateInode (s : InodeTable) (fileName : List UInt8) (mode : UInt32) : Option (ℤ × InodeTable) :=
  let inodeNo := s.getFreeInode
  if (s.flatLookupInode fileName).isSome then some (-1, s)
  else match inodeNo with
    | some i =>
      if 2 ^ 32 ≤ fileName.length then none
      else some (i, { s with mem := fillInode s.mem (s.inode i) fileName mode, numFiles := s.numFiles + 1 })
    | none => some (-1, s)

end InodeTable

/-! ## Where the inodes are -/

theorem initFileInode_apply (inodePfn : ℕ) (inode : ℕ → ℕ) {i : ℕ} (hi : i < numInodes) :
    initFileInode inodePfn inode i = inodePfn + i * sizeofInode := by
  refine (forRange_inv (fun j (s : ℕ × (ℕ → ℕ)) => s.1 = inodePfn + j * sizeofInode ∧
    ∀ i < j, s.2 i = inodePfn + i * sizeofInode) (Nat.zero_le numInodes)
      ⟨by simp, fun _ h => absurd h (Nat.not_lt_zero _)⟩
    ?_).2 i hi
  rintro j ⟨next, inode⟩ - - ⟨hnext, hdone⟩
  simp only at hnext hdone
  refine ⟨by simp only [hnext]; ring, fun i hij => ?_⟩
  rcases Nat.lt_succ_iff_lt_or_eq.1 hij with h | rfl
  · simp only [Function.update_of_ne (by omega : i ≠ j)]
    exact hdone i h
  · simp only [Function.update_self, hnext]

/-- Two inodes have no byte in common. -/
def Spread (s : InodeTable) : Prop :=
  ∀ i < numInodes, ∀ j < numInodes, i ≠ j → s.inode i + sizeofInode ≤ s.inode j ∨ s.inode j + sizeofInode ≤ s.inode i

theorem spread_initFileInode (numFiles : ℤ) (inodePfn : ℕ) (inode : ℕ → ℕ) (mem : ℕ → UInt8) :
    Spread ⟨numFiles, initFileInode inodePfn inode, mem⟩ := by
  intro i hi j hj hne
  simp only [initFileInode_apply _ _ hi, initFileInode_apply _ _ hj]
  have hij : i + 1 ≤ j ∨ j + 1 ≤ i := by omega
  unfold sizeofInode
  omega

/-! ## What a creation touches -/

/-- The byte at `x` belongs to a field of the inode at `a` that a new file is made of. -/
def Made (a x : ℕ) : Prop := ∃ f ∈ Field.created, a + f.offset ≤ x ∧ x < a + f.offset + f.size

/-- A name that fits, with its NUL, touches nothing else. -/
theorem fillInode_of_not_made {fileName : List UInt8} (hshort : fileName.length < 256) {a x : ℕ} (hx : ¬ Made a x)
    (mem : ℕ → UInt8) (mode : UInt32) : InodeTable.fillInode mem a fileName mode x = mem x := by
  have hout : ∀ f ∈ Field.created, x < a + f.offset ∨ a + f.offset + f.size ≤ x := by
    intro f hf
    by_contra hin
    exact hx ⟨f, hf, by omega⟩
  simp only [Field.created, List.forall_mem_cons, Field.offset, Field.size] at hout
  obtain ⟨hvalid, hname, hmode, hcount, hmax, hsize, -⟩ := hout
  unfold InodeTable.fillInode
  simp only [Field.offset]
  rw [store32_of_outside hcount, store32_of_outside hsize, store32_of_outside hmax, storeStr_of_outside (by omega),
    store32_of_outside hmode, store32_of_outside hvalid]

/-- A creation that comes back with an inode has changed only fields of that inode, those that make the new file;
one that answers `-1` has changed nothing. -/
structure Touches (s s' : InodeTable) (ret : ℤ) : Prop where
  refused : ret = -1 → s' = s
  made : ret ≠ -1 → ∃ i < numInodes, ret = i ∧ s.getFreeInode = some i ∧ s'.inode = s.inode ∧
    (∀ x, s'.mem x ≠ s.mem x → Made (s.inode i) x) ∧
    ∀ j < numInodes, ∀ f, j ≠ i ∨ f ∉ Field.created →
      region s'.mem (s.addr j f) f.size = region s.mem (s.addr j f) f.size

/-- A creation comes back, touches what it may, and refuses a name that does not fit. -/
def CreatesInPlace (s : InodeTable) (fileName : List UInt8) (mode : UInt32) : Prop :=
  ∃ ret s', s.flatCreateInode fileName mode = some (ret, s') ∧ Touches s s' ret ∧ (256 ≤ fileName.length → ret = -1)

/-- Fields that are not made, or of another inode, lie apart from those that are. -/
theorem Spread.not_made {s : InodeTable} (h : Spread s) {i j : ℕ} (hi : i < numInodes) (hj : j < numInodes) {f : Field}
    (hf : j ≠ i ∨ f ∉ Field.created) {x : ℕ} (hlow : s.addr j f ≤ x) (hhigh : x < s.addr j f + f.size) :
    ¬ Made (s.inode i) x := by
  rintro ⟨g, hg, hlow', hhigh'⟩
  have hfw := f.within
  have hgw := g.within
  unfold InodeTable.addr at hlow hhigh
  by_cases hji : j = i
  · have hne : f ≠ g := by
      rintro rfl
      exact (hf.resolve_left (not_not.2 hji)) hg
    have hapart := Field.apart hne
    rw [hji] at hlow hhigh
    omega
  · have hapart := h j hj i hi hji
    omega

theorem InodeTable.flatCreateInode_refused {s : InodeTable} {fileName : List UInt8}
    (h : (s.flatLookupInode fileName).isSome = true ∨ s.getFreeInode = none) (mode : UInt32) :
    s.flatCreateInode fileName mode = some (-1, s) := by
  unfold flatCreateInode
  by_cases hl : (s.flatLookupInode fileName).isSome = true
  · simp only [if_pos hl]
  · simp only [if_neg hl, h.resolve_left hl]

theorem InodeTable.flatCreateInode_made {s : InodeTable} {fileName : List UInt8} {i : ℕ}
    (hl : s.flatLookupInode fileName = none) (hfree : s.getFreeInode = some i) (hlen : fileName.length < 2 ^ 32)
    (mode : UInt32) : s.flatCreateInode fileName mode =
      some ((i : ℤ), { s with mem := fillInode s.mem (s.inode i) fileName mode, numFiles := s.numFiles + 1 }) := by
  simp only [flatCreateInode, hl, Option.isSome_none, Bool.false_eq_true, if_false, hfree, if_neg (not_le.2 hlen)]

/-- For every directory state and every name: a creation stays inside the fields that make a file of the inode it
chooses, and refuses names that do not fit, if and only if the name has fewer than 256 bytes, or it is refused for
another reason. -/
theorem create_touches_iff (numFiles : ℤ) (inodePfn : ℕ) (inode : ℕ → ℕ) (mem : ℕ → UInt8) (fileName : List UInt8)
    (mode : UInt32) :
    let s : InodeTable := ⟨numFiles, initFileInode inodePfn inode, mem⟩
    CreatesInPlace s fileName mode ↔
      fileName.length < 256 ∨ (s.flatLookupInode fileName).isSome = true ∨ s.getFreeInode = none := by
  intro s
  have hspread : Spread s := spread_initFileInode numFiles inodePfn inode mem
  -- a name that exists, or a full directory, is refused before anything is written
  by_cases href : (s.flatLookupInode fileName).isSome = true ∨ s.getFreeInode = none
  · refine ⟨fun _ => Or.inr href, fun _ => ⟨-1, s, InodeTable.flatCreateInode_refused href mode, ⟨fun _ => rfl, ?_⟩,
      fun _ => rfl⟩⟩
    exact fun hne => absurd rfl hne
  rw [or_iff_left href]
  push Not at href
  have hl := Option.not_isSome_iff_eq_none.1 href.1
  obtain ⟨i, hfree⟩ := Option.ne_none_iff_exists'.1 href.2
  have hi : i < numInodes := (firstIdx_some hfree).1
  constructor
  · rintro ⟨ret, s', he, -, hlong⟩
    by_contra hge
    have hret := hlong (not_lt.1 hge)
    -- nothing refuses a name that is too long: an inode is answered, or the copy never ends
    by_cases hlen : fileName.length < 2 ^ 32
    · rw [InodeTable.flatCreateInode_made hl hfree hlen] at he
      have := (Prod.mk.inj (Option.some.inj he)).1
      omega
    · simp only [InodeTable.flatCreateInode, hl, Option.isSome_none, Bool.false_eq_true, if_false, hfree,
        if_pos (not_lt.1 hlen)] at he
      cases he
  · intro hshort
    refine ⟨i, _, InodeTable.flatCreateInode_made hl hfree (by omega) mode, ⟨fun h => absurd h (by omega), fun _ => ?_⟩,
      fun h => absurd hshort (not_lt.2 h)⟩
    have hframe : ∀ x, ¬ Made (s.inode i) x → InodeTable.fillInode s.mem (s.inode i) fileName mode x = s.mem x :=
      fun x hx => fillInode_of_not_made hshort hx s.mem mode
    refine ⟨i, hi, rfl, hfree, rfl, fun x hx => by_contra fun hm => hx (hframe x hm), fun j hj f hf => ?_⟩
    exact region_congr fun x hlow hhigh => hframe x (hspread.not_made hi hj hf hlow hhigh)

/-- A table without files; the storage of the first inode is at 8 MiB. -/
def blankTable : InodeTable :=
  ⟨0, initFileInode 0x100000 fun _ => 0, store32 (fun _ => 0) (0x100000 + Field.sPos.offset) 0x800000⟩

/-- A name of 276 bytes is accepted, and its last four bytes become the address of the file's storage. -/
theorem long_name_moves_storage :
    let name := List.replicate 276 (97 : UInt8)
    ¬ CreatesInPlace blankTable name 3 ∧ ∃ s', blankTable.flatCreateInode name 3 = some (0, s') ∧
      load32 blankTable.mem (blankTable.addr 0 .sPos) = 0x800000 ∧
      load32 s'.mem (blankTable.addr 0 .sPos) = 0x61616161 := by
  intro name
  have hlen : name.length = 276 := List.length_replicate
  have hmade : blankTable.flatCreateInode name 3 = some (0, _) :=
    InodeTable.flatCreateInode_made (by decide +kernel) (by decide +kernel) (by omega) 3
  refine ⟨?_, _, hmade, by decide +kernel, by decide +kernel⟩
  rintro ⟨ret, s', he, -, hlong⟩
  obtain ⟨rfl, -⟩ := Prod.mk.inj (Option.some.inj (hmade.symm.trans he))
  exact absurd (hlong (by omega)) (by decide)

/-! ## The bytes and the super block -/

/-- An inode as the bytes at an address. -/
structure EncodesInode (mem : ℕ → UInt8) (a : ℕ) (f : Inode) : Prop where
  isValid : f.isValid = (load32 mem (a + Field.isValid.offset) != 0)
  filename : CStr mem (a + Field.filename.offset) f.filename
  ended : (0 : UInt8) ∉ f.filename
  short : f.filename.length < 256
  mode : load32 mem (a + Field.mode.offset) = f.mode.toNat
  refCount : load32 mem (a + Field.refCount.offset) = f.refCount
  sPos : load32 mem (a + Field.sPos.offset) = f.sPos
  ePos : load32 mem (a + Field.ePos.offset) = f.ePos
  maxPos : load32 mem (a + Field.maxPos.offset) = f.maxPos
  fileSize : load32 mem (a + Field.fileSize.offset) = f.fileSize

/-- A super block as a table of inodes in memory. -/
structure Encodes (s : InodeTable) (sb : SuperBlock) : Prop where
  numFiles : s.numFiles = sb.numFiles
  inode : ∀ i < numInodes, EncodesInode s.mem (s.inode i) (sb.inode i)

theorem EncodesInode.congr {mem mem' : ℕ → UInt8} {a : ℕ} {f : Inode} (h : EncodesInode mem a f)
    (he : ∀ x, a ≤ x → x < a + sizeofInode → mem' x = mem x) : EncodesInode mem' a f := by
  have hshort := h.short
  have hword : ∀ g : Field, g.size = 4 → load32 mem' (a + g.offset) = load32 mem (a + g.offset) := by
    intro g hg
    have hin := g.within
    exact load32_congr fun x hx hx' => he x (by omega) (by omega)
  refine ⟨by rw [hword _ rfl]; exact h.isValid, h.filename.congr fun x hx hx' => ?_, h.ended, hshort, ?_, ?_, ?_, ?_,
    ?_, ?_⟩
  · have hin := Field.filename.within
    simp only [Field.offset, Field.size] at hin hx hx'
    exact he x (by omega) (by omega)
  · rw [hword _ rfl]; exact h.mode
  · rw [hword _ rfl]; exact h.refCount
  · rw [hword _ rfl]; exact h.sPos
  · rw [hword _ rfl]; exact h.ePos
  · rw [hword _ rfl]; exact h.maxPos
  · rw [hword _ rfl]; exact h.fileSize

/-- The stores into an inode make the new file of it. -/
theorem EncodesInode.fill {mem : ℕ → UInt8} {a : ℕ} {f : Inode} (h : EncodesInode mem a f) {fileName : List UInt8}
    (hshort : fileName.length < 256) (hzero : (0 : UInt8) ∉ fileName) (mode : UInt32) :
    EncodesInode (InodeTable.fillInode mem a fileName mode) a { f with
      isValid := true, mode := mode, filename := fileName, maxPos := f.sPos, fileSize := 0, refCount := 0 } := by
  have hmode : mode.toNat < 2 ^ 32 := mode.toNat_lt
  have hspos : load32 mem (a + Field.sPos.offset) < 2 ^ 32 := load32_lt ..
  have hs := h.sPos
  have he := h.ePos
  unfold InodeTable.fillInode
  simp only [Field.offset] at hs he hspos ⊢
  constructor
  case isValid =>
    simp (disch := omega) only [Field.offset, load32_store32_of_apart, load32_storeStr_of_apart, load32_store32]
    rfl
  case filename =>
    refine (cstr_storeStr (store32 (store32 mem (a + 0) 1) (a + 260) mode.toNat) (a + 4) fileName).congr
      fun x hx hx' => ?_
    rw [store32_of_outside (by omega), store32_of_outside (by omega), store32_of_outside (by omega)]
  case ended => exact hzero
  case short => exact hshort
  all_goals
    simp (disch := omega) only [Field.offset, load32_store32_of_apart, load32_storeStr_of_apart, load32_store32, hs, he]

section

variable {s : InodeTable} {sb : SuperBlock} {fileName : List UInt8}

theorem Encodes.lookup (h : Encodes s sb) (hzero : (0 : UInt8) ∉ fileName) :
    s.flatLookupInode fileName = flatLookupInode sb fileName := by
  unfold InodeTable.flatLookupInode flatLookupInode
  refine firstIdx_congr fun i hi => ?_
  have hf := h.inode i hi
  rw [hf.isValid]
  congr 1
  rw [Bool.eq_iff_iff, strEq_iff, beq_iff_eq]
  exact ⟨fun hc => hf.filename.unique hc hf.ended hzero, fun he => he ▸ hf.filename⟩

theorem Encodes.getFree (h : Encodes s sb) : s.getFreeInode = getFreeInode sb := by
  unfold InodeTable.getFreeInode getFreeInode
  exact firstIdx_congr fun i hi => by rw [(h.inode i hi).isValid]; rfl

/-- On names that fit, the bytes go through what the directory goes through. -/
theorem Encodes.create (h : Encodes s sb) (hspread : Spread s) (hshort : fileName.length < 256)
    (hzero : (0 : UInt8) ∉ fileName) (mode : UInt32) :
    ∃ s', s.flatCreateInode fileName mode =
        some (match (flatCreateInode sb fileName mode).1 with | some i => (i : ℤ) | none => -1, s') ∧
      Encodes s' (flatCreateInode sb fileName mode).2 := by
  rcases hc : flatCreateInode sb fileName mode with ⟨_ | i, sb'⟩
  · obtain ⟨rfl, hwhy⟩ := flatCreateInode_none hc
    rw [← h.lookup hzero, ← h.getFree] at hwhy
    exact ⟨s, InodeTable.flatCreateInode_refused hwhy mode, h⟩
  · obtain ⟨hfree, hl, rfl⟩ := flatCreateInode_some hc
    have hi := (getFreeInode_some hfree).1
    rw [← h.lookup hzero] at hl
    rw [← h.getFree] at hfree
    refine ⟨_, InodeTable.flatCreateInode_made hl hfree (by omega) mode, by rw [h.numFiles], fun j hj => ?_⟩
    by_cases hji : j = i
    · subst hji
      simp only [Function.update_self]
      exact (h.inode j hj).fill hshort hzero mode
    · simp only [Function.update_of_ne hji]
      refine (h.inode j hj).congr fun x hx hx' => fillInode_of_not_made hshort ?_ s.mem mode
      rintro ⟨g, -, hlow, hhigh⟩
      have hgw := g.within
      have hapart := hspread j hj i hi hji
      omega

end

end CS330.Fs
