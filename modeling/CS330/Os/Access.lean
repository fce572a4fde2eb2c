/-
Permissions: an open asks for access bits, and the mode an inode was created with says which may be
granted. The check in open compares the flags with themselves and refuses nothing; the checks in
read, write and sendfile hold every descriptor to the bits it was opened with. So a file is protected
over a whole run exactly as far as its opens ask for no more than the mode allows.
-/
import CS330.Os.Isolation

namespace CS330.Os

open CS330.Lib CS330.Fs

/-! ## Flags -/

/-- Toggling `O_CREAT` touches no access bit. -/
theorem toggle_and (flags : UInt64) {a : UInt32} (ha : oCreat &&& a = 0) :
    (flags ^^^ oCreat.toUInt64).toUInt32 &&& a = flags.toUInt32 &&& a := by
  rw [← UInt32.toBitVec_inj] at ha ⊢
  simp only [UInt64.toUInt32_xor, UInt32.toUInt32_toUInt64, UInt32.toBitVec_and, UInt32.toBitVec_xor,
    UInt32.toBitVec_zero] at ha ⊢
  refine BitVec.eq_of_getLsbD_eq fun i _ => ?_
  have hbit := congrArg (fun v => v.getLsbD i) ha
  simp only [BitVec.getLsbD_and, BitVec.getLsbD_zero] at hbit
  simp only [BitVec.getLsbD_and, BitVec.getLsbD_xor]
  grind

/-- What is granted of what was asked lies in the mode. -/
theorem and_eq_zero_of_granted {flags mode access bit : UInt32} (h : flags &&& access &&& ~~~mode = 0)
    (hm : mode &&& bit = 0) (hb : bit &&& access = bit) : flags &&& bit = 0 := by
  rw [← UInt32.toBitVec_inj] at *
  simp only [UInt32.toBitVec_and, UInt32.toBitVec_not, UInt32.toBitVec_zero] at *
  refine BitVec.eq_of_getLsbD_eq fun i hi => ?_
  have h1 := congrArg (fun v => v.getLsbD i) h
  have h2 := congrArg (fun v => v.getLsbD i) hm
  have h3 := congrArg (fun v => v.getLsbD i) hb
  simp only [BitVec.getLsbD_and, BitVec.getLsbD_not, BitVec.getLsbD_zero, hi, decide_true, Bool.true_and] at h1 h2 h3
  simp only [BitVec.getLsbD_and, BitVec.getLsbD_zero]
  grind

namespace Kernel

variable {k k' : Kernel} {p : Proc} {fd : Fd} {x y : Ptr} {f g : File} {i : ℕ} {ret : ℤ}

/-! ## Open -/

/-- An access bit is asked for that the mode lacks. -/
def Lacks (access : UInt32) (mode : UInt32) (flags : UInt64) : Prop := flags.toUInt32 &&& access &&& ~~~mode ≠ 0

/-- The answer an open of an existing file should give: refused exactly if a bit is lacking. -/
def Decides (access mode : UInt32) (flags : UInt64) (ret : ℤ) : Prop := ret = -eacces ↔ Lacks access mode flags

/-- An open of an existing file comes back with a new descriptor, or finds no room for one. -/
theorem doRegularFileOpen_existing {filename : List UInt8} {flags mode : UInt64}
    (hl : flatLookupInode k.sb filename = some i)
    (haccess : flags &&& (oRead ||| oRdwr).toUInt64 ≠ 0) (p : Proc) (x : Ptr) (held : File) :
    k.doRegularFileOpen p filename flags mode (some (x, held)) = match firstFree (k.table p) with
      | some fd => .ok (fd.val, (k.alloced x (openedFile held i (flags ^^^ oCreat.toUInt64))).setSlot p fd (some x))
      | none => .ok (-enomem, k.alloced x (openedFile held i (flags ^^^ oCreat.toUInt64))) := by
  simp only [doRegularFileOpen, if_neg haccess, hl]
  exact openInode_eq k p i _ x held

/-- An open of an existing file is never refused, and the descriptor it makes has the access bits asked
for. -/
theorem open_decides {filename : List UInt8} {flags mode : UInt64} (hl : flatLookupInode k.sb filename = some i)
    (haccess : flags &&& (oRead ||| oRdwr).toUInt64 ≠ 0) (p : Proc) (x : Ptr) (held : File) :
    ∃ ret k', k.doRegularFileOpen p filename flags mode (some (x, held)) = .ok (ret, k') ∧
      (∀ access, Decides access (k.sb.inode i).mode flags ret ↔ ¬ Lacks access (k.sb.inode i).mode flags) ∧
      (0 ≤ ret → ∃ (fd : Fd) (f : File), ret = fd.val ∧ k'.table p fd = some x ∧ k'.files x = some f ∧
        f.inode = some i ∧ f.mode &&& oRdwr = flags.toUInt32 &&& oRdwr) := by
  rw [doRegularFileOpen_existing hl haccess]
  cases hfd : firstFree (k.table p) with
  | some fd =>
    refine ⟨fd.val, _, rfl, fun access => ?_, fun _ => ⟨fd, openedFile held i (flags ^^^ oCreat.toUInt64), rfl, ?_,
      Function.update_self .., rfl, toggle_and flags (by decide)⟩⟩
    · have hne : (fd.val : ℤ) ≠ -eacces := by
        unfold eacces
        omega
      unfold Decides
      simp only [hne, false_iff]
    · simp
  | none =>
    refine ⟨-enomem, _, rfl, fun access => ?_, fun h => absurd h (by decide)⟩
    have hne : -enomem ≠ -eacces := by decide
    unfold Decides
    simp only [hne, false_iff]

/-! ## What calls keep -/

/-- Open descriptions keep their inode and their mode, and files their mode. -/
structure Holds (k k' : Kernel) : Prop where
  files : ∀ x g, k'.files x = some g → ∃ f, k.files x = some f ∧ g.inode = f.inode ∧ g.mode = f.mode
  inodes : ∀ i, (k'.sb.inode i).mode = (k.sb.inode i).mode ∧ (k'.sb.inode i).isValid = (k.sb.inode i).isValid

theorem Holds.refl (k : Kernel) : Holds k k := ⟨fun _ g h => ⟨g, h, rfl, rfl⟩, fun _ => ⟨rfl, rfl⟩⟩

theorem Holds.trans {k₁ k₂ k₃ : Kernel} (h : Holds k₁ k₂) (h' : Holds k₂ k₃) : Holds k₁ k₃ := by
  constructor
  · intro x g hg
    obtain ⟨f, hf, hi, hm⟩ := h'.files x g hg
    obtain ⟨e, he, hi', hm'⟩ := h.files x f hf
    exact ⟨e, he, hi.trans hi', hm.trans hm'⟩
  · intro i
    obtain ⟨hm, hv⟩ := h'.inodes i
    obtain ⟨hm', hv'⟩ := h.inodes i
    exact ⟨hm.trans hm', hv.trans hv'⟩

theorem OnlyCounts.holds (h : OnlyCounts k k') : Holds k k' := by
  refine ⟨fun x g hg => ?_, fun i => by rw [h.sb]; exact ⟨rfl, rfl⟩⟩
  obtain ⟨f, hf, c, rfl⟩ := h.files x g hg
  exact ⟨f, hf, rfl, rfl⟩

theorem Holds.moved (hf : k.files x = some f) (n : ℕ) : Holds k (k.moved x f n) := by
  refine ⟨fun z g hg => ?_, fun i => ⟨rfl, rfl⟩⟩
  rw [files_moved] at hg
  by_cases hz : z = x
  · subst hz
    rw [Function.update_self] at hg
    obtain rfl := Option.some.inj hg
    exact ⟨f, hf, rfl, rfl⟩
  · rw [Function.update_of_ne hz] at hg
    exact ⟨g, hg, rfl, rfl⟩

theorem flatWrite_keeps (inode : Inode) (mem : Mem) (buf : ℕ → UInt8) (count off : ℤ) :
    (flatWrite inode mem buf count off).2.1.mode = inode.mode ∧
      (flatWrite inode mem buf count off).2.1.isValid = inode.isValid := by
  simp only [flatWrite]
  split
  · exact ⟨rfl, rfl⟩
  · exact ⟨rfl, rfl⟩

theorem Holds.written (hf : k.files x = some f) (i : ℕ) (buff : ℕ → UInt8) (count off : ℤ) :
    Holds k (k.written x f i (flatWrite (k.sb.inode i) k.mem buff count off)) := by
  refine ⟨(Holds.moved hf _).files, fun j => ?_⟩
  have hinode : (k.written x f i (flatWrite (k.sb.inode i) k.mem buff count off)).sb.inode j =
      if j = i then (flatWrite (k.sb.inode i) k.mem buff count off).2.1 else k.sb.inode j :=
    Function.update_apply ..
  rw [hinode]
  split
  · subst j
    exact flatWrite_keeps ..
  · exact ⟨rfl, rfl⟩

/-- A call that only moves cursors and bytes. -/
def Moves (k k' : Kernel) : Prop := Counted k' ∧ Holds k k'

theorem Counted.read (h : Counted k) (p : Proc) (fd : Fd) (buff : ℕ → UInt8) (count : ℕ) (kbd : ℕ → UInt8) :
    ∃ r, k.doFileRead p fd buff count kbd = .ok r ∧ Moves k r.2.2 := by
  rcases doFileRead_cases (fun y hy => h.refs.live y (used_of_slot hy)) buff count kbd with
    ⟨ret, buff', hret, -⟩ | ⟨x, f, i, hr, hret⟩
  · exact ⟨_, hret, h, .refl k⟩
  · exact ⟨_, hret, h.moved hr.file _, Holds.moved hr.file _⟩

theorem Counted.write (h : Counted k) (p : Proc) (fd : Fd) (buff : ℕ → UInt8) (count : ℕ) (console : ℤ) :
    ∃ r, k.doFileWrite p fd buff count console = .ok r ∧ Moves k r.2 := by
  rcases doFileWrite_cases (fun y hy => h.refs.live y (used_of_slot hy)) buff count console with
    ⟨ret, hret⟩ | ⟨x, f, i, hr, hret⟩
  · exact ⟨_, hret, h, .refl k⟩
  · exact ⟨_, hret, h.written hr.file _ _, Holds.written hr.file ..⟩

theorem Counted.lseek (h : Counted k) {offset whence : ℤ} (hret : k.doLseek p fd offset whence = .ok (ret, k')) :
    Moves k k' := by
  rcases doLseek_cases (fun y hy => h.refs.live y (used_of_slot hy)) offset whence with
    ⟨ret', he⟩ | ⟨x, f, i, n, -, hf, -, -, -, he⟩ | he
  · obtain rfl : k' = k := exec_inj hret he
    exact ⟨h, .refl k'⟩
  · obtain rfl : k' = k.moved x f (u32 n) := exec_inj hret he
    exact ⟨h.moved hf _, Holds.moved hf _⟩
  · rw [he] at hret
    cases hret

theorem Moves.write_regular {k₁ : Kernel} (h : Moves k k₁) (hf : k₁.files y = some g) (buff : ℕ → UInt8) (count : ℕ) :
    ∃ r, k₁.doWriteRegular y buff count = .ok r ∧ Moves k r.2 := by
  rcases doWriteRegular_cases hf buff count with ⟨ret, -, he⟩ | ⟨i, -, -, he⟩
  · exact ⟨_, he, h⟩
  · exact ⟨_, he, h.1.written hf _ _, h.2.trans (Holds.written hf ..)⟩

/-- The reading half of a sendfile moves a cursor at most, and frees nothing. -/
theorem Counted.sendfileRead (h : Counted k) (hf : k.files x = some f) {offset : Option ℤ} {count : ℤ}
    {page : ℕ → UInt8} {r : ℤ × (ℕ → UInt8) × Option ℤ × Kernel}
    (hr : k.sendfileRead x f offset count page = .ok r) :
    Moves k r.2.2.2 ∧ ∀ z g, k.files z = some g → ∃ g', r.2.2.2.files z = some g' := by
  cases offset with
  | some off =>
    cases hi : f.inode with
    | none => simp only [Kernel.sendfileRead, hi] at hr; cases hr
    | some i =>
      simp only [Kernel.sendfileRead, hi] at hr
      obtain rfl := Except.ok.inj hr
      exact ⟨⟨h, .refl k⟩, fun _ g hg => ⟨g, hg⟩⟩
  | none =>
    rcases doReadRegular_cases hf page (u32 count) with ⟨n, -, he⟩ | ⟨i, -, -, he⟩
    · simp only [Kernel.sendfileRead, he, bind, Except.bind] at hr
      obtain rfl := Except.ok.inj hr
      exact ⟨⟨h, .refl k⟩, fun _ g hg => ⟨g, hg⟩⟩
    · simp only [Kernel.sendfileRead, he, bind, Except.bind] at hr
      obtain rfl := Except.ok.inj hr
      refine ⟨⟨h.moved hf _, Holds.moved hf _⟩, fun z g hg => ?_⟩
      by_cases hz : z = x
      · subst hz
        exact ⟨_, Function.update_self ..⟩
      · exact ⟨g, (Function.update_of_ne hz ..).trans hg⟩

/-- A sendfile that comes back has moved cursors and bytes. -/
theorem Counted.sendfile (h : Counted k) {outfd infd : Fd} {offset : Option ℤ} {count : ℤ}
    {buff : Option (ℕ → UInt8)} {r : ℤ × Option ℤ × Kernel}
    (hr : k.doSendfile p outfd infd offset count buff = .ok r) : Moves k r.2.2 := by
  have hrefl : Moves k k := ⟨h, .refl k⟩
  cases hin : k.table p infd with
  | none =>
    simp only [doSendfile, hin] at hr
    obtain rfl := Except.ok.inj hr
    exact hrefl
  | some x =>
    cases hout : k.table p outfd with
    | none =>
      simp only [doSendfile, hin, hout] at hr
      obtain rfl := Except.ok.inj hr
      exact hrefl
    | some y =>
      obtain ⟨f, hf, -⟩ := h.slot hin
      obtain ⟨g, hg, -⟩ := h.slot hout
      simp only [doSendfile, hin, hout, file_eq hf, file_eq hg, bind, Except.bind] at hr
      split at hr
      · obtain rfl := Except.ok.inj hr
        exact hrefl
      · split at hr
        · obtain rfl := Except.ok.inj hr
          exact hrefl
        -- the read moves a cursor only, so the output is still there for the write
        · cases hread : k.sendfileRead x f offset count (buff.getD fun _ => 0) with
          | error e => rw [hread] at hr; cases hr
          | ok s =>
            obtain ⟨hmoves, hlive⟩ := h.sendfileRead hf hread
            obtain ⟨g', hg'⟩ := hlive y g hg
            obtain ⟨w, hw, hwrite⟩ := hmoves.write_regular hg' s.2.1 (u32 s.1)
            simp only [hread, hw] at hr
            split at hr
            · cases hr
            · obtain rfl := Except.ok.inj hr
              exact hwrite

/-! ## Refusals -/

/-- A descriptor whose object lacks the write bit writes nothing. -/
theorem write_refused (hs : k.table p fd = some x) (hf : k.files x = some f) (hm : f.mode &&& oWrite = 0)
    (buff : ℕ → UInt8) (count : ℕ) (console : ℤ) : k.doFileWrite p fd buff count console = .ok (-eacces, k) := by
  simp only [doFileWrite, hs, file_eq hf, bind, Except.bind, if_pos hm]

theorem and_oRead_ne {mode : UInt32} (h : mode &&& oRead = 0) : mode &&& oRead ≠ oRead := by
  rw [h]; decide

/-- One whose object lacks the read bit reads nothing. -/
theorem read_refused (hs : k.table p fd = some x) (hf : k.files x = some f) (hm : f.mode &&& oRead = 0)
    (buff : ℕ → UInt8) (count : ℕ) (kbd : ℕ → UInt8) :
    k.doFileRead p fd buff count kbd = .ok (-eacces, buff, k) := by
  simp only [doFileRead, hs, file_eq hf, bind, Except.bind, if_pos (and_oRead_ne hm)]

/-- A sendfile is refused if either side lacks its bit. -/
theorem Counted.sendfile_refused (h : Counted k) {outfd infd : Fd} (offset : Option ℤ) (count : ℤ)
    (buff : Option (ℕ → UInt8))
    (hlack : (∃ x f, k.table p infd = some x ∧ k.files x = some f ∧ f.mode &&& oRead = 0) ∨
      ∃ y g, k.table p outfd = some y ∧ k.files y = some g ∧ g.mode &&& oWrite = 0) :
    ∃ ret < 0, k.doSendfile p outfd infd offset count buff = .ok (ret, offset, k) := by
  cases hin : k.table p infd with
  | none => exact ⟨-einval, by decide, by simp only [doSendfile, hin]⟩
  | some x =>
    cases hout : k.table p outfd with
    | none => exact ⟨-einval, by decide, by simp only [doSendfile, hin, hout]⟩
    | some y =>
      obtain ⟨f, hf, -⟩ := h.slot hin
      obtain ⟨g, hg, -⟩ := h.slot hout
      refine ⟨-eacces, by decide, ?_⟩
      simp only [doSendfile, hin, hout, file_eq hf, file_eq hg, bind, Except.bind]
      rcases hlack with ⟨x', f', hx', hf', hm⟩ | ⟨y', g', hy', hg', hm⟩
      · obtain rfl := Option.some.inj (hin.symm.trans hx')
        obtain rfl := Option.some.inj (hf.symm.trans hf')
        rw [if_pos hm]
      · obtain rfl := Option.some.inj (hout.symm.trans hy')
        obtain rfl := Option.some.inj (hg.symm.trans hg')
        rw [if_pos hm]
        split <;> rfl

end Kernel

/-! ## Runs -/

namespace Call

open Kernel

/-- The calls on files, and those that read, write, seek and copy. -/
def OnAccess : Call → Prop
  | read .. | write .. | lseek .. | sendfile .. => True
  | c => c.OnFiles

/-- An open of an existing file asks for reading and writing only as the file's mode allows. A stream is
not put on a page that still names an inode it may not be used on: `create_standard_IO` leaves the name,
and `do_sendfile` follows it. -/
def Granted (k : Kernel) : Call → Prop
  | openFile _ filename flags _ _ => ∀ i ∈ flatLookupInode k.sb filename, ¬ Lacks oRdwr (k.sb.inode i).mode flags
  | openStd p type page => k.table p (stdFd type) = none → ∀ o ∈ page, ∀ i ∈ o.2.inode,
      (k.sb.inode i).isValid = true → ¬ Lacks oRdwr (k.sb.inode i).mode (stdMode type).toUInt64
  | _ => True

instance (c : Call) : Decidable c.OnAccess := by
  rcases c <;> unfold OnAccess <;> infer_instance

instance (k : Kernel) (c : Call) : Decidable (c.Granted k) := by
  rcases c <;> unfold Granted Lacks <;> infer_instance

end Call

/-- A call of these that the system can make. -/
structure AccessCall (k : Kernel) (c : Call) : Prop where
  onAccess : c.OnAccess
  legal : c.Legal k
  served : c.Served

/-- A call that came back. -/
structure AccessStep (k : Kernel) (c : Call) (k' : Kernel) : Prop where
  call : AccessCall k c
  exec : ∃ ret, c.exec 1 k = .ok (ret, k')

/-- A call that came back and asked for no more than was allowed. -/
structure GrantedStep (k : Kernel) (c : Call) (k' : Kernel) : Prop where
  step : AccessStep k c k'
  granted : c.Granted k

namespace Kernel

variable {k k' : Kernel} {c : Call} {i : ℕ} {x : Ptr} {ret : ℤ}

/-- What a call leaves of access: files that exist keep their mode, and an open description is an old
one, or a new stream, of the file its page named, or the one an open asked for. -/
structure Admits (k : Kernel) (c : Call) (k' : Kernel) : Prop where
  counted : Counted k'
  inodes : ∀ i, (k.sb.inode i).isValid = true →
    (k'.sb.inode i).isValid = true ∧ (k'.sb.inode i).mode = (k.sb.inode i).mode
  files : ∀ x g, k'.files x = some g → (∃ f, k.files x = some f ∧ g.inode = f.inode ∧ g.mode = f.mode) ∨
    (∃ p type o, c = .openStd p type (some o) ∧ k.table p (stdFd type) = none ∧ g.inode = o.2.inode ∧
      g.mode = stdMode type) ∨
    ∃ p filename flags mode page i, c = .openFile p filename flags mode page ∧
      k.Finds filename mode i k'.sb ∧ g.inode = some i ∧ g.mode = (flags ^^^ oCreat.toUInt64).toUInt32

theorem Moves.admits (h : Moves k k') : Admits k c k' :=
  ⟨h.1, fun i hv => ⟨(h.2.inodes i).2.trans hv, (h.2.inodes i).1⟩, fun x g hg => Or.inl (h.2.files x g hg)⟩

theorem Shares.admits (h : Shares k k') : Admits k c k' := Moves.admits ⟨h.counted, h.keeps.holds⟩

/-- What is found on a page after an object was put on another or on this one. -/
theorem files_update {v : File} (h : k'.files = Function.update k.files x (some v)) {z : Ptr} {g : File}
    (hg : k'.files z = some g) : k.files z = some g ∨ g = v := by
  rw [h] at hg
  by_cases hz : z = x
  · subst hz
    rw [Function.update_self] at hg
    exact Or.inr (Option.some.inj hg).symm
  · rw [Function.update_of_ne hz] at hg
    exact Or.inl hg

theorem Counted.admits_openFile (h : Counted k) {p : Proc} {filename : List UInt8} {flags mode : UInt64}
    {page : Option (Ptr × File)} (hc : AccessCall k (.openFile p filename flags mode page))
    (hcare : (Call.openFile p filename flags mode page).Careful k)
    (hret : (Call.openFile p filename flags mode page).exec 1 k = .ok (ret, k')) :
    Admits k (.openFile p filename flags mode page) k' := by
  obtain ⟨-, hlegal, hserved⟩ := hc
  have hfile : FileCall k (.openFile p filename flags mode page) := ⟨trivial, hlegal, hserved⟩
  obtain ⟨ret', k'', he, hcounted, -⟩ := h.step hfile hcare
  obtain rfl : k' = k'' := exec_inj hret he
  obtain ⟨⟨x, held⟩, rfl⟩ := Option.isSome_iff_exists.1 hserved
  rcases doRegularFileOpen_ok hret with rfl | ⟨i, sb, hfinds, hsb, -, hfiles⟩
  · exact Moves.admits ⟨h, .refl k'⟩
  · refine ⟨hcounted, fun j hv => ?_, fun z g hg => ?_⟩
    · obtain ⟨-, hvalid, hother, hmade⟩ := hfinds.spec
      rw [hsb]
      by_cases hj : j = i
      · rcases hmade with ⟨-, rfl⟩ | ⟨hold, -⟩
        · exact ⟨hv, rfl⟩
        · rw [hj, hold] at hv
          cases hv
      · rw [hother j hj]
        exact ⟨hv, rfl⟩
    · rcases files_update hfiles hg with hg | rfl
      · exact Or.inl ⟨g, hg, rfl, rfl⟩
      · exact Or.inr (Or.inr ⟨p, filename, flags, mode, _, i, rfl, by rw [hsb]; exact hfinds, rfl, rfl⟩)

theorem Counted.admits_openStd (h : Counted k) {p : Proc} {type : StdType} {page : Option (Ptr × File)}
    (hc : AccessCall k (.openStd p type page)) (hcare : (Call.openStd p type page).Careful k)
    (hret : (Call.openStd p type page).exec 1 k = .ok (ret, k')) : Admits k (.openStd p type page) k' := by
  obtain ⟨-, hlegal, hserved⟩ := hc
  have hfile : FileCall k (.openStd p type page) := ⟨trivial, hlegal, hserved⟩
  obtain ⟨ret', k'', he, hcounted, -⟩ := h.step hfile hcare
  obtain rfl : k' = k'' := exec_inj hret he
  obtain ⟨⟨x, held⟩, rfl⟩ := Option.isSome_iff_exists.1 hserved
  rcases openStandardIo_ok (fun y hy => h.refs.live y (used_of_slot hy)) hret with hk | ⟨hs, hsb, -, hfiles⟩
  · exact Moves.admits ⟨hcounted, hk.holds⟩
  · refine ⟨hcounted, fun j hv => by rw [hsb]; exact ⟨hv, rfl⟩, fun z g hg => ?_⟩
    rcases files_update hfiles hg with hg | rfl
    · exact Or.inl ⟨g, hg, rfl, rfl⟩
    · exact Or.inr (Or.inl ⟨p, type, (x, held), rfl, hs, rfl, rfl⟩)

theorem Counted.admits (h : Counted k) (hc : AccessCall k c) (hret : c.exec 1 k = .ok (ret, k')) : Admits k c k' := by
  -- a careless call does not come back
  have hcare : c.Careful k := by
    by_contra hcare
    obtain ⟨e, he⟩ := h.careless hcare
    rw [he] at hret
    cases hret
  obtain ⟨hon, hlegal, hserved⟩ := hc
  cases c with
  | openFile p filename flags mode page => exact h.admits_openFile ⟨hon, hlegal, hserved⟩ hcare hret
  | openStd p type page => exact h.admits_openStd ⟨hon, hlegal, hserved⟩ hcare hret
  | read p fd buff count kbd =>
    obtain ⟨r, hr, hmoves⟩ := h.read p fd buff count kbd
    have he : (Call.read p fd buff count kbd).exec 1 k = .ok (r.1, r.2.2) := by
      simp only [Call.exec, hr, Functor.map, Except.map]
    obtain rfl : k' = r.2.2 := exec_inj hret he
    exact hmoves.admits
  | write p fd buff count console =>
    obtain ⟨r, hr, hmoves⟩ := h.write p fd buff count console
    obtain rfl : k' = r.2 := exec_inj hret hr
    exact hmoves.admits
  | lseek p fd offset whence => exact (h.lseek hret).admits
  | sendfile p outfd infd offset count buff =>
    cases hs : k.doSendfile p outfd infd offset count buff with
    | error e => simp only [Call.exec, hs, Functor.map, Except.map] at hret; cases hret
    | ok r =>
      have he : (Call.sendfile p outfd infd offset count buff).exec 1 k = .ok (r.1, r.2.2) := by
        simp only [Call.exec, hs, Functor.map, Except.map]
      obtain rfl : k' = r.2.2 := exec_inj hret he
      exact (h.sendfile hs).admits
  | dup2 p old new =>
    obtain ⟨ret', k'', he, hsh⟩ := h.dup2 hcare
    obtain rfl : k' = k'' := exec_inj hret he
    exact hsh.admits
  | close p fd unset =>
    obtain ⟨ret', k'', he, hsh⟩ := h.close p fd unset
    obtain rfl : k' = k'' := exec_inj hret he
    exact hsh.admits
  | fork p child =>
    obtain ⟨ret', k'', he, hsh⟩ := h.fork hcare hlegal.child
    obtain rfl : k' = k'' := exec_inj hret he
    exact hsh.admits
  | exit p =>
    obtain ⟨k'', hk'', hsh⟩ := h.exit hcare
    have he : (Call.exit p).exec 1 k = .ok (0, k'') := by simp only [Call.exec, hk'', Functor.map, Except.map]
    obtain rfl : k' = k'' := exec_inj hret he
    exact hsh.admits
  | createQueue | msg | closeQueue => exact hon.elim

/-- An open description of file `i` with access bit `bit`. -/
def OpenFor (k : Kernel) (x : Ptr) (i : ℕ) (bit : UInt32) : Prop :=
  ∃ f, k.files x = some f ∧ f.inode = some i ∧ f.mode &&& bit ≠ 0

/-- A call that asks for no more than is allowed opens no file for what its mode lacks. -/
theorem Admits.openFor (h : Admits k c k') (hgrant : c.Granted k) {bit : UInt32} (hv : (k.sb.inode i).isValid = true)
    (hm : (k.sb.inode i).mode &&& bit = 0) (hb : bit &&& oRdwr = bit) (hcreat : oCreat &&& bit = 0)
    (hopen : k'.OpenFor x i bit) : k.OpenFor x i bit := by
  obtain ⟨g, hg, hi, hbit⟩ := hopen
  rcases h.files x g hg with ⟨f, hf, hif, hmf⟩ | ⟨p, type, o, rfl, hs, hio, hmode⟩ |
    ⟨p, filename, flags, mode, page, j, rfl, hfinds, hj, hmode⟩
  · exact ⟨f, hf, hif.symm.trans hi, by rwa [← hmf]⟩
  · have hnot : ¬ Lacks oRdwr (k.sb.inode i).mode (stdMode type).toUInt64 := hgrant hs o rfl i (hio.symm.trans hi) hv
    refine absurd ?_ hbit
    rw [hmode]
    unfold Lacks at hnot
    rw [UInt32.toUInt32_toUInt64] at hnot
    exact and_eq_zero_of_granted (not_not.1 hnot) hm hb
  · obtain rfl := Option.some.inj (hj.symm.trans hi)
    rcases hfinds.spec.2.2.2 with ⟨hl, -⟩ | ⟨hold, -⟩
    · have hnot : ¬ Lacks oRdwr (k.sb.inode j).mode flags := hgrant j hl
      refine absurd ?_ hbit
      rw [hmode, toggle_and flags hcreat]
      exact and_eq_zero_of_granted (not_not.1 hnot) hm hb
    · -- the file was there before, so it is not created
      rw [hold] at hv
      cases hv

/-- What a call does to access to file `i` that needs `bit`: no open description gains it. -/
def Guards (k : Kernel) (i : ℕ) (bit : UInt32) : Prop :=
  ∀ c ret k', AccessCall k c → c.Granted k → c.exec 1 k = .ok (ret, k') → ∀ x, k'.OpenFor x i bit → k.OpenFor x i bit

/-- Writing and copying through the descriptor are refused. -/
def RefusesWrites (k : Kernel) (p : Proc) (fd : Fd) : Prop :=
  (∀ buff count console, ∃ ret < 0, k.doFileWrite p fd buff count console = .ok (ret, k)) ∧
    ∀ infd offset count buff, ∃ ret < 0, k.doSendfile p fd infd offset count buff = .ok (ret, offset, k)

/-- Reading and copying from the descriptor are refused. -/
def RefusesReads (k : Kernel) (p : Proc) (fd : Fd) : Prop :=
  (∀ buff count kbd, ∃ ret < 0, k.doFileRead p fd buff count kbd = .ok (ret, buff, k)) ∧
    ∀ outfd offset count buff, ∃ ret < 0, k.doSendfile p outfd fd offset count buff = .ok (ret, offset, k)

theorem Counted.refusesWrites (h : Counted k) {p : Proc} {fd : Fd} {f : File} (hs : k.table p fd = some x)
    (hf : k.files x = some f) (hm : f.mode &&& oWrite = 0) : k.RefusesWrites p fd :=
  ⟨fun buff count console => ⟨-eacces, by decide, write_refused hs hf hm buff count console⟩,
    fun _ offset count buff => h.sendfile_refused offset count buff (Or.inr ⟨x, f, hs, hf, hm⟩)⟩

theorem Counted.refusesReads (h : Counted k) {p : Proc} {fd : Fd} {f : File} (hs : k.table p fd = some x)
    (hf : k.files x = some f) (hm : f.mode &&& oRead = 0) : k.RefusesReads p fd :=
  ⟨fun buff count kbd => ⟨-eacces, by decide, read_refused hs hf hm buff count kbd⟩,
    fun _ offset count buff => h.sendfile_refused offset count buff (Or.inl ⟨x, f, hs, hf, hm⟩)⟩

/-- From `k` on, file `i` keeps its mode, and what the mode lacks is out of reach of every descriptor
opened since. -/
structure Protects (k k' : Kernel) (i : ℕ) : Prop where
  mode : (k'.sb.inode i).mode = (k.sb.inode i).mode
  guards : ∀ bit, (bit = oRead ∨ bit = oWrite) → (k.sb.inode i).mode &&& bit = 0 →
    k'.Guards i bit ∧ ∀ x, k'.OpenFor x i bit → k.OpenFor x i bit
  writes : (k.sb.inode i).mode &&& oWrite = 0 → ∀ p fd x f, k'.table p fd = some x → k'.files x = some f →
    f.inode = some i → ¬ k.OpenFor x i oWrite → k'.RefusesWrites p fd
  reads : (k.sb.inode i).mode &&& oRead = 0 → ∀ p fd x f, k'.table p fd = some x → k'.files x = some f →
    f.inode = some i → ¬ k.OpenFor x i oRead → k'.RefusesReads p fd

theorem run_counted {k₀ : Kernel} {cs : List Call} (h₀ : k₀.Counted) (hrun : Run AccessStep k₀ cs k) : Counted k := by
  refine hrun.invariant h₀ fun k c k' h hs => ?_
  obtain ⟨ret, hret⟩ := hs.exec
  exact (h.admits hs.call hret).counted

/-- Over a run of granted calls. -/
theorem Counted.protects (h : Counted k) {cs : List Call} (hrun : Run GrantedStep k cs k')
    (hv : (k.sb.inode i).isValid = true) : Protects k k' i := by
  -- both bits are in `O_RDWR`, and neither is in `O_CREAT`
  have hbits : ∀ bit, (bit = oRead ∨ bit = oWrite) → bit &&& oRdwr = bit ∧ oCreat &&& bit = 0 := by
    rintro bit (rfl | rfl)
    · decide
    · decide
  obtain ⟨hcount, hvalid, hmode, hold⟩ : Counted k' ∧ (k'.sb.inode i).isValid = true ∧
      (k'.sb.inode i).mode = (k.sb.inode i).mode ∧ ∀ bit, (bit = oRead ∨ bit = oWrite) →
        (k.sb.inode i).mode &&& bit = 0 → ∀ x, k'.OpenFor x i bit → k.OpenFor x i bit := by
    -- the file stays valid with its mode, and no description gets a bit that the mode lacks
    refine hrun.invariant (P := fun s => Counted s ∧ (s.sb.inode i).isValid = true ∧
      (s.sb.inode i).mode = (k.sb.inode i).mode ∧ ∀ bit, (bit = oRead ∨ bit = oWrite) →
        (k.sb.inode i).mode &&& bit = 0 → ∀ x, s.OpenFor x i bit → k.OpenFor x i bit) ?_ ?_
    · exact ⟨h, hv, rfl, fun _ _ _ _ hx => hx⟩
    · rintro s c s' ⟨hs, hvs, hms, holds⟩ ⟨⟨hc, ret, hret⟩, hgrant⟩
      have hadm := hs.admits hc hret
      obtain ⟨hvs', hms'⟩ := hadm.inodes i hvs
      refine ⟨hadm.counted, hvs', hms'.trans hms, fun bit hbit hlack x hx => ?_⟩
      obtain ⟨hb, hcreat⟩ := hbits bit hbit
      exact holds bit hbit hlack x (hadm.openFor hgrant hvs (by rw [hms]; exact hlack) hb hcreat hx)
  refine ⟨hmode, fun bit hbit hlack => ⟨fun c ret k'' hc hgrant hret x hx => ?_, hold bit hbit hlack⟩, ?_, ?_⟩
  · obtain ⟨hb, hcreat⟩ := hbits bit hbit
    exact (hcount.admits hc hret).openFor hgrant hvalid (by rw [hmode]; exact hlack) hb hcreat hx
  · intro hlack p fd x f hs hf hi hnew
    refine hcount.refusesWrites hs hf (not_not.1 fun hm => hnew ?_)
    exact hold oWrite (Or.inr rfl) hlack x ⟨f, hf, hi, hm⟩
  · intro hlack p fd x f hs hf hi hnew
    refine hcount.refusesReads hs hf (not_not.1 fun hm => hnew ?_)
    exact hold oRead (Or.inl rfl) hlack x ⟨f, hf, hi, hm⟩

end Kernel

/-- An open of an existing file, in any state, decides as it should if and only if it asks for nothing
that the mode lacks (whichever flags count as access bits), and a descriptor it makes has the access
bits asked for. In a run whose opens of existing files all ask for nothing their modes lack, each
file is protected from the moment it exists. -/
theorem run_protects {k₀ k k' : Kernel} {cs cs' : List Call} (h₀ : k₀.Idle) (hrun : Run AccessStep k₀ cs k)
    (hrun' : Run GrantedStep k cs' k') :
    (∀ (s : Kernel) (p : Proc) (filename : List UInt8) (flags mode : UInt64) (x : Ptr) (held : File) (i : ℕ),
      flatLookupInode s.sb filename = some i → flags &&& (oRead ||| oRdwr).toUInt64 ≠ 0 →
      ∃ ret s', s.doRegularFileOpen p filename flags mode (some (x, held)) = .ok (ret, s') ∧
        (∀ access, Kernel.Decides access (s.sb.inode i).mode flags ret ↔
          ¬ Kernel.Lacks access (s.sb.inode i).mode flags) ∧
        (0 ≤ ret → ∃ (fd : Fd) (f : File), ret = fd.val ∧ s'.table p fd = some x ∧ s'.files x = some f ∧
          f.inode = some i ∧ f.mode &&& oRdwr = flags.toUInt32 &&& oRdwr)) ∧
    ∀ i, (k.sb.inode i).isValid = true → k.Protects k' i :=
  ⟨fun _ p _ _ _ x held _ hl haccess => Kernel.open_decides hl haccess p x held,
    fun _ hv => (Kernel.run_counted h₀.counted hrun).protects hrun' hv⟩

theorem run_granted {k : Kernel} {cs : List Call}
    (h : Scripted (Call.next 1) (fun k c => (c.OnAccess ∧ c.Legal k ∧ c.Served ∧ c.Granted k) ∧ c.returns 1 k = true)
      k cs) : Run GrantedStep k (script (Call.next 1) k cs).1 (script (Call.next 1) k cs).2 := by
  refine Run.script (Call.next 1) _ ?_ h
  rintro k c ⟨⟨hon, hlegal, hserved, hgrant⟩, hret⟩
  exact ⟨⟨⟨hon, hlegal, hserved⟩, Call.exec_next hret⟩, hgrant⟩

theorem run_access {k k' : Kernel} {cs : List Call} (h : Run GrantedStep k cs k') : Run AccessStep k cs k' :=
  h.mono fun _ _ _ hs => hs.step

/-- Process 1 creates a file that may be read only, writes to it through the descriptor it was created
with, and forks; the child opens the file for reading, tries to write, and copies the descriptor. -/
theorem run_protects_of_two :
    let k := (script (Call.next 1) first [.openFile 1 [97] 11 1 (some (4096, zeroPage)), .write 1 3 (fun _ => 7) 2 0,
      .fork 1 2]).2
    let k' := (script (Call.next 1) k [.openFile 2 [97] 1 0 (some (8192, zeroPage)), .write 2 4 (fun _ => 9) 2 0,
      .dup2 2 4 5, .read 2 5 (fun _ => 0) 2 fun _ => 0]).2
    (∀ (s : Kernel) (p : Proc) (filename : List UInt8) (flags mode : UInt64) (x : Ptr) (held : File) (i : ℕ),
      flatLookupInode s.sb filename = some i → flags &&& (oRead ||| oRdwr).toUInt64 ≠ 0 →
      ∃ ret s', s.doRegularFileOpen p filename flags mode (some (x, held)) = .ok (ret, s') ∧
        (∀ access, Kernel.Decides access (s.sb.inode i).mode flags ret ↔
          ¬ Kernel.Lacks access (s.sb.inode i).mode flags) ∧
        (0 ≤ ret → ∃ (fd : Fd) (f : File), ret = fd.val ∧ s'.table p fd = some x ∧ s'.files x = some f ∧
          f.inode = some i ∧ f.mode &&& oRdwr = flags.toUInt32 &&& oRdwr)) ∧
    ∀ i, (k.sb.inode i).isValid = true → k.Protects k' i := by
  intro k k'
  exact run_protects (Kernel.idle_boot ..) (run_access (run_granted (by decide +kernel)))
    (run_granted (by decide +kernel))

/-- A file created with mode `O_READ` is opened for writing: the open answers a descriptor, and a write
through it changes the file. -/
theorem write_open_of_read_only_file :
    let k := (script (Call.next 1) first [.openFile 1 [97] 9 1 (some (4096, zeroPage)), .close 1 3 0]).2
    let c : Call := .openFile 1 [97] 2 0 (some (8192, zeroPage))
    let k' := (c.next 1 k).2
    let w : Call := .write 1 3 (fun _ => 7) 1 0
    AccessCall k c ∧ flatLookupInode k.sb [97] = some 0 ∧ Kernel.Lacks oRdwr (k.sb.inode 0).mode 2 ∧
      (c.exec 1 k).toOption.map Prod.fst = some 3 ∧ AccessCall k' w ∧
      (w.exec 1 k').toOption.map Prod.fst = some 1 ∧ content (k'.sb.inode 0) k'.mem = [] ∧
      content ((w.next 1 k').2.sb.inode 0) (w.next 1 k').2.mem = [7] := by
  intro k c k' w
  refine ⟨⟨trivial, by decide +kernel, by decide⟩, ?_, ?_, ?_, ⟨trivial, by decide +kernel, trivial⟩, ?_, ?_, ?_⟩
  · decide +kernel
  · unfold Kernel.Lacks
    decide +kernel
  · decide +kernel
  · decide +kernel
  · decide +kernel
  · decide +kernel

/-- What `do_file_close` leaves on the page of the same file. -/
def closedPage : File := { Kernel.openedFile zeroPage 0 1 with refCount := 0 }

/-- Standard output on that page still names the file, and a sendfile to it writes where no write is allowed. -/
example :
    let k := (script (Call.next 1) first [.openFile 1 [97] 9 1 (some (4096, zeroPage)), .close 1 3 0,
      .openFile 1 [98] 11 3 (some (8192, zeroPage)), .write 1 3 (fun _ => 7) 1 0, .lseek 1 3 0 0,
      .openStd 1 1 (some (4096, closedPage)), .sendfile 1 1 3 none 1 (some fun _ => 0)]).2
    (k.sb.inode 0).mode = oRead ∧ content (k.sb.inode 0) k.mem = [7] := by decide +kernel

end CS330.Os
