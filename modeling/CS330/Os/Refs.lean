/-
Reference counts: the count of an open file is the number of slots that refer to it. Each move
keeps the counts exact, and so do fork and exit, which make many moves at once.

Which objects are counted is up to what they hold at `msg_queue`. Objects of message queues are set
apart where there are any: their counts are not exact, and all that is kept of them here is that a
slot never refers to a freed one.
-/
import CS330.Os.Moves

namespace CS330.Os

open CS330.Lib CS330.Queue

namespace Kernel

/-- Not a queue's object. -/
abbrev Plain (queue : Option Ptr) : Prop := queue = none

/-- Any object. -/
abbrev Any (_ : Option Ptr) : Prop := True

/-- Slots refer to live objects, and a counted object that is referred to counts its slots.
`setup_child_context` then takes one reference a slot. -/
structure Refs (own : Option Ptr → Prop) (bump : ℕ) (k : Kernel) : Prop where
  live : ∀ x, 0 < k.used x → ∃ f, k.files x = some f
  exact : ∀ x f, k.files x = some f → own f.msgQueue → 0 < k.used x → bump = 1 ∧ f.refCount = k.used x

/-- A counted object is freed when it loses its last slot, and only then. -/
def Frees (own : Option Ptr → Prop) (k k' : Kernel) : Prop :=
  ∀ x f, k.files x = some f → own f.msgQueue → (k'.files x = none ↔ 0 < k.used x ∧ k'.used x = 0)

/-! ## Counting slots -/

theorem used_le (k : Kernel) (x : Ptr) : k.used x ≤ 112 := by
  have h := uses_le_card k.table x
  simp only [Fintype.card_fin] at h
  exact h

theorem used_of_slot {k : Kernel} {p : Proc} {fd : Fd} {x : Ptr} (h : k.table p fd = some x) : 0 < k.used x :=
  used_pos.2 ⟨p, fd, h⟩

theorem held_le_used (k : Kernel) (p : Proc) (x : Ptr) : held (k.table p) x ≤ k.used x := held_le_uses p

theorem used_congr {k k' : Kernel} (h : k'.table = k.table) (x : Ptr) : k'.used x = k.used x := by
  unfold used
  rw [h]

/-- When a process's table changes, uses change as what it holds does. -/
theorem used_update {k k' : Kernel} {p : Proc} {t : Table} (h : k'.table = Function.update k.table p t) (x : Ptr) :
    k'.used x + held (k.table p) x = k.used x + held t x := by
  unfold used
  rw [h]
  exact uses_update ..

/-- When a slot changes, what it held loses a use and what it holds gains one. -/
theorem used_slot {k k' : Kernel} {p : Proc} {fd : Fd} {v : Option Ptr}
    (h : k'.table = Function.update k.table p (Function.update (k.table p) fd v)) (x : Ptr) :
    k'.used x + (if k.table p fd = some x then 1 else 0) = k.used x + if v = some x then 1 else 0 := by
  have hu := used_update h x
  have hh := held_update (k.table p) fd v x
  omega

variable {own : Option Ptr → Prop} {bump : ℕ} {k k' : Kernel} {p : Proc} {fd : Fd} {x y : Ptr} {f g : File}

theorem used_released (hs : k.table p fd = some y) (z : Ptr) :
    (k.released p fd y f).used z + (if y = z then 1 else 0) = k.used z := by
  have h := used_slot (table_released k p fd y f) z
  simpa [hs] using h

theorem used_acquired (hs : k.table p fd = none) (z : Ptr) :
    (k.acquired p fd x f).used z = k.used z + if x = z then 1 else 0 := by
  have h := used_slot (table_acquired k p fd x f) z
  simpa [hs] using h

theorem used_filled (hs : k.table p fd = none) (z : Ptr) :
    ((k.alloced x f).setSlot p fd (some x)).used z = k.used z + if x = z then 1 else 0 := by
  have h := used_slot (table_setSlot (k.alloced x f) p fd (some x)) z
  simp only [table_alloced, hs, reduceCtorEq, if_false, add_zero, Option.some.injEq] at h
  exact h

theorem files_filled (k : Kernel) (p : Proc) (fd : Fd) (x : Ptr) (f : File) :
    ((k.alloced x f).setSlot p fd (some x)).files = Function.update k.files x (some f) := rfl

/-! ## Small counts -/

theorem counted_down {c n : ℕ} (h : n ≤ c) (hc : c ≤ 112) : counted c (-1) n = c - n := by
  unfold counted u32
  split
  · omega
  · omega

theorem counted_up {c n : ℕ} (hc : c ≤ 112) (hn : n ≤ 112) : counted c (1 : ℕ) n = c + n := by
  unfold counted u32
  split
  · omega
  · omega

theorem u32_succ {n : ℕ} (h : n ≤ 112) : u32 ((n : ℤ) + (1 : ℕ)) = n + 1 := by
  unfold u32; omega

/-- References are left as long as the count has not come down to zero. -/
theorem drop_of_lt {n : ℕ} (h : n < f.refCount) (hc : f.refCount ≤ 112) : f.drop n = some (f.bump (-1) n) := by
  refine if_neg fun hz => ?_
  have := hz.2
  rw [File.refCount_bump, counted_down h.le hc] at this
  omega

theorem drop_last (h : 0 < f.refCount) (hc : f.refCount ≤ 112) : f.drop f.refCount = none := by
  refine if_pos ⟨by omega, ?_⟩
  rw [File.refCount_bump, counted_down le_rfl hc, Nat.sub_self]

/-! ## What is freed -/

/-- What is freed is what lost its last slot, if nothing unused is freed. -/
theorem Refs.frees (h' : Refs own bump k')
    (hlast : ∀ x f, k.files x = some f → own f.msgQueue → 0 < k.used x → k'.used x = 0 → k'.files x = none)
    (hunused : ∀ x f, k.files x = some f → k.used x = 0 → k'.files x ≠ none) : Frees own k k' := by
  intro x f hf hm
  constructor
  · intro hnone
    constructor
    · by_contra hz
      exact hunused x f hf (by omega) hnone
    · by_contra hz
      obtain ⟨g, hg⟩ := h'.live x (by omega)
      rw [hnone] at hg
      cases hg
  · rintro ⟨hpos, hzero⟩
    exact hlast x f hf hm hpos hzero

theorem Frees.same (ht : k'.table = k.table) (hf : ∀ x f, k.files x = some f → k'.files x ≠ none) : Frees own k k' := by
  intro x f hfx _
  rw [used_congr ht]
  constructor
  · intro hnone
    exact absurd hnone (hf x f hfx)
  · omega

/-! ## The moves -/

/-- A slot gives up its reference. -/
theorem Refs.release (h : Refs own bump k) (hs : k.table p fd = some y) (hf : k.files y = some f)
    (hq : ¬ own f.msgQueue → f.drop 1 ≠ none) : Refs own bump (k.released p fd y f) := by
  have hused := used_released (f := f) hs
  have hle := k.used_le y
  constructor
  · intro z hz
    have huz := hused z
    rw [files_released]
    by_cases hzy : y = z
    · subst hzy
      rw [if_pos rfl] at huz
      rw [Function.update_self]
      by_cases hm : own f.msgQueue
      · -- another slot still refers to the object
        obtain ⟨-, hcount⟩ := h.exact y f hf hm (by omega)
        exact ⟨_, drop_of_lt (by omega) (by omega)⟩
      · exact Option.ne_none_iff_exists'.1 (hq hm)
    · rw [if_neg hzy] at huz
      rw [Function.update_of_ne (Ne.symm hzy)]
      exact h.live z (by omega)
  · intro z g hg hm hz
    have huz := hused z
    rw [files_released] at hg
    by_cases hzy : y = z
    · subst hzy
      rw [if_pos rfl] at huz
      rw [Function.update_self] at hg
      obtain rfl := File.drop_some hg
      obtain ⟨hb, hcount⟩ := h.exact y f hf hm (by omega)
      refine ⟨hb, ?_⟩
      rw [File.refCount_bump, counted_down (by omega) (by omega)]
      omega
    · rw [if_neg hzy] at huz
      rw [Function.update_of_ne (Ne.symm hzy)] at hg
      obtain ⟨hb, hcount⟩ := h.exact z g hg hm (by omega)
      exact ⟨hb, by omega⟩

theorem Refs.release_frees (h : Refs own bump k) (hs : k.table p fd = some y) (hf : k.files y = some f)
    (hq : ¬ own f.msgQueue → f.drop 1 ≠ none) : Frees own k (k.released p fd y f) := by
  refine (h.release hs hf hq).frees ?_ ?_
  · intro z g hg hm hz hz'
    have huz := used_released (f := f) hs z
    rw [files_released]
    by_cases hzy : y = z
    · subst hzy
      rw [if_pos rfl] at huz
      obtain rfl := Option.some.inj (hf.symm.trans hg)
      obtain ⟨-, hcount⟩ := h.exact y f hf hm hz
      have hone : f.refCount = 1 := by omega
      rw [Function.update_self, ← hone]
      exact drop_last (by omega) (by omega)
    · rw [if_neg hzy] at huz
      omega
  · intro z g hg hz
    have hzy : z ≠ y := by
      rintro rfl
      have := used_of_slot hs
      omega
    rw [files_released, Function.update_of_ne hzy, hg]
    exact Option.some_ne_none g

/-- An empty slot takes a reference to an object that is in use. -/
theorem Refs.acquire (h : Refs own bump k) (hs : k.table p fd = none) (hf : k.files x = some f)
    (hx : own f.msgQueue → 0 < k.used x) : Refs own bump (k.acquired p fd x f) := by
  have hused := used_acquired (x := x) (f := f) hs
  constructor
  · intro z hz
    rw [files_acquired]
    by_cases hzx : x = z
    · subst hzx
      exact ⟨_, Function.update_self ..⟩
    · rw [Function.update_of_ne (Ne.symm hzx)]
      rw [hused, if_neg hzx] at hz
      exact h.live z (by omega)
  · intro z g hg hm hz
    rw [files_acquired] at hg
    rw [hused] at hz ⊢
    by_cases hzx : x = z
    · subst hzx
      rw [Function.update_self] at hg
      obtain rfl := Option.some.inj hg
      obtain ⟨hb, hcount⟩ := h.exact x f hf hm (hx hm)
      have hle := k.used_le x
      refine ⟨hb, ?_⟩
      rw [if_pos rfl, ← hcount]
      exact u32_succ (by omega)
    · rw [Function.update_of_ne (Ne.symm hzx)] at hg
      rw [if_neg hzx] at hz ⊢
      exact h.exact z g hg hm (by omega)

theorem Frees.acquire {k₁ : Kernel} (h : Frees own k k₁) (hs : k₁.table p fd = none)
    (hx : own f.msgQueue → 0 < k₁.used x) (hkeep : ∀ g, k.files x = some g → g.msgQueue = f.msgQueue) :
    Frees own k (k₁.acquired p fd x f) := by
  intro z g hg hm
  have huz := used_acquired (x := x) (f := f) hs z
  by_cases hzx : x = z
  · subst hzx
    have hpos := hx (hkeep g hg ▸ hm)
    constructor
    · intro hnone
      rw [files_acquired, Function.update_self] at hnone
      cases hnone
    · omega
  · rw [if_neg hzx] at huz
    rw [files_acquired, Function.update_of_ne (Ne.symm hzx), huz]
    exact h z g hg hm

/-- A call that moves no slot and no count of an object in use keeps the counts. -/
theorem Refs.congr (h : Refs own bump k) (ht : k'.table = k.table)
    (hf : ∀ x, 0 < k.used x → (k'.files x).map (fun f => (f.refCount, f.msgQueue)) =
      (k.files x).map fun f => (f.refCount, f.msgQueue)) : Refs own bump k' := by
  have hused := used_congr ht
  constructor
  · intro z hz
    rw [hused] at hz
    obtain ⟨f, hfz⟩ := h.live z hz
    have := hf z hz
    rw [hfz] at this
    obtain ⟨f', hf', -⟩ := Option.map_eq_some_iff.1 this
    exact ⟨f', hf'⟩
  · intro z g hg hm hz
    rw [hused] at hz ⊢
    have := hf z hz
    rw [hg] at this
    obtain ⟨f, hfz, he⟩ := Option.map_eq_some_iff.1 this.symm
    simp only [Prod.mk.injEq] at he
    obtain ⟨hb, hcount⟩ := h.exact z f hfz (he.2 ▸ hm) hz
    exact ⟨hb, he.1.symm.trans hcount⟩

theorem Refs.unused (h : Refs own bump k) (hx : k.files x = none) : k.used x = 0 := by
  by_contra hpos
  obtain ⟨g, hg⟩ := h.live x (by omega)
  rw [hx] at hg
  cases hg

/-- An object that never gets a slot is no reference to anything. -/
theorem Refs.leak (h : Refs own bump k) (hx : k.files x = none) : Refs own bump (k.alloced x f) := by
  refine h.congr (table_alloced ..) fun z hz => ?_
  have hzx : z ≠ x := by
    rintro rfl
    have := h.unused hx
    omega
  exact congrArg (Option.map _) (Function.update_of_ne hzx ..)

/-- A fresh object, with one reference counted, goes into an empty slot. -/
theorem Refs.fill (h : Refs own bump k) (hs : k.table p fd = none) (hx : k.files x = none)
    (hf : own f.msgQueue → bump = 1 ∧ f.refCount = 1) : Refs own bump ((k.alloced x f).setSlot p fd (some x)) := by
  have hzero := h.unused hx
  have hused := used_filled (x := x) (f := f) hs
  constructor
  · intro z hz
    by_cases hzx : x = z
    · subst hzx
      exact ⟨_, Function.update_self ..⟩
    · rw [hused, if_neg hzx] at hz
      obtain ⟨g, hg⟩ := h.live z (by omega)
      exact ⟨g, by rw [files_filled, Function.update_of_ne (Ne.symm hzx), hg]⟩
  · intro z g hg hm hz
    rw [hused] at hz ⊢
    rw [files_filled] at hg
    by_cases hzx : x = z
    · subst hzx
      rw [Function.update_self] at hg
      obtain rfl := Option.some.inj hg
      obtain ⟨hb, hcount⟩ := hf hm
      exact ⟨hb, by rw [hcount, hzero, if_pos rfl]⟩
    · rw [Function.update_of_ne (Ne.symm hzx)] at hg
      rw [if_neg hzx] at hz ⊢
      exact h.exact z g hg hm (by omega)

theorem Frees.fill (hs : k.table p fd = none) (hx : k.files x = none) :
    Frees own k ((k.alloced x f).setSlot p fd (some x)) := by
  intro z g hg _
  have huz := used_filled (x := x) (f := f) hs z
  have hzx : x ≠ z := by
    rintro rfl
    rw [hx] at hg
    cases hg
  rw [if_neg hzx] at huz
  rw [files_filled, Function.update_of_ne (Ne.symm hzx), hg, huz]
  simp only [reduceCtorEq, false_iff]
  omega

/-! ## Fork and exit -/

/-- A child's slots take their references. -/
theorem Refs.fork (h : Refs own bump k) {child : Proc} (hc : ∀ fd, k.table child fd = none) :
    Refs own bump ((k.setTable child (k.table p)).gained bump (held (k.table p))) := by
  have hused : ∀ z, ((k.setTable child (k.table p)).gained bump (held (k.table p))).used z =
      k.used z + held (k.table p) z := by
    intro z
    have hu := used_update (table_setTable k child (k.table p)) z
    rw [held_eq_zero.2 fun fd hfd => by rw [hc] at hfd; cases hfd] at hu
    exact hu
  have hfiles : ∀ z, ((k.setTable child (k.table p)).gained bump (held (k.table p))).files z =
      (k.files z).map (File.bump bump (held (k.table p) z)) := fun z => rfl
  have hle := fun z => held_le_used k p z
  constructor
  · intro z hz
    rw [hused] at hz
    obtain ⟨f, hf⟩ := h.live z (by have := hle z; omega)
    exact ⟨_, by rw [hfiles, hf]; rfl⟩
  · intro z g hg hm hz
    rw [hused] at hz ⊢
    rw [hfiles] at hg
    obtain ⟨f, hf, rfl⟩ := Option.map_eq_some_iff.1 hg
    have hlez := hle z
    obtain ⟨rfl, hcount⟩ := h.exact z f hf hm (by omega)
    have := k.used_le z
    exact ⟨rfl, by rw [File.refCount_bump, counted_up (by omega) (by omega), hcount]⟩

theorem Frees.fork {child : Proc} (hc : ∀ fd, k.table child fd = none) :
    Frees own k ((k.setTable child (k.table p)).gained bump (held (k.table p))) := by
  intro z g hg _
  have hu := used_update (table_setTable k child (k.table p)) z
  rw [held_eq_zero.2 fun fd hfd => by rw [hc] at hfd; cases hfd] at hu
  have hfz : ((k.setTable child (k.table p)).gained bump (held (k.table p))).files z ≠ none := by
    change (k.files z).map _ ≠ none
    rw [hg]
    exact Option.some_ne_none _
  constructor
  · intro hnone
    exact absurd hnone hfz
  · rintro ⟨hpos, hzero⟩
    change (k.setTable child (k.table p)).used z = 0 at hzero
    omega

/-- A context without a table. -/
def vacated (p : Proc) (k : Kernel) : Kernel := { k with ctx := Function.update k.ctx p none }

theorem table_vacated (k : Kernel) (p : Proc) : (k.vacated p).table = Function.update k.table p fun _ => none := by
  funext q
  by_cases h : q = p
  · subst h; simp [table, vacated]
  · simp [table, vacated, h]

theorem used_vacated (k : Kernel) (p : Proc) (n : Ptr → ℕ) (objects : ℤ) (z : Ptr) :
    ((k.lost n objects).vacated p).used z + held (k.table p) z = k.used z := by
  have hu := used_update (table_vacated (k.lost n objects) p) z
  rw [held_empty, add_zero] at hu
  exact hu

/-- A process's slots give up their references and go. -/
theorem Refs.exit (h : Refs own bump k) (objects : ℤ)
    (hq : ∀ x f, k.files x = some f → ¬ own f.msgQueue → f.drop (held (k.table p) x) ≠ none) :
    Refs own bump ((k.lost (held (k.table p)) objects).vacated p) := by
  have hused := used_vacated k p (held (k.table p)) objects
  have hfiles : ∀ z, ((k.lost (held (k.table p)) objects).vacated p).files z =
      (k.files z).bind (File.drop (held (k.table p) z)) := fun z => rfl
  constructor
  · intro z hz
    have huz := hused z
    have hle := k.used_le z
    obtain ⟨f, hf⟩ := h.live z (by omega)
    rw [hfiles, hf]
    by_cases hm : own f.msgQueue
    · obtain ⟨-, hcount⟩ := h.exact z f hf hm (by omega)
      exact ⟨_, drop_of_lt (by omega) (by omega)⟩
    · exact Option.ne_none_iff_exists'.1 (hq z f hf hm)
  · intro z g hg hm hz
    have huz := hused z
    have hle := k.used_le z
    rw [hfiles] at hg
    obtain ⟨f, hf, hdrop⟩ := Option.bind_eq_some_iff.1 hg
    obtain rfl := File.drop_some hdrop
    obtain ⟨hb, hcount⟩ := h.exact z f hf hm (by omega)
    exact ⟨hb, by rw [File.refCount_bump, counted_down (by omega) (by omega)]; omega⟩

theorem Refs.exit_frees (h : Refs own bump k) (objects : ℤ)
    (hq : ∀ x f, k.files x = some f → ¬ own f.msgQueue → f.drop (held (k.table p) x) ≠ none) :
    Frees own k ((k.lost (held (k.table p)) objects).vacated p) := by
  have hused := used_vacated k p (held (k.table p)) objects
  have hfiles : ∀ z, ((k.lost (held (k.table p)) objects).vacated p).files z =
      (k.files z).bind (File.drop (held (k.table p) z)) := fun z => rfl
  refine (h.exit objects hq).frees ?_ ?_
  · intro z f hf hm hz hz'
    have huz := hused z
    have hle := k.used_le z
    obtain ⟨-, hcount⟩ := h.exact z f hf hm hz
    have hheld : held (k.table p) z = f.refCount := by omega
    rw [hfiles, hf, hheld]
    exact drop_last (by omega) (by omega)
  · intro z f hf hz
    have hheld : held (k.table p) z = 0 := by have := held_le_used k p z; omega
    rw [hfiles, hf, hheld]
    exact Option.some_ne_none f

end Kernel

end CS330.Os
