/-
What the breakpoint list is for: a table of breakpoints over code bytes that show the trap instruction
exactly at the enabled ones, and everywhere else what they were without breakpoints.
-/
import CS330.Debug.Breakpoints

namespace CS330.Debug

open CS330.Lib

structure Entry where
  num : ℕ
  status : ℕ
  addr : Addr

/-- The byte that stands at a breakpoint of the given status. -/
inductive Patched : ℕ → UInt8 → Prop
  | enabled : Patched 1 int3Opcode
  | disabled : Patched 0 pushrbpOpcode

theorem patched_iff {status : ℕ} {opcode : UInt8} :
    Patched status opcode ↔ status = 1 ∧ opcode = int3Opcode ∨ status = 0 ∧ opcode = pushrbpOpcode := by
  constructor
  · intro h
    cases h with
    | enabled => exact .inl ⟨rfl, rfl⟩
    | disabled => exact .inr ⟨rfl, rfl⟩
  · rintro (⟨rfl, rfl⟩ | ⟨rfl, rfl⟩)
    · exact .enabled
    · exact .disabled

/-- The code shows these breakpoints; `orig` is the code without them. -/
structure Shows (orig code : Addr → UInt8) (es : List Entry) : Prop where
  addrs : (es.map Entry.addr).Nodup
  patched : ∀ e ∈ es, Patched e.status (code e.addr)
  placed : ∀ e ∈ es, orig e.addr = pushrbpOpcode
  rest : ∀ a, (∀ e ∈ es, e.addr ≠ a) → code a = orig a

theorem shows_nil (orig : Addr → UInt8) : Shows orig orig [] where
  addrs := List.nodup_nil
  patched := by simp
  placed := by simp
  rest := fun _ _ => rfl

theorem mem_middle {pre post : List Entry} {e x : Entry} : x ∈ pre ++ e :: post ↔ x = e ∨ x ∈ pre ++ post := by
  simp only [List.mem_append, List.mem_cons]
  tauto

section Steps

variable {orig code : Addr → UInt8} {pre post es : List Entry} {e : Entry}

/-- A breakpoint gets another status, and the byte at its address follows. -/
theorem Shows.switch (h : Shows orig code (pre ++ e :: post)) {status : ℕ} {opcode : UInt8}
    (hp : Patched status opcode) :
    Shows orig (Function.update code e.addr opcode) (pre ++ { e with status := status } :: post) := by
  -- no other entry has the address that is written
  have hne := (nodup_map_middle.1 h.addrs).1
  have hold : ∀ {x : Entry}, x ∈ pre ++ post → x ∈ pre ++ e :: post := fun hx => mem_middle.2 (.inr hx)
  have he : e ∈ pre ++ e :: post := mem_middle.2 (.inl rfl)
  constructor
  · simpa using h.addrs
  · intro x hx
    rcases mem_middle.1 hx with rfl | hx
    · simpa using hp
    · rw [Function.update_of_ne (hne x hx)]
      exact h.patched x (hold hx)
  · intro x hx
    rcases mem_middle.1 hx with rfl | hx
    · exact h.placed e he
    · exact h.placed x (hold hx)
  · intro a ha
    have hea : e.addr ≠ a := ha { e with status := status } (mem_middle.2 (.inl rfl))
    rw [Function.update_of_ne hea.symm]
    refine h.rest a fun x hx => ?_
    rcases mem_middle.1 hx with rfl | hx
    · exact hea
    · exact ha x (mem_middle.2 (.inr hx))

theorem Shows.create (h : Shows orig code es) {num : ℕ} {addr : Addr} (hne : ∀ e ∈ es, e.addr ≠ addr)
    (horig : orig addr = pushrbpOpcode) :
    Shows orig (Function.update code addr int3Opcode) (⟨num, 1, addr⟩ :: es) := by
  constructor
  · refine List.nodup_cons.2 ⟨?_, h.addrs⟩
    intro hm
    obtain ⟨x, hx, he⟩ := List.mem_map.1 hm
    exact hne x hx he
  · intro x hx
    rcases List.mem_cons.1 hx with rfl | hx
    · simpa using Patched.enabled
    · rw [Function.update_of_ne (hne x hx)]
      exact h.patched x hx
  · intro x hx
    rcases List.mem_cons.1 hx with rfl | hx
    · exact horig
    · exact h.placed x hx
  · intro a ha
    have haa : addr ≠ a := ha _ (List.mem_cons_self ..)
    rw [Function.update_of_ne haa.symm]
    exact h.rest a fun x hx => ha x (List.mem_cons_of_mem _ hx)

theorem Shows.remove (h : Shows orig code (pre ++ e :: post)) :
    Shows orig (Function.update code e.addr pushrbpOpcode) (pre ++ post) := by
  have hne := (nodup_map_middle.1 h.addrs).1
  have hold : ∀ {x : Entry}, x ∈ pre ++ post → x ∈ pre ++ e :: post := fun hx => mem_middle.2 (.inr hx)
  have hsub : (pre ++ post).Sublist (pre ++ e :: post) :=
    List.Sublist.append_left (List.sublist_cons_self ..) _
  constructor
  · exact h.addrs.sublist (hsub.map _)
  · intro x hx
    rw [Function.update_of_ne (hne x hx)]
    exact h.patched x (hold hx)
  · intro x hx
    exact h.placed x (hold hx)
  · intro a ha
    by_cases hea : a = e.addr
    · -- the byte the removal restores is the original one
      subst hea
      rw [Function.update_self]
      exact (h.placed e (mem_middle.2 (.inl rfl))).symm
    · rw [Function.update_of_ne hea]
      refine h.rest a fun x hx => ?_
      rcases mem_middle.1 hx with rfl | hx
      · exact Ne.symm hea
      · exact ha x hx

/-- Original and patched code may change together, off the breakpoints. -/
theorem Shows.moves (h : Shows orig code es) {orig' code' : Addr → UInt8}
    (hat : ∀ e ∈ es, code' e.addr = code e.addr ∧ orig' e.addr = orig e.addr)
    (hrest : ∀ a, (∀ e ∈ es, e.addr ≠ a) → code' a = orig' a) : Shows orig' code' es where
  addrs := h.addrs
  patched := fun e he => by
    rw [(hat e he).1]
    exact h.patched e he
  placed := fun e he => (hat e he).2.trans (h.placed e he)
  rest := hrest

/-- The byte at an address is the trap instruction where a breakpoint is enabled, and else the original one. -/
theorem Shows.code_eq (h : Shows orig code es) (a : Addr) :
    code a = if ∃ e ∈ es, e.addr = a ∧ e.status = 1 then int3Opcode else orig a := by
  split
  · rename_i henabled
    obtain ⟨e, he, rfl, hs⟩ := henabled
    rcases patched_iff.1 (h.patched e he) with ⟨-, hcode⟩ | ⟨h0, -⟩
    · exact hcode
    · omega
  · rename_i hnone
    by_cases hlisted : ∃ e ∈ es, e.addr = a
    · -- a disabled breakpoint stands for the byte it replaced
      obtain ⟨e, he, rfl⟩ := hlisted
      rcases patched_iff.1 (h.patched e he) with ⟨h1, -⟩ | ⟨-, hcode⟩
      · exact absurd ⟨e, he, rfl, h1⟩ hnone
      · rw [hcode, h.placed e he]
    · exact h.rest a fun e he ha => hlisted ⟨e, he, ha⟩

end Steps

end CS330.Debug
