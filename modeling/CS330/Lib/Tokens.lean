/-
`strtok` on a buffer of bytes: a call puts a zero behind the token and answers where the token is. On a buffer with a
string in it the calls give the fields of the string, each of them a string of its own from then on, and they leave
what is before the position they go on from.
-/
import CS330.Lib.Bytes
import CS330.Lib.Strtok

namespace CS330.Lib

variable {m m' : ℕ → UInt8} {size a b : ℕ} {delim : UInt8} {s t u v : List UInt8}

/-! ## Strings in a buffer -/

/-- The first position from `a` on where the loop stops; there is none if it goes on to the end of the buffer. -/
def scan (m : ℕ → UInt8) (size a : ℕ) (stop : UInt8 → Bool) : Option ℕ :=
  (firstIdx (size - a) fun j => stop (m (a + j))).map (a + ·)

/-- What `strcpy` copies from a position. -/
def textAt (m : ℕ → UInt8) (size a : ℕ) : Option (List UInt8) :=
  (scan m size a (· == 0)).map fun e => region m a (e - a)

/-- A string in a buffer, with its end. -/
structure Text (m : ℕ → UInt8) (size a : ℕ) (s : List UInt8) : Prop where
  cstr : CStr m a s
  zero : (0 : UInt8) ∉ s
  fits : a + s.length < size

theorem CStr.append (h : CStr m a (u ++ v)) : CStr m (a + u.length) v := by
  refine ⟨fun j hj => ?_, ?_⟩
  · have hb := h.bytes (u.length + j) (by rw [List.length_append]; omega)
    rw [Nat.add_assoc, hb, List.getD_append_right _ _ _ _ (by omega), Nat.add_sub_cancel_left]
  · have he := h.ended
    rwa [List.length_append, ← Nat.add_assoc] at he

theorem CStr.head (h : CStr m a s) : m a = s.headD 0 := by
  cases s with
  | nil => exact h.ended
  | cons c s => exact h.bytes 0 (Nat.succ_pos _)

/-- Where the first byte behind a prefix stops a loop that the prefix does not, it stops there. -/
theorem scan_append {stop : UInt8 → Bool} (h : CStr m a (u ++ v)) (hfits : a + u.length < size)
    (hu : ∀ c ∈ u, stop c = false) (hv : stop (v.headD 0) = true) : scan m size a stop = some (a + u.length) := by
  have hstop : stop (m (a + u.length)) = true := by rw [h.append.head]; exact hv
  have hgo : ∀ j < u.length, stop (m (a + j)) = false := by
    intro j hj
    rw [h.bytes j (by rw [List.length_append]; omega), List.getD_append _ _ _ _ hj, List.getD_eq_getElem _ _ hj]
    exact hu _ (List.getElem_mem hj)
  have hfirst : firstIdx (size - a) (fun j => stop (m (a + j))) = some u.length := by
    cases hf : firstIdx (size - a) fun j => stop (m (a + j)) with
    | none =>
      have := firstIdx_none.1 hf u.length (by omega)
      rw [hstop] at this
      cases this
    | some i =>
      obtain ⟨-, hi, hlt⟩ := firstIdx_some hf
      rcases lt_trichotomy i u.length with h | rfl | h
      · rw [hgo i h] at hi
        cases hi
      · rfl
      · rw [hlt _ h] at hstop
        cases hstop
  rw [scan, hfirst, Option.map_some]

theorem scan_some {stop : UInt8 → Bool} {e : ℕ} (h : scan m size a stop = some e) :
    a ≤ e ∧ e < size ∧ stop (m e) = true := by
  obtain ⟨i, hi, rfl⟩ := Option.map_eq_some_iff.1 h
  obtain ⟨hlt, hstop, -⟩ := firstIdx_some hi
  exact ⟨by omega, by omega, hstop⟩

theorem region_of_cstr (h : CStr m a (u ++ v)) : region m a u.length = u := by
  apply List.ext_getElem
  · simp
  · intro j h1 h2
    simp only [region, getElem_slice]
    rw [h.bytes j (by rw [List.length_append]; omega), List.getD_append _ _ _ _ h2,
      List.getD_eq_getElem _ _ h2]

/-- Where bytes with a zero behind them are in a buffer, the string goes up to the first zero. -/
theorem CStr.text (h : CStr m a s) (hfits : a + s.length < size) : Text m size a (s.takeWhile (· != 0)) := by
  have hsplit := h
  rw [← s.takeWhile_append_dropWhile (p := (· != 0))] at hsplit
  have hle : (s.takeWhile (· != 0)).length ≤ s.length := (List.takeWhile_sublist _).length_le
  refine ⟨⟨fun j hj => ?_, ?_⟩, fun hz => ?_, by omega⟩
  · rw [hsplit.bytes j (by rw [List.length_append]; omega), List.getD_append _ _ _ _ hj]
  · have hnext := hsplit.append.head
    rw [hnext]
    cases hrest : s.dropWhile (· != 0) with
    | nil => rfl
    | cons c rest =>
      have hc := List.head_dropWhile_not (· != 0) (l := s) (by rw [hrest]; exact List.cons_ne_nil _ _)
      simpa [hrest] using hc
  · have hne := List.all_eq_true.1 List.all_takeWhile 0 hz
    cases hne

theorem Text.textAt (h : Text m size a s) : textAt m size a = some s := by
  have hs : CStr m a (s ++ []) := by
    rw [List.append_nil]
    exact h.cstr
  have hstop : scan m size a (· == 0) = some (a + s.length) :=
    scan_append hs h.fits (fun c hc => beq_false_of_ne fun hz => h.zero (hz ▸ hc)) rfl
  rw [Lib.textAt, hstop, Option.map_some, Nat.add_sub_cancel_left, region_of_cstr hs]

/-! ## One call -/

/-- `strtok` from a position: the token if there is one, the position it goes on from, and the buffer afterwards. -/
def strtokAt (delim : UInt8) (size : ℕ) (m : ℕ → UInt8) (a : ℕ) : Option (Option ℕ × ℕ × (ℕ → UInt8)) := do
  let s ← scan m size a (· != delim)
  if m s = 0 then some (none, s, m)
  else
    let e ← scan m size s fun c => c == delim || c == 0
    if m e = 0 then some (some s, e, m)
    else some (some s, e + 1, Function.update m e 0)

/-- Without a field left there is no token. -/
theorem strtokAt_none (hd : delim ≠ 0) (h : Text m size a s) (hs : fields delim s = []) :
    strtokAt delim size m a = some (none, a + s.length, m) := by
  have hcstr : CStr m a (s ++ []) := by
    rw [List.append_nil]
    exact h.cstr
  have hskip : scan m size a (· != delim) = some (a + s.length) :=
    scan_append hcstr h.fits (fun c hc => bne_eq_false_iff_eq.2 (eq_delim_of_fields_nil hs c hc))
      (bne_iff_ne.2 hd.symm)
  simp only [strtokAt, hskip, Option.bind_eq_bind, Option.bind_some, if_pos h.cstr.ended]

/-- Where no zero is left in the buffer a call does not say that there is no token. -/
theorem strtokAt_endless {r : Option ℕ × ℕ × (ℕ → UInt8)} (h : ∀ x, a ≤ x → x < size → m x ≠ 0)
    (hr : strtokAt delim size m a = some r) : r.1.isSome = true ∧ ∀ x, r.2.1 ≤ x → x < size → r.2.2 x ≠ 0 := by
  obtain ⟨s, hs, hr⟩ := Option.bind_eq_some_iff.1 hr
  obtain ⟨has, hsize, -⟩ := scan_some hs
  rw [if_neg (h s has hsize)] at hr
  obtain ⟨e, he, hr⟩ := Option.bind_eq_some_iff.1 hr
  obtain ⟨hse, hsize', -⟩ := scan_some he
  rw [if_neg (h e (has.trans hse) hsize')] at hr
  obtain rfl := Option.some.inj hr
  refine ⟨rfl, fun x hx hlt => ?_⟩
  have hex : e < x := hx
  show Function.update m e 0 x ≠ 0
  rw [Function.update_of_ne hex.ne']
  exact h x (by omega) hlt

/-- Otherwise the token is the first field, and a string of its own; the rest of the fields are in the string at the
position where the next call goes on, and nothing before the call's own position or behind it has become another
string. -/
theorem strtokAt_some {ts : List (List UInt8)} (hd : delim ≠ 0) (h : Text m size a s) (hs : fields delim s = t :: ts) :
    ∃ p b m' r, strtokAt delim size m a = some (some p, b, m') ∧ a ≤ p ∧ p + t.length ≤ b ∧ Text m' size p t ∧
      Text m' size b r ∧ fields delim r = ts ∧ ∀ x, x < a ∨ m x = 0 → m' x = m x := by
  obtain ⟨pre, tail, rfl, hpre, hne, hfree, htail⟩ := fields_split hs
  obtain ⟨c, t, rfl⟩ := List.exists_cons_of_ne_nil hne
  have hzero := h.zero
  have hfits := h.fits
  simp only [List.mem_append, not_or] at hzero
  simp only [List.length_append] at hfits
  have hc0 : c ≠ 0 := fun he => hzero.2.1 (he ▸ List.mem_cons_self)
  have hskip : scan m size a (· != delim) = some (a + pre.length) :=
    scan_append h.cstr (by omega) (fun x hx => bne_eq_false_iff_eq.2 (hpre x hx))
      (bne_iff_ne.2 fun he => hfree (by rw [← he]; exact List.mem_cons_self))
  have hat := h.cstr.append
  have hgo : ∀ x ∈ c :: t, (x == delim || x == 0) = false := by
    intro x hx
    have hxd : x ≠ delim := fun he => hfree (he ▸ hx)
    have hx0 : x ≠ 0 := fun he => hzero.2.1 (he ▸ hx)
    simp [hxd, hx0]
  have hend : (tail.headD 0 == delim || tail.headD 0 == 0) = true := by
    rcases htail with ⟨rfl, -⟩ | ⟨r, rfl, -⟩ <;> simp
  have hstop : scan m size (a + pre.length) (fun x => x == delim || x == 0) =
      some (a + pre.length + (c :: t).length) := scan_append hat (by omega) hgo hend
  have hm : ¬ m (a + pre.length) = 0 := by
    rw [hat.head]
    exact hc0
  have hlast := hat.append.head
  have htext : ∀ m' : ℕ → UInt8, (∀ j < (c :: t).length, m' (a + pre.length + j) = m (a + pre.length + j)) →
      m' (a + pre.length + (c :: t).length) = 0 → Text m' size (a + pre.length) (c :: t) := by
    refine fun m' hsame hz => ⟨⟨fun j hj => ?_, hz⟩, hzero.2.1, by omega⟩
    rw [hsame j hj, hat.bytes j (by rw [List.length_append]; omega), List.getD_append _ _ _ _ hj]
  rcases htail with ⟨rfl, rfl⟩ | ⟨r, rfl, hr⟩
  · -- the token is the last thing in the string
    refine ⟨a + pre.length, a + pre.length + (c :: t).length, m, [], ?_, by omega, le_rfl,
      htext m (fun _ _ => rfl) hlast,
      ⟨hat.append, by simp, by rw [List.length_nil]; omega⟩, rfl, fun _ _ => rfl⟩
    simp only [strtokAt, hskip, hstop, Option.bind_eq_bind, Option.bind_some, if_neg hm]
    exact if_pos hlast
  · -- a zero comes where the delimiter was
    have hdelim : m (a + pre.length + (c :: t).length) = delim := hlast
    have hmore : CStr m (a + pre.length + (c :: t).length + 1) r := by
      have := hat.append
      rw [show delim :: r = [delim] ++ r from rfl] at this
      exact this.append
    have hrzero : (0 : UInt8) ∉ r := fun hmem => hzero.2.2 (List.mem_cons_of_mem _ hmem)
    rw [List.length_cons (a := delim)] at hfits
    refine ⟨a + pre.length, a + pre.length + (c :: t).length + 1,
      Function.update m (a + pre.length + (c :: t).length) 0, r,
      ?_, by omega, by omega, htext _ (fun j hj => Function.update_of_ne (by omega) ..) (Function.update_self ..),
      ⟨hmore.congr fun x hx _ => Function.update_of_ne (by omega) .., hrzero, by omega⟩, hr, fun x hx => ?_⟩
    · simp only [strtokAt, hskip, hstop, Option.bind_eq_bind, Option.bind_some, if_neg hm]
      exact if_neg (by rw [hdelim]; exact hd)
    · refine Function.update_of_ne ?_ ..
      rintro rfl
      rcases hx with hx | hx
      · omega
      · exact hd (hdelim.symm.trans hx)

end CS330.Lib
