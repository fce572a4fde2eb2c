/-
Singly linked lists in a heap: `Chain` relates a head pointer to the nodes reached from it, in order,
down to NULL. Over any type of pointers and of nodes, with `nx` reading a node's link. A chain
determines its nodes and visits none twice, so a walk along it ends, and so does freeing it node by
node; pushing a node, changing one in place and unlinking one do to the chain what they do to the
list.
-/
import Mathlib.Tactic

namespace CS330.Lib

/-- Where no key repeats, a key in the middle of the list is not among the others. -/
theorem nodup_map_middle {α β : Type*} {f : α → β} {pre post : List α} {x : α} :
    ((pre ++ x :: post).map f).Nodup ↔ (∀ y ∈ pre ++ post, f y ≠ f x) ∧ ((pre ++ post).map f).Nodup := by
  rw [List.map_append, List.map_cons, List.nodup_middle, List.nodup_cons, ← List.map_append, List.mem_map]
  push Not
  rfl

variable {κ ν : Type*} {heap heap' : κ → Option ν} {nx : ν → Option κ}

/-- The nodes reached from a pointer, each with the pointer to it. -/
inductive Chain (heap : κ → Option ν) (nx : ν → Option κ) : Option κ → List (κ × ν) → Prop
  | nil : Chain heap nx none []
  | cons {k : κ} {v : ν} {l : List (κ × ν)} :
      heap k = some v → Chain heap nx (nx v) l → Chain heap nx (some k) ((k, v) :: l)

namespace Chain

/-- A chain survives any change of the heap outside its nodes. -/
theorem frame {h : Option κ} {l : List (κ × ν)} (hc : Chain heap nx h l)
    (hf : ∀ x ∈ l, heap' x.1 = heap x.1) : Chain heap' nx h l := by
  induction hc with
  | nil => exact .nil
  | @cons k v l hk _ ih =>
    refine .cons ((hf (k, v) (List.mem_cons_self ..)).trans hk) (ih ?_)
    intro x hx
    exact hf x (List.mem_cons_of_mem _ hx)

/-- The head pointer determines the chain. -/
theorem unique {h : Option κ} {l l' : List (κ × ν)} (hc : Chain heap nx h l) (hc' : Chain heap nx h l') :
    l = l' := by
  induction hc generalizing l' with
  | nil => cases hc'; rfl
  | cons hk _ ih =>
    cases hc' with
    | cons hk' hl' =>
      obtain rfl := Option.some.inj (hk.symm.trans hk')
      rw [ih hl']

/-- The chain from a node on. -/
theorem suffix {k : κ} {v : ν} {post : List (κ × ν)} : ∀ {pre : List (κ × ν)} {h : Option κ},
    Chain heap nx h (pre ++ (k, v) :: post) → Chain heap nx (some k) ((k, v) :: post)
  | [], _, .cons hk hl => .cons hk hl
  | _ :: _, _, .cons _ hl => hl.suffix

theorem mem {h : Option κ} {l : List (κ × ν)} (hc : Chain heap nx h l) {k : κ} {v : ν} (hm : (k, v) ∈ l) :
    heap k = some v := by
  obtain ⟨pre, post, rfl⟩ := List.append_of_mem hm
  cases hc.suffix with
  | cons hk _ => exact hk

/-- A chain visits no node twice: from a repeated node on it would be its own proper suffix. -/
theorem nodup {h : Option κ} {l : List (κ × ν)} (hc : Chain heap nx h l) : (l.map Prod.fst).Nodup := by
  induction hc with
  | nil => exact List.nodup_nil
  | @cons k v l hk hl ih =>
    refine List.nodup_cons.2 ⟨?_, ih⟩
    intro hm
    obtain ⟨⟨k', v'⟩, hx, rfl⟩ := List.mem_map.1 hm
    obtain ⟨pre, post, rfl⟩ := List.append_of_mem hx
    have hlen := congrArg List.length ((Chain.cons hk hl).unique hl.suffix)
    simp only [List.length_cons, List.length_append] at hlen
    omega

/-- The first node unlinked. -/
theorem unlink_head {k : κ} {v : ν} {post : List (κ × ν)} {h : Option κ}
    (hc : Chain heap nx h ((k, v) :: post)) : Chain heap nx (nx v) post := by
  cases hc with
  | cons _ hl => exact hl

section Update

variable [DecidableEq κ]

/-- A fresh node pushed in front of a chain. -/
theorem push {h : Option κ} {l : List (κ × ν)} (hc : Chain heap nx h l) {k : κ} (hk : heap k = none) {v : ν}
    (hv : nx v = h) : Chain (Function.update heap k (some v)) nx (some k) ((k, v) :: l) := by
  refine .cons (Function.update_self ..) ?_
  rw [hv]
  refine hc.frame fun x hx => Function.update_of_ne ?_ _ _
  rintro rfl
  rw [hc.mem hx] at hk
  cases hk

/-- A node rewritten, its link included: the chain goes on from the new link. -/
theorem replace {p : κ} {w w' : ν} {rest rest' : List (κ × ν)} (hsub : rest'.Sublist rest)
    (hr : Chain heap nx (nx w') rest') : ∀ {pre : List (κ × ν)} {h : Option κ},
    Chain heap nx h (pre ++ (p, w) :: rest) →
      Chain (Function.update heap p (some w')) nx h (pre ++ (p, w') :: rest')
  | [], _, hc => by
    have hn := hc.nodup
    cases hc with
    | cons hk hl =>
      refine .cons (Function.update_self ..) (hr.frame fun x hx => Function.update_of_ne ?_ _ _)
      rintro rfl
      exact (List.nodup_cons.1 hn).1 (List.mem_map.2 ⟨x, hsub.subset hx, rfl⟩)
  | (k, v) :: pre, _, hc => by
    have hn := hc.nodup
    cases hc with
    | cons hk hl =>
      refine .cons ((Function.update_of_ne ?_ _ _).trans hk) (replace hsub hr hl)
      rintro rfl
      exact (List.nodup_cons.1 hn).1 (List.mem_map.2 ⟨(k, w), List.mem_append_right pre (List.mem_cons_self ..), rfl⟩)

/-- A node changed in place, its link kept. -/
theorem modify {p : κ} {w w' : ν} {pre post : List (κ × ν)} {h : Option κ}
    (hc : Chain heap nx h (pre ++ (p, w) :: post)) (hw : nx w' = nx w) :
    Chain (Function.update heap p (some w')) nx h (pre ++ (p, w') :: post) := by
  refine replace (List.Sublist.refl _) ?_ hc
  cases hc.suffix with
  | cons _ hl => rw [hw]; exact hl

/-- A node other than the first unlinked: its predecessor takes over its link. -/
theorem unlink {p k : κ} {w w' v : ν} {pre post : List (κ × ν)} {h : Option κ}
    (hc : Chain heap nx h (pre ++ (p, w) :: (k, v) :: post)) (hw : nx w' = nx v) :
    Chain (Function.update heap p (some w')) nx h (pre ++ (p, w') :: post) := by
  refine replace (List.sublist_cons_self ..) ?_ hc
  have hk : Chain heap nx (some k) ((k, v) :: post) :=
    (show Chain heap nx h ((pre ++ [(p, w)]) ++ (k, v) :: post) by simpa using hc).suffix
  cases hk with
  | cons _ hl => rw [hw]; exact hl

/-- A node that is not on the chain freed. -/
theorem free {h : Option κ} {l : List (κ × ν)} (hc : Chain heap nx h l) {k : κ} (hk : k ∉ l.map Prod.fst) :
    Chain (Function.update heap k none) nx h l :=
  hc.frame fun x hx => Function.update_of_ne (fun he => hk (List.mem_map.2 ⟨x, hx, he⟩)) _ _

end Update

end Chain

/-! ## Walking a chain -/

/-- Walk from `cur` to the first node that passes the test, remembering the node before: `some none`
when the walk ended at NULL, `none` when it met a pointer to no node or did not end in time. -/
def walk (heap : κ → Option ν) (nx : ν → Option κ) (test : ν → Bool) :
    ℕ → Option κ → Option κ → Option (Option (Option κ × κ × ν))
  | _, _, none => some none
  | 0, _, some _ => none
  | n + 1, parent, some k =>
    (heap k).bind fun v => if test v then some (some (parent, k, v)) else walk heap nx test n (some k) (nx v)

/-- The pointer to the last node of a prefix, or `q` for the empty one. -/
def lastKey (q : Option κ) : List (κ × ν) → Option κ
  | [] => q
  | (k, _) :: l => lastKey (some k) l

@[simp] theorem lastKey_concat (q : Option κ) (l : List (κ × ν)) (x : κ × ν) :
    lastKey q (l ++ [x]) = some x.1 := by
  induction l generalizing q with
  | nil => rfl
  | cons y l ih => exact ih _

/-- A walk with fuel for the whole chain ends: at NULL if no node passes the test, else at the first
one that does. -/
theorem walk_chain {test : ν → Bool} {h : Option κ} {l : List (κ × ν)} (hc : Chain heap nx h l) {n : ℕ}
    (hn : l.length ≤ n) (parent : Option κ) :
    (walk heap nx test n parent h = some none ∧ ∀ x ∈ l, test x.2 = false) ∨
    ∃ pre k v post, l = pre ++ (k, v) :: post ∧ test v = true ∧ (∀ x ∈ pre, test x.2 = false) ∧
      walk heap nx test n parent h = some (some (lastKey parent pre, k, v)) := by
  induction hc generalizing n parent with
  | nil =>
    left
    refine ⟨by cases n <;> rfl, ?_⟩
    intro x hx
    cases hx
  | @cons k v l hk hl ih =>
    obtain ⟨n, rfl⟩ : ∃ m, n = m + 1 := ⟨n - 1, by simp only [List.length_cons] at hn; omega⟩
    have hstep : walk heap nx test (n + 1) parent (some k) =
        if test v then some (some (parent, k, v)) else walk heap nx test n (some k) (nx v) := by
      simp only [walk, hk, Option.bind_some]
    -- the walk stops at the node, or goes on behind it
    by_cases hv : test v = true
    · right
      refine ⟨[], k, v, l, rfl, hv, ?_, by rw [hstep, if_pos hv]; rfl⟩
      intro x hx
      cases hx
    · rw [hstep, if_neg hv]
      have hlen : l.length ≤ n := by simp only [List.length_cons] at hn; omega
      rcases ih hlen (some k) with ⟨hw, hall⟩ | ⟨pre, k', v', post, rfl, hv', hpre, hw⟩
      · left
        refine ⟨hw, ?_⟩
        intro x hx
        rcases List.mem_cons.1 hx with rfl | hx
        · simpa using hv
        · exact hall x hx
      · right
        refine ⟨(k, v) :: pre, k', v', post, rfl, hv', ?_, hw⟩
        intro x hx
        rcases List.mem_cons.1 hx with rfl | hx
        · simpa using hv
        · exact hpre x hx

/-! ## Freeing a chain -/

/-- Free node after node from a pointer on, reading each link before its node goes: the pointers freed
and the heap left, or `none` when it met a pointer to no node or did not end in time. -/
def dispose [DecidableEq κ] (nx : ν → Option κ) :
    ℕ → (κ → Option ν) → Option κ → Option (List κ × (κ → Option ν))
  | _, heap, none => some ([], heap)
  | 0, _, some _ => none
  | n + 1, heap, some k =>
    (heap k).bind fun v =>
      (dispose nx n (Function.update heap k none) (nx v)).map fun r => (k :: r.1, r.2)

/-- Freeing a chain frees each of its nodes once and nothing else. -/
theorem dispose_chain [DecidableEq κ] {h : Option κ} {l : List (κ × ν)} (hc : Chain heap nx h l) {n : ℕ}
    (hn : l.length ≤ n) :
    dispose nx n heap h = some (l.map Prod.fst, fun k => if k ∈ l.map Prod.fst then none else heap k) := by
  induction l generalizing heap h n with
  | nil =>
    cases hc
    cases n <;> simp [dispose]
  | cons x l ih =>
    have hnodup := hc.nodup
    cases hc with
    | @cons k v _ hk hl =>
      obtain ⟨n, rfl⟩ : ∃ m, n = m + 1 := ⟨n - 1, by simp only [List.length_cons] at hn; omega⟩
      have hlen : l.length ≤ n := by simp only [List.length_cons] at hn; omega
      have hrest := ih (hl.free (List.nodup_cons.1 hnodup).1) hlen
      simp only [dispose, hk, Option.bind_some, hrest, Option.map_some, List.map_cons, Option.some.injEq,
        Prod.mk.injEq, true_and]
      funext j
      by_cases hj : j = k
      · subst hj; simp
      · simp only [List.mem_cons, hj, false_or, Function.update_of_ne hj]

end CS330.Lib
