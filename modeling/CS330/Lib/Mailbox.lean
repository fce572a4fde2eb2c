/-
The shared mailbox: members come and go, messages for all of them wait in one list, and each
member takes its own messages out of it. Over any type of addresses and of messages.

An event log is read back per member: whether it is one, what was accepted for it and what it took
since it last joined, and whom it has blocked. A take is logged under the one that takes, so the log
alone does not say that it took its own. The law of the mailbox is first-in first-out delivery for
every member, whatever the other members do: what a member took, followed by what still waits for
it, is what was accepted for it.
-/
import CS330.Lib.Run

namespace CS330.Lib

/-- What happens to a mailbox: a member joins or leaves, a message is accepted for its addressee,
a message is taken by somebody, a member blocks another. -/
inductive Ev (ι μ : Type*) where
  | join (r : ι)
  | leave (r : ι)
  | accept (m : μ)
  | take (r : ι) (m : μ)
  | block (r s : ι)
deriving DecidableEq

/-- Events that only move messages. -/
def Ev.Moves {ι μ : Type*} : Ev ι μ → Prop
  | .accept _ | .take .. => True
  | _ => False

/-- The members and the messages waiting for them, oldest first. -/
structure Mailbox (ι μ : Type*) where
  members : List ι
  waiting : List μ

namespace Mailbox

variable {ι μ : Type*} [DecidableEq ι] (dst : μ → ι)

/-- The messages waiting for `r`. -/
def inbox (b : Mailbox ι μ) (r : ι) : List μ := b.waiting.filter fun m => dst m = r

/-- One event. A join is by a non-member, a message is only accepted for a member, what is taken
is the oldest message waiting for the one that takes it, and leaving discards what waits for the leaver. -/
inductive Step : Mailbox ι μ → Ev ι μ → Mailbox ι μ → Prop
  | join {b r} : r ∉ b.members → Step b (.join r) ⟨b.members ++ [r], b.waiting⟩
  | leave {b r} : r ∈ b.members →
      Step b (.leave r) ⟨b.members.erase r, b.waiting.filter fun m => dst m ≠ r⟩
  | accept {b m} : dst m ∈ b.members → Step b (.accept m) ⟨b.members, b.waiting ++ [m]⟩
  | take {ms r pre m post} : dst m = r → (∀ x ∈ pre, dst x ≠ r) →
      Step ⟨ms, pre ++ m :: post⟩ (.take r m) ⟨ms, pre ++ post⟩
  | block {b r s} : Step b (.block r s) b

/-! ## Reading a log -/

/-- `r` has joined, and has not left since. -/
def joined (r : ι) (es : List (Ev ι μ)) : Bool :=
  es.foldl (fun b e => match e with
    | .join x => b || x = r
    | .leave x => b && x ≠ r
    | _ => b) false

/-- The messages accepted for `r` since it joined. -/
def accepted (r : ι) (es : List (Ev ι μ)) : List μ :=
  es.foldl (fun acc e => match e with
    | .join x => if x = r then [] else acc
    | .leave x => if x = r then [] else acc
    | .accept m => if dst m = r then acc ++ [m] else acc
    | _ => acc) []

/-- The messages `r` took since it joined. -/
def taken (r : ι) (es : List (Ev ι μ)) : List μ :=
  es.foldl (fun acc e => match e with
    | .join x => if x = r then [] else acc
    | .leave x => if x = r then [] else acc
    | .take x m => if x = r then acc ++ [m] else acc
    | _ => acc) []

/-- `r` has blocked `s`, and neither has left since. -/
def blocked (r s : ι) (es : List (Ev ι μ)) : Bool :=
  es.foldl (fun b e => match e with
    | .block r' s' => b || (r' = r && s' = s)
    | .leave x => b && x ≠ r && x ≠ s
    | _ => b) false

theorem joined_snoc (r : ι) (es : List (Ev ι μ)) (e : Ev ι μ) :
    joined r (es ++ [e]) = match e with
      | .join x => joined r es || x = r
      | .leave x => joined r es && x ≠ r
      | _ => joined r es := by
  cases e <;> simp [joined, List.foldl_append]

theorem accepted_snoc (r : ι) (es : List (Ev ι μ)) (e : Ev ι μ) :
    accepted dst r (es ++ [e]) = match e with
      | .join x => if x = r then [] else accepted dst r es
      | .leave x => if x = r then [] else accepted dst r es
      | .accept m => if dst m = r then accepted dst r es ++ [m] else accepted dst r es
      | _ => accepted dst r es := by
  cases e <;> simp [accepted, List.foldl_append]

theorem taken_snoc (r : ι) (es : List (Ev ι μ)) (e : Ev ι μ) :
    taken r (es ++ [e]) = match e with
      | .join x => if x = r then [] else taken r es
      | .leave x => if x = r then [] else taken r es
      | .take x m => if x = r then taken r es ++ [m] else taken r es
      | _ => taken r es := by
  cases e <;> simp [taken, List.foldl_append]

theorem blocked_snoc (r s : ι) (es : List (Ev ι μ)) (e : Ev ι μ) :
    blocked r s (es ++ [e]) = match e with
      | .block r' s' => blocked r s es || (r' = r && s' = s)
      | .leave x => blocked r s es && x ≠ r && x ≠ s
      | _ => blocked r s es := by
  cases e <;> simp [blocked, List.foldl_append]

/-- Moving messages blocks and unblocks nobody. -/
theorem blocked_append_moves (r s : ι) (es : List (Ev ι μ)) :
    ∀ fs : List (Ev ι μ), (∀ e ∈ fs, e.Moves) → blocked r s (es ++ fs) = blocked r s es
  | [], _ => by rw [List.append_nil]
  | f :: fs, h => by
    rw [List.append_cons, blocked_append_moves r s (es ++ [f]) fs fun e he => h e (List.mem_cons_of_mem _ he),
      blocked_snoc]
    have := h f (List.mem_cons_self ..)
    cases f <;> simp_all [Ev.Moves]

/-! ## First in, first out -/

/-- The mailbox law: the members are those that have joined and not left, and do not repeat;
messages wait only for members; and for every member what it took followed by what waits for it is
what was accepted for it. -/
structure Fifo (es : List (Ev ι μ)) (b : Mailbox ι μ) : Prop where
  nodup : b.members.Nodup
  present : ∀ r, joined r es = true ↔ r ∈ b.members
  addressed : ∀ m ∈ b.waiting, dst m ∈ b.members
  fifo : ∀ r ∈ b.members, taken r es ++ b.inbox dst r = accepted dst r es

variable {dst}

theorem inbox_eq_nil {b : Mailbox ι μ} (h : ∀ m ∈ b.waiting, dst m ∈ b.members) {r : ι}
    (hr : r ∉ b.members) : b.inbox dst r = [] := by
  unfold inbox
  rw [List.filter_eq_nil_iff]
  intro m hm he
  exact hr (by simpa using of_decide_eq_true he ▸ h m hm)

/-- Every event keeps the law. -/
theorem Fifo.step {es : List (Ev ι μ)} {b b' : Mailbox ι μ} {e : Ev ι μ} (h : Fifo dst es b)
    (hs : Step dst b e b') : Fifo dst (es ++ [e]) b' := by
  obtain ⟨hn, hp, ha, hf⟩ := h
  cases hs with
  | @join b x hx =>
    refine ⟨?_, fun r => ?_, fun m hm => List.mem_append_left _ (ha m hm), fun r hr => ?_⟩
    · exact List.nodup_append.2 ⟨hn, List.nodup_singleton _, fun a haa c hc => by
        rw [List.mem_singleton] at hc; subst hc; rintro rfl; exact hx haa⟩
    · simp only [joined_snoc, Bool.or_eq_true, decide_eq_true_eq, List.mem_append, List.mem_singleton, hp r]
      exact or_congr_right eq_comm
    · simp only [taken_snoc, accepted_snoc]
      -- nothing is addressed to the newcomer yet
      by_cases hxr : x = r
      · subst hxr
        simpa [inbox] using inbox_eq_nil ha hx
      · simp only [hxr, if_false]
        exact hf r (by simpa [Ne.symm hxr] using hr)
  | @leave b x hx =>
    refine ⟨hn.erase x, fun r => ?_, fun m hm => ?_, fun r hr => ?_⟩
    · simp only [joined_snoc, Bool.and_eq_true, decide_eq_true_eq, hn.mem_erase_iff, hp r]
      rw [and_comm, ne_comm]
    · obtain ⟨hm, hne⟩ := List.mem_filter.1 hm
      exact (List.mem_erase_of_ne (by simpa using hne)).2 (ha m hm)
    · obtain ⟨hrx, hr⟩ := hn.mem_erase_iff.1 hr
      simp only [taken_snoc, accepted_snoc, if_neg (Ne.symm hrx)]
      rw [← hf r hr]
      congr 1
      -- what is dropped was addressed to the one that leaves
      simp only [inbox, List.filter_filter]
      refine List.filter_congr fun m _ => ?_
      by_cases hm : dst m = r <;> simp [hm, hrx]
  | @accept b m hm =>
    refine ⟨hn, fun r => by simpa only [joined_snoc] using hp r, fun y hy => ?_, fun r hr => ?_⟩
    · rcases List.mem_append.1 hy with hy | hy
      · exact ha y hy
      · rw [List.mem_singleton.1 hy]; exact hm
    · simp only [taken_snoc, accepted_snoc]
      by_cases hmr : dst m = r
      · rw [if_pos hmr, ← hf r hr, List.append_assoc]
        simp [inbox, hmr]
      · rw [if_neg hmr, ← hf r hr]
        simp [inbox, hmr]
  | @take ms x pre m post hto hpre =>
    refine ⟨hn, fun r => by simpa only [joined_snoc] using hp r, fun y hy => ha y ?_, fun r hr => ?_⟩
    · rcases List.mem_append.1 hy with hy | hy
      · exact List.mem_append_left _ hy
      · exact List.mem_append_right _ (List.mem_cons_of_mem _ hy)
    · have := hf r hr
      simp only [inbox, List.filter_append, List.filter_cons] at this
      simp only [taken_snoc, accepted_snoc, inbox, List.filter_append]
      by_cases hxr : x = r
      · -- nothing older than `m` waits for the one that takes it
        have hnil : pre.filter (fun y => dst y = r) = [] :=
          List.filter_eq_nil_iff.2 fun y hy => by simpa [hxr] using hpre y hy
        rw [if_pos hxr, ← this]
        simp [hnil, hto, hxr]
      · rw [if_neg hxr, ← this]
        simp [hto, hxr]
  | block =>
    exact ⟨hn, fun r => by simpa only [joined_snoc] using hp r, ha,
      fun r hr => by simpa only [taken_snoc, accepted_snoc] using hf r hr⟩

/-- A run of events keeps the law. -/
theorem Fifo.run {es ls : List (Ev ι μ)} {b b' : Mailbox ι μ} (h : Fifo dst es b)
    (hr : Run (Step dst) b ls b') : Fifo dst (es ++ ls) b' :=
  hr.inv (P := fun ls b => Fifo dst (es ++ ls) b) (by simpa using h) fun ls s l s' _ ih hs => by
    rw [← List.append_assoc]; exact ih.step hs

end Mailbox

end CS330.Lib
