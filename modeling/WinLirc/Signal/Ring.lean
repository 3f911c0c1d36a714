/-
  File:      WinLirc/Signal/Ring.lean
  Subject:   Rings with wrapping indices and no count of what they hold
             (general library).

  * `QueueOps`: a queue by its three operations; `step` is a call, with what
    was pushed and popped so far. A queue is `Lawful` in a state if what was
    popped is what was pushed, in order, and it does not seem empty while
    something is left.
  * `Ring`: an array of `2 ^ w` places with two indices of `w` bits; `Contains`
    says what is in it.
  * `RingView.lawful_iff`: a queue that is such a ring is lawful in all states
    of a run exactly if in none of them `2 ^ w` elements are left.
-/
import Mathlib.Data.BitVec
import Mathlib.Logic.Function.Basic
import WinLirc.Signal.Runs

namespace Signal

variable {σ α : Type*} {w : Nat}

/-! ## 1. Queues -/

structure QueueOps (σ α : Type*) where
  push : σ → α → σ
  pop : σ → α × σ
  empty : σ → Bool

inductive QueueCall (α : Type*) where
  | push (a : α)
  | pop

/-- A queue with what was pushed and popped since it was empty. -/
structure QueueRun (σ α : Type*) where
  state : σ
  pushed : List α := []
  popped : List α := []

namespace QueueOps

/-- A call; `pop` is called only if the queue does not seem empty. -/
def step (q : QueueOps σ α) (s : QueueRun σ α) : QueueCall α → Option (QueueRun σ α)
  | .push a => some { s with state := q.push s.state a, pushed := s.pushed ++ [a] }
  | .pop =>
    if q.empty s.state then none
    else some { s with state := (q.pop s.state).2, popped := s.popped ++ [(q.pop s.state).1] }

def Lawful (q : QueueOps σ α) (s : QueueRun σ α) : Prop :=
  ∃ left, s.pushed = s.popped ++ left ∧ (q.empty s.state = true → left = [])

end QueueOps

/-! ## 2. Rings -/

structure Ring (w : Nat) (α : Type*) where
  data : BitVec w → α
  start : BitVec w
  stop : BitVec w

namespace Ring

def push (r : Ring w α) (a : α) : Ring w α :=
  { r with data := Function.update r.data r.stop a, stop := r.stop + 1 }

def front (r : Ring w α) : α := r.data r.start

def pop (r : Ring w α) : Ring w α := { r with start := r.start + 1 }

def empty (r : Ring w α) : Bool := r.start == r.stop

/-- The elements of `l` are in the ring, from `start` on. -/
structure Contains (r : Ring w α) (l : List α) : Prop where
  length : l.length < 2 ^ w
  stop : r.stop = r.start + BitVec.ofNat w l.length
  data : ∀ (i : Nat) (a : α), l[i]? = some a → r.data (r.start + BitVec.ofNat w i) = a

variable {r : Ring w α} {l : List α} {a : α}

theorem ofNat_inj {i j : Nat} (hi : i < 2 ^ w) (hj : j < 2 ^ w) (x : BitVec w)
    (h : x + BitVec.ofNat w i = x + BitVec.ofNat w j) : i = j := by
  have h' := congrArg BitVec.toNat ((BitVec.add_right_inj x).mp h)
  rwa [BitVec.toNat_ofNat, BitVec.toNat_ofNat, Nat.mod_eq_of_lt hi, Nat.mod_eq_of_lt hj] at h'

theorem add_succ (x : BitVec w) (i : Nat) :
    x + BitVec.ofNat w (i + 1) = x + BitVec.ofNat w i + 1 := by
  rw [BitVec.ofNat_add, BitVec.add_assoc]
  rfl

/-- A push beyond the last free place is not seen. -/
theorem stop_push (h : r.Contains l) : (r.push a).stop = (r.push a).start + BitVec.ofNat w (l.length + 1) := by
  rw [add_succ]
  show r.stop + 1 = r.start + BitVec.ofNat w l.length + 1
  rw [h.stop]

theorem contains_push (h : r.Contains l) (hl : l.length + 1 < 2 ^ w) (a : α) :
    (r.push a).Contains (l ++ [a]) := by
  refine ⟨by rwa [List.length_append], ?_, fun i b hb => ?_⟩
  · rw [List.length_append]
    exact stop_push h
  · show Function.update r.data r.stop a (r.start + BitVec.ofNat w i) = b
    obtain ⟨hi, hib⟩ := List.getElem?_eq_some_iff.mp hb
    rw [List.length_append, List.length_singleton] at hi
    by_cases hlast : i = l.length
    · subst hlast
      rw [h.stop, Function.update_self, ← hib]
      simp
    · have hne : r.start + BitVec.ofNat w i ≠ r.stop := by
        rw [h.stop]
        exact fun he => hlast (ofNat_inj (by omega) h.length r.start he)
      rw [Function.update_of_ne hne]
      refine h.data i b ?_
      rwa [List.getElem?_append_left (by omega)] at hb

theorem contains_pop (h : r.Contains (a :: l)) : r.front = a ∧ r.pop.Contains l := by
  have hlen := h.length
  rw [List.length_cons] at hlen
  refine ⟨?_, by omega, ?_, fun i b hb => ?_⟩
  · have h0 := h.data 0 a rfl
    rwa [BitVec.add_zero] at h0
  · show r.stop = r.start + 1 + BitVec.ofNat w l.length
    rw [h.stop, List.length_cons, add_succ, BitVec.add_assoc, BitVec.add_assoc, BitVec.add_comm 1]
  · show r.data (r.start + 1 + BitVec.ofNat w i) = b
    rw [BitVec.add_assoc, BitVec.add_comm 1, ← BitVec.add_assoc, ← add_succ]
    exact h.data (i + 1) b hb

/-- **A ring seems empty** exactly if it is. -/
theorem empty_iff (h : r.Contains l) : r.empty = true ↔ l = [] := by
  unfold empty
  rw [beq_iff_eq, h.stop]
  constructor
  · intro he
    have hzero : r.start + BitVec.ofNat w 0 = r.start + BitVec.ofNat w l.length := by
      rwa [BitVec.add_zero]
    exact List.eq_nil_of_length_eq_zero (ofNat_inj (Nat.two_pow_pos w) h.length r.start hzero).symm
  · rintro rfl
    rw [List.length_nil, BitVec.add_zero]

/-- The push that fills the last place makes the ring seem empty. -/
theorem empty_push_full (h : r.Contains l) (hl : l.length + 1 = 2 ^ w) : (r.push a).empty = true := by
  unfold empty
  have hzero : BitVec.ofNat w (2 ^ w) = 0#w := by
    apply BitVec.eq_of_toNat_eq
    rw [BitVec.toNat_ofNat, Nat.mod_self, BitVec.toNat_zero]
  rw [beq_iff_eq, stop_push h, hl, hzero]
  exact (BitVec.add_zero _).symm

end Ring

/-! ## 3. Queues that are rings -/

/-- A queue whose operations are those of a ring. -/
structure RingView (w : Nat) (q : QueueOps σ α) where
  ring : σ → Ring w α
  push : ∀ s a, ring (q.push s a) = (ring s).push a
  front : ∀ s, q.empty s = false → (q.pop s).1 = (ring s).front
  pop : ∀ s, q.empty s = false → ring (q.pop s).2 = (ring s).pop
  empty : ∀ s, q.empty s = (ring s).empty

namespace RingView

variable {q : QueueOps σ α} (v : RingView w q) {s s' : QueueRun σ α} {c : QueueCall α}

/-- What is left of what was pushed is what the ring contains. -/
def Holds (s : QueueRun σ α) : Prop :=
  ∃ left, s.pushed = s.popped ++ left ∧ (v.ring s.state).Contains left

variable {v}

theorem Holds.lawful (h : v.Holds s) : q.Lawful s := by
  obtain ⟨left, hleft, hring⟩ := h
  refine ⟨left, hleft, fun he => ?_⟩
  rw [v.empty] at he
  exact (Ring.empty_iff hring).mp he

theorem Holds.fits (h : v.Holds s) : s.pushed.length < s.popped.length + 2 ^ w := by
  obtain ⟨left, hleft, hring⟩ := h
  have hlen := congrArg List.length hleft
  have hlt := hring.length
  rw [List.length_append] at hlen
  omega

/-- **A call** keeps the elements in the ring, unless the ring is full then; this
    is also seen in that it breaks the law. -/
theorem holds_step (h : v.Holds s) (hstep : q.step s c = some s')
    (hs' : s'.pushed.length < s'.popped.length + 2 ^ w ∨ q.Lawful s') : v.Holds s' := by
  obtain ⟨left, hleft, hring⟩ := h
  cases c with
  | push a =>
    obtain rfl := Option.some.inj hstep
    have hpushed : s.pushed ++ [a] = s.popped ++ (left ++ [a]) := by
      rw [hleft, List.append_assoc]
    refine ⟨left ++ [a], hpushed, ?_⟩
    dsimp only
    rw [v.push]
    have hlt := hring.length
    have hlen := congrArg List.length hpushed
    rw [List.length_append, List.length_append, List.length_append] at hlen
    refine Ring.contains_push hring ?_ a
    by_contra hfull
    rcases hs' with hs' | ⟨left', hleft', hempty⟩
    · dsimp only at hs'
      rw [List.length_append, List.length_singleton] at hs'
      rw [List.length_singleton] at hlen
      omega
    · dsimp only at hleft' hempty
      rw [v.empty, v.push] at hempty
      have hnil := hempty (Ring.empty_push_full hring (by omega))
      rw [hpushed, hnil] at hleft'
      exact List.append_ne_nil_of_right_ne_nil left (List.cons_ne_nil a [])
        (List.append_cancel_left hleft')
  | pop =>
    obtain ⟨hempty, he⟩ := Option.ite_none_left_eq_some.mp hstep
    obtain rfl := Option.some.inj he
    have hfalse : q.empty s.state = false := Bool.eq_false_iff.mpr hempty
    cases left with
    | nil =>
      rw [v.empty, (Ring.empty_iff hring).mpr rfl] at hfalse
      exact Bool.noConfusion hfalse
    | cons a left =>
      obtain ⟨hfront, hpop⟩ := Ring.contains_pop hring
      refine ⟨left, ?_, ?_⟩
      · dsimp only
        rw [v.front _ hfalse, hfront, hleft, List.append_assoc]
        rfl
      · dsimp only
        rw [v.pop _ hfalse]
        exact hpop

/-- **A run** of a queue that starts as an empty ring is lawful throughout exactly
    if it never holds as many elements as the ring has places. -/
theorem lawful_iff {s0 : σ} (h0 : (v.ring s0).Contains []) (calls : List (QueueCall α)) :
    (∀ before after s, calls = before ++ after →
      runSteps q.step { state := s0 } before = some s → q.Lawful s) ↔
    ∀ before after s, calls = before ++ after →
      runSteps q.step { state := s0 } before = some s → s.pushed.length < s.popped.length + 2 ^ w := by
  have hrun : ∀ before after s, calls = before ++ after →
      runSteps q.step { state := s0 } before = some s →
      (∀ b a t, calls = b ++ a → runSteps q.step { state := s0 } b = some t →
        t.pushed.length < t.popped.length + 2 ^ w ∨ q.Lawful t) → v.Holds s := by
    intro before
    induction before using List.reverseRecOn with
    | nil =>
      intro after s _ hs _
      obtain rfl := Option.some.inj hs
      exact ⟨[], rfl, h0⟩
    | append_singleton before c ih =>
      intro after s hsplit hs hall
      obtain ⟨s1, hs1, hc⟩ := runSteps_last q.step hs
      have hsplit' : calls = before ++ c :: after := by
        rw [hsplit, List.append_assoc]
        rfl
      exact holds_step (ih (c :: after) s1 hsplit' hs1 hall) hc (hall _ after s hsplit hs)
  constructor
  · intro h before after s hsplit hs
    exact (hrun before after s hsplit hs fun b a t hb ht => .inr (h b a t hb ht)).fits
  · intro h before after s hsplit hs
    exact (hrun before after s hsplit hs fun b a t hb ht => .inl (h b a t hb ht)).lawful

end RingView

end Signal
