/-
  File:      WinLirc/Signal/Chain.lean
  Subject:   Linked lists in a memory (general library).

  `next a` is the pointer in node `a`, `none` the null pointer.

  * `Segment next p l q`: from the pointer `p` the nodes `l` lead to the
    pointer `q`; `Chain next p l`: they lead to the null pointer;
  * a write to a node elsewhere leaves a segment as it is (`Segment.congr`),
    one to its last node turns its end elsewhere (`Segment.relink`);
  * no node occurs twice in a chain (`Chain.nodup`);
  * a field that a write to a node leaves alone is what it was (`field_update`).
-/
import Mathlib.Data.List.Basic
import Mathlib.Logic.Function.Basic

namespace Signal

variable {α : Type*}

def Segment (next : α → Option α) : Option α → List α → Option α → Prop
  | p, [], q => p = q
  | p, a :: l, q => p = some a ∧ Segment next (next a) l q

/-- A list that ends with a null pointer. -/
def Chain (next : α → Option α) (p : Option α) (l : List α) : Prop := Segment next p l none

section Segment

variable {next next' : α → Option α} {p q r : Option α} {a b : α} {l l' : List α}

@[simp] theorem segment_nil : Segment next p [] q ↔ p = q := Iff.rfl

@[simp] theorem segment_cons : Segment next p (a :: l) q ↔ p = some a ∧ Segment next (next a) l q :=
  Iff.rfl

theorem segment_append : Segment next p (l ++ l') q ↔ ∃ r, Segment next p l r ∧ Segment next r l' q := by
  induction l generalizing p with
  | nil => simp
  | cons a l ih =>
    rw [List.cons_append, segment_cons, ih]
    constructor
    · intro hx
      obtain ⟨hp, r, h, h'⟩ := hx
      exact ⟨r, ⟨hp, h⟩, h'⟩
    · intro hx
      obtain ⟨r, ⟨hp, h⟩, h'⟩ := hx
      exact ⟨hp, r, h, h'⟩

/-- Where a segment begins. -/
theorem Segment.head (h : Segment next p l none) : p = l.head? := by
  cases l with
  | nil => exact h
  | cons a l => exact h.1

/-- **Frame**: only the pointers in the nodes of a segment matter. -/
theorem Segment.congr (h : Segment next p l q) (he : ∀ a ∈ l, next' a = next a) :
    Segment next' p l q := by
  induction l generalizing p with
  | nil => exact h
  | cons a l ih =>
    obtain ⟨hp, ht⟩ := h
    refine ⟨hp, ?_⟩
    rw [he a List.mem_cons_self]
    exact ih ht fun b hb => he b (List.mem_cons_of_mem a hb)

variable [DecidableEq α]

theorem Segment.update (h : Segment next p l q) (ha : a ∉ l) (r : Option α) :
    Segment (Function.update next a r) p l q :=
  h.congr fun b hb => Function.update_of_ne (fun he : b = a => ha (he ▸ hb)) r next

/-- **The end of a segment** is what its last node points to. -/
theorem Segment.relink (h : Segment next p (l ++ [b]) q) (hb : b ∉ l) (r : Option α) :
    Segment (Function.update next b r) p (l ++ [b]) r := by
  obtain ⟨s, hl, hs⟩ := segment_append.mp h
  refine segment_append.mpr ⟨s, hl.update hb r, hs.1, ?_⟩
  exact Function.update_self b r next

end Segment

section Chain

variable {next : α → Option α} {p : Option α} {a : α} {l l' : List α}

/-- A pointer leads through one list only. -/
theorem Chain.unique (h : Chain next p l) (h' : Chain next p l') : l = l' := by
  induction l generalizing p l' with
  | nil =>
    cases l' with
    | nil => rfl
    | cons b l' => exact nomatch h.symm.trans h'.1
  | cons a l ih =>
    obtain ⟨hp, ht⟩ := h
    cases l' with
    | nil => exact nomatch hp.symm.trans h'
    | cons b l' =>
      obtain ⟨hp', ht'⟩ := h'
      obtain rfl : a = b := Option.some.inj (hp.symm.trans hp')
      rw [ih ht ht']

/-- **No node occurs twice**: the list behind it would be as long as a part of
    itself. -/
theorem Chain.nodup (h : Chain next p l) : l.Nodup := by
  induction l generalizing p with
  | nil => exact List.nodup_nil
  | cons a l ih =>
    obtain ⟨hp, ht⟩ := h
    refine List.nodup_cons.mpr ⟨fun ha => ?_, ih ht⟩
    obtain ⟨s, t, rfl⟩ := List.append_of_mem ha
    obtain ⟨r, -, hr⟩ := segment_append.mp ht
    have hhere : Chain next (some a) (a :: (s ++ a :: t)) := ⟨rfl, ht⟩
    have hthere : Chain next (some a) (a :: t) := ⟨rfl, hr.2⟩
    have hlen := congrArg List.length (hhere.unique hthere)
    rw [List.length_cons, List.length_append, List.length_cons] at hlen
    omega

end Chain

/-- **Frame** of a field: a write that does not change it in its own node changes it
    nowhere. -/
theorem field_update {β γ : Type*} [DecidableEq α] {f : β → γ} {heap : α → β} {a : α} {v : β}
    (h : f v = f (heap a)) (b : α) : f (Function.update heap a v b) = f (heap b) := by
  by_cases hb : b = a
  · subst hb
    rw [Function.update_self]
    exact h
  · rw [Function.update_of_ne hb]

end Signal
