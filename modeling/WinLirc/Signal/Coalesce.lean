/-
  File:      WinLirc/Signal/Coalesce.lean
  Subject:   Timed signals and their run-length normal form (general library).

  A timed signal is a list of pairs: a level, and how long it lasts. Two
  neighbours of one level are indistinguishable from one longer run, so a
  channel carries the NORMAL FORM of what was emitted:

  * `coalesce s`: neighbours of one level merged, their times added;
  * `Alternating s`: no two neighbours of one level, the normal forms
    (`coalesce_of_alternating`, `alternating_coalesce`);
  * `coalesce_snoc_same`, `coalesce_snoc_ne`: the normal form grows at its
    END only, by the last run -- what a sender that keeps the last run
    open computes;
  * `Heard acc tail s h`: a listener hears `h` where `s` was emitted in front
    of the signal `tail`; an isolated run may be heard with any time that
    `acc` accepts for the emitted one. `heard_coalesce`: the normal form
    itself is heard.

  Levels and times are arbitrary types here.
-/
import Mathlib.Data.List.Chain
import Mathlib.Algebra.BigOperators.Group.List.Basic
import Mathlib.Algebra.Order.Monoid.Defs

namespace Signal

variable {κ α : Type*}

/-! ## 1. The normal form -/

/-- No two neighbours have one level. -/
def Alternating (s : List (κ × α)) : Prop := s.IsChain (fun a b => a.1 ≠ b.1)

@[simp] theorem alternating_nil : Alternating ([] : List (κ × α)) := List.isChain_nil

@[simp] theorem alternating_singleton (e : κ × α) : Alternating [e] := List.isChain_singleton e

theorem alternating_cons_cons {e e' : κ × α} {t : List (κ × α)} :
    Alternating (e :: e' :: t) ↔ e.1 ≠ e'.1 ∧ Alternating (e' :: t) :=
  List.isChain_cons_cons

theorem Alternating.tail {e : κ × α} {t : List (κ × α)} (h : Alternating (e :: t)) :
    Alternating t := by
  cases t with
  | nil => exact alternating_nil
  | cons e' t => exact (alternating_cons_cons.mp h).2

/-- Only the first run of an alternating signal decides what may stand
    before it. -/
theorem Alternating.cons_of_head {l : κ} {d d' : α} {t : List (κ × α)}
    (h : Alternating ((l, d) :: t)) : Alternating ((l, d') :: t) := by
  cases t with
  | nil => exact alternating_singleton _
  | cons e t =>
    obtain ⟨h1, h2⟩ := alternating_cons_cons.mp h
    exact alternating_cons_cons.mpr ⟨h1, h2⟩

section Add

variable [DecidableEq κ] [Add α]

/-- One run put in front of a signal: merged into the first run if the
    levels agree. -/
def merge (e : κ × α) : List (κ × α) → List (κ × α)
  | [] => [e]
  | (l, d) :: t => if e.1 = l then (l, e.2 + d) :: t else e :: (l, d) :: t

/-- The run-length normal form of a signal. -/
def coalesce : List (κ × α) → List (κ × α)
  | [] => []
  | e :: t => merge e (coalesce t)

@[simp] theorem coalesce_nil : coalesce ([] : List (κ × α)) = [] := rfl

@[simp] theorem coalesce_singleton (e : κ × α) : coalesce [e] = [e] := rfl

theorem coalesce_cons (e : κ × α) (t : List (κ × α)) : coalesce (e :: t) = merge e (coalesce t) :=
  rfl

/-- Merging keeps the level at the front. -/
theorem merge_head (e : κ × α) (s : List (κ × α)) : ∃ d t, merge e s = (e.1, d) :: t := by
  cases s with
  | nil => exact ⟨e.2, [], rfl⟩
  | cons f s =>
    obtain ⟨l, d⟩ := f
    by_cases h : e.1 = l
    · exact ⟨e.2 + d, s, by simp [merge, h]⟩
    · exact ⟨e.2, (l, d) :: s, by simp [merge, h]⟩

theorem alternating_merge {e : κ × α} {s : List (κ × α)} (h : Alternating s) :
    Alternating (merge e s) := by
  cases s with
  | nil => exact alternating_singleton e
  | cons f s =>
    obtain ⟨l, d⟩ := f
    by_cases hl : e.1 = l
    · simp only [merge, hl, if_true]
      exact h.cons_of_head
    · simp only [merge, hl, if_false]
      exact alternating_cons_cons.mpr ⟨hl, h⟩

/-- **A normal form alternates.** -/
theorem alternating_coalesce (s : List (κ × α)) : Alternating (coalesce s) := by
  induction s with
  | nil => exact alternating_nil
  | cons e t ih => exact alternating_merge ih

theorem merge_of_alternating {e : κ × α} {s : List (κ × α)} (h : Alternating (e :: s)) :
    merge e s = e :: s := by
  cases s with
  | nil => rfl
  | cons f s =>
    have hne : e.1 ≠ f.1 := (alternating_cons_cons.mp h).1
    simp [merge, hne]

/-- **An alternating signal is its own normal form.** -/
theorem coalesce_of_alternating {s : List (κ × α)} (h : Alternating s) : coalesce s = s := by
  induction s with
  | nil => rfl
  | cons e t ih => rw [coalesce_cons, ih h.tail, merge_of_alternating h]

/-- The first level of a signal and of its normal form. -/
theorem coalesce_head_level (s : List (κ × α)) :
    (coalesce s).head?.map Prod.fst = s.head?.map Prod.fst := by
  cases s with
  | nil => rfl
  | cons e t =>
    obtain ⟨d, u, hu⟩ := merge_head e (coalesce t)
    rw [coalesce_cons, hu]
    rfl

theorem exists_level_merge (f : κ × α) (s : List (κ × α)) (l : κ) :
    (∃ e ∈ merge f s, e.1 = l) ↔ f.1 = l ∨ ∃ e ∈ s, e.1 = l := by
  cases s with
  | nil => simp [merge]
  | cons g s =>
    obtain ⟨k, d⟩ := g
    by_cases h : f.1 = k
    · simp [merge, h]
    · simp [merge, h]

/-- **The levels of a signal** are those of its normal form. -/
theorem exists_level_coalesce (s : List (κ × α)) (l : κ) :
    (∃ e ∈ coalesce s, e.1 = l) ↔ ∃ e ∈ s, e.1 = l := by
  induction s with
  | nil => rfl
  | cons e s ih =>
    rw [coalesce_cons, exists_level_merge, ih]
    simp

theorem coalesce_eq_nil {s : List (κ × α)} : coalesce s = [] ↔ s = [] := by
  cases s with
  | nil => simp
  | cons e t =>
    obtain ⟨d, u, hu⟩ := merge_head e (coalesce t)
    simp [coalesce_cons, hu]

/-- **The first run of a normal form**: one emission on its own, or more of its
    level behind it. -/
theorem coalesce_cons_cases {l : κ} {x d : α} {t h : List (κ × α)}
    (e : coalesce ((l, x) :: t) = (l, d) :: h) :
    (d = x ∧ h = coalesce t ∧ t.head?.map Prod.fst ≠ some l) ∨
      ∃ y, d = x + y ∧ coalesce t = (l, y) :: h := by
  rw [coalesce_cons] at e
  have hlevel := coalesce_head_level t
  cases hc : coalesce t with
  | nil =>
    rw [hc] at e hlevel
    obtain ⟨⟨-, rfl⟩, rfl⟩ : (l = l ∧ x = d) ∧ [] = h := by simpa [merge] using e
    exact .inl ⟨rfl, rfl, by rw [← hlevel]; simp⟩
  | cons f u =>
    obtain ⟨l', y⟩ := f
    rw [hc] at e hlevel
    by_cases hl : l = l'
    · subst hl
      obtain ⟨rfl, rfl⟩ : x + y = d ∧ u = h := by simpa [merge] using e
      exact .inr ⟨y, rfl, rfl⟩
    · obtain ⟨rfl, rfl⟩ : x = d ∧ (l', y) :: u = h := by simpa [merge, hl] using e
      refine .inl ⟨rfl, rfl, ?_⟩
      rw [← hlevel]
      simpa using fun e => hl e.symm

theorem length_merge_le (e : κ × α) (s : List (κ × α)) : (merge e s).length ≤ s.length + 1 := by
  cases s with
  | nil => simp [merge]
  | cons f s =>
    obtain ⟨l, d⟩ := f
    by_cases h : e.1 = l
    · simp [merge, h]
    · simp [merge, h]

/-- The normal form is no longer than the signal. -/
theorem length_coalesce_le (s : List (κ × α)) : (coalesce s).length ≤ s.length := by
  induction s with
  | nil => exact Nat.le_refl 0
  | cons e t ih => exact Nat.le_trans (length_merge_le e _) (Nat.succ_le_succ ih)

end Add

/-! ## 2. Growing the normal form at its end -/

section Snoc

variable [DecidableEq κ] [AddSemigroup α]

theorem merge_merge_same (l : κ) (a b : α) (s : List (κ × α)) :
    merge (l, a) (merge (l, b) s) = merge (l, a + b) s := by
  cases s with
  | nil => simp [merge]
  | cons f s =>
    obtain ⟨l', d⟩ := f
    by_cases h : l = l'
    · subst h
      simp [merge, add_assoc]
    · simp [merge, h]

/-- **One more run of the level the signal ends with** lengthens the last
    run of an alternating signal. -/
theorem coalesce_alternating_snoc_same {s : List (κ × α)} {l : κ} {d : α} (d' : α)
    (h : Alternating (s ++ [(l, d)])) :
    coalesce (s ++ [(l, d)] ++ [(l, d')]) = s ++ [(l, d + d')] := by
  induction s with
  | nil => simp [coalesce_cons, merge]
  | cons e s ih =>
    have hc : Alternating (e :: (s ++ [(l, d + d')])) := by
      cases s with
      | nil =>
        obtain ⟨h1, -⟩ := alternating_cons_cons.mp h
        exact alternating_cons_cons.mpr ⟨h1, alternating_singleton _⟩
      | cons f s =>
        obtain ⟨h1, -⟩ := alternating_cons_cons.mp h
        have h2 : Alternating (f :: (s ++ [(l, d + d')])) := by
          have e2 := ih (Alternating.tail h)
          have : Alternating (coalesce (f :: s ++ [(l, d)] ++ [(l, d')])) :=
            alternating_coalesce _
          rwa [e2] at this
        exact alternating_cons_cons.mpr ⟨h1, h2⟩
    simp only [List.cons_append, coalesce_cons]
    rw [ih (Alternating.tail h)]
    exact merge_of_alternating hc

/-- Normal forms compose: a prefix may be normalised first. -/
theorem coalesce_coalesce_append (s t : List (κ × α)) :
    coalesce (coalesce s ++ t) = coalesce (s ++ t) := by
  induction s with
  | nil => rfl
  | cons e s ih =>
    rw [List.cons_append, coalesce_cons e (s ++ t), ← ih, coalesce_cons]
    cases h : coalesce s with
    | nil => rfl
    | cons f u =>
      obtain ⟨l, d⟩ := f
      by_cases hl : e.1 = l
      · have he : e = (l, e.2) := by rw [← hl]
        rw [he]
        simp only [merge, if_true, List.cons_append, coalesce_cons]
        exact (merge_merge_same l e.2 d _).symm
      · simp only [merge, hl, if_false, List.cons_append, coalesce_cons]

theorem coalesce_snoc_same {s u : List (κ × α)} {l : κ} {d : α} (d' : α)
    (h : coalesce s = u ++ [(l, d)]) : coalesce (s ++ [(l, d')]) = u ++ [(l, d + d')] := by
  have ha : Alternating (u ++ [(l, d)]) := h ▸ alternating_coalesce s
  rw [← coalesce_coalesce_append, h]
  exact coalesce_alternating_snoc_same d' ha

theorem coalesce_snoc_ne {s u : List (κ × α)} {l l' : κ} {d : α} (d' : α)
    (h : coalesce s = u ++ [(l, d)]) (hl : l ≠ l') :
    coalesce (s ++ [(l', d')]) = u ++ [(l, d), (l', d')] := by
  have ha : Alternating (u ++ [(l, d)]) := h ▸ alternating_coalesce s
  have hb : Alternating (u ++ [(l, d), (l', d')]) := by
    have e : u ++ [(l, d), (l', d')] = (u ++ [(l, d)]) ++ [(l', d')] := by simp
    rw [e]
    refine List.isChain_append.mpr ⟨ha, List.isChain_singleton _, ?_⟩
    intro x hx y hy
    simp only [List.getLast?_append, List.getLast?_singleton, Option.some_or, Option.mem_def,
      Option.some.injEq] at hx
    simp only [List.head?_cons, Option.mem_def, Option.some.injEq] at hy
    subst hx hy
    exact hl
  rw [← coalesce_coalesce_append, h, List.append_assoc]
  exact coalesce_of_alternating hb

/-- What begins with another level does not change the normal form in front of
    it. -/
theorem coalesce_append_ne {s u : List (κ × α)} {l l' : κ} {d : α} (d' : α) (t : List (κ × α))
    (h : coalesce s = u ++ [(l, d)]) (hl : l ≠ l') :
    ∃ x v, coalesce (s ++ (l', d') :: t) = u ++ [(l, d)] ++ (l', x) :: v := by
  have ha : Alternating (u ++ [(l, d)]) := h ▸ alternating_coalesce s
  obtain ⟨x, v, hx⟩ := merge_head (l', d') (coalesce t)
  refine ⟨x, v, ?_⟩
  have hb : Alternating (u ++ [(l, d)] ++ (l', x) :: v) := by
    refine List.isChain_append.mpr ⟨ha, ?_, ?_⟩
    · rw [← hx, ← coalesce_cons]
      exact alternating_coalesce _
    · intro a ha b hb
      rw [List.getLast?_append, List.getLast?_singleton] at ha
      obtain rfl := Option.some.inj ha
      obtain rfl := Option.some.inj hb
      exact hl
  rw [← coalesce_coalesce_append, h, ← coalesce_of_alternating hb, ← hx, ← coalesce_cons]
  clear ha hb h
  induction u ++ [(l, d)] with
  | nil => exact (coalesce_of_alternating (alternating_coalesce _)).symm
  | cons e w ih => exact congrArg (merge e) ih

/-- The last level of a signal and of its normal form. -/
theorem coalesce_last_level (s : List (κ × α)) :
    (coalesce s).getLast?.map Prod.fst = s.getLast?.map Prod.fst := by
  rcases List.eq_nil_or_concat s with rfl | ⟨t, e, rfl⟩
  · rfl
  · obtain ⟨l', d'⟩ := e
    rw [List.concat_eq_append]
    rcases List.eq_nil_or_concat (coalesce t) with hc | ⟨u, f, hc⟩
    · have ht := coalesce_eq_nil.mp hc
      subst ht
      rfl
    · obtain ⟨l, d⟩ := f
      rw [List.concat_eq_append] at hc
      by_cases hl : l = l'
      · subst hl
        rw [coalesce_snoc_same d' hc]
        simp
      · rw [coalesce_snoc_ne d' hc hl]
        simp

end Snoc

/-! ## 3. Time and size -/

section Measure

/-- The time a signal takes. -/
def total [AddMonoid α] (s : List (κ × α)) : α := (s.map Prod.snd).sum

@[simp] theorem total_nil [AddMonoid α] : total ([] : List (κ × α)) = 0 := rfl

@[simp] theorem total_cons [AddMonoid α] (e : κ × α) (s : List (κ × α)) :
    total (e :: s) = e.2 + total s := by
  simp [total]

@[simp] theorem total_append [AddMonoid α] (s t : List (κ × α)) :
    total (s ++ t) = total s + total t := by
  simp [total]

variable [DecidableEq κ]

theorem total_merge [AddMonoid α] (e : κ × α) (s : List (κ × α)) :
    total (merge e s) = e.2 + total s := by
  cases s with
  | nil => simp [merge]
  | cons f s =>
    obtain ⟨l, d⟩ := f
    by_cases h : e.1 = l
    · simp [merge, h, add_assoc]
    · simp [merge, h]

/-- **The normal form takes the same time.** -/
@[simp] theorem total_coalesce [AddMonoid α] (s : List (κ × α)) : total (coalesce s) = total s := by
  induction s with
  | nil => rfl
  | cons e t ih => rw [coalesce_cons, total_merge, ih, total_cons]

/-- What holds of all times, and of the sum of two of them, holds of those of the
    normal form. -/
theorem forall_coalesce [Add α] {p : α → Prop} (hadd : ∀ a b, p a → p b → p (a + b))
    {s : List (κ × α)} (h : ∀ e ∈ s, p e.2) : ∀ e ∈ coalesce s, p e.2 := by
  induction s with
  | nil => exact fun e he => absurd he List.not_mem_nil
  | cons e t ih =>
    obtain ⟨he, ht⟩ := List.forall_mem_cons.mp h
    have hmerged := ih ht
    rw [coalesce_cons]
    cases hc : coalesce t with
    | nil => exact List.forall_mem_singleton.mpr he
    | cons f u =>
      rw [hc] at hmerged
      obtain ⟨hf, hu⟩ := List.forall_mem_cons.mp hmerged
      rw [merge]
      split
      · exact List.forall_mem_cons.mpr ⟨hadd _ _ he hf, hu⟩
      · exact List.forall_mem_cons.mpr ⟨he, hmerged⟩

/-- Every run of the normal form of a signal of positive times is positive. -/
theorem coalesce_pos [AddMonoid α] [Preorder α] [AddLeftStrictMono α] {s : List (κ × α)}
    (h : ∀ e ∈ s, 0 < e.2) : ∀ e ∈ coalesce s, 0 < e.2 :=
  forall_coalesce (fun _ _ => add_pos) h

end Measure

/-! ## 4. What a listener hears -/

section Heard

variable [Add α]

/-- **`h` is heard where `s` is emitted in front of `tail`**: a run that
    merges with what follows adds its time to it; an isolated run may be
    heard with a time that `acc` accepts (`acc heard emitted`). -/
inductive Heard (acc : α → α → Prop) (tail : List (κ × α)) :
    List (κ × α) → List (κ × α) → Prop where
  | nil : Heard acc tail [] tail
  | single {l : κ} {d d' : α} {s h : List (κ × α)} (hne : h.head?.map Prod.fst ≠ some l)
      (ha : acc d' d) (hs : Heard acc tail s h) : Heard acc tail ((l, d) :: s) ((l, d') :: h)
  | merged {l : κ} {d x : α} {s h : List (κ × α)} (hs : Heard acc tail s ((l, x) :: h)) :
      Heard acc tail ((l, d) :: s) ((l, d + x) :: h)

variable {acc : α → α → Prop} {tail : List (κ × α)}

/-- The first level heard is the first level emitted. -/
theorem Heard.head_level {s h : List (κ × α)} (hh : Heard acc tail s h) :
    h.head?.map Prod.fst = (s ++ tail).head?.map Prod.fst := by
  cases hh <;> rfl

/-- **A run followed by another level** is heard on its own. -/
theorem Heard.split_ne {l : κ} {d : α} {s h : List (κ × α)}
    (hh : Heard acc tail ((l, d) :: s) h) (hne : (s ++ tail).head?.map Prod.fst ≠ some l) :
    ∃ d' h', h = (l, d') :: h' ∧ acc d' d ∧ Heard acc tail s h' := by
  cases hh with
  | single _ ha hs => exact ⟨_, _, rfl, ha, hs⟩
  | merged hs =>
    have e := hs.head_level
    exact absurd e.symm hne

/-- **A run followed by one of its level** is heard as part of a longer run. -/
theorem Heard.split_eq {l : κ} {d : α} {s h : List (κ × α)}
    (hh : Heard acc tail ((l, d) :: s) h) (he : (s ++ tail).head?.map Prod.fst = some l) :
    ∃ x h', h = (l, d + x) :: h' ∧ Heard acc tail s ((l, x) :: h') := by
  cases hh with
  | single hne _ hs =>
    have e := hs.head_level
    exact absurd (e.trans he) hne
  | merged hs => exact ⟨_, _, rfl, hs⟩

/-- **The normal form is heard** by a listener that accepts every emitted
    time for itself. -/
theorem heard_coalesce [DecidableEq κ] {s : List (κ × α)} (ht : Alternating tail)
    (ha : ∀ e ∈ s, acc e.2 e.2) : Heard acc tail s (coalesce (s ++ tail)) := by
  induction s with
  | nil =>
    rw [List.nil_append, coalesce_of_alternating ht]
    exact .nil
  | cons e s ih =>
    obtain ⟨l, d⟩ := e
    have hs := ih fun f hf => ha f (List.mem_cons_of_mem _ hf)
    rw [List.cons_append, coalesce_cons]
    cases hc : coalesce (s ++ tail) with
    | nil =>
      rw [hc] at hs
      exact .single (by simp) (ha (l, d) List.mem_cons_self) hs
    | cons f u =>
      obtain ⟨l', x⟩ := f
      rw [hc] at hs
      by_cases hl : l = l'
      · subst hl
        simp only [merge, if_true]
        exact .merged hs
      · simp only [merge, hl, if_false]
        exact .single (by simpa using fun e => hl e.symm) (ha (l, d) List.mem_cons_self) hs

/-- **A noisy alternating signal is heard** where its times are accepted one
    by one. -/
theorem heard_of_forall₂ {s h : List (κ × α)} (ht : Alternating (s ++ tail))
    (hf : List.Forall₂ (fun n e => n.1 = e.1 ∧ acc n.2 e.2) h s) :
    Heard acc tail s (h ++ tail) := by
  induction hf with
  | nil => exact .nil
  | @cons n e h s hne hf ih =>
    obtain ⟨l, d'⟩ := n
    obtain ⟨l', d⟩ := e
    obtain ⟨rfl, ha⟩ := hne
    have hs := ih (Alternating.tail ht)
    show Heard acc tail ((l, d) :: s) ((l, d') :: (h ++ tail))
    refine .single ?_ ha hs
    rw [hs.head_level]
    cases hst : s ++ tail with
    | nil => simp
    | cons f u =>
      rw [List.cons_append, hst] at ht
      have hlf := (alternating_cons_cons.mp ht).1
      simpa using fun e => hlf e.symm

end Heard

end Signal
