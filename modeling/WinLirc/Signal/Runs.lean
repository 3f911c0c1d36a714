/-
  File:      WinLirc/Signal/Runs.lean
  Subject:   Runs of a step function whose steps may not be enabled (general
             library).

  If a step keeps a property of states exactly under a condition, the property
  holds in every state of a run exactly if every step meets the condition
  (`states_iff_steps`). What is said of every place of a list is said of the
  first one and of those behind it (`forall_place_cons`).
-/
import Mathlib.Data.List.Induction

namespace Signal

section Places

variable {α : Type*} {P : List α → α → List α → Prop}

theorem forall_place_nil : ∀ front a back, [] = front ++ a :: back → P front a back := fun _ _ _ h =>
  absurd h.symm (List.append_ne_nil_of_right_ne_nil _ (List.cons_ne_nil _ _))

/-- **The places of a list**: the first one, and those of the rest. -/
theorem forall_place_cons {x : α} {xs : List α} :
    (∀ front a back, x :: xs = front ++ a :: back → P front a back) ↔
      P [] x xs ∧ ∀ front a back, xs = front ++ a :: back → P (x :: front) a back := by
  constructor
  · intro h
    exact ⟨h [] x xs rfl, fun front a back he => h (x :: front) a back (congrArg (x :: ·) he)⟩
  · intro h front a back he
    cases front with
    | nil =>
      obtain ⟨rfl, rfl⟩ := List.cons.inj he
      exact h.1
    | cons y front =>
      obtain ⟨rfl, he'⟩ := List.cons.inj he
      exact h.2 front a back he'

/-- The last place, and those in front of it. -/
theorem forall_place_snoc {P : List α → α → Prop} {x : α} {xs : List α} :
    (∀ front a back, xs ++ [x] = front ++ a :: back → P front a) ↔
      (∀ front a back, xs = front ++ a :: back → P front a) ∧ P xs x := by
  constructor
  · intro h
    refine ⟨fun front a back he => h front a (back ++ [x]) ?_, h xs x [] rfl⟩
    rw [he, List.append_assoc]
    rfl
  · intro h front a back he
    rcases List.eq_nil_or_concat back with rfl | ⟨back, b, rfl⟩
    · obtain ⟨rfl, hx⟩ := List.append_inj' he rfl
      obtain rfl := List.singleton_inj.mp hx
      exact h.2
    · rw [List.concat_eq_append, ← List.cons_append, ← List.append_assoc] at he
      exact h.1 front a back (List.append_inj' he rfl).1

end Places

variable {σ α : Type*} (step : σ → α → Option σ)

/-- One step after the other; `none` if one of them is not enabled. -/
def runSteps : σ → List α → Option σ
  | s, [] => some s
  | s, a :: as => (step s a).bind fun s' => runSteps s' as

theorem runSteps_append (s : σ) (as bs : List α) :
    runSteps step s (as ++ bs) = (runSteps step s as).bind fun s' => runSteps step s' bs := by
  induction as generalizing s with
  | nil => rfl
  | cons a as ih =>
    rw [List.cons_append, runSteps, runSteps, Option.bind_assoc]
    congr 1
    funext s'
    exact ih s'

theorem runSteps_snoc {s s1 s' : σ} {as : List α} {a : α} (h : runSteps step s as = some s1)
    (ha : step s1 a = some s') : runSteps step s (as ++ [a]) = some s' := by
  rw [runSteps_append, h, Option.bind_some, runSteps, ha]
  rfl

/-- The last step of a run. -/
theorem runSteps_last {s s' : σ} {as : List α} {a : α} (h : runSteps step s (as ++ [a]) = some s') :
    ∃ s1, runSteps step s as = some s1 ∧ step s1 a = some s' := by
  rw [runSteps_append] at h
  obtain ⟨s1, h1, h2⟩ := Option.bind_eq_some_iff.mp h
  obtain ⟨s2, h3, h4⟩ := Option.bind_eq_some_iff.mp h2
  injection h4 with h4
  exact ⟨s1, h1, h4 ▸ h3⟩

variable {step}

/-- **A property of states against a condition on steps**, over all states and
    all steps of a run. -/
theorem states_iff_steps {P : σ → Prop} {C : σ → α → Prop} {s0 : σ} {as : List α} (h0 : P s0)
    (hstep : ∀ s a s', P s → step s a = some s' → (P s' ↔ C s a)) :
    (∀ before after s, as = before ++ after → runSteps step s0 before = some s → P s) ↔
    ∀ before a after s s', as = before ++ a :: after → runSteps step s0 before = some s →
      step s a = some s' → C s a := by
  constructor
  · intro hP before a after s s' hsplit hrun ha
    have hs : P s := hP before (a :: after) s hsplit hrun
    have hs' : P s' := by
      refine hP (before ++ [a]) after s' ?_ (runSteps_snoc step hrun ha)
      rw [hsplit, List.append_assoc]
      rfl
    exact (hstep s a s' hs ha).mp hs'
  · intro hC before
    induction before using List.reverseRecOn with
    | nil =>
      intro after s _ hrun
      injection hrun with hrun
      exact hrun ▸ h0
    | append_singleton before a ih =>
      intro after s' hsplit hrun
      obtain ⟨s, hs, ha⟩ := runSteps_last step hrun
      rw [List.append_assoc] at hsplit
      have hP : P s := ih (a :: after) s hsplit hs
      exact (hstep s a s' hP ha).mpr (hC before a after s s' hsplit hs ha)

end Signal
