/-
  File:      WinLirc/Signal/Machine.lean
  Subject:   Machines that answer each input with outputs (general library).

  `answers` are the outputs for each input of a run, `after` is the state
  behind it. Both go through a run in pieces (`answers_append`,
  `after_append`).

  `answers_eq_iff`: two machines that go on together as long as each step meets
  a condition, and answer differently where one does not, answer alike exactly
  in the runs all of whose steps meet it.
-/
import WinLirc.Signal.Runs

namespace Signal

variable {σ τ α β : Type*}

section Run

variable (step : σ → α → List β × σ)

/-- The outputs for each input. -/
def answers : σ → List α → List (List β)
  | _, [] => []
  | s, a :: as => (step s a).1 :: answers (step s a).2 as

/-- The state behind the inputs. -/
def after : σ → List α → σ
  | s, [] => s
  | s, a :: as => after (step s a).2 as

/-- All outputs. -/
def emits (s : σ) (as : List α) : List β := (answers step s as).flatten

theorem answers_append (s : σ) (as bs : List α) :
    answers step s (as ++ bs) = answers step s as ++ answers step (after step s as) bs := by
  induction as generalizing s with
  | nil => rfl
  | cons a as ih => exact congrArg ((step s a).1 :: ·) (ih _)

theorem after_append (s : σ) (as bs : List α) :
    after step s (as ++ bs) = after step (after step s as) bs := by
  induction as generalizing s with
  | nil => rfl
  | cons a as ih => exact ih _

theorem emits_append (s : σ) (as bs : List α) :
    emits step s (as ++ bs) = emits step s as ++ emits step (after step s as) bs := by
  unfold emits
  rw [answers_append, List.flatten_append]

theorem emits_cons (s : σ) (a : α) (as : List α) :
    emits step s (a :: as) = (step s a).1 ++ emits step (step s a).2 as := rfl

/-- Each step of a run meets the condition. -/
def Meets (C : σ → α → Prop) (s : σ) (as : List α) : Prop :=
  ∀ front a back, as = front ++ a :: back → C (after step s front) a

variable {step}

theorem meets_nil {C : σ → α → Prop} (s : σ) : Meets step C s [] := forall_place_nil

theorem meets_cons {C : σ → α → Prop} {s : σ} {a : α} {as : List α} :
    Meets step C s (a :: as) ↔ C s a ∧ Meets step C (step s a).2 as :=
  forall_place_cons

end Run

/-- **Two machines** answer alike exactly in the runs whose steps meet the
    condition. -/
theorem answers_eq_iff {f : σ → α → List β × σ} {g : τ → α → List β × τ} {R : σ → τ → Prop}
    {C : τ → α → Prop}
    (hgood : ∀ s t a, R s t → C t a → (f s a).1 = (g t a).1 ∧ R (f s a).2 (g t a).2)
    (hbad : ∀ s t a, R s t → ¬ C t a → (f s a).1 ≠ (g t a).1) {s : σ} {t : τ} (h : R s t)
    (as : List α) : answers f s as = answers g t as ↔ Meets g C t as := by
  induction as generalizing s t with
  | nil => exact iff_of_true rfl (meets_nil t)
  | cons a as ih =>
    rw [meets_cons, answers, answers]
    by_cases hC : C t a
    · obtain ⟨hout, hnext⟩ := hgood s t a h hC
      rw [hout, and_iff_right hC, ← ih hnext]
      exact ⟨fun he => (List.cons.inj he).2, fun he => congrArg _ he⟩
    · exact iff_of_false (fun he => hbad s t a h hC (List.cons.inj he).1) fun hm => hC hm.1

end Signal
