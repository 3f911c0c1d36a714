/-
  File:      WinLirc/Signal/Fuel.lean
  Subject:   Loops that take at most `fuel` turns (general library).

  A turn `next` answers a result or the state of the next turn; `loop` takes
  turns until its fuel is used up. A result does not depend on the fuel that
  was left (`FuelLoop.mono`), a loop whose turns go down in a well-founded
  relation ends (`FuelLoop.ends`), one whose turns stay in a set of states does
  not (`FuelLoop.never`).
-/
import Mathlib.Order.WellFounded

namespace Signal

variable {σ β : Type*}

/-! ## 1. Steps that may not end -/

/-- A step that may not end does end. -/
def Ended (x : Option β) : Prop := ∃ y, x = some y

theorem ended_some (y : β) : Ended (some y) := ⟨y, rfl⟩

theorem Ended.ite {p : Prop} [Decidable p] {x y : Option β} (hx : Ended x)
    (hy : Ended y) : Ended (if p then x else y) := by
  split
  · exact hx
  · exact hy

theorem Ended.ite_of {p : Prop} [Decidable p] {x y : Option β} (hx : Ended x)
    (hy : ¬ p → Ended y) : Ended (if p then x else y) := by
  split
  · exact hx
  · next hp => exact hy hp

theorem Ended.map {γ : Type*} {x : Option β} (hx : Ended x) (f : β → γ) : Ended (x.map f) := by
  obtain ⟨y, rfl⟩ := hx
  exact ⟨f y, rfl⟩

/-- What has ended ends the same way. -/
def Keep (x x' : Option β) : Prop := ∀ y, x = some y → x' = some y

theorem Keep.refl (x : Option β) : Keep x x := fun _ h => h

theorem Keep.ite {p : Prop} [Decidable p] {x x' y y' : Option β} (hx : Keep x x')
    (hy : Keep y y') : Keep (if p then x else y) (if p then x' else y') := by
  split
  · exact hx
  · exact hy

theorem Keep.map {γ : Type*} {x x' : Option β} (hx : Keep x x') (f : β → γ) :
    Keep (x.map f) (x'.map f) := by
  intro z hz
  obtain ⟨y, hy, rfl⟩ := Option.map_eq_some_iff.mp hz
  rw [hx y hy]
  rfl

theorem Ended.keep {x x' : Option β} (h : Ended x) (hk : Keep x x') : Ended x' := by
  obtain ⟨y, hy⟩ := h
  exact ⟨y, hk y hy⟩

/-! ## 2. Loops -/

/-- `loop` takes the turns of `next`. -/
structure FuelLoop (next : σ → β ⊕ σ) (loop : Nat → σ → Option β) : Prop where
  zero : ∀ s, loop 0 s = none
  result : ∀ {s y}, next s = .inl y → ∀ fuel, loop (fuel + 1) s = some y
  turn : ∀ {s s'}, next s = .inr s' → ∀ fuel, loop (fuel + 1) s = loop fuel s'

namespace FuelLoop

variable {next : σ → β ⊕ σ} {loop : Nat → σ → Option β}

/-- **More fuel, same result.** -/
theorem mono (h : FuelLoop next loop) {fuel fuel' : Nat} (hle : fuel ≤ fuel') {s : σ} {y : β}
    (hs : loop fuel s = some y) : loop fuel' s = some y := by
  induction fuel generalizing fuel' s with
  | zero =>
    rw [h.zero] at hs
    exact nomatch hs
  | succ fuel ih =>
    obtain ⟨k, rfl⟩ : ∃ k, fuel' = k + 1 := ⟨fuel' - 1, by omega⟩
    cases hn : next s with
    | inl z =>
      rw [h.result hn] at hs ⊢
      exact hs
    | inr s' =>
      rw [h.turn hn] at hs ⊢
      exact ih (Nat.le_of_succ_le_succ hle) hs

/-- **Turns that go down** come to an end. -/
theorem ends (h : FuelLoop next loop) {r : σ → σ → Prop} (hr : WellFounded r) {P : σ → Prop}
    (hturn : ∀ s s', P s → next s = .inr s' → P s' ∧ r s' s) (s : σ) (hs : P s) :
    ∃ fuel y, loop fuel s = some y := by
  induction s using hr.induction with
  | _ s ih =>
    cases hn : next s with
    | inl y => exact ⟨1, y, h.result hn 0⟩
    | inr s' =>
      obtain ⟨hs', hlt⟩ := hturn s s' hs hn
      obtain ⟨fuel, y, he⟩ := ih s' hlt hs'
      exact ⟨fuel + 1, y, (h.turn hn fuel).trans he⟩

/-- **Turns that stay** among some states go on for ever. -/
theorem never (h : FuelLoop next loop) {P : σ → Prop}
    (hturn : ∀ s, P s → ∃ s', next s = .inr s' ∧ P s') (fuel : Nat) (s : σ) (hs : P s) :
    loop fuel s = none := by
  induction fuel generalizing s with
  | zero => exact h.zero s
  | succ fuel ih =>
    obtain ⟨s', hn, hs'⟩ := hturn s hs
    rw [h.turn hn]
    exact ih s' hs'

end FuelLoop

end Signal
