/-
  File:      WinLirc/Signal/Numerals.lean
  Subject:   Numbers as text, in bases up to 16 (general library).

  `digitValue` is the value of a digit, `ofNumeral` that of a text of digits,
  the most significant first. Reading `Nat.toDigits` gives the number back
  (`ofNumeral_toDigits`), leading zeros do not count (`ofNumeral_zeros`).
-/
import Mathlib.Data.Nat.Notation

namespace Signal

/-- The value of a digit of either case. -/
def digitValue (c : Char) : Option Nat :=
  if '0' ≤ c ∧ c ≤ '9' then some (c.toNat - '0'.toNat)
  else if 'a' ≤ c ∧ c ≤ 'f' then some (c.toNat - 'a'.toNat + 10)
  else if 'A' ≤ c ∧ c ≤ 'F' then some (c.toNat - 'A'.toNat + 10)
  else none

/-- A digit of base `b`. -/
def isDigitOf (b : Nat) (c : Char) : Bool := (digitValue c).any (· < b)

/-- The number that a text of digits stands for. -/
def ofNumeral (b : Nat) (s : List Char) : Nat :=
  s.foldl (fun n c => n * b + (digitValue c).getD 0) 0

theorem digitValue_digitChar {n : Nat} (h : n < 16) : digitValue n.digitChar = some n := by
  revert n
  decide

theorem ofNumeral_snoc (b : Nat) (s : List Char) (c : Char) :
    ofNumeral b (s ++ [c]) = ofNumeral b s * b + (digitValue c).getD 0 := by
  unfold ofNumeral
  rw [List.foldl_append]
  rfl

theorem ofNumeral_zeros (b k : Nat) (s : List Char) :
    ofNumeral b (List.replicate k '0' ++ s) = ofNumeral b s := by
  unfold ofNumeral
  rw [List.foldl_append]
  congr 1
  induction k with
  | zero => rfl
  | succ k ih =>
    rw [List.replicate_succ, List.foldl_cons]
    have h0 : 0 * b + (digitValue '0').getD 0 = 0 := by
      rw [Nat.zero_mul]
      rfl
    rw [h0]
    exact ih

/-- **A number read back.** -/
theorem ofNumeral_toDigits {b : Nat} (h1 : 1 < b) (h16 : b ≤ 16) (n : Nat) :
    ofNumeral b (Nat.toDigits b n) = n := by
  induction n using Nat.strongRecOn with
  | _ n ih =>
    rw [Nat.toDigits_eq_if h1]
    split
    · next hlt =>
      have h := ofNumeral_snoc b [] n.digitChar
      rw [List.nil_append] at h
      rw [h, digitValue_digitChar (Nat.lt_of_lt_of_le hlt h16)]
      have h0 : ofNumeral b [] = 0 := rfl
      rw [h0, Nat.zero_mul, Nat.zero_add]
      rfl
    · next hge =>
      have hpos : 0 < n := by omega
      have hmod : n % b < 16 := Nat.lt_of_lt_of_le (Nat.mod_lt n (by omega)) h16
      rw [ofNumeral_snoc, ih (n / b) (Nat.div_lt_self hpos h1), digitValue_digitChar hmod]
      exact Nat.div_add_mod' n b

theorem mem_toDigits {b : Nat} (h1 : 1 < b) (n : Nat) :
    ∀ c ∈ Nat.toDigits b n, ∃ d, d < b ∧ c = d.digitChar := by
  induction n using Nat.strongRecOn with
  | _ n ih =>
    rw [Nat.toDigits_eq_if h1]
    split
    · next hlt =>
      intro c hc
      exact ⟨n, hlt, List.mem_singleton.mp hc⟩
    · next hge =>
      intro c hc
      rcases List.mem_append.mp hc with hc | hc
      · exact ih (n / b) (Nat.div_lt_self (by omega) h1) c hc
      · exact ⟨n % b, Nat.mod_lt n (by omega), List.mem_singleton.mp hc⟩

/-- The digits of a number are digits. -/
theorem isDigitOf_of_mem {b : Nat} (h1 : 1 < b) (h16 : b ≤ 16) (n : Nat) :
    ∀ c ∈ Nat.toDigits b n, isDigitOf b c = true := by
  intro c hc
  obtain ⟨d, hd, rfl⟩ := mem_toDigits h1 n c hc
  unfold isDigitOf
  rw [digitValue_digitChar (Nat.lt_of_lt_of_le hd h16)]
  exact decide_eq_true hd

end Signal
