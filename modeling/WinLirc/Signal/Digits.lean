/-
  File:      WinLirc/Signal/Digits.lean
  Subject:   Words as strings of digits, most significant first (general library).

  A word of `k * m` significant bits is sent as `m` digits of `k` bits, the
  most significant first, and rebuilt by shifting each digit in from the
  right. `foldl_digits` says what the rebuilding computes from any start
  value; `ofDigits_digits` is the round trip. `bits` is the case of single
  bits as truth values (`ofBits_bits`), `lsbBits` the string a sender reads
  off the low end of a word.
-/
import Mathlib.Data.Nat.Bitwise
import Mathlib.Tactic.Ring

namespace Signal

variable {w : Nat}

/-- The word whose low `n` bits are set. -/
def lowMask (w n : Nat) : BitVec w := BitVec.ofNat w (2 ^ n - 1)

@[simp] theorem getLsbD_lowMask (n i : Nat) :
    (lowMask w n).getLsbD i = (decide (i < w) && decide (i < n)) := by
  simp [lowMask, BitVec.getLsbD_ofNat, Nat.testBit_two_pow_sub_one]

/-- A word below `2 ^ n` has no bit from `n` on. -/
theorem getLsbD_of_lt {v : BitVec w} {n i : Nat} (h : v.toNat < 2 ^ n) (hi : n ≤ i) :
    v.getLsbD i = false := by
  have hlt : v.toNat < 2 ^ i := lt_of_lt_of_le h (Nat.pow_le_pow_right (by decide) hi)
  exact Nat.testBit_lt_two_pow hlt

theorem and_lowMask_of_lt {v : BitVec w} {n : Nat} (h : v.toNat < 2 ^ n) :
    v &&& lowMask w n = v := by
  apply BitVec.eq_of_getLsbD_eq
  intro i hi
  by_cases hn : i < n
  · simp [hi, hn]
  · simp [hn, getLsbD_of_lt h (Nat.le_of_not_lt hn)]

/-! ## 1. Digits -/

/-- The `m`th digit of `k` bits, counted from the least significant. -/
def digit (k m : Nat) (v : BitVec w) : BitVec w := (v >>> (k * m)) &&& lowMask w k

/-- The low `m` digits, the most significant first. -/
def digits (k : Nat) : Nat → BitVec w → List (BitVec w)
  | 0, _ => []
  | m + 1, v => digit k m v :: digits k m v

@[simp] theorem length_digits (k n : Nat) (v : BitVec w) : (digits k n v).length = n := by
  induction n with
  | zero => rfl
  | succ n ih => rw [digits, List.length_cons, ih]

/-- A digit shifted in from the right. -/
def shiftIn (k : Nat) (c d : BitVec w) : BitVec w := c <<< k ||| d

/-- A digit shifted in makes the word `k` bits longer. -/
theorem shiftIn_lt {k a : Nat} {c d : BitVec w} (hc : c.toNat < 2 ^ a) (hd : d.toNat < 2 ^ k) :
    (shiftIn k c d).toNat < 2 ^ (a + k) := by
  have h1 : (c <<< k).toNat ≤ c.toNat * 2 ^ k := by
    rw [BitVec.toNat_shiftLeft, Nat.shiftLeft_eq]
    exact Nat.mod_le _ _
  have h2 : c.toNat * 2 ^ k < 2 ^ (a + k) := by
    rw [Nat.pow_add]
    exact Nat.mul_lt_mul_of_pos_right hc (Nat.two_pow_pos k)
  have h3 : d.toNat < 2 ^ (a + k) :=
    Nat.lt_of_lt_of_le hd (Nat.pow_le_pow_right (by decide) (by omega))
  rw [shiftIn, BitVec.toNat_or]
  exact Nat.or_lt_two_pow (Nat.lt_of_le_of_lt h1 h2) h3

theorem getLsbD_digit (k m i : Nat) (v : BitVec w) :
    (digit k m v).getLsbD i = (decide (i < k) && v.getLsbD (k * m + i)) := by
  by_cases hi : i < w
  · simp only [digit, BitVec.getLsbD_and, BitVec.getLsbD_ushiftRight, getLsbD_lowMask, hi,
      decide_true, Bool.true_and, Bool.and_comm]
  · have hv : v.getLsbD (k * m + i) = false := BitVec.getLsbD_of_ge v _ (by omega)
    rw [BitVec.getLsbD_of_ge _ _ (by omega), hv, Bool.and_false]

theorem digit_lt (k m : Nat) (v : BitVec w) : (digit k m v).toNat < 2 ^ k := by
  have h : (digit k m v).toNat ≤ (lowMask w k).toNat := by
    rw [digit, BitVec.toNat_and]
    exact Nat.and_le_right
  have hm : (lowMask w k).toNat ≤ 2 ^ k - 1 := by
    rw [lowMask, BitVec.toNat_ofNat]
    exact Nat.mod_le _ _
  have hp : 0 < 2 ^ k := Nat.two_pow_pos k
  omega

theorem lt_of_mem_digits {k n : Nat} {v d : BitVec w} (h : d ∈ digits k n v) : d.toNat < 2 ^ k := by
  induction n with
  | zero => simp [digits] at h
  | succ n ih =>
    rcases List.mem_cons.mp h with rfl | h
    · exact digit_lt k n v
    · exact ih h

/-- **What shifting in the digits of `v` computes**, from any start value. -/
theorem foldl_digits (k m : Nat) (c v : BitVec w) :
    (digits k m v).foldl (shiftIn k) c = c <<< (k * m) ||| (v &&& lowMask w (k * m)) := by
  induction m generalizing c with
  | zero =>
    apply BitVec.eq_of_getLsbD_eq
    intro i hi
    simp [digits]
  | succ m ih =>
    rw [digits, List.foldl_cons, ih]
    apply BitVec.eq_of_getLsbD_eq
    intro i hi
    have hk : k * (m + 1) = k * m + k := by ring
    simp only [shiftIn, BitVec.getLsbD_or, BitVec.getLsbD_shiftLeft, BitVec.getLsbD_and,
      getLsbD_digit, getLsbD_lowMask, hi, decide_true, Bool.true_and, hk]
    by_cases h1 : i < k * m
    · have h2 : i < k * m + k := by omega
      simp [h1, h2]
    · by_cases h2 : i < k * m + k
      · have h3 : i - k * m < k := by omega
        have h4 : k * m + (i - k * m) = i := by omega
        simp [h1, h2, h3, h4]
      · have h3 : ¬ i - k * m < k := by omega
        have h4 : i - k * m - k = i - (k * m + k) := by omega
        have h5 : i - k * m < w := by omega
        simp [h1, h2, h3, h4, h5]

/-- **The round trip**: a word of `k * m` bits is rebuilt from its digits. -/
theorem ofDigits_digits {k m : Nat} {v : BitVec w} (h : v.toNat < 2 ^ (k * m)) :
    (digits k m v).foldl (shiftIn k) 0 = v := by
  rw [foldl_digits, and_lowMask_of_lt h]
  simp

/-! ## 2. Bits -/

/-- The low `n` bits, the most significant first. -/
def bits : Nat → BitVec w → List Bool
  | 0, _ => []
  | n + 1, v => v.getLsbD n :: bits n v

/-- The low `n` bits, the least significant first. -/
def lsbBits : Nat → BitVec w → List Bool
  | 0, _ => []
  | n + 1, v => v.getLsbD 0 :: lsbBits n (v >>> 1)

/-- A bit shifted in from the right. -/
def shiftInBit (c : BitVec w) (b : Bool) : BitVec w := c <<< 1 ||| (if b then 1 else 0)

@[simp] theorem length_bits (n : Nat) (v : BitVec w) : (bits n v).length = n := by
  induction n with
  | zero => rfl
  | succ n ih => rw [bits, List.length_cons, ih]

@[simp] theorem length_lsbBits (n : Nat) (v : BitVec w) : (lsbBits n v).length = n := by
  induction n generalizing v with
  | zero => rfl
  | succ n ih => rw [lsbBits, List.length_cons, ih]

theorem getElem_bits (n i : Nat) (v : BitVec w) (h : i < (bits n v).length) :
    (bits n v)[i] = v.getLsbD (n - 1 - i) := by
  induction n generalizing i with
  | zero => simp [bits] at h
  | succ n ih =>
    cases i with
    | zero => simp [bits]
    | succ i =>
      simp only [bits, List.getElem_cons_succ]
      rw [ih]
      congr 1
      omega

theorem getElem_lsbBits (n i : Nat) (v : BitVec w) (h : i < (lsbBits n v).length) :
    (lsbBits n v)[i] = v.getLsbD i := by
  induction n generalizing i v with
  | zero => simp [lsbBits] at h
  | succ n ih =>
    cases i with
    | zero => simp [lsbBits]
    | succ i =>
      simp only [lsbBits, List.getElem_cons_succ]
      rw [ih, BitVec.getLsbD_ushiftRight, Nat.add_comm]

/-- One bit of a word, as a digit. -/
theorem digit_one (m : Nat) (v : BitVec w) :
    digit 1 m v = if v.getLsbD m then 1 else 0 := by
  apply BitVec.eq_of_getLsbD_eq
  intro i hi
  rw [getLsbD_digit]
  cases hv : v.getLsbD m <;> cases i <;> simp_all

theorem foldl_bits_eq (n : Nat) (c v : BitVec w) :
    (bits n v).foldl shiftInBit c = (digits 1 n v).foldl (shiftIn 1) c := by
  induction n generalizing c with
  | zero => rfl
  | succ n ih =>
    rw [bits, digits, List.foldl_cons, List.foldl_cons, ih, digit_one]
    rfl

/-- **The round trip on single bits.** -/
theorem ofBits_bits {n : Nat} {v : BitVec w} (h : v.toNat < 2 ^ n) :
    (bits n v).foldl shiftInBit 0 = v := by
  rw [foldl_bits_eq]
  exact ofDigits_digits (by simpa using h)

/-- **What shifting in bits computes**: the last one is the lowest. -/
theorem getLsbD_foldl_shiftInBit (bs : List Bool) (c : BitVec w) (j : Nat) (hj : j < w) :
    (bs.foldl shiftInBit c).getLsbD j =
      if j < bs.length then bs.getD (bs.length - 1 - j) false else c.getLsbD (j - bs.length) := by
  induction bs generalizing c with
  | nil => simp
  | cons b bs ih =>
    rw [List.foldl_cons, ih, List.length_cons]
    by_cases h1 : j < bs.length
    · have h2 : j < bs.length + 1 := by omega
      have h3 : bs.length + 1 - 1 - j = (bs.length - 1 - j) + 1 := by omega
      rw [if_pos h1, if_pos h2, h3, List.getD_cons_succ]
    · rw [if_neg h1]
      by_cases h2 : j = bs.length
      · subst h2
        have h3 : bs.length < bs.length + 1 := by omega
        have h4 : bs.length + 1 - 1 - bs.length = 0 := by omega
        have h5 : 0 < w := by omega
        rw [if_pos h3, h4, Nat.sub_self, List.getD_cons_zero]
        cases b <;> simp [shiftInBit, h5]
      · have h3 : ¬ j < bs.length + 1 := by omega
        have h4 : j - bs.length = (j - (bs.length + 1)) + 1 := by omega
        have h5 : j - (bs.length + 1) + 1 < w := by omega
        rw [if_neg h3, h4, shiftInBit, BitVec.getLsbD_or, BitVec.getLsbD_shiftLeft]
        cases b <;> simp [h5]

/-- A value of fewer bits than the word is not the word of all ones. -/
theorem ne_allOnes_of_lt {v : BitVec w} {n : Nat} (h : v.toNat < 2 ^ n) (hn : n < w) :
    v ≠ BitVec.allOnes w := by
  intro e
  have hb : v.getLsbD n = false := getLsbD_of_lt h (Nat.le_refl n)
  rw [e] at hb
  simp [hn] at hb

/-- A mask walks down one place. -/
theorem one_shift_ushiftRight {s : Nat} (h : s + 1 < w) :
    ((1 : BitVec w) <<< (s + 1)) >>> 1 = (1 : BitVec w) <<< s := by
  apply BitVec.eq_of_getLsbD_eq
  intro i hi
  rw [BitVec.getLsbD_ushiftRight, BitVec.getLsbD_shiftLeft, BitVec.getLsbD_shiftLeft]
  by_cases hs : i < s
  · have h1 : 1 + i < s + 1 := by omega
    simp [hs, h1]
  · have h1 : ¬ 1 + i < s + 1 := by omega
    have h2 : 1 + i - (s + 1) = i - s := by omega
    by_cases hw : 1 + i < w
    · simp [hs, h1, h2, hi, hw]
    · have h3 : i - s ≠ 0 := by omega
      simp [BitVec.getLsbD_one, h2, h3]

end Signal
