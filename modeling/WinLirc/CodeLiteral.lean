/-
  File:      WinLirc/CodeLiteral.lean
  Subject:   winlirc/config.cpp: `s_strtocode`, and the literals of a code.

  `strtouqBeside` is the loop of `strtouq` over its table, with what a negative
  `char` reads beside it; `strtouq` is the case where that is no digit
  (`strtouq_eq`). `codeLiteral` says what a literal is. The two agree outside
  the strings of `Misread` (`sStrtocode_iff`).
-/
import WinLirc.Numbers
import WinLirc.ReadConfig

namespace WinLirc

open Signal (digitValue isDigitOf ofNumeral)

/-! ## 1. The table and the loop -/

/-- `convert[*val]`. A byte from 128 on is a negative `char`: it reads what lies
    beside the table. -/
def convert (beside : Char → Int) (c : Char) : Int :=
  if c.toNat < 128 then (digitValue c).elim (-1) fun n => (n : Int) else beside c

/-- The loop: `result` and `endptr`. -/
def strtouqLoop (table : Char → Int) (base : Nat) : IrCode → List Char → IrCode × List Char
  | result, [] => (result, [])
  | result, c :: val =>
    if table c = -1 then (result, c :: val)
    else strtouqLoop table base (result * BitVec.ofNat 64 base + BitVec.ofInt 64 (table c)) val

/-- `base`, and `val` where the loop begins. -/
def codePrefix : List Char → Nat × List Char
  | '0' :: 'x' :: t => (16, t)
  | '0' :: 'X' :: t => (16, t)
  | '0' :: t => (8, t)
  | t => (10, t)

/-- `strtouq(val,&endptr,0)`. -/
def strtouqBeside (beside : Char → Int) (val : List Char) : IrCode × List Char :=
  let s := codePrefix (val.dropWhile fun c => c == '\t' || c == ' ')
  strtouqLoop (convert beside) s.1 0 s.2

def sStrtocodeBeside (beside : Char → Int) (val : List Char) : Option IrCode :=
  let read := strtouqBeside beside val
  if read.2 ≠ [] ∨ val = [] then none else some read.1

theorem toNat_of_digit {c : Char} {n : Nat} (h : digitValue c = some n) :
    c.toNat < 128 ∧ n < 16 := by
  unfold digitValue at h
  split at h
  · next hc =>
    injection h with h
    have h1 : '0'.toNat ≤ c.toNat := hc.1
    have h2 : c.toNat ≤ '9'.toNat := hc.2
    have e1 : '0'.toNat = 48 := rfl
    have e2 : '9'.toNat = 57 := rfl
    omega
  · split at h
    · next hc =>
      injection h with h
      have h1 : 'a'.toNat ≤ c.toNat := hc.1
      have h2 : c.toNat ≤ 'f'.toNat := hc.2
      have e1 : 'a'.toNat = 97 := rfl
      have e2 : 'f'.toNat = 102 := rfl
      omega
    · split at h
      · next hc =>
        injection h with h
        have h1 : 'A'.toNat ≤ c.toNat := hc.1
        have h2 : c.toNat ≤ 'F'.toNat := hc.2
        have e1 : 'A'.toNat = 65 := rfl
        have e2 : 'F'.toNat = 70 := rfl
        omega
      · exact absurd h.symm (Option.some_ne_none _)

/-- The table has the value of a digit of any base up to 16. -/
theorem convert_of_digit (beside : Char → Int) {base : Nat} {c : Char}
    (h : isDigitOf base c = true) :
    convert beside c = ((digitValue c).getD 0 : Nat) ∧ convert beside c ≠ -1 := by
  unfold isDigitOf at h
  cases hd : digitValue c with
  | none =>
    rw [hd] at h
    exact absurd h Bool.false_ne_true
  | some n =>
    have he : convert beside c = (n : Int) := by
      unfold convert
      rw [if_pos (toNat_of_digit hd).1, hd]
      rfl
    rw [he]
    exact ⟨rfl, by omega⟩

section Loop

variable {table : Char → Int} {base : Nat}

/-- **The loop comes to the end** exactly if the table takes every character. -/
theorem strtouqLoop_end (result : IrCode) (s : List Char) :
    (strtouqLoop table base result s).2 = [] ↔ ∀ c ∈ s, table c ≠ -1 := by
  induction s generalizing result with
  | nil => exact ⟨fun _ _ hc => absurd hc List.not_mem_nil, fun _ => rfl⟩
  | cons c s ih =>
    rw [strtouqLoop, List.forall_mem_cons]
    by_cases hc : table c = -1
    · rw [if_pos hc]
      exact ⟨fun h => absurd h (List.cons_ne_nil _ _), fun h => absurd hc h.1⟩
    · rw [if_neg hc, ih]
      exact ⟨fun h => ⟨hc, h⟩, fun h => h.2⟩

/-- **The value of the loop** is that of the numeral, modulo `2 ^ 64`. -/
theorem strtouqLoop_value {s : List Char}
    (hdigits : ∀ c ∈ s, table c = ((digitValue c).getD 0 : Nat)) (hno : ∀ c ∈ s, table c ≠ -1)
    (n : Nat) :
    (strtouqLoop table base (BitVec.ofNat 64 n) s).1 =
      BitVec.ofNat 64 (s.foldl (fun n c => n * base + (digitValue c).getD 0) n) := by
  induction s generalizing n with
  | nil => rfl
  | cons c s ih =>
    obtain ⟨hc, hs⟩ := List.forall_mem_cons.mp hdigits
    obtain ⟨hnoc, hnos⟩ := List.forall_mem_cons.mp hno
    have hstep : BitVec.ofNat 64 n * BitVec.ofNat 64 base + BitVec.ofInt 64 (table c) =
        BitVec.ofNat 64 (n * base + (digitValue c).getD 0) := by
      rw [hc, BitVec.ofInt_natCast, ← BitVec.ofNat_mul, ← BitVec.ofNat_add]
    rw [strtouqLoop, if_neg hnoc, hstep, List.foldl_cons]
    exact ih hs hnos _

end Loop

theorem convert_of_other {c : Char} (h : isDigitOf 16 c = false) :
    convert (fun _ => -1) c = -1 := by
  have hnone : digitValue c = none := by
    cases hd : digitValue c with
    | none => rfl
    | some n =>
      unfold isDigitOf at h
      rw [hd] at h
      exact absurd (toNat_of_digit hd).2 (of_decide_eq_false h)
  unfold convert
  rw [hnone]
  exact ite_self _

/-- What lies beside the table is no digit in `strtouq`. -/
theorem strtouq_eq (val : List Char) : strtouq val = strtouqBeside (fun _ => -1) val := by
  have hloop : ∀ base s n, strtouqLoop (convert fun _ => -1) base (BitVec.ofNat 64 n) s =
      (BitVec.ofNat 64 ((s.takeWhile (isDigitOf 16)).foldl
        (fun n c => n * base + (digitValue c).getD 0) n), s.dropWhile (isDigitOf 16)) := by
    intro base s
    induction s with
    | nil => exact fun _ => rfl
    | cons c s ih =>
      intro n
      rw [strtouqLoop]
      cases hc : isDigitOf 16 c with
      | true =>
        obtain ⟨hvalue, hno⟩ := convert_of_digit (fun _ => -1) hc
        have hstep : BitVec.ofNat 64 n * BitVec.ofNat 64 base +
            BitVec.ofInt 64 (convert (fun _ => -1) c) =
              BitVec.ofNat 64 (n * base + (digitValue c).getD 0) := by
          rw [hvalue, BitVec.ofInt_natCast, ← BitVec.ofNat_mul, ← BitVec.ofNat_add]
        rw [if_neg hno, hstep, ih, List.takeWhile_cons_of_pos hc, List.dropWhile_cons_of_pos hc,
          List.foldl_cons]
      | false =>
        have hno : ¬ isDigitOf 16 c = true := fun h => Bool.false_ne_true (hc.symm.trans h)
        rw [if_pos (convert_of_other hc), List.takeWhile_cons_of_neg hno,
          List.dropWhile_cons_of_neg hno]
        rfl
  unfold strtouq strtouqBeside
  dsimp only
  generalize (val.dropWhile fun c => c == '\t' || c == ' ') = s
  exact (hloop (codePrefix s).1 (codePrefix s).2 0).symm

theorem sStrtocode_eq (val : List Char) : sStrtocode val = sStrtocodeBeside (fun _ => -1) val := by
  unfold sStrtocode sStrtocodeBeside
  rw [strtouq_eq]

/-! ## 2. Literals -/

/-- The base of a literal and its digits, the 0 of an octal one among them. -/
def numeralOf : List Char → Nat × List Char
  | '0' :: 'x' :: t => (16, t)
  | '0' :: 'X' :: t => (16, t)
  | '0' :: t => (8, '0' :: t)
  | t => (10, t)

/-- **The value of a code literal**: at least one digit, all of them digits of
    its base, and a value that fits in 64 bits. -/
def codeLiteral (val : List Char) : Option Nat :=
  let (base, digits) := numeralOf val
  let n := ofNumeral base digits
  if digits ≠ [] ∧ digits.all (isDigitOf base) = true ∧ n < 2 ^ 64 then some n else none

/-- The strings that are read as another number than they stand for. -/
inductive Misread (beside : Char → Int) (val : List Char) : Prop
  /-- A prefix alone. -/
  | bare (isPrefix : val = ['0', 'x'] ∨ val = ['0', 'X'])
  /-- A digit of another base, or a byte that reads like one beside the table. -/
  | stray (c : Char) (mem : c ∈ (numeralOf val).2) (other : isDigitOf (numeralOf val).1 c = false)
      (taken : ∀ c ∈ (numeralOf val).2, convert beside c ≠ -1)
  /-- A number of more than 64 bits. -/
  | wraps (digits : ∀ c ∈ (numeralOf val).2, isDigitOf (numeralOf val).1 c = true)
      (large : 2 ^ 64 ≤ ofNumeral (numeralOf val).1 (numeralOf val).2)

theorem convert_zero (beside : Char → Int) : convert beside '0' = 0 := rfl

theorem codePrefix_numeralOf (val : List Char) : (codePrefix val).1 = (numeralOf val).1 ∧
    ((numeralOf val).2 = (codePrefix val).2 ∨ (numeralOf val).2 = '0' :: (codePrefix val).2) := by
  unfold codePrefix numeralOf
  split
  · exact ⟨rfl, .inl rfl⟩
  · exact ⟨rfl, .inl rfl⟩
  · exact ⟨rfl, .inr rfl⟩
  · exact ⟨rfl, .inl rfl⟩

/-- A numeral without digits is nothing, or a prefix alone. -/
theorem numeralOf_eq_nil {val : List Char} (h : (numeralOf val).2 = []) :
    val = [] ∨ val = ['0', 'x'] ∨ val = ['0', 'X'] := by
  unfold numeralOf at h
  split at h
  · exact .inr (.inl (congrArg (fun t => '0' :: 'x' :: t) h))
  · exact .inr (.inr (congrArg (fun t => '0' :: 'X' :: t) h))
  · exact absurd h (List.cons_ne_nil _ _)
  · exact .inl h

theorem ofNumeral_codePrefix (val : List Char) :
    ofNumeral (codePrefix val).1 (codePrefix val).2 =
      ofNumeral (numeralOf val).1 (numeralOf val).2 := by
  obtain ⟨hbase, heq | heq⟩ := codePrefix_numeralOf val
  · rw [hbase, heq]
  · rw [hbase, heq]
    exact (Signal.ofNumeral_zeros _ 1 _).symm

section Read

variable {beside : Char → Int} {val : List Char}

theorem taken_codePrefix : (∀ c ∈ (codePrefix val).2, convert beside c ≠ -1) ↔
    ∀ c ∈ (numeralOf val).2, convert beside c ≠ -1 := by
  obtain ⟨-, heq | heq⟩ := codePrefix_numeralOf val
  · rw [heq]
  · have hzero : convert beside '0' ≠ -1 := by
      rw [convert_zero]
      decide
    rw [heq, List.forall_mem_cons]
    exact ⟨fun h => ⟨hzero, h⟩, fun h => h.2⟩

theorem strtouqBeside_eq (hws : ∀ c ∈ val, isWhitespace c = false) :
    strtouqBeside beside val = strtouqLoop (convert beside) (codePrefix val).1 0
      (codePrefix val).2 := by
  have hdrop : (val.dropWhile fun c => c == '\t' || c == ' ') = val := by
    cases val with
    | nil => rfl
    | cons c val =>
      refine List.dropWhile_cons_of_neg fun h => ?_
      have hc := hws c List.mem_cons_self
      unfold isWhitespace at hc
      rw [Bool.or_comm, hc] at h
      exact Bool.false_ne_true h
  unfold strtouqBeside
  rw [hdrop]

/-- **What is taken**: a string all of whose characters the table takes. -/
theorem sStrtocodeBeside_none_iff (hws : ∀ c ∈ val, isWhitespace c = false) :
    sStrtocodeBeside beside val = none ↔
      ¬ (val ≠ [] ∧ ∀ c ∈ (numeralOf val).2, convert beside c ≠ -1) := by
  unfold sStrtocodeBeside
  dsimp only
  rw [strtouqBeside_eq hws, ← taken_codePrefix]
  have hend := @strtouqLoop_end (convert beside) (codePrefix val).1 0 (codePrefix val).2
  by_cases htaken : ∀ c ∈ (codePrefix val).2, convert beside c ≠ -1
  · by_cases hval : val = []
    · rw [if_pos (.inr hval)]
      exact ⟨fun _ h => h.1 hval, fun _ => rfl⟩
    · rw [if_neg (by rw [hend.mpr htaken]; simp [hval])]
      exact ⟨fun h => absurd h (Option.some_ne_none _), fun h => absurd ⟨hval, htaken⟩ h⟩
  · rw [if_pos (.inl fun h => htaken (hend.mp h))]
    exact ⟨fun _ h => htaken h.2, fun _ => rfl⟩

/-- **The value** of a numeral that is taken. -/
theorem sStrtocodeBeside_value (hws : ∀ c ∈ val, isWhitespace c = false) (hval : val ≠ [])
    (hdigits : ∀ c ∈ (numeralOf val).2, isDigitOf (numeralOf val).1 c = true) :
    sStrtocodeBeside beside val =
      some (BitVec.ofNat 64 (ofNumeral (numeralOf val).1 (numeralOf val).2)) := by
  have hmem : ∀ c ∈ (codePrefix val).2, c ∈ (numeralOf val).2 := by
    obtain ⟨-, heq | heq⟩ := codePrefix_numeralOf val
    · rw [heq]
      exact fun _ hc => hc
    · rw [heq]
      exact fun _ hc => List.mem_cons_of_mem _ hc
  have htable : ∀ c ∈ (codePrefix val).2,
      convert beside c = ((digitValue c).getD 0 : Nat) ∧ convert beside c ≠ -1 :=
    fun c hc => convert_of_digit beside (hdigits c (hmem c hc))
  have hend := (@strtouqLoop_end (convert beside) (codePrefix val).1 0 (codePrefix val).2).mpr fun c hc => (htable c hc).2
  have hvalue := @strtouqLoop_value (convert beside) (codePrefix val).1 _
    (fun c hc => (htable c hc).1) (fun c hc => (htable c hc).2) 0
  unfold sStrtocodeBeside
  rw [strtouqBeside_eq hws]
  dsimp only
  rw [if_neg (by rw [hend]; simp [hval]), ← ofNumeral_codePrefix]
  exact congrArg some hvalue

theorem codeLiteral_some {n : Nat} (h : codeLiteral val = some n) :
    (numeralOf val).2 ≠ [] ∧ (∀ c ∈ (numeralOf val).2, isDigitOf (numeralOf val).1 c = true) ∧
      n < 2 ^ 64 ∧ n = ofNumeral (numeralOf val).1 (numeralOf val).2 := by
  unfold codeLiteral at h
  dsimp only at h
  split at h
  · next hc =>
    injection h with h
    exact ⟨hc.1, List.all_eq_true.mp hc.2.1, h ▸ hc.2.2, h.symm⟩
  · exact absurd h.symm (Option.some_ne_none _)

theorem ne_nil_of_numeralOf (h : (numeralOf val).2 ≠ []) : val ≠ [] := by
  rintro rfl
  exact h rfl

end Read

/-- **Where `s_strtocode` reads literals**: outside `Misread` it takes those and
    no other strings, and answers their value. -/
theorem sStrtocode_iff (beside : Char → Int) (val : List Char)
    (hws : ∀ c ∈ val, isWhitespace c = false) :
    (sStrtocodeBeside beside val).map BitVec.toNat = codeLiteral val ↔ ¬ Misread beside val := by
  have hnone := @sStrtocodeBeside_none_iff beside val hws
  constructor
  · -- a misread string is taken, and no literal
    intro hagree hmis
    have hno : codeLiteral val = none := by
      cases hl : codeLiteral val with
      | none => rfl
      | some n =>
        obtain ⟨hne, hdigits, hlt, hn⟩ := codeLiteral_some hl
        cases hmis with
        | bare h => rcases h with rfl | rfl <;> exact absurd rfl hne
        | stray c hc hother _ => exact absurd ((hdigits c hc).symm.trans hother) (by decide)
        | wraps _ hlarge => exact absurd (hn ▸ hlarge) (Nat.not_le_of_lt hlt)
    rw [hno, Option.map_eq_none_iff, hnone] at hagree
    refine hagree ?_
    cases hmis with
    | bare h =>
      rcases h with rfl | rfl <;>
        exact ⟨List.cons_ne_nil _ _, fun _ hc => absurd hc List.not_mem_nil⟩
    | stray c hc _ htaken => exact ⟨ne_nil_of_numeralOf (List.ne_nil_of_mem hc), htaken⟩
    | wraps hdigits hlarge =>
      refine ⟨ne_nil_of_numeralOf fun h0 => ?_, fun c hc =>
        (convert_of_digit beside (hdigits c hc)).2⟩
      have hzero : ofNumeral (numeralOf val).1 (numeralOf val).2 = 0 := by
        rw [h0]
        rfl
      omega
  · intro hmis
    by_cases htaken : val ≠ [] ∧ ∀ c ∈ (numeralOf val).2, convert beside c ≠ -1
    · have hdigits : ∀ c ∈ (numeralOf val).2, isDigitOf (numeralOf val).1 c = true := by
        intro c hc
        cases hd : isDigitOf (numeralOf val).1 c with
        | true => rfl
        | false => exact absurd (.stray c hc hd htaken.2) hmis
      have hlt : ofNumeral (numeralOf val).1 (numeralOf val).2 < 2 ^ 64 :=
        Nat.lt_of_not_le fun hle => hmis (.wraps hdigits hle)
      have hne : (numeralOf val).2 ≠ [] := by
        intro h0
        rcases numeralOf_eq_nil h0 with h | h
        · exact htaken.1 h
        · exact hmis (.bare h)
      rw [sStrtocodeBeside_value hws htaken.1 hdigits]
      unfold codeLiteral
      dsimp only
      rw [if_pos ⟨hne, List.all_eq_true.mpr hdigits, hlt⟩, Option.map_some, BitVec.toNat_ofNat,
        Nat.mod_eq_of_lt hlt]
    · rw [hnone.mpr htaken]
      cases hl : codeLiteral val with
      | none => rfl
      | some n =>
        obtain ⟨hne, hdigits, -, -⟩ := codeLiteral_some hl
        exact absurd ⟨ne_nil_of_numeralOf hne,
          fun c hc => (convert_of_digit beside (hdigits c hc)).2⟩ htaken

theorem sStrtocode_iff_hex :
    (sStrtocodeBeside (fun _ => -1) "0x1F".toList).map BitVec.toNat =
      codeLiteral "0x1F".toList := by
  have hall : "0x1F".toList.all (fun c => !isWhitespace c) = true := by decide
  have hws : ∀ c ∈ "0x1F".toList, isWhitespace c = false :=
    fun c hc => Bool.not_eq_true' _ ▸ List.all_eq_true.mp hall c hc
  refine (sStrtocode_iff (fun _ => -1) "0x1F".toList hws).mpr fun h => ?_
  cases h with
  | bare h => exact absurd h (by decide)
  | stray c hc hother _ =>
    rcases List.mem_cons.mp hc with rfl | hc
    · exact absurd hother (by decide)
    · rw [List.mem_singleton.mp hc] at hother
      exact absurd hother (by decide)
  | wraps _ hlarge => exact absurd hlarge (by decide)

/-- A decimal number with a hexadecimal digit, and one of 65 bits. -/
theorem sStrtocode_misreads :
    (sStrtocode "9a".toList = some 100 ∧ codeLiteral "9a".toList = none) ∧
    (sStrtocode "08".toList = some 8 ∧ codeLiteral "08".toList = none) ∧
    (sStrtocode "0x".toList = some 0 ∧ codeLiteral "0x".toList = none) ∧
    sStrtocode "18446744073709551617".toList = some 1 ∧
      codeLiteral "18446744073709551617".toList = none := by
  decide +kernel

end WinLirc
