/-
  File:      WinLirc/TxBitmask.lean
  Subject:   The emitter bits of DLL/CommandIR/CommandIRUtils/libcmdir.c:
             `set_long_tx_bit`, `get_bitmask`, and the walk of
             `commandir_sendir` over the devices.

  The bits stand in the 128 bytes of `long_tx_bitmask`, so emitter 1024 is the
  last one with a bit, though the calls let 2048 through. `none` is an access out
  of the array, or a shift by -1, which is what a start at a multiple of eight
  comes to.

  * `addByte_collected`: what one byte adds to the result;
  * `getBitmask_undefined`, `getBitmask_collected`: what is not defined, and else the
    emitters of the `extent` from the start on, which is the number asked for or
    more;
  * `getBitmask_emitters`: for which emitters, starts and numbers this is as asked
    for, by itself and in the walk.
-/
import Mathlib.Algebra.GroupWithZero.Nat
import Mathlib.Logic.Function.Basic
import WinLirc.Signal.Runs

namespace WinLirc.CommandIR

open Signal

/-! ## 1. The bytes -/

abbrev LongTxBitmask := Fin 128 → BitVec 8

namespace LongTxBitmask

def byte (m : LongTxBitmask) (a : Nat) : Option (BitVec 8) :=
  if h : a < 128 then some (m ⟨a, h⟩) else none

/-- The bit of an emitter; the first emitter is number 1. -/
def emitter (m : LongTxBitmask) (e : Nat) : Bool :=
  (m.byte ((e - 1) / 8)).any fun byte => byte.getLsbD ((e - 1) % 8)

end LongTxBitmask

def setAllBitmask (d : BitVec 8) : LongTxBitmask := fun _ => d

def setLongTxBit (m : LongTxBitmask) (bitnum : Int) : Option LongTxBitmask :=
  if bitnum < 1 ∨ 2048 < bitnum then some m
  else
    let bitnum := (bitnum - 1).toNat
    let a := bitnum / 8
    let b := bitnum % 8
    if h : a < 128 then some (Function.update m ⟨a, h⟩ (m ⟨a, h⟩ ||| 1#8 <<< b)) else none

/-- The calls one after the other, after all bits are cleared. -/
def setBits (bitnums : List Int) : Option LongTxBitmask :=
  runSteps setLongTxBit (setAllBitmask 0) bitnums

/-! ## 2. `get_bitmask` -/

structure BitmaskState where
  memStartByte : Nat
  memStartBit : Nat
  resultBitmask : BitVec 32 := 0
  keepBitmask : BitVec 32 := 0
  bitsDone : Nat := 0

/-- `keep_bitmask = (keep_bitmask << 1) | 0x01` so many times. -/
def keepLoop : Nat → BitVec 32 → BitVec 32
  | 0, keep => keep
  | x + 1, keep => keepLoop x (keep <<< 1 ||| 1#32)

/-- What a turn makes of a byte. -/
def addByte (numBits : Nat) (byte : BitVec 8) (s : BitmaskState) : BitmaskState :=
  let build := byte.setWidth 32 >>> (s.memStartBit - 1)
  let trim := numBits < 8 - s.memStartBit
  let keep := if trim then keepLoop numBits s.keepBitmask else s.keepBitmask
  let build := if trim then build &&& keep else build
  { memStartByte := s.memStartByte + 1
    memStartBit := 1
    resultBitmask := s.resultBitmask ||| build <<< s.bitsDone
    keepBitmask := keep
    bitsDone := s.bitsDone + (9 - s.memStartBit) }

/-- One turn of the loop. A shift by -1, or by 32 and more, is not defined. -/
def bitmaskTurn (m : LongTxBitmask) (numBits : Nat) (s : BitmaskState) : Option BitmaskState :=
  if s.memStartBit = 0 ∨ 32 ≤ s.bitsDone then none
  else (m.byte s.memStartByte).map fun byte => addByte numBits byte s

def bitmaskLoop (m : LongTxBitmask) (numBits : Nat) : Nat → BitmaskState → Option (BitVec 32)
  | 0, _ => none
  | fuel + 1, s =>
    if s.bitsDone < numBits then
      (bitmaskTurn m numBits s).bind fun s' => bitmaskLoop m numBits fuel s'
    else some s.resultBitmask

def getBitmask (m : LongTxBitmask) (startBit numBits : Int) : Option (BitVec 32) :=
  if startBit ≤ 0 then some 0
  else if numBits ≤ 0 then some 0
  else if 2048 < startBit + numBits then some 0
  else
    bitmaskLoop m numBits.toNat (numBits.toNat + 1)
      { memStartByte := startBit.toNat / 8, memStartBit := startBit.toNat % 8 }

/-! ## 3. One turn -/

section Turn

variable {m : LongTxBitmask} {s : BitmaskState} {start numBits : Nat}

/-- The next bit of the byte is the next emitter. -/
structure AtPlace (start : Nat) (s : BitmaskState) : Prop where
  place : 8 * s.memStartByte + s.memStartBit = start + s.bitsDone
  bit_pos : 1 ≤ s.memStartBit
  bit_le : s.memStartBit ≤ 7

/-- The result has the emitters of the first `got` places. -/
def Collected (m : LongTxBitmask) (start got : Nat) (result : BitVec 32) : Prop :=
  ∀ i < 32, result.getLsbD i = (decide (i < got) && m.emitter (start + i))

/-- The number of bits that a turn adds. -/
def turnWidth (numBits memStartBit : Nat) : Nat :=
  if numBits < 8 - memStartBit then numBits else 9 - memStartBit

theorem getLsbD_keepLoop (n : Nat) (keep : BitVec 32) {i : Nat} (hi : i < 32) :
    (keepLoop n keep).getLsbD i = (decide (i < n) || keep.getLsbD (i - n)) := by
  induction n generalizing keep with
  | zero => simp [keepLoop]
  | succ n ih =>
    rw [keepLoop, ih, BitVec.getLsbD_or, BitVec.getLsbD_shiftLeft, BitVec.getLsbD_one]
    rcases Nat.lt_trichotomy i n with hlt | rfl | hgt
    · rw [decide_eq_true hlt, decide_eq_true (Nat.lt_succ_of_lt hlt), Bool.true_or, Bool.true_or]
    · simp
    · have h1 : ¬ i < n := by omega
      have h2 : ¬ i < n + 1 := by omega
      have h3 : i - n < 32 := by omega
      have h4 : ¬ i - n < 1 := by omega
      have h5 : ¬ i - n = 0 := by omega
      have h6 : i - n - 1 = i - (n + 1) := by omega
      simp [h1, h2, h3, h4, h5, h6]

/-- The bits of a byte that a turn takes, moved to the front and cut off. -/
def takenBits (numBits memStartBit : Nat) (byte : BitVec 8) : BitVec 32 :=
  if numBits < 8 - memStartBit then byte.setWidth 32 >>> (memStartBit - 1) &&& keepLoop numBits 0
  else byte.setWidth 32 >>> (memStartBit - 1)

theorem getLsbD_takenBits (byte : BitVec 8) {memStartBit j : Nat} (numBits : Nat)
    (hle : memStartBit ≤ 7) (hj : j < 32) :
    (takenBits numBits memStartBit byte).getLsbD j =
      (decide (j < turnWidth numBits memStartBit) && byte.getLsbD (memStartBit - 1 + j)) := by
  have hbyte : (byte.setWidth 32 >>> (memStartBit - 1)).getLsbD j = byte.getLsbD (memStartBit - 1 + j) := by
    rw [BitVec.getLsbD_ushiftRight, BitVec.getLsbD_setWidth]
    by_cases h : memStartBit - 1 + j < 32
    · rw [decide_eq_true h, Bool.true_and]
    · rw [decide_eq_false h, Bool.false_and, BitVec.getLsbD_of_ge byte _ (by omega)]
  unfold takenBits turnWidth
  by_cases htrim : numBits < 8 - memStartBit
  · have hkeep : (keepLoop numBits 0).getLsbD j = decide (j < numBits) := by
      rw [getLsbD_keepLoop _ _ hj]
      simp
    rw [if_pos htrim, if_pos htrim, BitVec.getLsbD_and, hbyte, hkeep, Bool.and_comm]
  · rw [if_neg htrim, if_neg htrim, hbyte]
    by_cases h : j < 9 - memStartBit
    · rw [decide_eq_true h, Bool.true_and]
    · rw [decide_eq_false h, Bool.false_and, BitVec.getLsbD_of_ge byte _ (by omega)]

/-- The emitters of the byte at a place. -/
theorem emitter_byte {byte : BitVec 8} {j : Nat} (hat : AtPlace start s)
    (hbyte : m.byte s.memStartByte = some byte) (hj : j < 9 - s.memStartBit) :
    m.emitter (start + (s.bitsDone + j)) = byte.getLsbD (s.memStartBit - 1 + j) := by
  obtain ⟨hplace, hpos, -⟩ := hat
  have hdiv : (start + (s.bitsDone + j) - 1) / 8 = s.memStartByte := by omega
  have hmod : (start + (s.bitsDone + j) - 1) % 8 = s.memStartBit - 1 + j := by omega
  rw [LongTxBitmask.emitter, hdiv, hmod, hbyte]
  rfl

theorem addByte_place (numBits : Nat) (byte : BitVec 8) (hat : AtPlace start s) :
    AtPlace start (addByte numBits byte s) := by
  obtain ⟨hplace, hpos, hle⟩ := hat
  refine ⟨?_, Nat.le_refl 1, Nat.le_add_left 1 6⟩
  show 8 * (s.memStartByte + 1) + 1 = start + (s.bitsDone + (9 - s.memStartBit))
  omega

theorem addByte_keep {byte : BitVec 8} (h : ¬ numBits < 8 - s.memStartBit) :
    (addByte numBits byte s).keepBitmask = s.keepBitmask := if_neg h

theorem addByte_result {byte : BitVec 8} (hkeep : s.keepBitmask = 0) :
    (addByte numBits byte s).resultBitmask =
      s.resultBitmask ||| takenBits numBits s.memStartBit byte <<< s.bitsDone := by
  unfold addByte takenBits
  by_cases h : numBits < 8 - s.memStartBit
  · simp only [h, if_true, hkeep]
  · simp only [h, if_false]

/-- **One turn** adds the emitters of what is left of a byte, or the number asked
    for where more than that is left. -/
theorem addByte_collected {byte : BitVec 8} (numBits : Nat) (hat : AtPlace start s)
    (hbyte : m.byte s.memStartByte = some byte) (hkeep : s.keepBitmask = 0)
    (hgot : Collected m start s.bitsDone s.resultBitmask) :
    Collected m start (s.bitsDone + turnWidth numBits s.memStartBit)
      (addByte numBits byte s).resultBitmask := by
  intro i hi
  rw [addByte_result hkeep, BitVec.getLsbD_or, hgot i hi, BitVec.getLsbD_shiftLeft, decide_eq_true hi,
    Bool.true_and]
  by_cases hold : i < s.bitsDone
  · rw [decide_eq_true hold, decide_eq_true (by omega : i < s.bitsDone + turnWidth numBits s.memStartBit)]
    simp
  · obtain ⟨j, rfl⟩ := Nat.exists_eq_add_of_le (Nat.not_lt.mp hold)
    rw [decide_eq_false hold, Bool.false_and, Bool.false_or, Bool.not_false, Bool.true_and,
      Nat.add_sub_cancel_left, getLsbD_takenBits byte numBits hat.bit_le (by omega)]
    by_cases hnew : j < turnWidth numBits s.memStartBit
    · have hwidth : turnWidth numBits s.memStartBit ≤ 9 - s.memStartBit := by
        unfold turnWidth
        split <;> omega
      rw [decide_eq_true hnew, decide_eq_true (by omega : s.bitsDone + j < s.bitsDone + _),
        emitter_byte hat hbyte (Nat.lt_of_lt_of_le hnew hwidth)]
    · rw [decide_eq_false hnew, decide_eq_false (by omega : ¬ s.bitsDone + j < s.bitsDone + _),
        Bool.false_and, Bool.false_and]

theorem bitmaskTurn_in (m : LongTxBitmask) (numBits : Nat) (hat : AtPlace start s)
    (hdone : s.bitsDone < 32) (hbyte : s.memStartByte < 128) :
    ∃ byte, m.byte s.memStartByte = some byte ∧
      bitmaskTurn m numBits s = some (addByte numBits byte s) := by
  have hsome : m.byte s.memStartByte = some (m ⟨s.memStartByte, hbyte⟩) := dif_pos hbyte
  have hpos := hat.bit_pos
  refine ⟨_, hsome, ?_⟩
  rw [bitmaskTurn, if_neg (by omega), hsome]
  rfl

theorem bitmaskTurn_out (h : 128 ≤ s.memStartByte) : bitmaskTurn m numBits s = none := by
  have hbyte : m.byte s.memStartByte = none := dif_neg (Nat.not_lt.mpr h)
  rw [bitmaskTurn, hbyte]
  split <;> rfl

end Turn

/-! ## 4. All turns -/

section Loop

variable {m : LongTxBitmask} {s : BitmaskState} {start numBits fuel : Nat}

theorem bitmaskLoop_stop (h : numBits ≤ s.bitsDone) :
    bitmaskLoop m numBits (fuel + 1) s = some s.resultBitmask := if_neg (Nat.not_lt.mpr h)

theorem bitmaskLoop_turn (h : s.bitsDone < numBits) :
    bitmaskLoop m numBits (fuel + 1) s =
      (bitmaskTurn m numBits s).bind fun s' => bitmaskLoop m numBits fuel s' := if_pos h

/-- The last emitter asked for is in a byte behind the last one. -/
theorem bitmaskLoop_out (hat : AtPlace start s) (hdone : s.bitsDone < numBits) (hnum : numBits ≤ 32)
    (hout : 1025 < start + numBits) : bitmaskLoop m numBits fuel s = none := by
  induction fuel generalizing s with
  | zero => rfl
  | succ fuel ih =>
    rw [bitmaskLoop_turn hdone]
    rcases Nat.lt_or_ge s.memStartByte 128 with hin | hbyte
    · obtain ⟨byte, -, hturn⟩ := bitmaskTurn_in m numBits hat (by omega) hin
      have hat' := addByte_place numBits byte hat
      have hplace : 8 * (s.memStartByte + 1) + 1 = start + (addByte numBits byte s).bitsDone := hat'.place
      rw [hturn, Option.bind_some]
      exact ih hat' (by omega)
    · rw [bitmaskTurn_out hbyte]
      rfl

/-- **Bytes from their first bit on**: with seven bits or more to get, none is cut
    off. -/
theorem bitmaskLoop_all (hat : AtPlace start s) (hbit : s.memStartBit = 1) (hkeep : s.keepBitmask = 0)
    (hgot : Collected m start s.bitsDone s.resultBitmask) (h7 : 7 ≤ numBits) (hnum : numBits ≤ 32)
    (hin : start + numBits ≤ 1025) (hfuel : numBits - s.bitsDone < fuel) :
    ∃ result, bitmaskLoop m numBits fuel s = some result ∧
      Collected m start (s.bitsDone + 8 * ((numBits - s.bitsDone + 7) / 8)) result := by
  induction fuel generalizing s with
  | zero => exact absurd hfuel (Nat.not_lt_zero _)
  | succ fuel ih =>
    rcases Nat.lt_or_ge s.bitsDone numBits with hdone | hdone
    · have hplace := hat.place
      obtain ⟨byte, hbyte, hturn⟩ :=
        bitmaskTurn_in m numBits hat (by omega) (by omega)
      have hwhole : ¬ numBits < 8 - s.memStartBit := by omega
      have hgot' := addByte_collected numBits hat hbyte hkeep hgot
      have hwidth : turnWidth numBits s.memStartBit = 9 - s.memStartBit := if_neg hwhole
      rw [hwidth] at hgot'
      have hdone' : (addByte numBits byte s).bitsDone = s.bitsDone + 8 := by
        show s.bitsDone + (9 - s.memStartBit) = _
        rw [hbit]
      rw [bitmaskLoop_turn hdone, hturn, Option.bind_some]
      obtain ⟨result, hresult, hall⟩ := ih (addByte_place numBits byte hat) rfl
        ((addByte_keep hwhole).trans hkeep) hgot' (by omega)
      refine ⟨result, hresult, ?_⟩
      have hcount : (addByte numBits byte s).bitsDone + 8 * ((numBits - (addByte numBits byte s).bitsDone + 7) / 8)
          = s.bitsDone + 8 * ((numBits - s.bitsDone + 7) / 8) := by omega
      rw [← hcount]
      exact hall
    · refine ⟨s.resultBitmask, bitmaskLoop_stop hdone, ?_⟩
      have hcount : s.bitsDone + 8 * ((numBits - s.bitsDone + 7) / 8) = s.bitsDone := by omega
      rw [hcount]
      exact hgot

end Loop

/-- How many emitters from the start on the result has: to the end of the byte
    unless at least two less were asked for, and then whole bytes. -/
def extent (start num : Nat) : Nat :=
  let first := 9 - start % 8
  if num + 1 < first then num
  else if num ≤ first then first
  else if num < 7 then first + num
  else first + 8 * ((num - first + 7) / 8)

theorem num_le_extent (start num : Nat) : num ≤ extent start num := by
  unfold extent
  dsimp only
  split
  · exact Nat.le_refl _
  · split
    · assumption
    · split <;> omega

/-- What may be asked for. -/
structure EmitterRange where
  start : Nat
  num : Nat
  start_pos : 1 ≤ start
  num_pos : 1 ≤ num
  num_le : num ≤ 32
  stop_le : start + num ≤ 2048

namespace EmitterRange

variable {m : LongTxBitmask} {r : EmitterRange}

/-- The state before the first turn. -/
def begin (r : EmitterRange) : BitmaskState :=
  { memStartByte := r.start / 8, memStartBit := r.start % 8 }

theorem getBitmask_eq (m : LongTxBitmask) (r : EmitterRange) :
    getBitmask m r.start r.num = bitmaskLoop m r.num (r.num + 1) r.begin := by
  have hstart := r.start_pos
  have hnum := r.num_pos
  have hstop := r.stop_le
  rw [getBitmask, if_neg (by omega), if_neg (by omega), if_neg (by omega)]
  rfl

theorem begin_place (h : r.start % 8 ≠ 0) : AtPlace r.start r.begin := by
  refine ⟨?_, Nat.pos_of_ne_zero h, Nat.le_of_lt_succ (Nat.mod_lt r.start (by decide))⟩
  exact Nat.div_add_mod r.start 8

/-- **What is not defined**: a start at a multiple of eight, and an emitter that
    has no bit. -/
theorem getBitmask_undefined (h : r.start % 8 = 0 ∨ 1025 < r.start + r.num) :
    getBitmask m r.start r.num = none := by
  have hpos := r.num_pos
  rw [getBitmask_eq]
  by_cases hzero : r.start % 8 = 0
  · have hturn : bitmaskTurn m r.num r.begin = none := if_pos (Or.inl hzero)
    rw [bitmaskLoop_turn hpos, hturn]
    rfl
  · exact bitmaskLoop_out (begin_place hzero) hpos r.num_le (h.resolve_left hzero)

/-- **What is returned** else. -/
theorem getBitmask_collected (m : LongTxBitmask) (hzero : r.start % 8 ≠ 0) (hin : r.start + r.num ≤ 1025) :
    ∃ result, getBitmask m r.start r.num = some result ∧ Collected m r.start (extent r.start r.num) result := by
  have hpos := r.num_pos
  have hle := r.num_le
  have hat := begin_place hzero
  have hnone : Collected m r.start r.begin.bitsDone r.begin.resultBitmask := by
    intro i _
    show (0#32).getLsbD i = (decide (i < 0) && _)
    rw [BitVec.getLsbD_zero, decide_eq_false (Nat.not_lt_zero i), Bool.false_and]
  have hq : r.begin.memStartByte < 128 := by
    show r.start / 8 < 128
    omega
  obtain ⟨byte, hbyte, hturn⟩ := bitmaskTurn_in m r.num hat (Nat.zero_lt_succ 31) hq
  have hat1 := addByte_place r.num byte hat
  have hgot1 := addByte_collected r.num hat hbyte rfl hnone
  have hdone1 : (addByte r.num byte r.begin).bitsDone = 9 - r.start % 8 := Nat.zero_add _
  have hplace1 : 8 * (r.start / 8 + 1) + 1 = r.start + (addByte r.num byte r.begin).bitsDone := hat1.place
  have hloop : bitmaskLoop m r.num r.num (addByte r.num byte r.begin) =
      bitmaskLoop m r.num (r.num - 1 + 1) (addByte r.num byte r.begin) := by
    rw [Nat.sub_add_cancel hpos]
  rw [getBitmask_eq, bitmaskLoop_turn hpos, hturn, Option.bind_some, hloop]
  unfold extent
  dsimp only
  rw [← hdone1]
  by_cases hcut : r.num < 8 - r.start % 8
  · -- the rest of the first byte is cut off
    have hwidth : turnWidth r.num r.begin.memStartBit = r.num := if_pos hcut
    rw [hwidth, show r.begin.bitsDone = 0 from rfl, Nat.zero_add] at hgot1
    rw [if_pos (by omega), bitmaskLoop_stop (by omega)]
    exact ⟨_, rfl, hgot1⟩
  · have hwidth : turnWidth r.num r.begin.memStartBit = 9 - r.start % 8 := if_neg hcut
    have hkeep : (addByte r.num byte r.begin).keepBitmask = 0 := addByte_keep hcut
    rw [hwidth, show r.begin.bitsDone = 0 from rfl, Nat.zero_add, ← hdone1] at hgot1
    rw [if_neg (by omega)]
    rcases Nat.lt_or_ge (addByte r.num byte r.begin).bitsDone r.num with hdone | hdone
    · rw [if_neg (Nat.not_le.mpr hdone)]
      by_cases h7 : r.num < 7
      · -- one more byte, and it is cut to the whole number
        obtain ⟨byte', hbyte', hturn'⟩ :=
          bitmaskTurn_in m r.num hat1 (by omega) (by
            show r.start / 8 + 1 < 128
            omega)
        have hgot2 := addByte_collected r.num hat1 hbyte' hkeep hgot1
        have hwidth' : turnWidth r.num (addByte r.num byte r.begin).memStartBit = r.num := if_pos h7
        have hdone2 : r.num ≤ (addByte r.num byte' (addByte r.num byte r.begin)).bitsDone := by
          show r.num ≤ (addByte r.num byte r.begin).bitsDone + 8
          omega
        rw [hwidth'] at hgot2
        have hfuel : r.num - 1 = r.num - 2 + 1 := by omega
        rw [if_pos h7, bitmaskLoop_turn hdone, hturn', Option.bind_some, hfuel, bitmaskLoop_stop hdone2]
        exact ⟨_, rfl, hgot2⟩
      · rw [if_neg h7]
        exact bitmaskLoop_all hat1 rfl hkeep hgot1 (Nat.not_lt.mp h7) hle hin (by omega)
    · rw [if_pos hdone, bitmaskLoop_stop hdone]
      exact ⟨_, rfl, hgot1⟩

end EmitterRange

/-! ## 5. The bits that were set -/

section Set

variable {m : LongTxBitmask} {bitnums : List Int} {e : Nat}

theorem emitter_eq (m : LongTxBitmask) (h : e ≤ 1024) (hpos : 1 ≤ e) :
    m.emitter e = (m ⟨(e - 1) / 8, by omega⟩).getLsbD ((e - 1) % 8) := by
  have hbyte : m.byte ((e - 1) / 8) = some (m ⟨(e - 1) / 8, by omega⟩) := dif_pos (by omega)
  rw [LongTxBitmask.emitter, hbyte]
  rfl

/-- Every number that is let through has a bit. -/
def SetInArray (bitnums : List Int) : Prop := ∀ b ∈ bitnums, 1024 < b → 2048 < b

theorem setLongTxBit_out {b : Int} (h : 1024 < b) (h' : b ≤ 2048) : setLongTxBit m b = none := by
  rw [setLongTxBit, if_neg (by omega)]
  exact dif_neg (by omega)

/-- **One call** sets the bit of its emitter, if it names one. -/
theorem setLongTxBit_in {b : Int} (h : 1024 < b → 2048 < b) :
    ∃ m', setLongTxBit m b = some m' ∧
      ∀ e, 1 ≤ e → e ≤ 1024 → m'.emitter e = (m.emitter e || decide ((e : Int) = b)) := by
  by_cases hskip : b < 1 ∨ 2048 < b
  · refine ⟨m, if_pos hskip, fun e hpos hle => ?_⟩
    rw [decide_eq_false (by omega), Bool.or_false]
  · obtain ⟨n, rfl⟩ : ∃ n : Nat, b = (n + 1 : Nat) := ⟨(b - 1).toNat, by omega⟩
    have hn : ((n + 1 : Nat) - 1 : Int).toNat = n := by omega
    have ha : n / 8 < 128 := by omega
    refine ⟨Function.update m ⟨n / 8, ha⟩ (m ⟨n / 8, ha⟩ ||| 1#8 <<< (n % 8)), ?_, fun e hpos hle => ?_⟩
    · rw [setLongTxBit, if_neg hskip, hn]
      exact dif_pos ha
    · rw [emitter_eq _ hle hpos, emitter_eq _ hle hpos]
      by_cases hsame : (e - 1) / 8 = n / 8
      · have hmod : (e - 1) % 8 < 8 := Nat.mod_lt _ (by decide)
        have hbit : (1#8 <<< (n % 8)).getLsbD ((e - 1) % 8) = decide ((e : Int) = (n + 1 : Nat)) := by
          rw [BitVec.getLsbD_shiftLeft, BitVec.getLsbD_one, decide_eq_true hmod]
          simp only [Bool.true_and, Nat.zero_lt_succ, decide_true]
          by_cases he : (e : Int) = (n + 1 : Nat)
          · rw [decide_eq_true he]
            have h1 : ¬ (e - 1) % 8 < n % 8 := by omega
            have h2 : (e - 1) % 8 - n % 8 = 0 := by omega
            simp [h1, h2]
          · rw [decide_eq_false he]
            have h1 : (e - 1) % 8 < n % 8 ∨ (e - 1) % 8 - n % 8 ≠ 0 := by omega
            rcases h1 with h1 | h1 <;> simp [h1]
        have hidx : (⟨(e - 1) / 8, by omega⟩ : Fin 128) = ⟨n / 8, ha⟩ := Fin.ext hsame
        rw [hidx, Function.update_self, BitVec.getLsbD_or, hbit]
      · have hidx : (⟨(e - 1) / 8, by omega⟩ : Fin 128) ≠ ⟨n / 8, ha⟩ := fun h => hsame (Fin.val_eq_of_eq h)
        rw [Function.update_of_ne hidx, decide_eq_false (by omega), Bool.or_false]

theorem setBits_snoc (bitnums : List Int) (b : Int) :
    setBits (bitnums ++ [b]) = (setBits bitnums).bind fun m => setLongTxBit m b := by
  rw [setBits, setBits, runSteps_append]
  congr 1
  funext m
  exact Option.bind_fun_some _

theorem setBits_out (h : ¬ SetInArray bitnums) : setBits bitnums = none := by
  induction bitnums using List.reverseRecOn with
  | nil => exact absurd (fun b hb => absurd hb List.not_mem_nil) h
  | append_singleton bitnums b ih =>
    rw [setBits_snoc]
    by_cases hall : SetInArray bitnums
    · have hb : ¬ (1024 < b → 2048 < b) := by
        intro hb
        refine h fun b' hb' => ?_
        rcases List.mem_append.mp hb' with hb' | hb'
        · exact hall b' hb'
        · exact List.mem_singleton.mp hb' ▸ hb
      cases setBits bitnums with
      | none => rfl
      | some m => exact setLongTxBit_out (m := m) (by omega) (by omega)
    · rw [ih hall]
      rfl

/-- **All calls.** -/
theorem setBits_in (h : SetInArray bitnums) :
    ∃ m, setBits bitnums = some m ∧
      ∀ e, 1 ≤ e → e ≤ 1024 → m.emitter e = decide ((e : Int) ∈ bitnums) := by
  induction bitnums using List.reverseRecOn with
  | nil =>
    refine ⟨setAllBitmask 0, rfl, fun e hpos hle => ?_⟩
    rw [emitter_eq _ hle hpos, decide_eq_false List.not_mem_nil]
    exact BitVec.getLsbD_zero
  | append_singleton bitnums b ih =>
    obtain ⟨m, hm, hall⟩ := ih fun b' hb' => h b' (List.mem_append_left [b] hb')
    obtain ⟨m', hm', hbit⟩ :=
      setLongTxBit_in (m := m) (h b (List.mem_append_right bitnums List.mem_cons_self))
    refine ⟨m', ?_, fun e hpos hle => ?_⟩
    · rw [setBits_snoc, hm]
      exact hm'
    · rw [hbit e hpos hle, hall e hpos hle]
      simp [List.mem_append]

end Set

/-! ## 6. One device -/

/-- **As asked for**: the result has exactly the emitters of the range that were
    set. -/
def Exact (bitnums : List Int) (start num : Nat) (result : BitVec 32) : Prop :=
  ∀ i < 32, result.getLsbD i = true ↔ i < num ∧ ((start + i : Nat) : Int) ∈ bitnums

/-- What the range has to be for that. -/
structure Within (bitnums : List Int) (start num : Nat) : Prop where
  aligned : start % 8 ≠ 0
  last : start + num ≤ 1025
  clear : ∀ i < 32, num ≤ i → i < extent start num → ((start + i : Nat) : Int) ∉ bitnums

section Device

variable {m : LongTxBitmask} {bitnums : List Int} {start num : Nat}

/-- What the result has beyond 32 bits is beyond it; what it has within them is in
    the array. -/
theorem extent_le (hin : start + num ≤ 1025) {i : Nat} (hi : i < extent start num) :
    start + i ≤ 1024 := by
  unfold extent at hi
  dsimp only at hi
  split at hi
  · omega
  · split at hi
    · omega
    · split at hi <;> omega

theorem exact_iff (h : ∀ e, 1 ≤ e → e ≤ 1024 → m.emitter e = decide ((e : Int) ∈ bitnums)) (r : EmitterRange) :
    (∃ result, getBitmask m r.start r.num = some result ∧ Exact bitnums r.start r.num result) ↔
      Within bitnums r.start r.num := by
  by_cases hbad : r.start % 8 = 0 ∨ 1025 < r.start + r.num
  · constructor
    · intro hx
      obtain ⟨result, hresult, -⟩ := hx
      exact nomatch hresult.symm.trans (EmitterRange.getBitmask_undefined hbad)
    · intro hw
      rcases hbad with hzero | hout
      · exact absurd hzero hw.aligned
      · exact absurd hw.last (Nat.not_le.mpr hout)
  · obtain ⟨hzero, hin⟩ := not_or.mp hbad
    have hin : r.start + r.num ≤ 1025 := Nat.not_lt.mp hin
    obtain ⟨result, hresult, hgot⟩ := EmitterRange.getBitmask_collected m hzero hin
    have hmem : ∀ i < 32, result.getLsbD i = true ↔
        i < extent r.start r.num ∧ ((r.start + i : Nat) : Int) ∈ bitnums := by
      intro i hi
      rw [hgot i hi, Bool.and_eq_true, decide_eq_true_eq]
      refine and_congr_right fun hlt => ?_
      have hpos := r.start_pos
      rw [h (r.start + i) (by omega) (extent_le hin hlt), decide_eq_true_eq]
    constructor
    · intro hx
      obtain ⟨result', hresult', hexact⟩ := hx
      obtain rfl : result = result' := Option.some.inj (hresult.symm.trans hresult')
      refine ⟨hzero, hin, fun i hi hnum hlt hset => ?_⟩
      have hbit := (hmem i hi).mpr ⟨hlt, hset⟩
      exact absurd ((hexact i hi).mp hbit).1 (Nat.not_lt.mpr hnum)
    · intro hw
      refine ⟨result, hresult, fun i hi => (hmem i hi).trans ?_⟩
      constructor
      · intro hx
        obtain ⟨hlt, hset⟩ := hx
        refine ⟨?_, hset⟩
        by_contra hnum
        exact hw.clear i hi (Nat.not_lt.mp hnum) hlt hset
      · intro hx
        exact ⟨Nat.lt_of_lt_of_le hx.1 (num_le_extent r.start r.num), hx.2⟩

end Device

/-! ## 7. The walk over the devices -/

/-- The `bitmask` of each device, by the numbers of their emitters. -/
def sendirMasks (m : LongTxBitmask) : Int → List Nat → Option (List (BitVec 32))
  | _, [] => some []
  | firstBit, numTransmitters :: rest =>
    (getBitmask m firstBit numTransmitters).bind fun bitmask =>
      (sendirMasks m (firstBit + numTransmitters) rest).map fun masks => bitmask :: masks

/-- The emitters in a `struct commandir_3_tx_signal`. -/
structure TxBitMasks where
  txBitMask1 : BitVec 16
  txBitMask2 : BitVec 16

def txBitMasks (bitmask : BitVec 32) : TxBitMasks :=
  ⟨(bitmask &&& 0x00ff#32).setWidth 16, (bitmask >>> 16).setWidth 16⟩

/-- What is sent to which device; nothing if none of its emitters is set. -/
def commandirSendir {δ : Type*} (m : LongTxBitmask) (numTransmitters : δ → Nat) (ordered : List δ) :
    Option (List (δ × TxBitMasks)) :=
  (sendirMasks m 1 (ordered.map numTransmitters)).map fun masks =>
    ((ordered.zip masks).filter fun p => p.2 != 0).map fun p => (p.1, txBitMasks p.2)

/-- The ranges of the devices: each begins behind the one before. -/
def deviceRanges : Nat → List Nat → List (Nat × Nat)
  | _, [] => []
  | first, num :: rest => (first, num) :: deviceRanges (first + num) rest

/-- The devices that the walk is for, by the numbers of their emitters. -/
structure OrderedDevices where
  nums : List Nat
  num_pos : ∀ n ∈ nums, 1 ≤ n
  num_le : ∀ n ∈ nums, n ≤ 32
  stop_le : 1 + nums.sum ≤ 2048

section Walk

variable {m : LongTxBitmask} {bitnums : List Int} {first : Nat} {nums : List Nat}

/-- **No overlap**: the ranges are the emitters one after the other. -/
theorem deviceRanges_flatten (first : Nat) (nums : List Nat) :
    ((deviceRanges first nums).map fun p => List.range' p.1 p.2).flatten = List.range' first nums.sum := by
  induction nums generalizing first with
  | nil => rfl
  | cons num rest ih =>
    rw [deviceRanges, List.map_cons, List.flatten_cons, ih, List.sum_cons]
    exact List.range'_append_1

theorem sendirMasks_iff (h : ∀ e, 1 ≤ e → e ≤ 1024 → m.emitter e = decide ((e : Int) ∈ bitnums))
    (hfirst : 1 ≤ first) (hpos : ∀ n ∈ nums, 1 ≤ n) (hle : ∀ n ∈ nums, n ≤ 32)
    (hstop : first + nums.sum ≤ 2048) :
    (∃ masks, sendirMasks m first nums = some masks ∧
        List.Forall₂ (fun p mask => Exact bitnums p.1 p.2 mask) (deviceRanges first nums) masks) ↔
      ∀ p ∈ deviceRanges first nums, Within bitnums p.1 p.2 := by
  induction nums generalizing first with
  | nil =>
    refine ⟨fun _ p hp => absurd hp List.not_mem_nil, fun _ => ?_⟩
    exact ⟨[], rfl, List.Forall₂.nil⟩
  | cons num rest ih =>
    rw [List.sum_cons] at hstop
    have hnum := hpos num List.mem_cons_self
    have hone := exact_iff h
      ⟨first, num, hfirst, hnum, hle num List.mem_cons_self, by omega⟩
    have hrest := ih (Nat.le_trans hfirst (Nat.le_add_right first num))
      (fun n hn => hpos n (List.mem_cons_of_mem num hn)) (fun n hn => hle n (List.mem_cons_of_mem num hn))
      (by omega)
    rw [deviceRanges, List.forall_mem_cons, ← hone, ← hrest]
    constructor
    · intro hx
      obtain ⟨masks, hmasks, hall⟩ := hx
      obtain ⟨mask, hmask, hmasks⟩ := Option.bind_eq_some_iff.mp hmasks
      obtain ⟨tail, htail, rfl⟩ := Option.map_eq_some_iff.mp hmasks
      obtain ⟨hhead, hall⟩ := List.forall₂_cons.mp hall
      exact ⟨⟨mask, hmask, hhead⟩, tail, htail, hall⟩
    · intro hx
      obtain ⟨⟨mask, hmask, hhead⟩, tail, htail, hall⟩ := hx
      refine ⟨mask :: tail, ?_, List.Forall₂.cons hhead hall⟩
      rw [sendirMasks, hmask, Option.bind_some]
      exact congrArg (Option.map _) htail

/-- What is sent are the first eight emitters of a device and those from the 17th
    on. -/
theorem getLsbD_txBitMasks (bitmask : BitVec 32) {i : Nat} (hi : i < 16) :
    (txBitMasks bitmask).txBitMask1.getLsbD i = (decide (i < 8) && bitmask.getLsbD i) ∧
      (txBitMasks bitmask).txBitMask2.getLsbD i = bitmask.getLsbD (16 + i) := by
  have hmask : (0x00ff#32).getLsbD i = decide (i < 8) := by
    have hall : ∀ j : Fin 16, (0x00ff#32).getLsbD j = decide (j.val < 8) := by decide
    exact hall ⟨i, hi⟩
  constructor
  · show ((bitmask &&& 0x00ff#32).setWidth 16).getLsbD i = _
    rw [BitVec.getLsbD_setWidth, BitVec.getLsbD_and, hmask, decide_eq_true hi, Bool.true_and, Bool.and_comm]
  · show ((bitmask >>> 16).setWidth 16).getLsbD i = _
    rw [BitVec.getLsbD_setWidth, BitVec.getLsbD_ushiftRight, decide_eq_true hi, Bool.true_and]

end Walk

/-! ## 8. The emitters that are asked for -/

/-- After the calls the range gives exactly its emitters. -/
def GivesEmitters (bitnums : List Int) (start num : Nat) : Prop :=
  ∃ m, setBits bitnums = some m ∧
    ∃ result, getBitmask m start num = some result ∧ Exact bitnums start num result

/-- After the calls the walk gives each device exactly its emitters. -/
def WalkGives (bitnums : List Int) (nums : List Nat) : Prop :=
  ∃ m, setBits bitnums = some m ∧
    ∃ masks, sendirMasks m 1 nums = some masks ∧
      List.Forall₂ (fun p mask => Exact bitnums p.1 p.2 mask) (deviceRanges 1 nums) masks

/-- **The emitter bits**, for one range and for the walk, whose ranges are all
    emitters one after the other. -/
theorem getBitmask_emitters (bitnums : List Int) :
    (∀ r : EmitterRange, GivesEmitters bitnums r.start r.num ↔
      SetInArray bitnums ∧ Within bitnums r.start r.num) ∧
    ∀ ds : OrderedDevices, ((deviceRanges 1 ds.nums).map fun p => List.range' p.1 p.2).flatten =
        List.range' 1 ds.nums.sum ∧
      (WalkGives bitnums ds.nums ↔
        SetInArray bitnums ∧ ∀ p ∈ deviceRanges 1 ds.nums, Within bitnums p.1 p.2) := by
  by_cases hall : SetInArray bitnums
  · obtain ⟨m, hm, hbits⟩ := setBits_in hall
    have hone : ∀ P : LongTxBitmask → Prop, (∃ m', setBits bitnums = some m' ∧ P m') ↔ P m := by
      intro P
      constructor
      · intro hx
        obtain ⟨m', hm', hP⟩ := hx
        obtain rfl : m = m' := Option.some.inj (hm.symm.trans hm')
        exact hP
      · intro hP
        exact ⟨m, hm, hP⟩
    constructor
    · intro r
      rw [GivesEmitters, hone, exact_iff hbits r, and_iff_right hall]
    · intro ds
      refine ⟨deviceRanges_flatten 1 ds.nums, ?_⟩
      rw [WalkGives, hone, and_iff_right hall]
      exact sendirMasks_iff hbits (Nat.le_refl 1) ds.num_pos ds.num_le ds.stop_le
  · have hnone := setBits_out hall
    constructor
    · intro r
      refine iff_of_false (fun hx => ?_) fun hx => hall hx.1
      obtain ⟨m, hm, -⟩ := hx
      exact nomatch hm.symm.trans hnone
    · intro ds
      refine ⟨deviceRanges_flatten 1 ds.nums, iff_of_false (fun hx => ?_) fun hx => hall hx.1⟩
      obtain ⟨m, hm, -⟩ := hx
      exact nomatch hm.symm.trans hnone

/-- Of emitters 1 to 7 the eighth is one, if it is set. -/
theorem getBitmask_emitters_eighth :
    ¬ ∀ (bitnums : List Int) (r : EmitterRange), GivesEmitters bitnums r.start r.num := by
  intro h
  obtain ⟨m, hm, result, hresult, hexact⟩ := h [8] ⟨1, 7, by decide, by decide, by decide, by decide⟩
  have hrun : (setBits [8]).bind (fun m => getBitmask m 1 7) = some 128#32 := by decide
  rw [hm, Option.bind_some] at hrun
  obtain rfl : result = 128#32 := Option.some.inj (hresult.symm.trans hrun)
  have hbit := (hexact 7 (by decide)).mp (by decide)
  exact absurd hbit.1 (by decide)

end WinLirc.CommandIR
