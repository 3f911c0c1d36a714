/-
  File:      WinLirc/LircDefines.lean
  Subject:   The data model and the inline functions of DLL/Common/LIRCDefines.h.

  * `IrCode` is `ir_code`, an unsigned 64-bit word; `lirc_t`, a C int, is read
    as an integer: signed overflow is undefined in the source, so nothing
    here says what it would do;
  * an `ir_code_node *` is the list of codes from that node on, `NULL` the
    empty list. Two nodes of one chain are one node exactly if their lists
    are equal, for their lengths differ otherwise;
  * a pointer into a remote's code table is the index of the entry;
  * the widths `bits`, `pre_data_bits` and `post_data_bits` are C ints and
    may be negative; a shift amount that the source computes from them is
    taken at `Int.toNat`.

  Left out of `ir_remote`: the fields no modelled function reads (`freq`,
  `duty_cycle`, the obsolete `toggle_bit`) and the link to the next remote.
-/
import Mathlib.Data.Int.Bitwise
import WinLirc.Signal.Digits

namespace WinLirc

abbrev IrCode := BitVec 64

/-! ## 1. Constants -/

def PULSE_BIT : Int := 0x01000000
def PULSE_MASK : Int := 0x00FFFFFF

def PACKET_SIZE : Nat := 256
def RBUF_SIZE : Nat := 256
def WBUF_SIZE : Nat := 2048
def REC_SYNC : Nat := 8

abbrev Flags := BitVec 32

def IR_PROTOCOL_MASK : Flags := 0x07ff
def RAW_CODES : Flags := 0x0001
def RC5 : Flags := 0x0002
def RC6 : Flags := 0x0004
def RCMM : Flags := 0x0008
def SPACE_ENC : Flags := 0x0010
def SPACE_FIRST : Flags := 0x0020
def GOLDSTAR : Flags := 0x0040
def GRUNDIG : Flags := 0x0080
def BO : Flags := 0x0100
def SERIAL : Flags := 0x0200
def XMP : Flags := 0x0400

def REVERSE : Flags := 0x0800
def NO_HEAD_REP : Flags := 0x1000
def NO_FOOT_REP : Flags := 0x2000
def CONST_LENGTH : Flags := 0x4000
def REPEAT_HEADER : Flags := 0x8000
def COMPAT_REVERSE : Flags := 0x00010000

def IR_PARITY_NONE : Nat := 0
def IR_PARITY_EVEN : Nat := 1
def IR_PARITY_ODD : Nat := 2

def LIRC_MODE_RAW : Nat := 1
def LIRC_MODE_PULSE : Nat := 2
def LIRC_MODE_MODE2 : Nat := 4
def LIRC_MODE_LIRCCODE : Nat := 16

/-! ## 2. Records -/

/-- `struct ir_ncode`. `signals = none` is a null pointer; `length` is the
    length of the list. -/
structure IrNcode where
  name : String
  code : IrCode
  signals : Option (List Int) := none
  next : List IrCode := []
  current : List IrCode := []
  transmitState : List IrCode := []
  deriving DecidableEq, Repr

/-- `struct mytimeval`. -/
structure MyTimeval where
  tvSec : Int
  tvUsec : Int
  deriving DecidableEq, Repr

/-- `struct ir_remote`. -/
structure IrRemote where
  name : String := ""
  codes : List IrNcode := []
  bits : Int := 0
  flags : Flags := 0
  eps : Int := 0
  aeps : Int := 0
  phead : Int := 0
  shead : Int := 0
  pthree : Int := 0
  sthree : Int := 0
  ptwo : Int := 0
  stwo : Int := 0
  pone : Int := 0
  sone : Int := 0
  pzero : Int := 0
  szero : Int := 0
  plead : Int := 0
  ptrail : Int := 0
  pfoot : Int := 0
  sfoot : Int := 0
  prepeat : Int := 0
  srepeat : Int := 0
  preDataBits : Int := 0
  preData : IrCode := 0
  postDataBits : Int := 0
  postData : IrCode := 0
  preP : Int := 0
  preS : Int := 0
  postP : Int := 0
  postS : Int := 0
  gap : Int := 0
  gap2 : Int := 0
  repeatGap : Int := 0
  toggleBitMask : IrCode := 0
  minRepeat : Int := 0
  minCodeRepeat : Nat := 0
  toggleMask : IrCode := 0
  rc6Mask : IrCode := 0
  baud : Nat := 0
  bitsInByte : Nat := 0
  parity : Nat := 0
  stopBits : Nat := 0
  ignoreMask : IrCode := 0
  toggleBitMaskState : IrCode := 0
  toggleMaskState : Int := 0
  repeatCountdown : Int := 0
  lastCode : Option Nat := none
  toggleCode : Option Nat := none
  reps : Int := 0
  lastSend : MyTimeval := ⟨0, 0⟩
  minRemainingGap : Int := 0
  maxRemainingGap : Int := 0
  deriving DecidableEq, Repr

/-! ## 3. Codes and words -/

def getIrCode (ncode : IrNcode) (node : List IrCode) : IrCode :=
  match ncode.next, node with
  | _ :: _, c :: _ => c
  | _, _ => ncode.code

def getNextIrCodeNode (ncode : IrNcode) (node : List IrCode) : List IrCode :=
  match node with
  | [] => ncode.next
  | _ :: rest => rest

def bitCount (remote : IrRemote) : Int := remote.preDataBits + remote.bits + remote.postDataBits

/-- The loop of `bits_set`, on the `n` bits still to be looked at. -/
def bitsSetLoop : Nat → IrCode → Nat
  | 0, _ => 0
  | n + 1, data => (if data.getLsbD 0 then 1 else 0) + bitsSetLoop n (data >>> 1)

def bitsSet (data : IrCode) : Nat := bitsSetLoop 64 data

/-- `c` of `reverse` after `i` turns of its loop. -/
def reverseLoop (data : IrCode) (bits : Int) : Nat → IrCode
  | 0 => 0
  | i + 1 => reverseLoop data bits i |||
      ((if data &&& ((1 : IrCode) <<< i) ≠ 0 then 1 else 0 : IrCode) <<< (bits - 1 - i).toNat)

def reverse (data : IrCode) (bits : Int) : IrCode := reverseLoop data bits bits.toNat

/-- `mask` of `gen_mask` after `i` turns of its loop. -/
def genMaskLoop : Nat → IrCode
  | 0 => 0
  | i + 1 => (genMaskLoop i <<< 1) ||| 1

def genMask (bits : Int) : IrCode := genMaskLoop bits.toNat

/-! ## 4. Samples -/

/-- Bit 24 of a sample; `/` and `%` round down, so this is the bit of the
    two's complement word. -/
def isPulse (data : Int) : Bool := data / PULSE_BIT % 2 == 1

def isSpace (data : Int) : Bool := !isPulse data

/-- `data & PULSE_MASK`. -/
def maskPulse (data : Int) : Int := data % PULSE_BIT

/-! ## 5. Predicates on a remote -/

def protocol (remote : IrRemote) : Flags := remote.flags &&& IR_PROTOCOL_MASK

/-- `remote->flags & flag` as a truth value. -/
def hasFlag (remote : IrRemote) (flag : Flags) : Bool := remote.flags &&& flag != 0

def hasRepeat (remote : IrRemote) : Bool :=
  decide (remote.prepeat > 0) && decide (remote.srepeat > 0)

def isRaw (remote : IrRemote) : Bool := protocol remote == RAW_CODES
def isSpaceEnc (remote : IrRemote) : Bool := protocol remote == SPACE_ENC
def isSpaceFirst (remote : IrRemote) : Bool := protocol remote == SPACE_FIRST
def isRc5 (remote : IrRemote) : Bool := protocol remote == RC5
def isRc6 (remote : IrRemote) : Bool := protocol remote == RC6 || remote.rc6Mask != 0
def isBiphase (remote : IrRemote) : Bool := isRc5 remote || isRc6 remote
def isRcmm (remote : IrRemote) : Bool := protocol remote == RCMM
def isGoldstar (remote : IrRemote) : Bool := protocol remote == GOLDSTAR
def isGrundig (remote : IrRemote) : Bool := protocol remote == GRUNDIG
def isBo (remote : IrRemote) : Bool := protocol remote == BO
def isSerial (remote : IrRemote) : Bool := protocol remote == SERIAL
def isXmp (remote : IrRemote) : Bool := protocol remote == XMP

def isConst (remote : IrRemote) : Bool := hasFlag remote CONST_LENGTH
def hasRepeatGap (remote : IrRemote) : Bool := decide (remote.repeatGap > 0)
def hasPre (remote : IrRemote) : Bool := decide (remote.preDataBits > 0)
def hasPost (remote : IrRemote) : Bool := decide (remote.postDataBits > 0)

def hasHeader (remote : IrRemote) : Bool :=
  decide (remote.phead > 0) && decide (remote.shead > 0)

def hasFoot (remote : IrRemote) : Bool :=
  decide (remote.pfoot > 0) && decide (remote.sfoot > 0)

def hasToggleBitMask (remote : IrRemote) : Bool := remote.toggleBitMask != 0
def hasIgnoreMask (remote : IrRemote) : Bool := remote.ignoreMask != 0
def hasToggleMask (remote : IrRemote) : Bool := remote.toggleMask != 0

def minGap (remote : IrRemote) : Int :=
  if remote.gap2 ≠ 0 ∧ remote.gap2 < remote.gap then remote.gap2 else remote.gap

def maxGap (remote : IrRemote) : Int :=
  if remote.gap2 > remote.gap then remote.gap2 else remote.gap

/-- The difference as an `unsigned long`. -/
def timeElapsed (last current : MyTimeval) : Int :=
  (1000000 * (current.tvSec - last.tvSec) + current.tvUsec - last.tvUsec) % 2 ^ 32

/-! ## 6. Matching -/

def genIrCode (remote : IrRemote) (pre code post : IrCode) : IrCode :=
  let all := pre &&& genMask remote.preDataBits
  let all := all <<< remote.bits.toNat
  let all := all ||| (if isRaw remote then code else code &&& genMask remote.bits)
  let all := all <<< remote.postDataBits.toNat
  all ||| (post &&& genMask remote.postDataBits)

def matchIrCode (remote : IrRemote) (a b : IrCode) : Bool :=
  (remote.ignoreMask ||| a) == (remote.ignoreMask ||| b) ||
    (remote.ignoreMask ||| a) == (remote.ignoreMask ||| (b ^^^ remote.toggleBitMask))

def expect (remote : IrRemote) (delta exdelta : Int) : Bool :=
  decide (((exdelta - delta).natAbs : Int) ≤ (exdelta * remote.eps).tdiv 100) ||
    decide (((exdelta - delta).natAbs : Int) ≤ remote.aeps)

def expectAtLeast (remote : IrRemote) (delta exdelta : Int) : Bool :=
  decide (delta + (exdelta * remote.eps).tdiv 100 ≥ exdelta) ||
    decide (delta + remote.aeps ≥ exdelta)

def expectAtMost (remote : IrRemote) (delta exdelta : Int) : Bool :=
  decide (delta ≤ exdelta + (exdelta * remote.eps).tdiv 100) ||
    decide (delta ≤ exdelta + remote.aeps)

/-! ## 7. What the inline functions compute -/

/-- **A remote has one protocol**: the predicates read the same field. -/
theorem protocol_cases (remote : IrRemote) (p : Flags) (h : protocol remote = p) :
    isRaw remote = (p == RAW_CODES) ∧ isSpaceFirst remote = (p == SPACE_FIRST) ∧
    isRcmm remote = (p == RCMM) ∧ isGoldstar remote = (p == GOLDSTAR) ∧
    isGrundig remote = (p == GRUNDIG) ∧ isBo remote = (p == BO) ∧
    isSerial remote = (p == SERIAL) ∧ isXmp remote = (p == XMP) ∧
    isRc5 remote = (p == RC5) := by
  subst h
  exact ⟨rfl, rfl, rfl, rfl, rfl, rfl, rfl, rfl, rfl⟩

theorem and_one_shift_ne_zero (data : IrCode) (i : Nat) (hi : i < 64) :
    data &&& ((1 : IrCode) <<< i) ≠ 0 ↔ data.getLsbD i = true := by
  constructor
  · intro h
    by_contra hb
    apply h
    apply BitVec.eq_of_getLsbD_eq
    intro j hj
    by_cases hij : j = i
    · subst hij
      simp [hb]
    · by_cases hlt : j < i
      · simp [hlt]
      · have h1 : j - i ≠ 0 := by omega
        simp [BitVec.getLsbD_one, h1]
  · intro h e
    have hb := congrArg (fun v => v.getLsbD i) e
    simp only [BitVec.getLsbD_and, BitVec.getLsbD_shiftLeft, hi, h] at hb
    simp at hb

theorem getLsbD_reverseLoop (data : IrCode) (bits : Nat) (hb : bits ≤ 64) (n : Nat)
    (hn : n ≤ bits) (j : Nat) :
    (reverseLoop data bits n).getLsbD j =
      (decide (j < bits ∧ bits - 1 - j < n) && data.getLsbD (bits - 1 - j)) := by
  induction n with
  | zero => simp [reverseLoop]
  | succ n ih =>
    have hs : ((bits : Int) - 1 - (n : Int)).toNat = bits - 1 - n := by omega
    rw [reverseLoop, BitVec.getLsbD_or, ih (by omega), hs]
    have hbit : ((if data &&& ((1 : IrCode) <<< n) ≠ 0 then 1 else 0 : IrCode) <<<
        (bits - 1 - n)).getLsbD j = (decide (j = bits - 1 - n) && data.getLsbD n) := by
      by_cases hd : data.getLsbD n = true
      · rw [if_pos ((and_one_shift_ne_zero data n (by omega)).mpr hd)]
        by_cases hj : j = bits - 1 - n
        · subst hj
          have : bits - 1 - n < 64 := by omega
          simp [hd, this]
        · by_cases hlt : j < bits - 1 - n
          · simp [hlt, hj]
          · have h1 : j - (bits - 1 - n) ≠ 0 := by omega
            simp [BitVec.getLsbD_one, hj, h1]
      · rw [if_neg (fun h => hd ((and_one_shift_ne_zero data n (by omega)).mp h))]
        simp [hd]
    rw [hbit]
    by_cases hj : j = bits - 1 - n
    · have h1 : bits - 1 - j = n := by omega
      have h2 : j < bits := by omega
      rw [h1]
      simp [hj]
      omega
    · have h1 : (bits - 1 - j < n + 1) ↔ (bits - 1 - j < n) ∨ j ≥ bits := by omega
      have h2 : (j < bits ∧ bits - 1 - j < n + 1) ↔ (j < bits ∧ bits - 1 - j < n) := by omega
      rw [decide_eq_decide.mpr h2, decide_eq_false hj, Bool.false_and, Bool.or_false]

/-- **`reverse` turns the low `bits` bits around** and drops the others. -/
theorem getLsbD_reverse (data : IrCode) (bits : Nat) (hb : bits ≤ 64) (j : Nat) :
    (reverse data bits).getLsbD j = (decide (j < bits) && data.getLsbD (bits - 1 - j)) := by
  rw [reverse, Int.toNat_natCast, getLsbD_reverseLoop data bits hb bits (Nat.le_refl _)]
  by_cases hj : j < bits
  · have h1 : bits - 1 - j < bits := by omega
    simp [hj, h1]
  · simp [hj]

theorem getLsbD_genMaskLoop_of_lt {n i : Nat} (hi : i < 64) :
    (genMaskLoop n).getLsbD i = decide (i < n) := by
  induction n generalizing i with
  | zero => simp [genMaskLoop]
  | succ n ih =>
    rw [genMaskLoop, BitVec.getLsbD_or, BitVec.getLsbD_shiftLeft]
    cases i with
    | zero => simp
    | succ i =>
      have h64 : i < 64 := by omega
      rw [Nat.add_sub_cancel, ih h64]
      simp [hi]

/-- **`gen_mask` sets the low `bits` bits.** -/
theorem genMaskLoop_eq (n : Nat) : genMaskLoop n = Signal.lowMask 64 n := by
  refine BitVec.eq_of_getLsbD_eq fun i hi => ?_
  rw [getLsbD_genMaskLoop_of_lt hi, Signal.getLsbD_lowMask]
  simp [hi]

/-! ## 8. Tolerances -/

/-- A tolerance that accepts a length for itself. -/
def Tolerant (remote : IrRemote) : Prop := 0 ≤ remote.eps ∨ 0 ≤ remote.aeps

theorem tdiv_nonneg_of_eps {remote : IrRemote} {d : Int} (hd : 0 ≤ d) (he : 0 ≤ remote.eps) :
    0 ≤ (d * remote.eps).tdiv 100 :=
  Int.tdiv_nonneg (Int.mul_nonneg hd he) (by decide)

theorem expect_self {remote : IrRemote} (h : Tolerant remote) {d : Int} (hd : 0 ≤ d) :
    expect remote d d = true := by
  unfold expect
  rcases h with he | ha
  · have := tdiv_nonneg_of_eps hd he
    simp [this]
  · simp [ha]

theorem expectAtLeast_of_le {remote : IrRemote} (h : Tolerant remote) {d e : Int} (he : 0 ≤ e)
    (hle : e ≤ d) : expectAtLeast remote d e = true := by
  unfold expectAtLeast
  rcases h with h | h
  · have := tdiv_nonneg_of_eps he h
    simp only [Bool.or_eq_true, decide_eq_true_eq]
    omega
  · simp only [Bool.or_eq_true, decide_eq_true_eq]
    omega

theorem expectAtMost_of_le {remote : IrRemote} (h : Tolerant remote) {d e : Int} (he : 0 ≤ e)
    (hle : d ≤ e) : expectAtMost remote d e = true := by
  unfold expectAtMost
  rcases h with h | h
  · have := tdiv_nonneg_of_eps he h
    simp only [Bool.or_eq_true, decide_eq_true_eq]
    omega
  · simp only [Bool.or_eq_true, decide_eq_true_eq]
    omega

theorem minGap_le_maxGap (remote : IrRemote) : minGap remote ≤ maxGap remote := by
  unfold minGap maxGap
  split_ifs <;> omega

/-! ## 9. Samples as the receiver gets them -/

theorem isPulse_add {d : Int} (h0 : 0 ≤ d) (h1 : d ≤ PULSE_MASK) :
    isPulse (PULSE_BIT + d) = true := by
  unfold isPulse PULSE_BIT at *
  unfold PULSE_MASK at h1
  have : (0x01000000 + d) / 0x01000000 % 2 = 1 := by omega
  simp [this]

theorem isPulse_of_le {d : Int} (h0 : 0 ≤ d) (h1 : d ≤ PULSE_MASK) : isPulse d = false := by
  unfold isPulse PULSE_BIT
  unfold PULSE_MASK at h1
  have : d / 0x01000000 % 2 = 0 := by omega
  simp [this]

theorem maskPulse_add {d : Int} (h0 : 0 ≤ d) (h1 : d ≤ PULSE_MASK) :
    maskPulse (PULSE_BIT + d) = d := by
  unfold maskPulse PULSE_BIT
  unfold PULSE_MASK at h1
  omega

theorem maskPulse_of_le {d : Int} (h0 : 0 ≤ d) (h1 : d ≤ PULSE_MASK) : maskPulse d = d := by
  unfold maskPulse PULSE_BIT
  unfold PULSE_MASK at h1
  omega

end WinLirc
