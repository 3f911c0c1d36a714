/-
  File:      WinLirc/Regroup.lean
  Subject:   DLL/Common/IRRemote.cpp: `map_code`, and the fields that
             `receive_decode` takes from a code the hardware has decoded.

  `splitWord` cuts a word into the fields of a remote. It and `gen_ir_code` are
  inverse to each other (`genIrCode_splitWord`, `splitWord_genIrCode`), so a word
  keeps its value under any regrouping (`regroup`).
-/
import WinLirc.Fields

namespace WinLirc

open Signal

/-- `map_code`: the fields of a word whose fields have other widths. -/
def mapCode (remote : IrRemote) (preBits : Int) (pre : IrCode) (bits : Int) (code : IrCode)
    (postBits : Int) (post : IrCode) : Option Fields :=
  if preBits + bits + postBits ≠ remote.preDataBits + remote.bits + remote.postDataBits then none
  else
    let all := pre &&& genMask preBits
    let all := all <<< bits.toNat
    let all := all ||| (code &&& genMask bits)
    let all := all <<< postBits.toNat
    let all := all ||| (post &&& genMask postBits)
    let postField := all &&& genMask remote.postDataBits
    let all := all >>> remote.postDataBits.toNat
    let codeField := all &&& genMask remote.bits
    let all := all >>> remote.bits.toNat
    some { pre := all &&& genMask remote.preDataBits, code := codeField, post := postField }

/-! ## 1. Cutting a word -/

/-- The fields of a word. -/
def splitWord (remote : IrRemote) (all : IrCode) : Fields where
  pre := (all >>> remote.postDataBits.toNat >>> remote.bits.toNat) &&& genMask remote.preDataBits
  code := (all >>> remote.postDataBits.toNat) &&& genMask remote.bits
  post := all &&& genMask remote.postDataBits

section Split

variable {remote other : IrRemote}

theorem FitsWord.width_le (hw : FitsWord remote) :
    remote.preDataBits ≤ 64 ∧ remote.bits ≤ 64 ∧ remote.postDataBits ≤ 64 := by
  obtain ⟨h1, h2, h3, h4⟩ := hw
  unfold bitCount at h4
  omega

/-- **A word is put together again** from its fields, masked or not. -/
theorem genIrCode_of_bits (hraw : isRaw remote = false) (hw : FitsWord remote) {all : IrCode}
    (hall : all.toNat < 2 ^ (bitCount remote).toNat) {pre code post : IrCode}
    (hpre : ∀ j, j < remote.preDataBits.toNat →
      pre.getLsbD j = all.getLsbD (remote.postDataBits.toNat + remote.bits.toNat + j))
    (hcode : ∀ j, j < remote.bits.toNat →
      code.getLsbD j = all.getLsbD (remote.postDataBits.toNat + j))
    (hpost : ∀ j, j < remote.postDataBits.toNat → post.getLsbD j = all.getLsbD j) :
    genIrCode remote pre code post = all := by
  have hcount : (bitCount remote).toNat =
      remote.preDataBits.toNat + remote.bits.toNat + remote.postDataBits.toNat :=
    hw.wordBits.symm
  refine BitVec.eq_of_getLsbD_eq fun j _ => ?_
  rw [getLsbD_genIrCode hraw hw]
  by_cases h1 : j < remote.postDataBits.toNat
  · rw [if_pos h1, hpost j h1]
  · by_cases h2 : j < remote.postDataBits.toNat + remote.bits.toNat
    · rw [if_neg h1, if_pos h2, hcode _ (by omega)]
      congr 1
      omega
    · by_cases h3 : j < (bitCount remote).toNat
      · rw [if_neg h1, if_neg h2, if_pos h3, hpre _ (by omega)]
        congr 1
        omega
      · rw [if_neg h1, if_neg h2, if_neg h3, getLsbD_of_lt hall (by omega)]

theorem genIrCode_splitWord (hraw : isRaw remote = false) (hw : FitsWord remote) {all : IrCode}
    (hall : all.toNat < 2 ^ (bitCount remote).toNat) :
    genIrCode remote (splitWord remote all).pre (splitWord remote all).code
      (splitWord remote all).post = all := by
  obtain ⟨h1, h2, h3⟩ := hw.width_le
  refine genIrCode_of_bits hraw hw hall (fun j hj => ?_) (fun j hj => ?_) fun j hj => ?_
  · rw [splitWord, getLsbD_genMask, BitVec.getLsbD_ushiftRight, BitVec.getLsbD_ushiftRight,
      decide_eq_true hj, Bool.true_and, Nat.add_assoc]
  · rw [splitWord, getLsbD_genMask, BitVec.getLsbD_ushiftRight, decide_eq_true hj,
      Bool.true_and]
  · rw [splitWord, getLsbD_genMask, decide_eq_true hj, Bool.true_and]

/-- **The fields of a word that was put together** are those it was made of. -/
theorem splitWord_genIrCode (hraw : isRaw remote = false) (hw : FitsWord remote)
    (pre code post : IrCode) :
    splitWord remote (genIrCode remote pre code post) =
      { pre := pre &&& genMask remote.preDataBits, code := code &&& genMask remote.bits
        post := post &&& genMask remote.postDataBits } := by
  obtain ⟨h1, h2, h3⟩ := hw.width_le
  have hcount : (bitCount remote).toNat =
      remote.preDataBits.toNat + remote.bits.toNat + remote.postDataBits.toNat :=
    hw.wordBits.symm
  have hbit := getLsbD_genIrCode hraw hw pre code post
  unfold splitWord
  congr 1
  · refine BitVec.eq_of_getLsbD_eq fun j _ => ?_
    rw [getLsbD_genMask, getLsbD_genMask, BitVec.getLsbD_ushiftRight,
      BitVec.getLsbD_ushiftRight, hbit]
    by_cases hj : j < remote.preDataBits.toNat
    · rw [if_neg (by omega), if_neg (by omega), if_pos (by omega)]
      congr 2
      omega
    · rw [decide_eq_false hj, Bool.false_and, Bool.false_and]
  · refine BitVec.eq_of_getLsbD_eq fun j _ => ?_
    rw [getLsbD_genMask, getLsbD_genMask, BitVec.getLsbD_ushiftRight, hbit]
    by_cases hj : j < remote.bits.toNat
    · rw [if_neg (by omega), if_pos (by omega)]
      congr 2
      omega
    · rw [decide_eq_false hj, Bool.false_and, Bool.false_and]
  · refine BitVec.eq_of_getLsbD_eq fun j _ => ?_
    rw [getLsbD_genMask, getLsbD_genMask, hbit]
    by_cases hj : j < remote.postDataBits.toNat
    · rw [if_pos hj]
    · rw [decide_eq_false hj, Bool.false_and, Bool.false_and]

theorem genIrCode_lt (hraw : isRaw remote = false) (hw : FitsWord remote)
    (pre code post : IrCode) :
    (genIrCode remote pre code post).toNat < 2 ^ (bitCount remote).toNat := by
  have hcount : (bitCount remote).toNat =
      remote.preDataBits.toNat + remote.bits.toNat + remote.postDataBits.toNat :=
    hw.wordBits.symm
  refine Nat.lt_pow_two_of_testBit _ fun j hj => ?_
  have hbit := getLsbD_genIrCode hraw hw pre code post j
  rw [if_neg (by omega), if_neg (by omega), if_neg (by omega)] at hbit
  exact hbit

/-! ## 2. From one remote to the other -/

/-- `map_code` cuts the word that `gen_ir_code` makes of the given fields. -/
theorem mapCode_eq (hraw : isRaw remote = false) (hsame : bitCount remote = bitCount other)
    (pre code post : IrCode) :
    mapCode other remote.preDataBits pre remote.bits code remote.postDataBits post =
      some (splitWord other (genIrCode remote pre code post)) := by
  unfold bitCount at hsame
  unfold mapCode
  rw [if_neg (not_not.mpr hsame)]
  unfold genIrCode
  rw [hraw]
  rfl

/-- **There and back**: the word stays what it is, and the fields come back
    without the bits beyond their widths. -/
theorem mapCode_mapCode (hraw : isRaw remote = false) (hraw' : isRaw other = false)
    (hw : FitsWord remote) (hw' : FitsWord other) (hsame : bitCount remote = bitCount other)
    (pre code post : IrCode) :
    ∃ f, mapCode other remote.preDataBits pre remote.bits code remote.postDataBits post = some f ∧
      genIrCode other f.pre f.code f.post = genIrCode remote pre code post ∧
      mapCode remote other.preDataBits f.pre other.bits f.code other.postDataBits f.post =
        some { pre := pre &&& genMask remote.preDataBits, code := code &&& genMask remote.bits
               post := post &&& genMask remote.postDataBits } := by
  have hword : genIrCode other (splitWord other (genIrCode remote pre code post)).pre
      (splitWord other (genIrCode remote pre code post)).code
      (splitWord other (genIrCode remote pre code post)).post = genIrCode remote pre code post := by
    refine genIrCode_splitWord hraw' hw' ?_
    rw [← hsame]
    exact genIrCode_lt hraw hw pre code post
  refine ⟨_, mapCode_eq hraw hsame pre code post, hword, ?_⟩
  rw [mapCode_eq hraw' hsame.symm, hword, splitWord_genIrCode hraw hw]

/-! ## 3. Codes that the hardware has decoded -/

/-- The fields that `receive_decode` splits off are those of the word. -/
theorem genIrCode_splitDecoded (hraw : isRaw remote = false) (hw : FitsWord remote)
    (env : DecodeEnv) {b : Rbuf} (hcode : b.decoded.toNat < 2 ^ (bitCount remote).toNat) :
    genIrCode remote (splitDecoded env remote b).1.1 (splitDecoded env remote b).1.2.1
      (splitDecoded env remote b).1.2.2 = b.decoded := by
  obtain ⟨h1, h2, h3⟩ := hw.width_le
  refine genIrCode_of_bits hraw hw hcode (fun j _ => ?_) (fun j hj => ?_) fun j hj => ?_
  · rw [splitDecoded, BitVec.getLsbD_ushiftRight, BitVec.getLsbD_ushiftRight, Nat.add_assoc]
  · rw [splitDecoded, getLsbD_genMask, BitVec.getLsbD_ushiftRight, decide_eq_true hj,
      Bool.true_and]
  · rw [splitDecoded, getLsbD_genMask, decide_eq_true hj, Bool.true_and]

end Split

/-- **Regrouping keeps the code**: the fields that `receive_decode` makes of a
    code from the hardware are its word again, and `map_code` takes the fields of
    one remote to those of another and back. -/
theorem regroup (fuel : Nat) (env : DecodeEnv) (remote other : IrRemote) (b : Rbuf)
    (pre code post : IrCode) (hraw : isRaw remote = false) (hraw' : isRaw other = false)
    (hw : FitsWord remote) (hw' : FitsWord other) (hsame : bitCount remote = bitCount other)
    (hmode : env.recMode = LIRC_MODE_LIRCCODE) (hlength : (env.codeLength : Int) = bitCount remote)
    (hcode : b.decoded.toNat < 2 ^ env.codeLength) :
    (∃ d b', receiveDecode fuel env remote b = some (some d, remote, b') ∧
      genIrCode remote d.pre d.code d.post = b.decoded) ∧
    ∃ f, mapCode other remote.preDataBits pre remote.bits code remote.postDataBits post = some f ∧
      genIrCode other f.pre f.code f.post = genIrCode remote pre code post ∧
      mapCode remote other.preDataBits f.pre other.bits f.code other.postDataBits f.post =
        some { pre := pre &&& genMask remote.preDataBits, code := code &&& genMask remote.bits
               post := post &&& genMask remote.postDataBits } := by
  refine ⟨?_, mapCode_mapCode hraw hraw' hw hw' hsame pre code post⟩
  have hcount : (bitCount remote).toNat = env.codeLength := by
    rw [← hlength, Int.toNat_natCast]
  have hsample : isSampleMode env.recMode = false := by
    rw [hmode]
    decide
  have hdecode : receiveDecode fuel env remote b =
      some (some (decodedFrame env remote (splitDecoded env remote b).2.1
        (splitDecoded env remote b).1 (splitDecoded env remote b).2.2), remote,
        (splitDecoded env remote b).2.2) := by
    unfold receiveDecode decodeRest
    rw [hsample, hraw, if_neg Bool.false_ne_true, if_neg Bool.false_ne_true, if_pos hmode,
      if_neg (not_not.mpr hlength)]
  refine ⟨_, _, hdecode, ?_⟩
  exact genIrCode_splitDecoded hraw hw env (by rw [hcount]; exact hcode)

/-- A code of ten bits as 4+4+2 and as 0+10+0 bits. -/
theorem regroup_sharpRemote :
    (∃ d b', receiveDecode 0 { recMode := LIRC_MODE_LIRCCODE, codeLength := 10 } sharpRemote
        { decoded := 0b1010011001 } = some (some d, sharpRemote, b') ∧
      genIrCode sharpRemote d.pre d.code d.post = 0b1010011001) ∧
    ∃ f, mapCode { bits := 10 } 4 0b1010 4 0b0110 2 0b01 = some f ∧
      genIrCode { bits := 10 } f.pre f.code f.post = genIrCode sharpRemote 0b1010 0b0110 0b01 ∧
      mapCode sharpRemote 0 f.pre 10 f.code 0 f.post =
        some { pre := 0b1010 &&& genMask 4, code := 0b0110 &&& genMask 4
               post := 0b01 &&& genMask 2 } :=
  regroup 0 { recMode := LIRC_MODE_LIRCCODE, codeLength := 10 } sharpRemote { bits := 10 }
    { decoded := 0b1010011001 } 0b1010 0b0110 0b01 (by decide) (by decide)
    ⟨by decide, by decide, by decide, by decide⟩ ⟨by decide, by decide, by decide, by decide⟩
    (by decide) rfl (by decide) (by decide)

end WinLirc
