/-
  File:      WinLirc/Fields.lean
  Subject:   The fields of a frame and the word they make (`gen_ir_code`).

  `get_code` compares a received frame twice: its pre and post data on their
  own, under the masks, and then the whole word, code part by code part. The
  bits that `toggle_mask` inverts are inverted field by field.

  * `getLsbD_genIrCode`: which bit of which field a bit of the word is;
  * `genIrCode_receivedFields`: inverting the fields inverts the word;
  * **`partMatches_eq`**: the comparisons of `get_code` are one comparison of
    two words.
-/
import WinLirc.IrRemote

namespace WinLirc

open Signal

/-! ## 1. The bits of the word -/

/-- The widths of a remote whose frame fits a word. -/
structure FitsWord (remote : IrRemote) : Prop where
  preBits : 0 ≤ remote.preDataBits
  codeBits : 0 ≤ remote.bits
  postBits : 0 ≤ remote.postDataBits
  count : bitCount remote ≤ 64

section Word

variable {remote : IrRemote}

theorem getLsbD_genMask (width : Int) (v : IrCode) (i : Nat) :
    (v &&& genMask width).getLsbD i = (decide (i < width.toNat) && v.getLsbD i) := by
  have hg : genMask width = lowMask 64 width.toNat := genMaskLoop_eq width.toNat
  rw [hg, BitVec.getLsbD_and, getLsbD_lowMask]
  by_cases hi : i < 64
  · simp [hi, Bool.and_comm]
  · have hv : v.getLsbD i = false := BitVec.getLsbD_of_ge v i (by omega)
    simp [hv]

/-- The number of bits of a word, where no width but that of pre data is
    negative. -/
def wordBits (remote : IrRemote) : Nat :=
  remote.preDataBits.toNat + remote.bits.toNat + remote.postDataBits.toNat

structure WordWidths (remote : IrRemote) : Prop where
  codeBits : 0 ≤ remote.bits
  postBits : 0 ≤ remote.postDataBits
  count : wordBits remote ≤ 64

theorem FitsWord.wordBits (hw : FitsWord remote) :
    WinLirc.wordBits remote = (bitCount remote).toNat := by
  obtain ⟨h1, h2, h3, -⟩ := hw
  unfold WinLirc.wordBits bitCount
  omega

theorem FitsWord.widths (hw : FitsWord remote) : WordWidths remote := by
  have h4 := hw.count
  refine ⟨hw.codeBits, hw.postBits, ?_⟩
  rw [hw.wordBits]
  omega

/-- **The bits of the word**: post data, code, pre data from the low end on. -/
theorem getLsbD_word (hraw : isRaw remote = false) (hw : WordWidths remote)
    (pre code post : IrCode) (j : Nat) :
    (genIrCode remote pre code post).getLsbD j =
      if j < remote.postDataBits.toNat then post.getLsbD j
      else if j < remote.postDataBits.toNat + remote.bits.toNat then
        code.getLsbD (j - remote.postDataBits.toNat)
      else if j < wordBits remote then
        pre.getLsbD (j - (remote.postDataBits.toNat + remote.bits.toNat))
      else false := by
  obtain ⟨h2, h3, h4⟩ := hw
  unfold wordBits at h4 ⊢
  have hr : ¬ isRaw remote = true := by simp [hraw]
  unfold genIrCode
  dsimp only
  rw [if_neg hr]
  have m1 := getLsbD_genMask remote.preDataBits pre
  have m2 := getLsbD_genMask remote.bits code
  have m3 := getLsbD_genMask remote.postDataBits post
  simp only [BitVec.getLsbD_or, BitVec.getLsbD_shiftLeft, m1, m2, m3]
  by_cases hj1 : j < remote.postDataBits.toNat
  · simp [hj1]
  · by_cases hj2 : j < remote.postDataBits.toNat + remote.bits.toNat
    · have e1 : j < 64 := by omega
      have e2 : j - remote.postDataBits.toNat < remote.bits.toNat := by omega
      simp [hj1, hj2, e1, e2]
    · have e2 : ¬ j - remote.postDataBits.toNat < remote.bits.toNat := by omega
      have e3 : j - remote.postDataBits.toNat - remote.bits.toNat =
          j - (remote.postDataBits.toNat + remote.bits.toNat) := by omega
      by_cases hj3 : j < remote.preDataBits.toNat + remote.bits.toNat + remote.postDataBits.toNat
      · have e1 : j < 64 := by omega
        have e4 : j - remote.postDataBits.toNat < 64 := by omega
        have e5 : j - (remote.postDataBits.toNat + remote.bits.toNat) <
            remote.preDataBits.toNat := by omega
        simp [hj1, hj2, hj3, e1, e2, e3, e4, e5]
      · have e5 : ¬ j - (remote.postDataBits.toNat + remote.bits.toNat) <
            remote.preDataBits.toNat := by omega
        simp [hj1, hj2, hj3, e2, e3, e5]

theorem getLsbD_genIrCode (hraw : isRaw remote = false) (hw : FitsWord remote)
    (pre code post : IrCode) (j : Nat) :
    (genIrCode remote pre code post).getLsbD j =
      if j < remote.postDataBits.toNat then post.getLsbD j
      else if j < remote.postDataBits.toNat + remote.bits.toNat then
        code.getLsbD (j - remote.postDataBits.toNat)
      else if j < (bitCount remote).toNat then
        pre.getLsbD (j - (remote.postDataBits.toNat + remote.bits.toNat))
      else false := by
  rw [← hw.wordBits]
  exact getLsbD_word hraw hw.widths pre code post j

/-! ## 2. Inverted fields -/

/-- The bit that one turn of the loop inverts. -/
theorem getLsbD_toggleBit (mask : IrCode) (k c i : Nat) (hc : c < 64) :
    (((mask >>> k) &&& 1) <<< c).getLsbD i = (decide (i = c) && mask.getLsbD k) := by
  by_cases hi : i = c
  · subst hi
    simp [hc]
  · by_cases hlt : i < c
    · simp [hlt, hi]
    · have h1 : i - c ≠ 0 := by omega
      simp [BitVec.getLsbD_one, hi, h1]

/-- The field that bit `k` of the word belongs to, and its place there. -/
def bitPlace (remote : IrRemote) (k : Int) : Affected × Int :=
  if k < remote.postDataBits then (.post, k)
  else if k < remote.postDataBits + remote.bits then (.code, k - remote.postDataBits)
  else (.pre, k - (remote.postDataBits + remote.bits))

/-- One turn of the loop at its field. -/
def toggleAt (place : Affected × Int) (x : Int → IrCode) (f : Fields) : Fields :=
  match place.1 with
  | .pre => { f with pre := f.pre ^^^ x place.2 }
  | .code => { f with code := f.code ^^^ x place.2 }
  | .post => { f with post := f.post ^^^ x place.2 }

/-- What the loop's variables are in front of bit `k`: still those of the bit
    before, one place on. -/
def AtBit (remote : IrRemote) (k : Int) (affected : Affected) (currentBit : Int) : Prop :=
  (k ≤ remote.postDataBits → affected = .post ∧ currentBit = k) ∧
  (remote.postDataBits < k → k ≤ remote.postDataBits + remote.bits →
    affected = .code ∧ currentBit = k - remote.postDataBits) ∧
  (remote.postDataBits + remote.bits < k →
    affected = .pre ∧ currentBit = k - (remote.postDataBits + remote.bits))

theorem atBit_next (hw : FitsWord remote) (k : Int) :
    AtBit remote (k + 1) (bitPlace remote k).1 ((bitPlace remote k).2 + 1) := by
  obtain ⟨-, h2, h3, -⟩ := hw
  unfold AtBit bitPlace
  split_ifs with h4 h5
  · exact ⟨fun _ => ⟨rfl, rfl⟩, fun h => by omega, fun h => by omega⟩
  · exact ⟨fun h => by omega, fun _ _ => ⟨rfl, by show _ - _ + 1 = _; omega⟩, fun h => by omega⟩
  · exact ⟨fun h => by omega, fun _ h => by omega, fun _ => ⟨rfl, by show _ - _ + 1 = _; omega⟩⟩

/-- **One turn of the loop**: the bit is inverted at its place. -/
theorem toggleFields_step (hw : FitsWord remote) {k currentBit : Int} {affected : Affected}
    (hat : AtBit remote k affected currentBit) (n : Nat) (mask : IrCode) (f : Fields) :
    toggleFields remote (n + 1) k currentBit affected mask f =
      toggleFields remote n (k + 1) ((bitPlace remote k).2 + 1) (bitPlace remote k).1 (mask >>> 1)
        (toggleAt (bitPlace remote k) (fun c => (mask &&& 1) <<< c.toNat) f) := by
  obtain ⟨-, h2, h3, -⟩ := hw
  obtain ⟨hpost, hcode, hpre⟩ := hat
  rw [toggleFields]
  by_cases h4 : k < remote.postDataBits
  · obtain ⟨rfl, rfl⟩ := hpost (by omega)
    have hp : bitPlace remote currentBit = (.post, currentBit) := by rw [bitPlace, if_pos h4]
    simp only [if_neg (by omega : ¬ currentBit = remote.postDataBits),
      if_neg (by omega : ¬ currentBit = remote.postDataBits + remote.bits), hp, toggleAt]
  · by_cases h5 : k < remote.postDataBits + remote.bits
    · have hp : bitPlace remote k = (.code, k - remote.postDataBits) := by
        rw [bitPlace, if_neg h4, if_pos h5]
      have hne : ¬ k = remote.postDataBits + remote.bits := by omega
      by_cases hk : k = remote.postDataBits
      · have h0 : k - remote.postDataBits = 0 := by omega
        simp only [if_pos hk, if_neg hne, hp, toggleAt, h0]
      · obtain ⟨rfl, rfl⟩ := hcode (by omega) (by omega)
        simp only [if_neg hk, if_neg hne, hp, toggleAt]
    · have hp : bitPlace remote k = (.pre, k - (remote.postDataBits + remote.bits)) := by
        rw [bitPlace, if_neg h4, if_neg h5]
      by_cases hk : k = remote.postDataBits + remote.bits
      · have h0 : k - (remote.postDataBits + remote.bits) = 0 := by omega
        simp only [if_pos hk, hp, toggleAt, h0]
      · obtain ⟨rfl, rfl⟩ := hpre (by omega)
        have hne : ¬ k = remote.postDataBits := by omega
        simp only [if_neg hne, if_neg hk, hp, toggleAt]

/-- **The fields inverted from bit `k` on**, bit by bit. -/
structure Toggled (remote : IrRemote) (k : Int) (mask : IrCode) (f f' : Fields) : Prop where
  post : ∀ i : Nat, f'.post.getLsbD i = (f.post.getLsbD i ^^
    (decide (k ≤ i ∧ (i : Int) < remote.postDataBits) && mask.getLsbD i))
  code : ∀ i : Nat, f'.code.getLsbD i = (f.code.getLsbD i ^^
    (decide (k ≤ remote.postDataBits + i ∧ (i : Int) < remote.bits) &&
      mask.getLsbD (remote.postDataBits.toNat + i)))
  pre : ∀ i : Nat, f'.pre.getLsbD i = (f.pre.getLsbD i ^^
    (decide (k ≤ remote.postDataBits + remote.bits + i ∧ (i : Int) < remote.preDataBits) &&
      mask.getLsbD (remote.postDataBits.toNat + remote.bits.toNat + i)))

theorem Toggled.step (hw : FitsWord remote) {k : Nat} (hk : (k : Int) < bitCount remote)
    {mask : IrCode} {f f' : Fields}
    (h : Toggled remote (k + 1) mask
      (toggleAt (bitPlace remote k) (fun c => ((mask >>> k) &&& 1) <<< c.toNat) f) f') :
    Toggled remote k mask f f' := by
  obtain ⟨h1, h2, h3, h4⟩ := hw
  obtain ⟨hpost, hcode, hpre⟩ := h
  unfold bitCount at h4 hk
  by_cases h5 : (k : Int) < remote.postDataBits
  · have hp : bitPlace remote k = (.post, (k : Int)) := by rw [bitPlace, if_pos h5]
    rw [hp] at hpost hcode hpre
    refine ⟨fun i => ?_, fun i => ?_, fun i => ?_⟩
    · rw [hpost]
      simp only [toggleAt, BitVec.getLsbD_xor, Int.toNat_natCast,
        getLsbD_toggleBit mask k k i (by omega)]
      by_cases hi : i = k
      · subst hi
        have e : ¬ ((i : Int) + 1 ≤ i ∧ (i : Int) < remote.postDataBits) := by omega
        have e' : (i : Int) ≤ i ∧ (i : Int) < remote.postDataBits := ⟨Int.le_refl _, h5⟩
        rw [decide_eq_false e, decide_eq_true e', decide_eq_true rfl, Bool.true_and,
          Bool.false_and, Bool.xor_false]
      · have e : ((k : Int) + 1 ≤ i ∧ (i : Int) < remote.postDataBits) ↔
            ((k : Int) ≤ i ∧ (i : Int) < remote.postDataBits) := by omega
        rw [decide_eq_decide.mpr e, decide_eq_false hi, Bool.false_and, Bool.xor_false]
    · rw [hcode]
      have e : ((k : Int) + 1 ≤ remote.postDataBits + i ∧ (i : Int) < remote.bits) ↔
          ((k : Int) ≤ remote.postDataBits + i ∧ (i : Int) < remote.bits) := by omega
      simp only [toggleAt, e]
    · rw [hpre]
      have e : ((k : Int) + 1 ≤ remote.postDataBits + remote.bits + i ∧
          (i : Int) < remote.preDataBits) ↔ ((k : Int) ≤ remote.postDataBits + remote.bits + i ∧
          (i : Int) < remote.preDataBits) := by omega
      simp only [toggleAt, e]
  · by_cases h6 : (k : Int) < remote.postDataBits + remote.bits
    · have hp : bitPlace remote k = (.code, (k : Int) - remote.postDataBits) := by
        rw [bitPlace, if_neg h5, if_pos h6]
      rw [hp] at hpost hcode hpre
      refine ⟨fun i => ?_, fun i => ?_, fun i => ?_⟩
      · rw [hpost]
        have e : ((k : Int) + 1 ≤ i ∧ (i : Int) < remote.postDataBits) ↔
            ((k : Int) ≤ i ∧ (i : Int) < remote.postDataBits) := by omega
        simp only [toggleAt, e]
      · rw [hcode]
        simp only [toggleAt, BitVec.getLsbD_xor,
          getLsbD_toggleBit mask k _ i (by omega : ((k : Int) - remote.postDataBits).toNat < 64)]
        by_cases hi : i = ((k : Int) - remote.postDataBits).toNat
        · have e1 : ¬ ((k : Int) + 1 ≤ remote.postDataBits + i ∧ (i : Int) < remote.bits) := by
            omega
          have e2 : ((k : Int) ≤ remote.postDataBits + i ∧ (i : Int) < remote.bits) := by omega
          have e3 : remote.postDataBits.toNat + i = k := by omega
          rw [e3, decide_eq_false e1, decide_eq_true e2, decide_eq_true hi, Bool.true_and,
            Bool.false_and, Bool.xor_false]
        · have e : ((k : Int) + 1 ≤ remote.postDataBits + i ∧ (i : Int) < remote.bits) ↔
              ((k : Int) ≤ remote.postDataBits + i ∧ (i : Int) < remote.bits) := by omega
          simp only [e, hi, decide_false, Bool.false_and, Bool.xor_false]
      · rw [hpre]
        have e : ((k : Int) + 1 ≤ remote.postDataBits + remote.bits + i ∧
            (i : Int) < remote.preDataBits) ↔ ((k : Int) ≤ remote.postDataBits + remote.bits + i ∧
            (i : Int) < remote.preDataBits) := by omega
        simp only [toggleAt, e]
    · have hp : bitPlace remote k = (.pre, (k : Int) - (remote.postDataBits + remote.bits)) := by
        rw [bitPlace, if_neg h5, if_neg h6]
      rw [hp] at hpost hcode hpre
      refine ⟨fun i => ?_, fun i => ?_, fun i => ?_⟩
      · rw [hpost]
        have e : ((k : Int) + 1 ≤ i ∧ (i : Int) < remote.postDataBits) ↔
            ((k : Int) ≤ i ∧ (i : Int) < remote.postDataBits) := by omega
        simp only [toggleAt, e]
      · rw [hcode]
        have e : ((k : Int) + 1 ≤ remote.postDataBits + i ∧ (i : Int) < remote.bits) ↔
            ((k : Int) ≤ remote.postDataBits + i ∧ (i : Int) < remote.bits) := by omega
        simp only [toggleAt, e]
      · rw [hpre]
        simp only [toggleAt, BitVec.getLsbD_xor, getLsbD_toggleBit mask k _ i
          (by omega : ((k : Int) - (remote.postDataBits + remote.bits)).toNat < 64)]
        by_cases hi : i = ((k : Int) - (remote.postDataBits + remote.bits)).toNat
        · have e1 : ¬ ((k : Int) + 1 ≤ remote.postDataBits + remote.bits + i ∧
              (i : Int) < remote.preDataBits) := by omega
          have e2 : ((k : Int) ≤ remote.postDataBits + remote.bits + i ∧
              (i : Int) < remote.preDataBits) := by omega
          have e3 : remote.postDataBits.toNat + remote.bits.toNat + i = k := by omega
          rw [e3, decide_eq_false e1, decide_eq_true e2, decide_eq_true hi, Bool.true_and,
            Bool.false_and, Bool.xor_false]
        · have e : ((k : Int) + 1 ≤ remote.postDataBits + remote.bits + i ∧
              (i : Int) < remote.preDataBits) ↔ ((k : Int) ≤ remote.postDataBits + remote.bits + i ∧
              (i : Int) < remote.preDataBits) := by omega
          simp only [e, hi, decide_false, Bool.false_and, Bool.xor_false]

/-- **The loop inverts every bit of the frame**, by induction on the bits that
    are left. -/
theorem toggled_loop (hw : FitsWord remote) (mask : IrCode) (n : Nat) {k : Nat}
    {affected : Affected} {currentBit : Int} {f : Fields} (hat : AtBit remote k affected currentBit)
    (hn : (k : Int) + n = bitCount remote) :
    Toggled remote k mask f (toggleFields remote n k currentBit affected (mask >>> k) f) := by
  induction n generalizing k affected currentBit f with
  | zero =>
    obtain ⟨h1, h2, h3, -⟩ := hw
    unfold bitCount at hn
    refine ⟨fun i => ?_, fun i => ?_, fun i => ?_⟩
    · have e : ¬ ((k : Int) ≤ i ∧ (i : Int) < remote.postDataBits) := by omega
      rw [toggleFields, decide_eq_false e, Bool.false_and, Bool.xor_false]
    · have e : ¬ ((k : Int) ≤ remote.postDataBits + i ∧ (i : Int) < remote.bits) := by omega
      rw [toggleFields, decide_eq_false e, Bool.false_and, Bool.xor_false]
    · have e : ¬ ((k : Int) ≤ remote.postDataBits + remote.bits + i ∧
          (i : Int) < remote.preDataBits) := by omega
      rw [toggleFields, decide_eq_false e, Bool.false_and, Bool.xor_false]
  | succ n ih =>
    rw [toggleFields_step hw hat, ← BitVec.shiftRight_add]
    refine Toggled.step hw (by omega) ?_
    exact_mod_cast ih (atBit_next hw k) (by push_cast at hn ⊢; omega)

theorem toggled_of_odd (hw : FitsWord remote) (f : Fields) (h0 : remote.toggleMask ≠ 0)
    (hodd : remote.toggleMaskState.tmod 2 ≠ 0) :
    Toggled remote ((0 : Nat) : Int) remote.toggleMask f (receivedFields remote f) := by
  obtain ⟨h1, h2, h3, h4⟩ := hw
  have hcount : 0 ≤ bitCount remote := by
    unfold bitCount
    omega
  have hat : AtBit remote ((0 : Nat) : Int) .post 0 := by
    refine ⟨fun _ => ⟨rfl, rfl⟩, fun h => ?_, fun h => ?_⟩ <;> omega
  have ht := toggled_loop ⟨h1, h2, h3, h4⟩ remote.toggleMask (bitCount remote).toNat (f := f) hat
    (by omega)
  rw [BitVec.ushiftRight_zero] at ht
  have hc : (hasToggleMask remote && decide (remote.toggleMaskState.tmod 2 ≠ 0)) = true := by
    rw [Bool.and_eq_true]
    exact ⟨bne_iff_ne.mpr h0, decide_eq_true hodd⟩
  rw [receivedFields, if_pos hc]
  exact ht

/-- The fields that are compared, in a word: those received, inverted if
    `toggle_mask_state` is odd. -/
def receivedWord (remote : IrRemote) (f : Fields) : IrCode :=
  genIrCode remote f.pre f.code f.post ^^^
    if remote.toggleMaskState.tmod 2 ≠ 0 then remote.toggleMask else 0

/-- **Inverting the fields inverts the word.** -/
theorem genIrCode_receivedFields (hraw : isRaw remote = false) (hw : FitsWord remote)
    (hmask : remote.toggleMask.toNat < 2 ^ (bitCount remote).toNat) (f : Fields) :
    genIrCode remote (receivedFields remote f).pre (receivedFields remote f).code
      (receivedFields remote f).post = receivedWord remote f := by
  unfold receivedWord
  by_cases h0 : remote.toggleMask = 0
  · have hr : receivedFields remote f = f := by
      rw [receivedFields, if_neg (by simp [hasToggleMask, h0])]
    rw [hr, h0, ite_self]
    exact BitVec.xor_zero.symm
  · by_cases hodd : remote.toggleMaskState.tmod 2 ≠ 0
    · have ht := toggled_of_odd hw f h0 hodd
      obtain ⟨h1, h2, h3, h4⟩ := hw
      rw [if_pos hodd]
      generalize receivedFields remote f = f' at *
      apply BitVec.eq_of_getLsbD_eq
      intro j hj
      rw [BitVec.getLsbD_xor, getLsbD_genIrCode hraw ⟨h1, h2, h3, h4⟩,
        getLsbD_genIrCode hraw ⟨h1, h2, h3, h4⟩]
      have hbc : bitCount remote = remote.preDataBits + remote.bits + remote.postDataBits := rfl
      by_cases hj1 : j < remote.postDataBits.toNat
      · have e : ((0 : Nat) : Int) ≤ j ∧ (j : Int) < remote.postDataBits := by omega
        rw [if_pos hj1, if_pos hj1, ht.post, decide_eq_true e, Bool.true_and]
      · by_cases hj2 : j < remote.postDataBits.toNat + remote.bits.toNat
        · have e : ((0 : Nat) : Int) ≤ remote.postDataBits + (j - remote.postDataBits.toNat : Nat) ∧
              ((j - remote.postDataBits.toNat : Nat) : Int) < remote.bits := by omega
          have e' : remote.postDataBits.toNat + (j - remote.postDataBits.toNat) = j := by omega
          rw [if_neg hj1, if_pos hj2, if_neg hj1, if_pos hj2, ht.code, decide_eq_true e,
            Bool.true_and, e']
        · by_cases hj3 : j < (bitCount remote).toNat
          · have e : ((0 : Nat) : Int) ≤ remote.postDataBits + remote.bits +
                (j - (remote.postDataBits.toNat + remote.bits.toNat) : Nat) ∧
                ((j - (remote.postDataBits.toNat + remote.bits.toNat) : Nat) : Int) <
                  remote.preDataBits := by omega
            have e' : remote.postDataBits.toNat + remote.bits.toNat +
                (j - (remote.postDataBits.toNat + remote.bits.toNat)) = j := by omega
            rw [if_neg hj1, if_neg hj2, if_pos hj3, if_neg hj1, if_neg hj2, if_pos hj3, ht.pre,
              decide_eq_true e, Bool.true_and, e']
          · have hm := getLsbD_of_lt hmask (Nat.le_of_not_lt hj3)
            rw [if_neg hj1, if_neg hj2, if_neg hj3, if_neg hj1, if_neg hj2, if_neg hj3, hm]
            rfl
    · have hr : receivedFields remote f = f := by
        rw [receivedFields, if_neg (by simp [hodd])]
      rw [hr, if_neg hodd]
      exact BitVec.xor_zero.symm

/-! ## 3. The comparisons of `get_code` -/

/-- The early checks of `get_code` on the fields as they are compared. -/
def preMatches (remote : IrRemote) (f : Fields) : Bool :=
  !(hasPre remote && (f.pre ||| preMask remote) != (remote.preData ||| preMask remote))

def postMatches (remote : IrRemote) (f : Fields) : Bool :=
  !(hasPost remote && (f.post ||| postMask remote) != (remote.postData ||| postMask remote))

/-- `get_code` decides that the received fields are those of code part `c`. -/
def partMatches (remote : IrRemote) (f : Fields) (c : IrCode) : Bool :=
  let f := receivedFields remote f
  preMatches remote f && postMatches remote f &&
    matchIrCode remote (genIrCode remote remote.preData c remote.postData)
      (genIrCode remote f.pre f.code f.post)

/-- Where two words match, their bits agree outside the masks. -/
theorem matchIrCode_bit {a b : IrCode} (h : matchIrCode remote a b = true) (j : Nat) :
    remote.ignoreMask.getLsbD j = true ∨ remote.toggleBitMask.getLsbD j = true ∨
      a.getLsbD j = b.getLsbD j := by
  unfold matchIrCode at h
  rcases (Bool.or_eq_true _ _).mp h with h | h
  · have e := congrArg (fun v => v.getLsbD j) (eq_of_beq h)
    simp only [BitVec.getLsbD_or] at e
    cases hi : remote.ignoreMask.getLsbD j with
    | true => exact .inl rfl
    | false =>
      rw [hi] at e
      exact .inr (.inr (by simpa using e))
  · have e := congrArg (fun v => v.getLsbD j) (eq_of_beq h)
    simp only [BitVec.getLsbD_or, BitVec.getLsbD_xor] at e
    cases hi : remote.ignoreMask.getLsbD j with
    | true => exact .inl rfl
    | false =>
      cases ht : remote.toggleBitMask.getLsbD j with
      | true => exact .inr (.inl rfl)
      | false =>
        rw [hi, ht] at e
        exact .inr (.inr (by simpa using e))

/-- The values of a remote and its masks lie within its widths. -/
structure DataWithin (remote : IrRemote) : Prop where
  pre : remote.preData.toNat < 2 ^ remote.preDataBits.toNat
  post : remote.postData.toNat < 2 ^ remote.postDataBits.toNat
  toggle : remote.toggleMask.toNat < 2 ^ (bitCount remote).toNat

/-- The received fields lie within the widths. -/
structure Fields.Within (remote : IrRemote) (f : Fields) : Prop where
  pre : f.pre.toNat < 2 ^ remote.preDataBits.toNat
  code : f.code.toNat < 2 ^ remote.bits.toNat
  post : f.post.toNat < 2 ^ remote.postDataBits.toNat

/-- Pre and post data keep their widths when they are inverted. -/
theorem receivedFields_within (hw : FitsWord remote) {f : Fields} (hf : f.Within remote) :
    (∀ i, remote.preDataBits.toNat ≤ i → (receivedFields remote f).pre.getLsbD i = false) ∧
    (∀ i, remote.postDataBits.toNat ≤ i → (receivedFields remote f).post.getLsbD i = false) := by
  by_cases h : remote.toggleMask ≠ 0 ∧ remote.toggleMaskState.tmod 2 ≠ 0
  · obtain ⟨h1, h2⟩ := h
    have ht := toggled_of_odd hw f h1 h2
    have hb := hw.preBits
    have hb' := hw.postBits
    refine ⟨fun i hi => ?_, fun i hi => ?_⟩
    · have e : ¬ (((0 : Nat) : Int) ≤ remote.postDataBits + remote.bits + i ∧
          (i : Int) < remote.preDataBits) := by omega
      rw [ht.pre, getLsbD_of_lt hf.pre hi, decide_eq_false e]
      rfl
    · have e : ¬ (((0 : Nat) : Int) ≤ i ∧ (i : Int) < remote.postDataBits) := by omega
      rw [ht.post, getLsbD_of_lt hf.post hi, decide_eq_false e]
      rfl
  · have hc : ¬ (hasToggleMask remote && decide (remote.toggleMaskState.tmod 2 ≠ 0)) = true := by
      rw [Bool.and_eq_true]
      exact fun hc => h ⟨bne_iff_ne.mp hc.1, of_decide_eq_true hc.2⟩
    rw [receivedFields, if_neg hc]
    exact ⟨fun i hi => getLsbD_of_lt hf.pre hi, fun i hi => getLsbD_of_lt hf.post hi⟩

/-- Two words of one field agree under a mask if their bits do. -/
theorem or_eq_or {a b m : IrCode} (h : ∀ i, m.getLsbD i = true ∨ a.getLsbD i = b.getLsbD i) :
    a ||| m = b ||| m := by
  apply BitVec.eq_of_getLsbD_eq
  intro i _
  rw [BitVec.getLsbD_or, BitVec.getLsbD_or]
  rcases h i with h | h
  · rw [h, Bool.or_true, Bool.or_true]
  · rw [h]

/-- A mask that is 0 masks nothing. -/
theorem if_mask (m : IrCode) (g : IrCode → IrCode) (h : g 0 = 0) :
    (if (m != 0) = true then g m else 0) = g m := by
  by_cases hm : m = 0
  · subst hm
    rw [h, ite_self]
  · rw [if_pos (bne_iff_ne.mpr hm)]

theorem preMask_eq : preMask remote = (remote.toggleBitMask >>>
    (remote.bits + remote.postDataBits).toNat) ||| (remote.ignoreMask >>>
      (remote.bits + remote.postDataBits).toNat) := by
  unfold preMask hasToggleBitMask hasIgnoreMask
  dsimp only
  rw [if_mask remote.toggleBitMask (· >>> (remote.bits + remote.postDataBits).toNat) (by simp),
    if_mask remote.ignoreMask (· >>> (remote.bits + remote.postDataBits).toNat) (by simp)]

theorem postMask_eq : postMask remote = (remote.toggleBitMask &&& genMask remote.postDataBits) |||
    (remote.ignoreMask &&& genMask remote.postDataBits) := by
  unfold postMask hasToggleBitMask hasIgnoreMask
  dsimp only
  rw [if_mask remote.toggleBitMask (· &&& genMask remote.postDataBits) (by simp),
    if_mask remote.ignoreMask (· &&& genMask remote.postDataBits) (by simp)]

/-- **A word that matches passes the early checks.** -/
theorem checks_of_match (hraw : isRaw remote = false) (hw : FitsWord remote)
    (hd : DataWithin remote) {f : Fields}
    (hpre : ∀ i, remote.preDataBits.toNat ≤ i → f.pre.getLsbD i = false)
    (hpost : ∀ i, remote.postDataBits.toNat ≤ i → f.post.getLsbD i = false)
    {c : IrCode} (h : matchIrCode remote (genIrCode remote remote.preData c remote.postData)
      (genIrCode remote f.pre f.code f.post) = true) :
    preMatches remote f = true ∧ postMatches remote f = true := by
  have hbit := matchIrCode_bit h
  have hgen := @getLsbD_genIrCode remote hraw hw
  obtain ⟨h1, h2, h3, h4⟩ := hw
  have hbc : bitCount remote = remote.preDataBits + remote.bits + remote.postDataBits := rfl
  constructor
  · have e : f.pre ||| preMask remote = remote.preData ||| preMask remote := by
      refine or_eq_or fun i => ?_
      by_cases hi : i < remote.preDataBits.toNat
      · have hb := hbit (remote.postDataBits.toNat + remote.bits.toNat + i)
        have e1 : ¬ remote.postDataBits.toNat + remote.bits.toNat + i <
            remote.postDataBits.toNat := by omega
        have e2 : ¬ remote.postDataBits.toNat + remote.bits.toNat + i <
            remote.postDataBits.toNat + remote.bits.toNat := by omega
        have e3 : remote.postDataBits.toNat + remote.bits.toNat + i < (bitCount remote).toNat := by
          omega
        have e4 : remote.postDataBits.toNat + remote.bits.toNat + i -
            (remote.postDataBits.toNat + remote.bits.toNat) = i := by omega
        have e5 : (remote.bits + remote.postDataBits).toNat + i =
            remote.postDataBits.toNat + remote.bits.toNat + i := by omega
        rw [hgen, hgen, if_neg e1, if_neg e2, if_pos e3, if_neg e1, if_neg e2, if_pos e3, e4] at hb
        rw [preMask_eq, BitVec.getLsbD_or, BitVec.getLsbD_ushiftRight, BitVec.getLsbD_ushiftRight,
          e5]
        rcases hb with hb | hb | hb
        · exact .inl (by rw [hb, Bool.or_true])
        · exact .inl (by rw [hb, Bool.true_or])
        · exact .inr hb.symm
      · exact .inr (by rw [hpre i (by omega), getLsbD_of_lt hd.pre (by omega)])
    unfold preMatches
    rw [e]
    simp
  · have e : f.post ||| postMask remote = remote.postData ||| postMask remote := by
      refine or_eq_or fun i => ?_
      by_cases hi : i < remote.postDataBits.toNat
      · have hb := hbit i
        rw [hgen, hgen, if_pos hi, if_pos hi] at hb
        rw [postMask_eq, BitVec.getLsbD_or, getLsbD_genMask,
          getLsbD_genMask, decide_eq_true hi, Bool.true_and, Bool.true_and]
        rcases hb with hb | hb | hb
        · exact .inl (by rw [hb, Bool.or_true])
        · exact .inl (by rw [hb, Bool.true_or])
        · exact .inr hb.symm
      · exact .inr (by rw [hpost i (by omega), getLsbD_of_lt hd.post (by omega)])
    unfold postMatches
    rw [e]
    simp

/-- **The masks of `get_code` agree with one comparison of whole frames.** -/
theorem partMatches_eq (remote : IrRemote) (f : Fields) (c : IrCode) (hraw : isRaw remote = false)
    (hw : FitsWord remote) (hd : DataWithin remote) (hf : f.Within remote) :
    partMatches remote f c =
      matchIrCode remote (genIrCode remote remote.preData c remote.postData)
        (genIrCode remote f.pre f.code f.post ^^^
          if remote.toggleMaskState.tmod 2 ≠ 0 then remote.toggleMask else 0) := by
  have hword := genIrCode_receivedFields hraw hw hd.toggle f
  obtain ⟨hpre, hpost⟩ := receivedFields_within hw hf
  have hchecks := checks_of_match (c := c) hraw hw hd hpre hpost
  unfold partMatches
  dsimp only
  change _ = matchIrCode remote _ (receivedWord remote f)
  rw [← hword]
  cases hm : matchIrCode remote (genIrCode remote remote.preData c remote.postData)
    (genIrCode remote (receivedFields remote f).pre (receivedFields remote f).code
      (receivedFields remote f).post) with
  | false => rw [Bool.and_false]
  | true =>
    obtain ⟨h1, h2⟩ := hchecks hm
    rw [h1, h2]
    rfl

end Word

/-- A remote whose pre data and code are inverted from frame to frame. -/
def sharpRemote : IrRemote :=
  { name := "sharp", flags := SPACE_ENC, preDataBits := 4, preData := 0b1010, bits := 4,
    postDataBits := 2, postData := 0b01, toggleMask := 0b0000111111, toggleBitMask := 0b1000000000,
    ignoreMask := 0b01, toggleMaskState := 1 }

/-- The inverted frame of code 0110 matches it. -/
theorem partMatches_eq_sharpRemote :
    partMatches sharpRemote ⟨0b1010, 0b1001, 0b10⟩ 0b0110 =
      matchIrCode sharpRemote
        (genIrCode sharpRemote sharpRemote.preData 0b0110 sharpRemote.postData)
        (genIrCode sharpRemote 0b1010 0b1001 0b10 ^^^
          if sharpRemote.toggleMaskState.tmod 2 ≠ 0 then sharpRemote.toggleMask else 0) :=
  partMatches_eq sharpRemote ⟨0b1010, 0b1001, 0b10⟩ 0b0110 (by decide)
    ⟨by decide, by decide, by decide, by decide⟩ ⟨by decide, by decide, by decide⟩
    ⟨by decide, by decide, by decide⟩

end WinLirc
