/-
  File:      WinLirc/ToggleBits.lean
  Subject:   `toggle_bit_mask` from `read_config` to the sent word.

  * `emits_sentWord`: the bits that `send_code` sends are those of one word;
  * `toggleState_postProcess`: `read_config` starts the state at the first code;
  * `Transmits`: what the server and `init_send` do to a remote;
  * `toggleBits_iff`: when the sent word is accepted as its code.
-/
import Mathlib.Logic.Relation
import WinLirc.ConfigSafety
import WinLirc.Fields
import WinLirc.InitSend

namespace WinLirc

open Signal

/-! ## 1. The word that `send_code` sends -/

/-- `toggle_mask` as the frames with an odd state have it. -/
def togglesOf (remote : IrRemote) : IrCode :=
  if remote.toggleMaskState.tmod 2 ≠ 0 then remote.toggleMask &&& genMask (wordBits remote) else 0

/-- The word of a code after the toggles of `send_data`. -/
def sentWord (remote : IrRemote) (code : IrCode) : IrCode :=
  let word := genIrCode remote remote.preData code remote.postData
  let state := remote.toggleBitMaskState &&& remote.toggleBitMask
  (if bitsSet remote.toggleBitMask = 1 then word &&& ~~~remote.toggleBitMask ||| state
    else word ^^^ state) ^^^ togglesOf remote

/-- The calls for `n` bits of a word, from place `top - 1` downwards. -/
def placesSignal (remote : IrRemote) (word : IrCode) : Nat → Nat → List Emission
  | 0, _ => []
  | n + 1, top =>
    bitSignal remote ((1 : IrCode) <<< (top - 1)) (word.getLsbD (top - 1)) ++
      placesSignal remote word n (top - 1)

/-- A code frame with the bits of a word. -/
def wordSignal (remote : IrRemote) (word : IrCode) (rep : Bool) : List Emission :=
  (if !rep || !hasFlag remote NO_HEAD_REP then headerSignal remote else []) ++
  leadSignal remote ++
  (if hasPre remote then
    placesSignal remote word remote.preDataBits.toNat (wordBits remote) ++
      pairSignal remote.preP remote.preS
  else []) ++
  placesSignal remote word remote.bits.toNat (remote.bits.toNat + remote.postDataBits.toNat) ++
  (if hasPost remote then
    pairSignal remote.postP remote.postS ++
      placesSignal remote word remote.postDataBits.toNat remote.postDataBits.toNat
  else []) ++
  trailSignal remote ++
  (if !rep || !hasFlag remote NO_FOOT_REP then footSignal remote else [])

/-- `send_code` sends the word. -/
def Emits (remote : IrRemote) (code word : IrCode) : Prop :=
  ∀ rep b, sendCode remote code rep b =
    { emit (wordSignal remote word rep) b with
      sum := (emit (wordSignal remote word rep) b).sum - sumCut remote rep }

/-- The remotes of bit-by-bit frames with a toggle mask inside the word. -/
structure TogglesBits (remote : IrRemote) : Prop where
  raw : isRaw remote = false
  rcmm : isRcmm remote = false
  xmp : isXmp remote = false
  widths : WordWidths remote
  mask : remote.toggleBitMask ≠ 0
  within : remote.toggleBitMask &&& genMask (wordBits remote) = remote.toggleBitMask

section Word

variable {remote : IrRemote}

/-- The value of a bit at a place of the word, as `send_data` leaves it. -/
def toggledBit (remote : IrRemote) (place : Nat) (one : Bool) : Bool :=
  (if remote.toggleBitMask.getLsbD place then
      if bitsSet remote.toggleBitMask = 1 then remote.toggleBitMaskState.getLsbD place
      else one ^^ remote.toggleBitMaskState.getLsbD place
    else one) ^^
    (remote.toggleMask.getLsbD place && decide (remote.toggleMaskState.tmod 2 ≠ 0))

theorem getLsbD_zero_xor_one (data : IrCode) : (data ^^^ 1).getLsbD 0 = !data.getLsbD 0 := by
  rw [BitVec.getLsbD_xor]
  simp

theorem xor_one_ushiftRight (data : IrCode) : (data ^^^ 1) >>> 1 = data >>> 1 := by
  apply BitVec.eq_of_getLsbD_eq
  intro i hi
  rw [BitVec.getLsbD_ushiftRight, BitVec.getLsbD_ushiftRight, BitVec.getLsbD_xor]
  simp [BitVec.getLsbD_one]

theorem clear_ushiftRight (data : IrCode) : (data &&& ~~~1) >>> 1 = data >>> 1 := by
  apply BitVec.eq_of_getLsbD_eq
  intro i hi
  rw [BitVec.getLsbD_ushiftRight, BitVec.getLsbD_ushiftRight, BitVec.getLsbD_and,
    BitVec.getLsbD_not]
  by_cases h : 1 + i < 64
  · simp [h]
  · rw [BitVec.getLsbD_of_ge data (1 + i) (by omega)]
    rfl

theorem set_ushiftRight (data : IrCode) : (data &&& ~~~1 ||| 1) >>> 1 = data >>> 1 := by
  rw [BitVec.ushiftRight_or_distrib, clear_ushiftRight]
  simp

theorem ne_zero_and_getLsbD (v : IrCode) (place : Nat) :
    (v != 0 && v.getLsbD place) = v.getLsbD place := by
  cases h : v.getLsbD place with
  | false => exact Bool.and_false _
  | true =>
    have hne : v ≠ 0 := by
      intro h0
      rw [h0] at h
      simp at h
    rw [bne_iff_ne.mpr hne]
    rfl

/-- **One bit of `send_data`**: only the bit at hand changes. -/
theorem toggleData_bit (remote : IrRemote) (place : Nat) (hp : place < 64) (data : IrCode) :
    (toggleData remote ((1 : IrCode) <<< place) data).getLsbD 0 =
        toggledBit remote place (data.getLsbD 0) ∧
      toggleData remote ((1 : IrCode) <<< place) data >>> 1 = data >>> 1 := by
  have hand : ∀ v : IrCode, ((1 : IrCode) <<< place &&& v != 0) = v.getLsbD place := by
    intro v
    rw [Bool.eq_iff_iff, bne_iff_ne, BitVec.and_comm]
    exact and_one_shift_ne_zero v place hp
  have hstate : remote.toggleBitMaskState &&& (1 : IrCode) <<< place ≠ 0 ↔
      remote.toggleBitMaskState.getLsbD place = true :=
    and_one_shift_ne_zero remote.toggleBitMaskState place hp
  have htbm : (hasToggleBitMask remote && remote.toggleBitMask.getLsbD place) =
      remote.toggleBitMask.getLsbD place := ne_zero_and_getLsbD _ place
  have htm : (hasToggleMask remote && remote.toggleMask.getLsbD place) =
      remote.toggleMask.getLsbD place := ne_zero_and_getLsbD _ place
  -- what the first mask leaves
  have hfirst : ∃ d : IrCode, (if remote.toggleBitMask.getLsbD place then
      if bitsSet remote.toggleBitMask = 1 then
        if remote.toggleBitMaskState &&& (1 : IrCode) <<< place ≠ 0 then data &&& ~~~1 ||| 1
        else data &&& ~~~1
      else if remote.toggleBitMaskState &&& (1 : IrCode) <<< place ≠ 0 then data ^^^ 1 else data
    else data) = d ∧ d >>> 1 = data >>> 1 ∧ d.getLsbD 0 =
      (if remote.toggleBitMask.getLsbD place then
        if bitsSet remote.toggleBitMask = 1 then remote.toggleBitMaskState.getLsbD place
        else data.getLsbD 0 ^^ remote.toggleBitMaskState.getLsbD place
      else data.getLsbD 0) := by
    refine ⟨_, rfl, ?_⟩
    cases hm : remote.toggleBitMask.getLsbD place with
    | false => exact ⟨rfl, rfl⟩
    | true =>
      rw [if_pos rfl, if_pos rfl]
      by_cases hone : bitsSet remote.toggleBitMask = 1
      · rw [if_pos hone, if_pos hone]
        by_cases hs : remote.toggleBitMaskState.getLsbD place = true
        · rw [if_pos (hstate.mpr hs), hs]
          exact ⟨set_ushiftRight data, by simp⟩
        · rw [if_neg (fun h => hs (hstate.mp h)), Bool.eq_false_iff.mpr hs]
          exact ⟨clear_ushiftRight data, by simp⟩
      · rw [if_neg hone, if_neg hone]
        by_cases hs : remote.toggleBitMaskState.getLsbD place = true
        · rw [if_pos (hstate.mpr hs), hs, getLsbD_zero_xor_one, Bool.xor_true]
          exact ⟨xor_one_ushiftRight data, rfl⟩
        · rw [if_neg (fun h => hs (hstate.mp h)), Bool.eq_false_iff.mpr hs, Bool.xor_false]
          exact ⟨rfl, rfl⟩
  obtain ⟨d, hd, hshift, hbit⟩ := hfirst
  unfold toggleData toggledBit
  dsimp only
  rw [hand, hand, htbm, htm, hd, ← hbit]
  cases hc : remote.toggleMask.getLsbD place && decide (remote.toggleMaskState.tmod 2 ≠ 0) with
  | false =>
    rw [if_neg Bool.false_ne_true, Bool.xor_false]
    exact ⟨rfl, hshift⟩
  | true =>
    rw [if_pos rfl, Bool.xor_true, getLsbD_zero_xor_one, xor_one_ushiftRight]
    exact ⟨rfl, hshift⟩

/-- **The loop of `send_data`** sends the places of a word, if each has the
    value of its bit. -/
theorem bitsSignal_places {word : IrCode} (n top : Nat) (data : IrCode) (hn : n ≤ top)
    (htop : top ≤ 64)
    (h : ∀ i, i < n → word.getLsbD (top - 1 - i) =
      toggledBit remote (top - 1 - i) (data.getLsbD i)) :
    bitsSignal remote n ((1 : IrCode) <<< (top - 1)) data = placesSignal remote word n top := by
  induction n generalizing top data with
  | zero => rfl
  | succ n ih =>
    obtain ⟨hbit, hshift⟩ := toggleData_bit remote (top - 1) (by omega) data
    have h0 := h 0 (Nat.succ_pos n)
    rw [Nat.sub_zero] at h0
    rw [bitsSignal, placesSignal, hbit, hshift, ← h0]
    congr 1
    cases n with
    | zero => rfl
    | succ n =>
      obtain ⟨t, rfl⟩ : ∃ t, top = t + 2 := ⟨top - 2, by omega⟩
      have hmask : (1 : IrCode) <<< (t + 2 - 1) >>> 1 = (1 : IrCode) <<< (t + 1 - 1) :=
        one_shift_ushiftRight (by omega)
      rw [hmask]
      refine ih (t + 1) (data >>> 1) (by omega) (by omega) fun i hi => ?_
      have hi' := h (i + 1) (by omega)
      have he : t + 2 - 1 - (i + 1) = t + 1 - 1 - i := by omega
      rw [he] at hi'
      rw [BitVec.getLsbD_ushiftRight, Nat.add_comm 1 i]
      exact hi'

/-- The bits of the word. -/
theorem getLsbD_sentWord (hw : WordWidths remote) (code : IrCode) {place : Nat}
    (hp : place < wordBits remote) :
    (sentWord remote code).getLsbD place = toggledBit remote place
      ((genIrCode remote remote.preData code remote.postData).getLsbD place) := by
  have h64 : place < 64 := Nat.lt_of_lt_of_le hp hw.count
  have htog : (togglesOf remote).getLsbD place =
      (remote.toggleMask.getLsbD place && decide (remote.toggleMaskState.tmod 2 ≠ 0)) := by
    unfold togglesOf
    have hcount := hw.count
    split
    · next hodd =>
      rw [getLsbD_genMask, Int.toNat_natCast, decide_eq_true hp, Bool.true_and,
        decide_eq_true hodd, Bool.and_true]
    · next hodd =>
      rw [decide_eq_false hodd, Bool.and_false]
      simp
  unfold sentWord toggledBit
  generalize genIrCode remote remote.preData code remote.postData = word
  generalize bitsSet remote.toggleBitMask = n
  rw [BitVec.getLsbD_xor, htog]
  by_cases hone : n = 1
  · rw [if_pos hone, if_pos hone]
    simp only [BitVec.getLsbD_or, BitVec.getLsbD_and, BitVec.getLsbD_not, h64, decide_true,
      Bool.true_and]
    cases remote.toggleBitMask.getLsbD place with
    | false => simp
    | true => simp
  · rw [if_neg hone, if_neg hone, BitVec.getLsbD_xor, BitVec.getLsbD_and]
    cases remote.toggleBitMask.getLsbD place with
    | false => simp
    | true => simp

/-- A field of the word, sent from its top. -/
theorem dataSignal_places (hrcmm : isRcmm remote = false) (hxmp : isXmp remote = false)
    {word data : IrCode} {width : Nat} {done : Int} {top : Nat}
    (hdone : (bitCount remote - 1 - done).toNat = top - 1) (hn : width ≤ top) (htop : top ≤ 64)
    (h : ∀ i, i < width → word.getLsbD (top - 1 - i) =
      toggledBit remote (top - 1 - i) (data.getLsbD (width - 1 - i))) :
    dataSignal remote data width done = placesSignal remote word width top := by
  unfold dataSignal
  rw [if_neg (by rw [hrcmm]; decide), if_neg (by rw [hxmp]; decide), Int.toNat_natCast, hdone]
  refine bitsSignal_places width top _ hn htop fun i hi => ?_
  rw [h i hi, getLsbD_reverse data width (by omega), decide_eq_true hi, Bool.true_and]

/-- **The bits that `send_code` sends are those of `sentWord`.** -/
theorem emits_sentWord (hr : TogglesBits remote) (code : IrCode) :
    Emits remote code (sentWord remote code) := by
  have hw := hr.widths
  obtain ⟨h1, h2, h3⟩ := hr.widths
  unfold wordBits at h3
  have hword : ∀ place, place < wordBits remote → (sentWord remote code).getLsbD place =
      toggledBit remote place
        ((genIrCode remote remote.preData code remote.postData).getLsbD place) :=
    fun place => getLsbD_sentWord hw code
  have hgen := getLsbD_word hr.raw hw remote.preData code remote.postData
  -- the three fields
  have hpre : hasPre remote = true → dataSignal remote remote.preData remote.preDataBits 0 =
      placesSignal remote (sentWord remote code) remote.preDataBits.toNat (wordBits remote) := by
    intro hpre
    have hpos : remote.preDataBits > 0 := of_decide_eq_true hpre
    have he : remote.preDataBits = (remote.preDataBits.toNat : Int) := by omega
    rw [he, Int.toNat_natCast]
    refine dataSignal_places hr.rcmm hr.xmp ?_ ?_ h3 fun i hi => ?_
    · unfold bitCount wordBits
      omega
    · unfold wordBits
      omega
    · have e1 : ¬ wordBits remote - 1 - i < remote.postDataBits.toNat := by
        unfold wordBits
        omega
      have e2 : ¬ wordBits remote - 1 - i < remote.postDataBits.toNat + remote.bits.toNat := by
        unfold wordBits
        omega
      have e3 : wordBits remote - 1 - i < wordBits remote := by
        unfold wordBits
        omega
      have e4 : wordBits remote - 1 - i - (remote.postDataBits.toNat + remote.bits.toNat) =
          remote.preDataBits.toNat - 1 - i := by
        unfold wordBits
        omega
      rw [hword _ e3, hgen, if_neg e1, if_neg e2, if_pos e3, e4]
  have hcode : dataSignal remote code remote.bits remote.preDataBits =
      placesSignal remote (sentWord remote code) remote.bits.toNat
        (remote.bits.toNat + remote.postDataBits.toNat) := by
    have he : remote.bits = (remote.bits.toNat : Int) := by omega
    rw [he, Int.toNat_natCast]
    refine dataSignal_places hr.rcmm hr.xmp ?_ (Nat.le_add_right _ _) (by omega) fun i hi => ?_
    · unfold bitCount
      omega
    · have e1 : ¬ remote.bits.toNat + remote.postDataBits.toNat - 1 - i <
          remote.postDataBits.toNat := by omega
      have e2 : remote.bits.toNat + remote.postDataBits.toNat - 1 - i <
          remote.postDataBits.toNat + remote.bits.toNat := by omega
      have e3 : remote.bits.toNat + remote.postDataBits.toNat - 1 - i < wordBits remote := by
        unfold wordBits
        omega
      have e4 : remote.bits.toNat + remote.postDataBits.toNat - 1 - i -
          remote.postDataBits.toNat = remote.bits.toNat - 1 - i := by omega
      rw [hword _ e3, hgen, if_neg e1, if_pos e2, e4]
  have hpost : dataSignal remote remote.postData remote.postDataBits
      (remote.preDataBits + remote.bits) =
        placesSignal remote (sentWord remote code) remote.postDataBits.toNat
          remote.postDataBits.toNat := by
    have he : remote.postDataBits = (remote.postDataBits.toNat : Int) := by omega
    rw [he, Int.toNat_natCast]
    refine dataSignal_places hr.rcmm hr.xmp ?_ (Nat.le_refl _) (by omega) fun i hi => ?_
    · unfold bitCount
      omega
    · have e1 : remote.postDataBits.toNat - 1 - i < remote.postDataBits.toNat := by omega
      have e3 : remote.postDataBits.toNat - 1 - i < wordBits remote := by
        unfold wordBits
        omega
      rw [hword _ e3, hgen, if_pos e1]
  have hsignal : ∀ rep, codeSignal remote code rep =
      wordSignal remote (sentWord remote code) rep := by
    intro rep
    unfold codeSignal wordSignal preSignal postSignal
    rw [hcode, hpost]
    cases hp : hasPre remote with
    | false => rfl
    | true => rw [hpre hp]
  intro rep b
  rw [sendCode_eq, hsignal]

end Word

/-! ## 2. Words that differ in a mask -/

theorem getLsbD_of_bitsSetLoop_zero {n : Nat} {v : IrCode} (h : bitsSetLoop n v = 0) (i : Nat)
    (hi : i < n) : v.getLsbD i = false := by
  induction n generalizing v i with
  | zero => exact absurd hi (Nat.not_lt_zero i)
  | succ n ih =>
    rw [bitsSetLoop] at h
    obtain ⟨h0, hrest⟩ := Nat.add_eq_zero_iff.mp h
    cases i with
    | zero =>
      cases hb : v.getLsbD 0 with
      | false => rfl
      | true =>
        rw [hb] at h0
        exact absurd h0 Nat.one_ne_zero
    | succ i =>
      have hb := ih hrest i (by omega)
      rwa [BitVec.getLsbD_ushiftRight, Nat.add_comm] at hb

theorem getLsbD_zeroWord (i : Nat) : (0 : IrCode).getLsbD i = false := BitVec.getLsbD_zero

/-- A word with one bit. -/
theorem bitsSetLoop_one {n : Nat} {v : IrCode} (h : bitsSetLoop n v = 1) (i j : Nat) (hi : i < n)
    (hj : j < n) (hvi : v.getLsbD i = true) (hvj : v.getLsbD j = true) : i = j := by
  induction n generalizing v i j with
  | zero => exact absurd hi (Nat.not_lt_zero i)
  | succ n ih =>
    rw [bitsSetLoop] at h
    have hshift : ∀ k, (v >>> 1).getLsbD k = v.getLsbD (k + 1) := by
      intro k
      rw [BitVec.getLsbD_ushiftRight, Nat.add_comm]
    cases hb : v.getLsbD 0 with
    | true =>
      -- then there is no other
      rw [hb, if_pos rfl] at h
      have hzero : bitsSetLoop n (v >>> 1) = 0 := by omega
      have hnone : ∀ k, k + 1 < n + 1 → v.getLsbD (k + 1) = false := by
        intro k hk
        rw [← hshift]
        exact getLsbD_of_bitsSetLoop_zero hzero k (by omega)
      cases i with
      | succ i => exact absurd (hvi.symm.trans (hnone i hi)) Bool.true_eq_false.mp
      | zero =>
        cases j with
        | succ j => exact absurd (hvj.symm.trans (hnone j hj)) Bool.true_eq_false.mp
        | zero => rfl
    | false =>
      rw [hb, if_neg Bool.false_ne_true, Nat.zero_add] at h
      cases i with
      | zero => exact absurd (hvi.symm.trans hb) Bool.true_eq_false.mp
      | succ i =>
        cases j with
        | zero => exact absurd (hvj.symm.trans hb) Bool.true_eq_false.mp
        | succ j =>
          rw [← hshift] at hvi hvj
          rw [ih h i j (by omega) (by omega) hvi hvj]

/-- A mask with one bit cuts all or nothing out of a word. -/
theorem and_oneBit {mask : IrCode} (h : bitsSet mask = 1) (v : IrCode) :
    v &&& mask = 0 ∨ v &&& mask = mask := by
  by_cases hz : v &&& mask = 0
  · exact Or.inl hz
  · refine Or.inr (BitVec.eq_of_getLsbD_eq fun j hj => ?_)
    obtain ⟨i, hi, hb⟩ : ∃ i, i < 64 ∧ (v &&& mask).getLsbD i = true := by
      by_contra hno
      refine hz (BitVec.eq_of_getLsbD_eq fun i hi => ?_)
      rw [getLsbD_zeroWord, ← Bool.not_eq_true]
      exact fun hb => hno ⟨i, hi, hb⟩
    rw [BitVec.getLsbD_and, Bool.and_eq_true] at hb
    rw [BitVec.getLsbD_and]
    cases hm : mask.getLsbD j with
    | false => exact Bool.and_false _
    | true =>
      have he : i = j := bitsSetLoop_one h i j hi hj hb.2 hm
      rw [← he, hb.1]
      rfl

/-- Words agree outside a mask exactly if their difference lies in it. -/
theorem or_eq_or_xor (ignore word d : IrCode) :
    ignore ||| word = ignore ||| (word ^^^ d) ↔ d &&& ~~~ignore = 0 := by
  constructor
  · intro h
    refine BitVec.eq_of_getLsbD_eq fun i hi => ?_
    have hb := congrArg (fun v => v.getLsbD i) h
    simp only [BitVec.getLsbD_or, BitVec.getLsbD_xor] at hb
    rw [BitVec.getLsbD_and, BitVec.getLsbD_not, getLsbD_zeroWord, decide_eq_true hi]
    revert hb
    cases ignore.getLsbD i <;> cases word.getLsbD i <;> cases d.getLsbD i <;> simp
  · intro h
    refine BitVec.eq_of_getLsbD_eq fun i hi => ?_
    have hb := congrArg (fun v => v.getLsbD i) h
    simp only [BitVec.getLsbD_and, BitVec.getLsbD_not, getLsbD_zeroWord, hi, decide_true,
      Bool.true_and] at hb
    rw [BitVec.getLsbD_or, BitVec.getLsbD_or, BitVec.getLsbD_xor]
    revert hb
    cases ignore.getLsbD i <;> cases word.getLsbD i <;> cases d.getLsbD i <;> simp

/-- All of the mask or nothing of it, as far as it is not ignored. -/
def WholeMask (ignore mask d : IrCode) : Prop :=
  d &&& ~~~ignore = 0 ∨ d &&& ~~~ignore = mask &&& ~~~ignore

theorem xor_and_eq_zero_iff (d mask ignore : IrCode) :
    (d ^^^ mask) &&& ~~~ignore = 0 ↔ d &&& ~~~ignore = mask &&& ~~~ignore := by
  have h : (d ^^^ mask) &&& ~~~ignore = (d &&& ~~~ignore) ^^^ (mask &&& ~~~ignore) := by
    refine BitVec.eq_of_getLsbD_eq fun i hi => ?_
    simp only [BitVec.getLsbD_and, BitVec.getLsbD_xor]
    cases (~~~ignore).getLsbD i <;> simp
  rw [h]
  exact BitVec.xor_eq_zero_iff

theorem WholeMask.xor_iff (ignore mask d : IrCode) :
    WholeMask ignore mask (d ^^^ mask) ↔ WholeMask ignore mask d := by
  unfold WholeMask
  rw [xor_and_eq_zero_iff, ← xor_and_eq_zero_iff (d ^^^ mask), BitVec.xor_assoc, BitVec.xor_self,
    BitVec.xor_zero]
  exact or_comm

/-- **`match_ir_code` on words that differ in `d`.** -/
theorem matchIrCode_xor_iff (remote : IrRemote) (word d : IrCode) :
    matchIrCode remote word (word ^^^ d) = true ↔
      WholeMask remote.ignoreMask remote.toggleBitMask d := by
  unfold matchIrCode WholeMask
  rw [Bool.or_eq_true, beq_iff_eq, beq_iff_eq, or_eq_or_xor, BitVec.xor_assoc, or_eq_or_xor,
    xor_and_eq_zero_iff]

/-! ## 3. The state of a remote that is read -/

/-- The bits of the first code, where the state starts from. -/
def firstBits (remote : IrRemote) : IrCode :=
  (remote.codes.head?.map (·.code)).getD 0 &&& remote.toggleBitMask

/-- **Post-processing** starts the state at the first code, inverted or not. -/
theorem toggleState_postProcess {rem rem' : ConfigRemote} (h : postProcess rem = some rem')
    (hraw : isRaw rem'.ir = false) (hmask : rem'.ir.toggleBitMask ≠ 0)
    (hcodes : rem'.codes ≠ none) :
    rem'.ir.toggleBitMaskState = firstBits rem'.toIrRemote ∨
      rem'.ir.toggleBitMaskState = firstBits rem'.toIrRemote ^^^ rem'.ir.toggleBitMask := by
  obtain ⟨x, -, rfl⟩ := Option.map_eq_some_iff.mp h
  generalize setToggleBitMask (setRc6Mask x) = y at *
  have hsame := ((SameWords.setToggleState y).trans (SameWords.setSerial _)).trans
    (SameWords.setMinCodeRepeat _)
  obtain ⟨hm1, hs1⟩ := setMinCodeRepeat_toggles (setSerial (setToggleState y).ir)
  obtain ⟨hm2, hs2⟩ := setSerial_toggles (setToggleState y).ir
  have hmask3 : (setToggleState y).ir.toggleBitMask = y.ir.toggleBitMask := by
    unfold setToggleState
    split
    · rfl
    · dsimp only
      split <;> rfl
  have hm : (onIr (fun r => setMinCodeRepeat (setSerial r)) (setToggleState y)).ir.toggleBitMask =
      y.ir.toggleBitMask := hm1.trans (hm2.trans hmask3)
  have hs : (onIr (fun r => setMinCodeRepeat (setSerial r))
      (setToggleState y)).ir.toggleBitMaskState = (setToggleState y).ir.toggleBitMaskState :=
    hs1.trans hs2
  have hc : (onIr (fun r => setMinCodeRepeat (setSerial r)) (setToggleState y)).codes =
      y.codes := hsame.codes
  have hf : (onIr (fun r => setMinCodeRepeat (setSerial r)) (setToggleState y)).ir.flags =
      y.ir.flags := hsame.flags
  generalize onIr (fun r => setMinCodeRepeat (setSerial r)) (setToggleState y) = z at *
  have hfirst : firstBits z.toIrRemote =
      ((y.codes.map CodeTable.firstCode).getD 0) &&& y.ir.toggleBitMask := by
    unfold firstBits ConfigRemote.toIrRemote CodeTable.firstCode
    dsimp only
    rw [hm, hc]
    cases y.codes with
    | none => rfl
    | some table =>
      dsimp only [Option.map_some, Option.getD_some]
      cases table.items with
      | nil => rfl
      | cons c cs => rfl
  rw [hfirst, hs, hm]
  rw [hc] at hcodes
  rw [hm] at hmask
  have hraw' : isRaw y.ir = false := by
    unfold isRaw protocol at *
    rwa [hf] at hraw
  unfold setToggleState
  cases hy : y.codes with
  | none => exact absurd hy hcodes
  | some table =>
    have hcond : (hasToggleBitMask y.ir && !isRaw y.ir) = true := by
      rw [hraw', Bool.not_false, Bool.and_true]
      exact bne_iff_ne.mpr hmask
    dsimp only [Option.map_some, Option.getD_some]
    rw [if_pos hcond]
    unfold onIr
    dsimp only
    generalize table.firstCode &&& y.ir.toggleBitMask = state
    by_cases h0 : state ≠ 0
    · rw [if_pos h0]
      exact Or.inr rfl
    · rw [if_neg h0]
      exact Or.inl rfl

/-- Every remote of `read_config` comes out of post-processing. -/
theorem mem_readConfigRecursive {fs : FileSystem} {levels : Nat} {name : Option (List Char)}
    {bufs : List (List Char)} {m : Memory} {r : ReadResult}
    (h : readConfigRecursive fs levels name bufs m = some r) {rem : ConfigRemote}
    (hmem : rem ∈ r.remotes) : ∃ rem0, postProcess rem0 = some rem := by
  have hfile : ∃ s, finishFile s = some r := by
    cases levels with
    | zero =>
      obtain ⟨s, -, hr⟩ := Option.bind_eq_some_iff.mp h
      exact ⟨s, hr⟩
    | succ levels =>
      obtain ⟨s, -, hr⟩ := Option.bind_eq_some_iff.mp h
      exact ⟨s, hr⟩
  obtain ⟨s, hr⟩ := hfile
  unfold finishFile at hr
  split at hr
  · exact absurd hr.symm (Option.some_ne_none _)
  · split at hr
    · injection hr with hr
      rw [← hr] at hmem
      exact absurd hmem List.not_mem_nil
    · obtain ⟨rems, hp, rfl⟩ := Option.map_eq_some_iff.mp hr
      obtain ⟨rem0, -, h0⟩ :=
        mem_postProcessAll hp ((perm_sortByBitCount rems).mem_iff.mp hmem)
      exact ⟨rem0, h0⟩

/-! ## 4. Transmissions -/

/-- What the server does to the toggles before it sends a code. -/
def resetToggles (remote : IrRemote) : IrRemote :=
  let remote := if hasToggleMask remote then { remote with toggleMaskState := 0 } else remote
  if hasToggleBitMask remote then
    { remote with toggleBitMaskState := remote.toggleBitMaskState ^^^ remote.toggleBitMask }
  else remote

/-- A transmission, from any code and with any result. -/
def Transmits (remote remote' : IrRemote) : Prop :=
  ∃ fuel code repeats res, initSend fuel (resetToggles remote) code repeats = some res ∧
    remote' = res.remote

/-- The remote of a frame of the next transmission. -/
def frameRemote (remote : IrRemote) (t : Int) : IrRemote :=
  { resetToggles remote with toggleMaskState := t }

theorem setGap_config (s : SendState) : (setGap s).2.remote.config = s.remote.config := by
  unfold setGap
  dsimp only
  split
  · rfl
  · split
    · split <;> rfl
    · rfl

theorem sendFrame_config {s s' : SendState} {kind : FrameKind}
    (h : sendFrame s = some (kind, s')) : s'.remote.config = s.remote.config := by
  rw [sendFrame_eq] at h
  split at h
  · exact absurd h.symm (Option.some_ne_none _)
  · injection h with h
    injection h with _ h
    rw [← h]
    exact kindRemote_config s.remote s.kind

theorem loopOrEnd_config {s : SendState} {remote : IrRemote} (h : s.remote.config = remote) :
    Sum.elim (fun s' => s'.remote.config = remote) (fun res => res.remote.config = remote)
      (loopOrEnd s) := by
  unfold loopOrEnd
  split
  · split
    · exact h
    · exact h
  · exact h

/-- One turn of the loop, whether it goes on or returns. -/
theorem initSendStep_config (s : SendState) :
    Sum.elim (fun s' => s'.remote.config = s.remote.config)
      (fun res => res.remote.config = s.remote.config) (initSendStep s) := by
  unfold initSendStep
  cases hframe : sendFrame s with
  | none => rfl
  | some p =>
    obtain ⟨kind, s1⟩ := p
    have h1 := sendFrame_config hframe
    dsimp only
    split
    · exact h1
    · have h2 := setGap_config { s1 with buf := syncSendBuffer s1.buf }
      generalize setGap { s1 with buf := syncSendBuffer s1.buf } = p at h2
      obtain ⟨ok, s3⟩ := p
      have h3 : s3.remote.config = s.remote.config := h2.trans h1
      cases ok with
      | false => exact h3
      | true =>
        have h4 : (endFrame kind s.buf.wptr s3).remote.config = s.remote.config := h3
        exact loopOrEnd_config h4

theorem initSendLoop_config {fuel : Nat} {s : SendState} {res : SendResult}
    (h : initSendLoop fuel s = some res) : res.remote.config = s.remote.config := by
  induction fuel generalizing s with
  | zero => exact absurd h.symm (Option.some_ne_none _)
  | succ fuel ih =>
    have hstep := initSendStep_config s
    rw [initSendLoop] at h
    cases hs : initSendStep s with
    | inl s' =>
      rw [hs] at h hstep
      exact (ih h).trans hstep
    | inr res' =>
      rw [hs] at h hstep
      injection h with h
      exact h ▸ hstep

/-- **`init_send` leaves the configuration alone**, whatever it returns. -/
theorem initSend_config {fuel : Nat} {remote : IrRemote} {code : IrNcode} {repeats : Int}
    {res : SendResult} (h : initSend fuel remote code repeats = some res) :
    res.remote.config = remote.config := by
  unfold initSend at h
  split at h
  · injection h with h
    rw [← h]
  · exact initSendLoop_config h

/-- A remote with other toggle states. -/
def withToggles (remote : IrRemote) (state : IrCode) (t : Int) : IrRemote :=
  { remote with toggleBitMaskState := state, toggleMaskState := t }

theorem resetToggles_config {remote : IrRemote} (hmask : remote.toggleBitMask ≠ 0) :
    (resetToggles remote).config =
      (withToggles remote (remote.toggleBitMaskState ^^^ remote.toggleBitMask) 0).config := by
  have hhas : ∀ r : IrRemote, r.toggleBitMask = remote.toggleBitMask →
      hasToggleBitMask r = true := by
    intro r hr
    unfold hasToggleBitMask
    rw [hr]
    exact bne_iff_ne.mpr hmask
  unfold resetToggles
  dsimp only
  by_cases ht : hasToggleMask remote = true
  · rw [if_pos ht]
    exact (congrArg IrRemote.config (if_pos (hhas _ rfl))).trans rfl
  · rw [if_neg ht]
    exact (congrArg IrRemote.config (if_pos (hhas _ rfl))).trans rfl

/-- What a run of transmissions leaves: the configuration, and the state or its
    inversion. -/
def Run (remote remote' : IrRemote) : Prop :=
  ∃ state, remote'.config = (withToggles remote state 0).config ∧
    (state = remote.toggleBitMaskState ∨
      state = remote.toggleBitMaskState ^^^ remote.toggleBitMask)

theorem xor_xor_self (a b : IrCode) : a ^^^ b ^^^ b = a := by
  rw [BitVec.xor_assoc, BitVec.xor_self, BitVec.xor_zero]

/-- The states of two neighbours in a run. -/
theorem config_transmits {remote remote' : IrRemote} (hmask : remote.toggleBitMask ≠ 0)
    (h : Transmits remote remote') : remote'.config =
      (withToggles remote (remote.toggleBitMaskState ^^^ remote.toggleBitMask) 0).config := by
  obtain ⟨fuel, code, repeats, res, hsend, rfl⟩ := h
  exact (initSend_config hsend).trans (resetToggles_config hmask)

theorem config_withToggles {a b : IrRemote} {state : IrCode}
    (h : a.config = (withToggles b state 0).config) (state' : IrCode) (t : Int) :
    (withToggles a state' t).config = (withToggles b state' t).config := by
  have he : ({ a.config with toggleBitMaskState := state' } : IrRemote) =
      { (withToggles b state 0).config with toggleBitMaskState := state' } := by rw [h]
  exact he

theorem run_of_transmits {remote remote' : IrRemote} (hmask : remote.toggleBitMask ≠ 0)
    (h : Relation.ReflTransGen Transmits remote remote') : Run remote remote' := by
  induction h with
  | refl => exact ⟨remote.toggleBitMaskState, rfl, Or.inl rfl⟩
  | @tail r1 r2 _ hstep ih =>
    obtain ⟨state, hcfg, hstate⟩ := ih
    have hm : r1.config.toggleBitMask = _ := congrArg IrRemote.toggleBitMask hcfg
    have hs : r1.config.toggleBitMaskState = _ := congrArg IrRemote.toggleBitMaskState hcfg
    change r1.toggleBitMask = remote.toggleBitMask at hm
    change r1.toggleBitMaskState = state at hs
    refine ⟨state ^^^ remote.toggleBitMask, ?_, ?_⟩
    · have h1 := config_transmits (by rw [hm]; exact hmask) hstep
      rw [hm, hs] at h1
      exact h1.trans (config_withToggles hcfg _ 0)
    · rcases hstate with rfl | rfl
      · exact Or.inr rfl
      · exact Or.inl (xor_xor_self _ _)

/-! ## 5. The sent words of a run -/

/-- What a frame differs in from its code, but for whole masks: the bits of the
    first code where the mask has several bits, and those of `toggle_mask`. -/
def toggleRest (remote : IrRemote) (t : Int) : IrCode :=
  (if bitsSet remote.toggleBitMask = 1 then 0 else firstBits remote) ^^^
    togglesOf { remote with toggleMaskState := t }

theorem insert_eq_xor (word mask state : IrCode) :
    word &&& ~~~mask ||| (state &&& mask) = word ^^^ ((word ^^^ state) &&& mask) := by
  refine BitVec.eq_of_getLsbD_eq fun i hi => ?_
  simp only [BitVec.getLsbD_or, BitVec.getLsbD_and, BitVec.getLsbD_not, BitVec.getLsbD_xor, hi,
    decide_true, Bool.true_and]
  cases word.getLsbD i <;> cases mask.getLsbD i <;> cases state.getLsbD i <;> rfl

theorem xor_and_self (state mask : IrCode) :
    (state ^^^ mask) &&& mask = (state &&& mask) ^^^ mask := by
  refine BitVec.eq_of_getLsbD_eq fun i hi => ?_
  simp only [BitVec.getLsbD_and, BitVec.getLsbD_xor]
  cases mask.getLsbD i <;> cases state.getLsbD i <;> rfl

theorem sentWord_withToggles (remote : IrRemote) (code state : IrCode) (t : Int) :
    sentWord (withToggles remote state t) code =
      (if bitsSet remote.toggleBitMask = 1 then
        genIrCode remote remote.preData code remote.postData &&& ~~~remote.toggleBitMask |||
          (state &&& remote.toggleBitMask)
      else genIrCode remote remote.preData code remote.postData ^^^
        (state &&& remote.toggleBitMask)) ^^^ togglesOf { remote with toggleMaskState := t } := rfl

/-- **The sent word** differs from the word of the code in `toggleRest`, with or
    without the whole mask. -/
theorem sentWord_xor (remote : IrRemote) (code state : IrCode) (t : Int)
    (hstate : state &&& remote.toggleBitMask = firstBits remote ∨
      state &&& remote.toggleBitMask = firstBits remote ^^^ remote.toggleBitMask) :
    ∃ d, sentWord (withToggles remote state t) code =
        genIrCode remote remote.preData code remote.postData ^^^ d ∧
      (d = toggleRest remote t ∨ d = toggleRest remote t ^^^ remote.toggleBitMask) := by
  have hone : ∀ v, bitsSet remote.toggleBitMask = 1 →
      v &&& remote.toggleBitMask = 0 ∨ v &&& remote.toggleBitMask = remote.toggleBitMask :=
    fun v h => and_oneBit h v
  rw [sentWord_withToggles]
  unfold toggleRest
  generalize togglesOf { remote with toggleMaskState := t } = tog
  generalize genIrCode remote remote.preData code remote.postData = word
  generalize bitsSet remote.toggleBitMask = n at hone ⊢
  generalize firstBits remote = first at hstate ⊢
  generalize remote.toggleBitMask = mask at hone hstate ⊢
  have hcomm : ∀ a : IrCode, a ^^^ mask ^^^ tog = a ^^^ tog ^^^ mask := by
    intro a
    rw [BitVec.xor_assoc, BitVec.xor_comm mask, ← BitVec.xor_assoc]
  by_cases hn : n = 1
  · rw [if_pos hn, if_pos hn]
    refine ⟨((word ^^^ state) &&& mask) ^^^ tog, ?_, ?_⟩
    · rw [← BitVec.xor_assoc, ← insert_eq_xor]
    · rcases hone (word ^^^ state) hn with h | h
      · exact Or.inl (by rw [h])
      · refine Or.inr ?_
        rw [h, ← hcomm]
        congr 1
        exact BitVec.zero_xor.symm
  · rw [if_neg hn, if_neg hn]
    refine ⟨(state &&& mask) ^^^ tog, ?_, ?_⟩
    · rw [← BitVec.xor_assoc]
    · rcases hstate with h | h
      · exact Or.inl (by rw [h])
      · exact Or.inr (by rw [h, hcomm])

/-- Two sent words whose states differ in the mask differ in it. -/
theorem sentWord_xor_sentWord (remote : IrRemote) (code state : IrCode) (t : Int) :
    sentWord (withToggles remote state t) code ^^^
        sentWord (withToggles remote (state ^^^ remote.toggleBitMask) t) code =
      remote.toggleBitMask := by
  rw [sentWord_withToggles, sentWord_withToggles]
  generalize togglesOf { remote with toggleMaskState := t } = tog
  generalize genIrCode remote remote.preData code remote.postData = word
  generalize bitsSet remote.toggleBitMask = n
  generalize remote.toggleBitMask = mask
  have hcancel : ∀ a b c : IrCode, a ^^^ c ^^^ (b ^^^ c) = a ^^^ b := by
    intro a b c
    rw [BitVec.xor_comm b c, BitVec.xor_assoc, ← BitVec.xor_assoc c c, BitVec.xor_self,
      BitVec.zero_xor]
  have hmask : (state &&& mask) ^^^ ((state ^^^ mask) &&& mask) = mask := by
    rw [xor_and_self, ← BitVec.xor_assoc, BitVec.xor_self, BitVec.zero_xor]
  rw [hcancel]
  by_cases hn : n = 1
  · have hinv : word ^^^ (state ^^^ mask) = word ^^^ state ^^^ mask := (BitVec.xor_assoc _ _ _).symm
    rw [if_pos hn, if_pos hn, insert_eq_xor, insert_eq_xor, BitVec.xor_comm word,
      BitVec.xor_comm word ((word ^^^ (state ^^^ mask)) &&& mask), hcancel, hinv, xor_and_self,
      ← BitVec.xor_assoc, BitVec.xor_self, BitVec.zero_xor]
  · rw [if_neg hn, if_neg hn, BitVec.xor_comm word, BitVec.xor_comm word, hcancel, hmask]

theorem sentWord_congr {a b : IrRemote} (h : a.config = b.config)
    (ht : a.toggleMaskState = b.toggleMaskState) (code : IrCode) :
    sentWord a code = sentWord b code := by
  have he : a.atToggle a.toggleMaskState = b.atToggle b.toggleMaskState := by
    unfold IrRemote.atToggle
    rw [h, ht]
  have ha : sentWord a code = sentWord (a.atToggle a.toggleMaskState) code := rfl
  rw [ha, he]
  rfl

theorem TogglesBits.congr {a b : IrRemote} {state : IrCode} {t : Int} (hb : TogglesBits b)
    (h : a.config = (withToggles b state t).config) : TogglesBits a := by
  -- the condition reads nothing that differs
  have hconfig : TogglesBits a.config := by
    rw [h]
    exact ⟨hb.raw, hb.rcmm, hb.xmp, ⟨hb.widths.codeBits, hb.widths.postBits, hb.widths.count⟩,
      hb.mask, hb.within⟩
  exact ⟨hconfig.raw, hconfig.rcmm, hconfig.xmp,
    ⟨hconfig.widths.codeBits, hconfig.widths.postBits, hconfig.widths.count⟩, hconfig.mask,
    hconfig.within⟩

/-- The frames of a transmission in a run, and of the one behind it. -/
theorem frameRemote_run {remote remote1 remote2 : IrRemote} (hmask : remote.toggleBitMask ≠ 0)
    (hrun : Run remote remote1) (hnext : Transmits remote1 remote2) (t : Int) :
    ∃ state, (frameRemote remote1 t).config = (withToggles remote state t).config ∧
      (frameRemote remote2 t).config =
        (withToggles remote (state ^^^ remote.toggleBitMask) t).config ∧
      (state = remote.toggleBitMaskState ∨
        state = remote.toggleBitMaskState ^^^ remote.toggleBitMask) := by
  obtain ⟨st, hcfg, hst⟩ := hrun
  have hm : remote1.config.toggleBitMask = _ := congrArg IrRemote.toggleBitMask hcfg
  have hs : remote1.config.toggleBitMaskState = _ := congrArg IrRemote.toggleBitMaskState hcfg
  change remote1.toggleBitMask = remote.toggleBitMask at hm
  change remote1.toggleBitMaskState = st at hs
  have hmask1 : remote1.toggleBitMask ≠ 0 := by
    rw [hm]
    exact hmask
  have hcfg2 := config_transmits hmask1 hnext
  have hm2 : remote2.config.toggleBitMask = _ := congrArg IrRemote.toggleBitMask hcfg2
  have hs2 : remote2.config.toggleBitMaskState = _ := congrArg IrRemote.toggleBitMaskState hcfg2
  change remote2.toggleBitMask = remote1.toggleBitMask at hm2
  change remote2.toggleBitMaskState = remote1.toggleBitMaskState ^^^ remote1.toggleBitMask at hs2
  have h1 := resetToggles_config hmask1
  have h2 := resetToggles_config (show remote2.toggleBitMask ≠ 0 by rw [hm2]; exact hmask1)
  rw [hm, hs] at h1 hs2
  rw [hm2, hs2, hm] at h2
  have hcfg2' : remote2.config = (withToggles remote (st ^^^ remote.toggleBitMask) 0).config := by
    rw [hcfg2, hm, hs]
    exact config_withToggles hcfg _ 0
  refine ⟨st ^^^ remote.toggleBitMask, ?_, ?_, ?_⟩
  · exact h1.trans (config_withToggles hcfg _ 0)
  · exact h2.trans (config_withToggles hcfg2' _ 0)
  · rcases hst with rfl | rfl
    · exact Or.inr rfl
    · exact Or.inl (xor_xor_self _ _)

/-- The word of the code is accepted, and the next transmission differs in the
    mask. -/
def ConsistentToggle (now next : IrRemote) (code : IrCode) : Prop :=
  matchIrCode now (genIrCode now now.preData code now.postData) (sentWord now code) = true ∧
    sentWord now code ^^^ sentWord next code = now.toggleBitMask

/-- **The toggle bits of every remote that is read**, in the frames of any
    transmission: what `send_code` sends is accepted as its code, and differs
    from the next transmission in the mask, exactly if the rest is a whole mask. -/
theorem toggleBits_iff (fs : FileSystem) (name : Option (List Char)) (bufs : List (List Char))
    (r : ReadResult) (hr : readConfig fs name bufs = some r) (rem : ConfigRemote)
    (hrem : rem ∈ r.remotes) (hbits : TogglesBits rem.toIrRemote) (c : IrNcode)
    (hc : c ∈ rem.toIrRemote.codes) (remote remote' : IrRemote)
    (hrun : Relation.ReflTransGen Transmits rem.toIrRemote remote)
    (hnext : Transmits remote remote') (t : Int) :
    Emits (frameRemote remote t) c.code (sentWord (frameRemote remote t) c.code) ∧
      Emits (frameRemote remote' t) c.code (sentWord (frameRemote remote' t) c.code) ∧
      (ConsistentToggle (frameRemote remote t) (frameRemote remote' t) c.code ↔
        WholeMask rem.ir.ignoreMask rem.ir.toggleBitMask (toggleRest rem.toIrRemote t)) := by
  obtain ⟨state, h1, h2, hstate⟩ :=
    frameRemote_run hbits.mask (run_of_transmits hbits.mask hrun) hnext t
  obtain ⟨rem0, hpost⟩ := mem_readConfigRecursive hr hrem
  have hcodes : rem.codes ≠ none := by
    intro h0
    unfold ConfigRemote.toIrRemote at hc
    rw [h0] at hc
    exact absurd hc List.not_mem_nil
  have hinit := toggleState_postProcess hpost hbits.raw hbits.mask hcodes
  have hfirst : firstBits rem.toIrRemote &&& rem.toIrRemote.toggleBitMask =
      firstBits rem.toIrRemote := by
    unfold firstBits
    rw [BitVec.and_assoc, BitVec.and_self]
  -- the state is that of the first code or its inversion, in all of the run
  have hcut : state &&& rem.toIrRemote.toggleBitMask = firstBits rem.toIrRemote ∨
      state &&& rem.toIrRemote.toggleBitMask =
        firstBits rem.toIrRemote ^^^ rem.toIrRemote.toggleBitMask := by
    have hall : state = firstBits rem.toIrRemote ∨
        state = firstBits rem.toIrRemote ^^^ rem.toIrRemote.toggleBitMask := by
      change rem.toIrRemote.toggleBitMaskState = _ ∨ rem.toIrRemote.toggleBitMaskState = _ at hinit
      rcases hinit with h | h
      · rw [h] at hstate
        exact hstate
      · rw [h] at hstate
        rcases hstate with hs | hs
        · exact Or.inr hs
        · exact Or.inl (hs.trans (xor_xor_self _ _))
    rcases hall with h | h
    · exact Or.inl (by rw [h, hfirst])
    · exact Or.inr (by rw [h, xor_and_self, hfirst])
  refine ⟨emits_sentWord (hbits.congr h1) _, emits_sentWord (hbits.congr h2) _, ?_⟩
  have hw1 : sentWord (frameRemote remote t) c.code =
      sentWord (withToggles rem.toIrRemote state t) c.code := sentWord_congr h1 rfl c.code
  have hw2 : sentWord (frameRemote remote' t) c.code =
      sentWord (withToggles rem.toIrRemote (state ^^^ rem.toIrRemote.toggleBitMask) t) c.code :=
    sentWord_congr h2 rfl c.code
  have hmatch : ∀ word, matchIrCode (frameRemote remote t)
      (genIrCode (frameRemote remote t) (frameRemote remote t).preData c.code
        (frameRemote remote t).postData) word =
      matchIrCode rem.toIrRemote (genIrCode rem.toIrRemote rem.toIrRemote.preData c.code
        rem.toIrRemote.postData) word := by
    intro word
    have he := congrArg (fun q => matchIrCode q (genIrCode q q.preData c.code q.postData) word) h1
    exact he
  have hmask : (frameRemote remote t).toggleBitMask = rem.toIrRemote.toggleBitMask := by
    have he := congrArg IrRemote.toggleBitMask h1
    exact he
  obtain ⟨d, hd, hdelta⟩ := sentWord_xor rem.toIrRemote c.code state t hcut
  unfold ConsistentToggle
  rw [hmatch, hw1, hw2, hmask, sentWord_xor_sentWord, hd, matchIrCode_xor_iff, and_iff_left rfl]
  change WholeMask rem.ir.ignoreMask rem.ir.toggleBitMask d ↔ _
  rcases hdelta with rfl | rfl
  · exact Iff.rfl
  · exact WholeMask.xor_iff rem.ir.ignoreMask rem.ir.toggleBitMask _

/-- A file with one remote of eight bits, its code 1 and a toggle mask. -/
def maskFile (mask : List Char) : List (List Char) :=
  fgetsAll [] ("begin remote\nname TV\nbits 8\nflags SPACE_ENC\ntoggle_bit_mask ".toList ++ mask ++
    "\nbegin codes\nUP 0x01\nend codes\nend remote\n".toList)

def upOne : IrNcode := { name := "UP", code := 1 }

def maskRemote (mask state : IrCode) : ConfigRemote where
  name := some ⟨0, ['T', 'V']⟩
  codes := some ⟨1, [{ name := ⟨2, ['U', 'P']⟩, code := 1 }]⟩
  ir := { bits := 8, flags := SPACE_ENC, toggleBitMask := mask, toggleBitMaskState := state }

theorem transmits_maskRemote {remote : IrRemote}
    (h : (initSend 2 (resetToggles remote) upOne 0).isSome = true) :
    ∃ remote', Transmits remote remote' := by
  obtain ⟨res, hres⟩ := Option.isSome_iff_exists.mp h
  exact ⟨res.remote, 2, upOne, 0, res, hres, rfl⟩

/-- One bit, the first transmission. -/
theorem toggleBits_iff_maskRemote : ∃ remote',
    Transmits (maskRemote 0x80 0).toIrRemote remote' ∧
    Emits (frameRemote (maskRemote 0x80 0).toIrRemote 0) upOne.code
      (sentWord (frameRemote (maskRemote 0x80 0).toIrRemote 0) upOne.code) ∧
    Emits (frameRemote remote' 0) upOne.code (sentWord (frameRemote remote' 0) upOne.code) ∧
    (ConsistentToggle (frameRemote (maskRemote 0x80 0).toIrRemote 0) (frameRemote remote' 0)
        upOne.code ↔
      WholeMask (maskRemote 0x80 0).ir.ignoreMask (maskRemote 0x80 0).ir.toggleBitMask
        (toggleRest (maskRemote 0x80 0).toIrRemote 0)) := by
  have hread : readConfig (fun _ => none) none (maskFile "0x80".toList) =
      some ⟨[maskRemote 0x80 0], false, { next := 3 }⟩ := by decide +kernel
  have hbits : TogglesBits (maskRemote 0x80 0).toIrRemote :=
    ⟨by decide, by decide, by decide, ⟨by decide, by decide, by decide⟩, by decide,
      by decide +kernel⟩
  have hsend : (initSend 2 (resetToggles (maskRemote 0x80 0).toIrRemote) upOne 0).isSome = true := by
    decide +kernel
  obtain ⟨remote', hnext⟩ := transmits_maskRemote hsend
  exact ⟨remote', hnext, toggleBits_iff _ _ _ _ hread _ List.mem_cons_self hbits upOne
    (by decide) _ remote' Relation.ReflTransGen.refl hnext 0⟩

/-- Two bits, one of them set in the first code: its frames carry the other. -/
theorem toggleBits_partial : readConfig (fun _ => none) none (maskFile "0x3".toList) =
      some ⟨[maskRemote 0x3 0x2], false, { next := 3 }⟩ ∧
    TogglesBits (maskRemote 0x3 0x2).toIrRemote ∧
    upOne ∈ (maskRemote 0x3 0x2).toIrRemote.codes ∧
    ∀ remote', ¬ ConsistentToggle (frameRemote (maskRemote 0x3 0x2).toIrRemote 0)
      (frameRemote remote' 0) upOne.code := by
  refine ⟨by decide +kernel, ?_, by decide, fun remote' h => ?_⟩
  · exact ⟨by decide, by decide, by decide, ⟨by decide, by decide, by decide⟩, by decide,
      by decide⟩
  · have hno : matchIrCode (frameRemote (maskRemote 0x3 0x2).toIrRemote 0)
        (genIrCode (frameRemote (maskRemote 0x3 0x2).toIrRemote 0)
          (frameRemote (maskRemote 0x3 0x2).toIrRemote 0).preData upOne.code
          (frameRemote (maskRemote 0x3 0x2).toIrRemote 0).postData)
        (sentWord (frameRemote (maskRemote 0x3 0x2).toIrRemote 0) upOne.code) = false := by
      decide +kernel
    exact absurd (h.1.symm.trans hno) (by decide)

end WinLirc
