/-
  File:      WinLirc/Bits.lean
  Subject:   A value sent and heard bit by bit.

  The sender shifts a bit-reversed word out at its low end and walks a mask
  down from the top of the frame; the receiver counts bits up and shifts in
  from the right. Both meet at `symbols`: the bits of a value, the most
  significant first, each as the symbol of its value and place
  (`dataSignal_symbols`).

  A protocol is heard once its single symbols are (`BitCoder`,
  `BitCoder.coder`).
-/
import WinLirc.Frame

namespace WinLirc

open Signal

/-! ## 1. The symbols of a value -/

/-- The symbol of a bit; `double` is whether rc6_mask doubles it. -/
def bitSymbol (remote : IrRemote) (double one : Bool) : List Emission :=
  let k : Int := if double then 2 else 1
  if one then
    if isBiphase remote then [(.space, k * remote.sone), (.pulse, k * remote.pone)]
    else if isSpaceFirst remote then [(.space, remote.sone), (.pulse, remote.pone)]
    else [(.pulse, remote.pone), (.space, remote.sone)]
  else
    if double then [(.pulse, 2 * remote.pzero), (.space, 2 * remote.szero)]
    else if isSpaceFirst remote then [(.space, remote.szero), (.pulse, remote.pzero)]
    else [(.pulse, remote.pzero), (.space, remote.szero)]

theorem bitSignal_eq (remote : IrRemote) (mask : IrCode) (one : Bool) :
    bitSignal remote mask one = bitSymbol remote (mask &&& remote.rc6Mask != 0) one := by
  unfold bitSignal bitSymbol
  by_cases h : mask &&& remote.rc6Mask = 0 <;> simp [h]

/-- The symbols of the bits of a frame from place `bit` on. -/
def symbols (remote : IrRemote) : Int → List Bool → List Emission
  | _, [] => []
  | bit, one :: rest => bitSymbol remote (rc6Bit remote bit) one ++ symbols remote (bit + 1) rest

/-- The remotes whose values are sent bit by bit as they are. -/
structure BitCoded (remote : IrRemote) : Prop where
  toggleBit : remote.toggleBitMask = 0
  toggle : remote.toggleMask = 0
  rcmm : isRcmm remote = false
  grundig : isGrundig remote = false
  serial : isSerial remote = false
  bo : isBo remote = false
  xmp : isXmp remote = false
  goldstar : isGoldstar remote = false

/-- **The mask of the sender and the place of the receiver** name the same
    bit. -/
theorem bitsSignal_symbols {remote : IrRemote} (hc : BitCoded remote)
    (hcount : bitCount remote ≤ 64) (n : Nat) (bit : Int)
    (data : IrCode) (hbit : 0 ≤ bit) (hfit : bit + n ≤ bitCount remote) :
    bitsSignal remote n ((1 : IrCode) <<< (bitCount remote - 1 - bit).toNat) data =
      symbols remote bit (lsbBits n data) := by
  induction n generalizing bit data with
  | zero => rfl
  | succ n ih =>
    have ht : toggleData remote ((1 : IrCode) <<< (bitCount remote - 1 - bit).toNat) data = data := by
      simp [toggleData, hasToggleBitMask, hasToggleMask, hc.toggleBit, hc.toggle]
    rw [bitsSignal, ht, lsbBits, symbols, bitSignal_eq]
    congr 1
    cases n with
    | zero => rfl
    | succ n =>
      have hs : (bitCount remote - 1 - bit).toNat =
          (bitCount remote - 1 - (bit + 1)).toNat + 1 := by omega
      rw [← ih (bit + 1) (data >>> 1) (by omega) (by omega), hs, one_shift_ushiftRight (by omega)]

/-- A reversed word read from its low end is the word read from its top. -/
theorem lsbBits_reverse (n : Nat) (hn : n ≤ 64) (data : IrCode) :
    lsbBits n (reverse data n) = bits n data := by
  apply List.ext_getElem
  · simp
  · intro i h1 h2
    have hi : i < n := by simpa using h1
    rw [getElem_lsbBits, getElem_bits, getLsbD_reverse data n hn]
    simp [hi]

/-- **The calls of a value**: its bits, the most significant first. -/
theorem dataSignal_symbols {remote : IrRemote} (hc : BitCoded remote)
    (hcount : bitCount remote ≤ 64) (data : IrCode) {width bit : Int} (hwidth : 0 ≤ width)
    (hbit : 0 ≤ bit) (hfit : bit + width ≤ bitCount remote) :
    dataSignal remote data width bit = symbols remote bit (bits width.toNat data) := by
  obtain ⟨n, rfl⟩ := Int.eq_ofNat_of_zero_le hwidth
  rw [dataSignal, if_neg (by simp [hc.rcmm]), if_neg (by simp [hc.xmp]), Int.toNat_natCast,
    bitsSignal_symbols hc hcount n bit _ hbit hfit, lsbBits_reverse n (by omega)]

/-! ## 2. One bit heard -/

/-- One turn of the loop of `get_data`: the bit, if there is one. -/
def getBit (remote : IrRemote) (bit : Int) (b : Rbuf) : Option Bool × Rbuf :=
  match expectone remote bit b with
  | (true, b) => (some true, b)
  | (false, b) =>
    match expectzero remote bit b with
    | (true, b) => (some false, b)
    | (false, b) => (none, b)

theorem getBits_cons {remote : IrRemote} (hg : isGoldstar remote = false) (n : Nat) (bit : Int)
    (code : IrCode) {b b' : Rbuf} {one : Bool} (h : getBit remote bit b = (some one, b')) :
    getBits (n + 1) bit code remote b = getBits n (bit + 1) (shiftInBit code one) remote b' := by
  have hgs : goldstarOne remote bit = remote := by simp [goldstarOne, hg]
  rw [getBits]
  simp only [hgs]
  unfold getBit at h
  rcases he : expectone remote bit b with ⟨ok, b₁⟩
  rw [he] at h
  cases ok with
  | true =>
    obtain ⟨rfl, rfl⟩ : true = one ∧ b₁ = b' := by simpa using h
    rfl
  | false =>
    dsimp only at h ⊢
    rcases hz : expectzero remote bit b₁ with ⟨ok, b₂⟩
    rw [hz] at h
    cases ok with
    | true =>
      obtain ⟨rfl, rfl⟩ : false = one ∧ b₂ = b' := by simpa using h
      rfl
    | false => simp at h

/-- **A protocol that is heard symbol by symbol**, in front of `tail`: `May
    ops` says what may follow a symbol, `Def` what may be deferred. -/
structure BitCoder (remote : IrRemote) (acc : Int → Int → Prop) (w : Wire) (tail : List Emission)
    (May : List Emission → Prop) (Def : Int → Int → Prop) : Prop where
  accepts : Accepts remote acc
  coded : BitCoded remote
  deferred : ∀ {pp ps}, Def pp ps → Deferred pp ps
  /-- Where no symbol was heard yet, only a lead pulse is deferred. -/
  ready : ∀ {pp ps}, Deferred pp ps → pp = 0 ∨ pp = remote.plead → Def pp ps
  symbol : ∀ bit one ops, May (bitSymbol remote (rc6Bit remote bit) one ++ ops)
  pulse : ∀ d ops, May ((.pulse, d) :: ops)
  last : May (trailSignal remote ++ footSignal remote)
  step : ∀ {bit one ops pp ps h b}, Def pp ps → May ops →
    Listen acc w tail (bitSymbol remote (rc6Bit remote bit) one ++ ops) pp ps h b →
    ∃ h' b' pp' ps', getBit remote bit b = (some one, b') ∧ Def pp' ps' ∧
      Listen acc w tail ops pp' ps' h' b'

section Coder

variable {remote : IrRemote} {acc : Int → Int → Prop} {w : Wire} {tail : List Emission}
  {May : List Emission → Prop} {Def : Int → Int → Prop}

theorem BitCoder.may_symbols (hbc : BitCoder remote acc w tail May Def) {ops : List Emission}
    (ho : May ops) (bit : Int) (vs : List Bool) : May (symbols remote bit vs ++ ops) := by
  cases vs with
  | nil => exact ho
  | cons one rest =>
    rw [symbols, List.append_assoc]
    exact hbc.symbol bit one _

/-- **The bits of a value are heard**, by induction on them. -/
theorem BitCoder.getBits (hbc : BitCoder remote acc w tail May Def) {ops : List Emission}
    (ho : May ops) (vs : List Bool) (bit : Int) (code : IrCode) {pp ps : Int} {h : List Emission}
    {b : Rbuf} (hd : Def pp ps)
    (hL : Listen acc w tail (symbols remote bit vs ++ ops) pp ps h b) :
    ∃ h' b' pp' ps', getBits vs.length bit code remote b =
        (vs.foldl shiftInBit code, remote, b') ∧ Def pp' ps' ∧ Listen acc w tail ops pp' ps' h' b' := by
  induction vs generalizing bit code pp ps h b with
  | nil => exact ⟨h, b, pp, ps, rfl, hd, hL⟩
  | cons one vs ih =>
    rw [symbols, List.append_assoc] at hL
    obtain ⟨h₁, b₁, pp₁, ps₁, hbit, hd₁, hL₁⟩ := hbc.step hd (hbc.may_symbols ho _ vs) hL
    obtain ⟨h₂, b₂, pp₂, ps₂, hget, hd₂, hL₂⟩ := ih (bit + 1) (shiftInBit code one) hd₁ hL₁
    refine ⟨h₂, b₂, pp₂, ps₂, ?_, hd₂, hL₂⟩
    rw [List.length_cons, getBits_cons hbc.coded.goldstar _ _ _ hbit, hget]
    rfl

/-- **A protocol that is heard bit by bit** is heard value by value. -/
theorem BitCoder.coder (hbc : BitCoder remote acc w tail May Def) (hw : Widths remote) :
    Coder remote acc w tail May Def := by
  have hc := hbc.coded
  have hcount := hw.count
  have hdata {width bit : Int} (hs : Slot remote width bit) (value : IrCode) :
      dataSignal remote value width bit = symbols remote bit (bits width.toNat value) := by
    obtain ⟨h1, h2, h3⟩ := hs.bounds hw
    exact dataSignal_symbols hc (by omega) value h1 h2 h3
  refine ⟨hbc.accepts, hbc.deferred, hbc.ready, hbc.pulse, hbc.last, fun hs ho value => ?_,
    fun {width bit} hs {value} hv {ops pp ps h b} ho hd hL fuel => ?_⟩
  · rw [hdata hs]
    exact hbc.may_symbols ho _ _
  · rw [hdata hs] at hL
    obtain ⟨h', b', pp', ps', hget, hd', hL'⟩ :=
      hbc.getBits ho (bits width.toNat value) bit 0 hd hL
    refine ⟨h', b', pp', ps', ?_, hd', hL'⟩
    rw [length_bits, ofBits_bits hv] at hget
    unfold getData
    rw [if_neg (by simp [hc.rcmm]), if_neg (by simp [hc.grundig]), if_neg (by simp [hc.serial]),
      if_neg (by simp [hc.bo]), if_neg (by simp [hc.xmp]), hget]

end Coder

end WinLirc
