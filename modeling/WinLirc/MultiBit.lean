/-
  File:      WinLirc/MultiBit.lean
  Subject:   RC-MM and XMP frames: several bits in one symbol.

  A symbol is a pulse and a space; RC-MM tells its two bits from the sum of
  both, XMP its four bits from the length of the space. The sender takes the
  digits off the low end of a bit-reversed word (`reverse_digit`), the
  receiver shifts them in from the right: both meet at the digits of the
  value, the most significant first (`MultiBit`).

  `multiBit_roundTrip`: the frame that `send_code` writes is received.
-/
import WinLirc.Decode

namespace WinLirc

open Signal

/-! ## 1. Digits of a reversed word -/

/-- The rest of a reversed word, one digit taken off. -/
theorem reverse_ushiftRight (v : IrCode) {k m : Nat} (h : k * (m + 1) ≤ 64) :
    reverse v ((k * (m + 1) : Nat) : Int) >>> k = reverse v ((k * m : Nat) : Int) := by
  have hk : k * (m + 1) = k * m + k := Nat.mul_succ k m
  apply BitVec.eq_of_getLsbD_eq
  intro j hj
  rw [BitVec.getLsbD_ushiftRight, getLsbD_reverse _ _ h, getLsbD_reverse _ _ (by omega)]
  have h1 : k * (m + 1) - 1 - (k + j) = k * m - 1 - j := by omega
  have h2 : (k + j < k * (m + 1)) ↔ j < k * m := by omega
  rw [h1]
  simp [h2]

/-- **The low digit of a reversed word**, turned around, is the top one. -/
theorem reverse_digit (v : IrCode) {k m : Nat} (h : k * (m + 1) ≤ 64) :
    reverse (reverse v ((k * (m + 1) : Nat) : Int) &&& lowMask 64 k) (k : Int) = digit k m v := by
  have hk : k * (m + 1) = k * m + k := Nat.mul_succ k m
  apply BitVec.eq_of_getLsbD_eq
  intro j hj
  rw [getLsbD_reverse _ _ (by omega), BitVec.getLsbD_and, getLsbD_reverse _ _ h, getLsbD_digit,
    getLsbD_lowMask]
  by_cases hjk : j < k
  · have h1 : k - 1 - j < k * (m + 1) := by omega
    have h2 : k * (m + 1) - 1 - (k - 1 - j) = k * m + j := by omega
    have h3 : k - 1 - j < 64 := by omega
    have h4 : k - 1 - j < k := by omega
    simp [hjk, h1, h2, h3, h4]
  · simp [hjk]

/-! ## 2. Symbols of several bits -/

/-- The symbols of digits: a pulse and a space for each. -/
def symbolsOf (p s : IrCode → Int) (ds : List IrCode) : List Emission :=
  ds.flatMap fun d => [(.pulse, p d), (.space, s d)]

theorem symbolsOf_cons (p s : IrCode → Int) (d : IrCode) (ds : List IrCode) :
    symbolsOf p s (d :: ds) = (.pulse, p d) :: (.space, s d) :: symbolsOf p s ds := rfl

theorem pairs_symbolsOf (p s : IrCode → Int) (ds : List IrCode) : Pairs (symbolsOf p s ds) := by
  induction ds with
  | nil => exact pairs_nil
  | cons d ds ih => exact (pairs_two _ _).append ih

/-- **A protocol of digits**: what a field sends, and the loop of `get_data`
    that hears it. -/
structure MultiBit (remote : IrRemote) (k : Nat) (p s : IrCode → Int)
    (loop : Nat → IrCode → Rbuf → IrCode × Rbuf) : Prop where
  fills : ∀ {width bit}, Slot remote width bit → width.toNat = k * (width.toNat / k)
  signal : ∀ {width bit}, Slot remote width bit → ∀ value,
    dataSignal remote value width bit = symbolsOf p s (digits k (width.toNat / k) value)
  receive : ∀ {width bit}, Slot remote width bit → ∀ fuel b, getData fuel remote width bit b =
    match syncPendingSpace remote b with
    | (false, b) => some (0, remote, b)
    | (true, b) =>
      let (code, b) := loop (width.toNat / k) 0 b
      some (code, remote, b)
  lasts : ∀ d : IrCode, d.toNat < 2 ^ k → 0 < p d ∧ 0 < s d
  stop : ∀ c b, loop 0 c b = (c, b)
  step : ∀ {d : IrCode}, d.toNat < 2 ^ k → ∀ {w h b}, View w ((.pulse, p d) :: (.space, s d) :: h) 0 0 b →
    ∃ b', (∀ n c, loop (n + 1) c b = loop n (shiftIn k c d) b') ∧ View w h 0 0 b'

section MultiBit

variable {remote : IrRemote} {k : Nat} {p s : IrCode → Int}
  {loop : Nat → IrCode → Rbuf → IrCode × Rbuf} {w : Wire} {tail : List Emission}

/-- **Digits are heard**, by induction on them. -/
theorem MultiBit.loop_heard (hm : MultiBit remote k p s loop) {ops : List Emission}
    (ho : nextLevel ops tail ≠ some .space) (ds : List IrCode) (hds : ∀ d ∈ ds, d.toNat < 2 ^ k)
    (c : IrCode) {h : List Emission} {b : Rbuf}
    (hL : Listen (· = ·) w tail (symbolsOf p s ds ++ ops) 0 0 h b) :
    ∃ h' b', loop ds.length c b = (ds.foldl (shiftIn k) c, b') ∧
      Listen (· = ·) w tail ops 0 0 h' b' := by
  induction ds generalizing c h b with
  | nil => exact ⟨h, b, hm.stop c b, hL⟩
  | cons d ds ih =>
    rw [symbolsOf_cons] at hL
    have hnext : nextLevel (symbolsOf p s ds ++ ops) tail ≠ some .space := by
      cases ds with
      | nil => exact ho
      | cons d' ds => simp [symbolsOf_cons]
    obtain ⟨x, h₁, rfl, hx, hh₁⟩ := hL.heard.split_ne (by simp)
    obtain ⟨y, h₂, rfl, hy, hh₂⟩ := hh₁.split_ne hnext
    have hx' : x = p d := hx
    have hy' : y = s d := hy
    subst hx' hy'
    obtain ⟨b₁, hstep, hv₁⟩ := hm.step (hds d List.mem_cons_self) hL.view
    obtain ⟨h', b', hloop, hL'⟩ := ih (fun e he => hds e (List.mem_cons_of_mem d he))
      (shiftIn k c d) ⟨hv₁, hh₂⟩
    exact ⟨h', b', by rw [List.length_cons, hstep, hloop]; rfl, hL'⟩

/-- **A protocol of digits** is heard value by value. -/
theorem MultiBit.coder (hm : MultiBit remote k p s loop) (hacc : Accepts remote (· = ·))
    (hlead : remote.plead = 0) (htrail : remote.ptrail ≠ 0) :
    Coder remote (· = ·) w tail (fun ops => nextLevel ops tail ≠ some .space) SpaceDeferred := by
  have hmay {ops : List Emission} (ho : nextLevel ops tail ≠ some .space) (ds : List IrCode) :
      nextLevel (symbolsOf p s ds ++ ops) tail ≠ some .space := by
    cases ds with
    | nil => exact ho
    | cons d ds => simp [symbolsOf_cons]
  refine ⟨hacc, ?_, ?_, fun d ops => by simp, ?_, fun hs ho value => ?_,
    fun {width bit} hs {value} hv {ops pp ps h b} ho hd hL fuel => ?_⟩
  · rintro pp ps ⟨rfl, h⟩
    exact ⟨Int.le_refl 0, h, .inl rfl⟩
  · rintro pp ps ⟨-, h, -⟩ hz
    rw [hlead, or_self] at hz
    exact ⟨hz, h⟩
  · rw [trailSignal, if_pos htrail]
    simp
  · rw [hm.signal hs]
    exact hmay ho _
  · obtain ⟨rfl, hps⟩ := hd
    rw [hm.signal hs] at hL
    obtain ⟨h₁, b₁, hsync, hL₁⟩ := hL.syncSpace hacc hps (hmay ho _)
    obtain ⟨h₂, b₂, hloop, hL₂⟩ := hm.loop_heard ho _ (fun d hd => lt_of_mem_digits hd) 0 hL₁
    rw [hm.fills hs] at hv
    rw [length_digits, ofDigits_digits hv] at hloop
    refine ⟨h₂, b₂, 0, 0, ?_, ⟨rfl, Int.le_refl 0⟩, hL₂⟩
    rw [hm.receive hs, hsync]
    dsimp only
    rw [hloop]

theorem MultiBit.positive (hm : MultiBit remote k p s loop) {width bit : Int}
    (hs : Slot remote width bit) (value : IrCode) :
    Positive (dataSignal remote value width bit) := by
  rw [hm.signal hs]
  have key (ds : List IrCode) (hds : ∀ d ∈ ds, d.toNat < 2 ^ k) : Positive (symbolsOf p s ds) := by
    induction ds with
    | nil => exact positive_nil
    | cons d ds ih =>
      obtain ⟨h1, h2⟩ := hm.lasts d (hds d List.mem_cons_self)
      exact positive_cons h1 (positive_cons h2 (ih fun e he => hds e (List.mem_cons_of_mem d he)))
  exact key _ fun d hd => lt_of_mem_digits hd

theorem MultiBit.length (hm : MultiBit remote k p s loop) {width bit : Int}
    (hs : Slot remote width bit) (value : IrCode) :
    (dataSignal remote value width bit).length ≤ 2 * width.toNat := by
  have key (ds : List IrCode) : (symbolsOf p s ds).length = 2 * ds.length := by
    induction ds with
    | nil => rfl
    | cons d ds ih =>
      rw [symbolsOf_cons, List.length_cons, List.length_cons, ih, List.length_cons]
      omega
  rw [hm.signal hs, key, length_digits]
  have h := Nat.div_le_self width.toNat k
  omega

theorem MultiBit.pairs (hm : MultiBit remote k p s loop) {width bit : Int}
    (hs : Slot remote width bit) (value : IrCode) : Pairs (dataSignal remote value width bit) := by
  rw [hm.signal hs]
  exact pairs_symbolsOf _ _ _

end MultiBit

/-! ## 3. RC-MM and XMP -/

/-- The widths of the fields are multiples of `k`. -/
structure Multiples (remote : IrRemote) (k : Int) : Prop where
  pre : k ∣ remote.preDataBits
  code : k ∣ remote.bits
  post : k ∣ remote.postDataBits

theorem Slot.multiples {remote : IrRemote} {width bit k : Int} (hs : Slot remote width bit)
    (hk : Multiples remote k) : k ∣ width ∧ k ∣ bit := by
  obtain ⟨h1, h2, h3⟩ := hk
  cases hs with
  | pre => exact ⟨h1, Int.dvd_zero k⟩
  | code => exact ⟨h2, h1⟩
  | post => exact ⟨h3, Int.dvd_add h1 h2⟩

/-- A width that is a multiple is filled by its digits. -/
theorem toNat_mul_div {width : Int} {k : Nat} (h : (k : Int) ∣ width)
    (hw : 0 ≤ width) :
    width.toNat = k * (width.toNat / k) ∧ width = ((k * (width.toNat / k) : Nat) : Int) := by
  obtain ⟨n, rfl⟩ := Int.eq_ofNat_of_zero_le hw
  have hd : k ∣ n := Int.natCast_dvd_natCast.mp h
  rw [Int.toNat_natCast, Nat.mul_div_cancel' hd]
  exact ⟨rfl, rfl⟩

/-- The pulses and spaces of RC-MM. -/
def rcmmPulse (remote : IrRemote) (d : IrCode) : Int :=
  if d = 0 then remote.pzero else if d = 1 then remote.pone
  else if d = 2 then remote.ptwo else remote.pthree

def rcmmSpace (remote : IrRemote) (d : IrCode) : Int :=
  if d = 0 then remote.szero else if d = 1 then remote.sone
  else if d = 2 then remote.stwo else remote.sthree

/-- An RC-MM remote. -/
structure Rcmm (remote : IrRemote) : Prop where
  protocol : isRcmm remote = true
  multiples : Multiples remote 2
  zero : 0 < remote.pzero ∧ 0 < remote.szero
  one : 0 < remote.pone ∧ 0 < remote.sone
  two : 0 < remote.ptwo ∧ 0 < remote.stwo
  three : 0 < remote.pthree ∧ 0 < remote.sthree
  /-- No symbol is accepted for one that is tried before it. -/
  distinct : [remote.pzero + remote.szero, remote.pone + remote.sone, remote.ptwo + remote.stwo,
    remote.pthree + remote.sthree].Pairwise (fun x y => expect remote y x = false)

/-- An XMP remote. -/
structure Xmp (remote : IrRemote) : Prop where
  protocol : isXmp remote = true
  multiples : Multiples remote 4
  pzero : 0 < remote.pzero
  szero : 0 < remote.szero
  sone : 0 < remote.sone

section Protocols

variable {remote : IrRemote}

/-- The values of two bits. -/
theorem two_bits {d : IrCode} (h : d.toNat < 2 ^ 2) : d = 0 ∨ d = 1 ∨ d = 2 ∨ d = 3 := by
  have hc : d.toNat = 0 ∨ d.toNat = 1 ∨ d.toNat = 2 ∨ d.toNat = 3 := by omega
  rcases hc with e | e | e | e
  · exact .inl (BitVec.eq_of_toNat_eq e)
  · exact .inr (.inl (BitVec.eq_of_toNat_eq e))
  · exact .inr (.inr (.inl (BitVec.eq_of_toNat_eq e)))
  · exact .inr (.inr (.inr (BitVec.eq_of_toNat_eq e)))

/-- **An RC-MM symbol is that of its digit**: 2 and 1 are swapped by
    `reverse`. -/
theorem rcmmSymbol_eq (data : IrCode) :
    rcmmSymbol remote data =
      [(.pulse, rcmmPulse remote (reverse (data &&& lowMask 64 2) 2)),
        (.space, rcmmSpace remote (reverse (data &&& lowMask 64 2) 2))] := by
  have hmask : lowMask 64 2 = 3 := rfl
  have hlt : (data &&& 3).toNat < 2 ^ 2 := by
    rw [BitVec.toNat_and]
    exact Nat.lt_of_le_of_lt Nat.and_le_right (by decide)
  unfold rcmmSymbol
  rw [hmask]
  rcases two_bits hlt with e | e | e | e
  · rw [e]
    rfl
  · have hr : reverse (1 : IrCode) 2 = 2 := by decide
    rw [e, hr]
    rfl
  · have hr : reverse (2 : IrCode) 2 = 1 := by decide
    rw [e, hr]
    rfl
  · have hr : reverse (3 : IrCode) 2 = 3 := by decide
    rw [e, hr]
    rfl

theorem rcmmSignal_eq (m : Nat) (hm : 2 * m ≤ 64) (v : IrCode) :
    rcmmSignal remote m (reverse v ((2 * m : Nat) : Int)) =
      symbolsOf (rcmmPulse remote) (rcmmSpace remote) (digits 2 m v) := by
  induction m with
  | zero => rfl
  | succ m ih =>
    have hd := reverse_digit v (k := 2) (m := m) hm
    rw [rcmmSignal, reverse_ushiftRight v hm, ih (by omega), rcmmSymbol_eq, digits, symbolsOf_cons]
    rw [show ((2 : Nat) : Int) = 2 from rfl] at hd
    rw [hd]
    rfl

theorem xmpSignal_eq (m : Nat) (hm : 4 * m ≤ 64) (v : IrCode) :
    xmpSignal remote m (reverse v ((4 * m : Nat) : Int)) =
      symbolsOf (fun _ => remote.pzero) (fun d => remote.szero + d.toNat * remote.sone)
        (digits 4 m v) := by
  induction m with
  | zero => rfl
  | succ m ih =>
    have hd := reverse_digit v (k := 4) (m := m) hm
    have hmask : lowMask 64 4 = 0xf := rfl
    rw [show ((4 : Nat) : Int) = 4 from rfl, hmask] at hd
    rw [xmpSignal, reverse_ushiftRight v hm, ih (by omega), hd, digits, symbolsOf_cons]
    rfl

/-- **One RC-MM symbol is heard.** -/
theorem Rcmm.step (hR : Rcmm remote) (htol : Tolerant remote) {d : IrCode} (hd : d.toNat < 2 ^ 2)
    {w : Wire} {h : List Emission} {b : Rbuf}
    (hv : View w ((.pulse, rcmmPulse remote d) :: (.space, rcmmSpace remote d) :: h) 0 0 b) :
    ∃ b', (∀ n c, getRcmm remote (n + 1) c b = getRcmm remote n (shiftIn 2 c d) b') ∧
      View w h 0 0 b' := by
  obtain ⟨b₁, e₁, hv₁⟩ := hv.nextPulse
  obtain ⟨b₂, e₂, hv₂⟩ := hv₁.nextSpace
  refine ⟨b₂, fun n c => ?_, hv₂⟩
  have hp := (hv.sound _ List.mem_cons_self).1
  have hs := (hv₁.sound _ List.mem_cons_self).1
  have hp0 : rcmmPulse remote d ≠ 0 := Int.ne_of_gt hp
  have hs0 : rcmmSpace remote d ≠ 0 := Int.ne_of_gt hs
  have hself := expect_self htol (Int.le_of_lt (Int.add_pos hp hs))
  have hdis := hR.distinct
  simp only [List.pairwise_cons, List.mem_cons, List.not_mem_nil, or_false, forall_eq_or_imp,
    forall_eq] at hdis
  obtain ⟨⟨h01, h02, h03⟩, ⟨h12, h13⟩, h23, -⟩ := hdis
  rw [getRcmm, e₁]
  dsimp only
  rw [e₂]
  simp only [if_true, hp0, hs0, or_self, if_false]
  rcases two_bits hd with rfl | rfl | rfl | rfl
  · have hv0 : rcmmPulse remote 0 + rcmmSpace remote 0 = remote.pzero + remote.szero := rfl
    rw [hv0] at hself ⊢
    simp [hself, shiftIn]
  · have hv1 : rcmmPulse remote 1 + rcmmSpace remote 1 = remote.pone + remote.sone := rfl
    rw [hv1] at hself ⊢
    simp [hself, h01, shiftIn]
  · have hv2 : rcmmPulse remote 2 + rcmmSpace remote 2 = remote.ptwo + remote.stwo := rfl
    rw [hv2] at hself ⊢
    simp [hself, h02, h12, shiftIn]
  · have hv3 : rcmmPulse remote 3 + rcmmSpace remote 3 = remote.pthree + remote.sthree := rfl
    rw [hv3] at hself ⊢
    simp [hself, h03, h13, h23, shiftIn]

/-- **RC-MM is a protocol of digits.** -/
theorem Rcmm.multiBit (hR : Rcmm remote) (htol : Tolerant remote) (hw : Widths remote) :
    MultiBit remote 2 (rcmmPulse remote) (rcmmSpace remote) (getRcmm remote) := by
  have hcount := hw.count
  refine ⟨fun hs => ?_, fun {width bit} hs value => ?_, fun {width bit} hs fuel b => ?_,
    fun d hd => ?_, fun c b => rfl, fun {d} hd {w h b} hv => hR.step htol hd hv⟩
  · exact (toNat_mul_div (hs.multiples hR.multiples).1 (hs.bounds hw).1).1
  · obtain ⟨h1, h2, h3⟩ := hs.bounds hw
    obtain ⟨hd1, hd2⟩ := hs.multiples hR.multiples
    obtain ⟨hn, hc⟩ := toNat_mul_div (k := 2) hd1 h1
    rw [dataSignal, if_pos hR.protocol, if_neg (by
      rw [Int.tmod_eq_zero_of_dvd hd1, Int.tmod_eq_zero_of_dvd hd2]
      simp)]
    have hrev : reverse value width = reverse value ((2 * (width.toNat / 2) : Nat) : Int) := by
      rw [← hc]
    rw [hrev, rcmmSignal_eq _ (by omega)]
  · obtain ⟨hd1, hd2⟩ := hs.multiples hR.multiples
    have hwhole : ¬ (width.tmod 2 ≠ 0 ∨ bit.tmod 2 ≠ 0) := by
      rw [Int.tmod_eq_zero_of_dvd hd1, Int.tmod_eq_zero_of_dvd hd2]
      simp
    exact (if_pos hR.protocol).trans (if_neg hwhole)
  · rcases two_bits hd with rfl | rfl | rfl | rfl
    · exact hR.zero
    · exact hR.one
    · exact hR.two
    · exact hR.three

/-- **The division of an XMP space** rounds to the nibble that was sent. -/
theorem xmp_division {n sone : Int} (hn : 0 ≤ n) (hs : 0 < sone) :
    (n * sone + sone.tdiv 2).tdiv sone = n := by
  have h0 : 0 ≤ n * sone := Int.mul_nonneg hn (Int.le_of_lt hs)
  rw [Int.tdiv_eq_ediv_of_nonneg (Int.le_of_lt hs),
    Int.tdiv_eq_ediv_of_nonneg (by omega), Int.add_comm,
    Int.add_mul_ediv_right _ _ (Int.ne_of_gt hs), Int.ediv_eq_zero_of_lt (by omega) (by omega)]
  omega

/-- **One XMP nibble is heard.** -/
theorem Xmp.step (hX : Xmp remote) {d : IrCode} (hd : d.toNat < 2 ^ 4) {w : Wire}
    {h : List Emission} {b : Rbuf}
    (hv : View w ((.pulse, remote.pzero) ::
      (.space, remote.szero + d.toNat * remote.sone) :: h) 0 0 b) :
    ∃ b', (∀ n c, getXmp remote (n + 1) c b = getXmp remote n (shiftIn 4 c d) b') ∧
      View w h 0 0 b' := by
  obtain ⟨b₁, e₁, hv₁⟩ := hv.nextPulse
  obtain ⟨b₂, e₂, hv₂⟩ := hv₁.nextSpace
  refine ⟨b₂, fun n c => ?_, hv₂⟩
  have hp := (hv.sound _ List.mem_cons_self).1
  have hs := (hv₁.sound _ List.mem_cons_self).1
  have hp0 : remote.pzero ≠ 0 := Int.ne_of_gt hp
  have hs0 : remote.szero + d.toNat * remote.sone ≠ 0 := Int.ne_of_gt hs
  have hsum : remote.pzero + (remote.szero + d.toNat * remote.sone) -
      (remote.pzero + remote.szero) = d.toNat * remote.sone := by omega
  have hnibble : BitVec.ofInt 64 ((d.toNat * remote.sone + remote.sone.tdiv 2).tdiv remote.sone) =
      d := by
    rw [xmp_division (Int.natCast_nonneg _) hX.sone, BitVec.ofInt_natCast,
      BitVec.ofNat_toNat, BitVec.setWidth_eq]
  have hlt : ¬ d ≥ 16 := by
    intro hge
    have h16 : (16 : IrCode).toNat ≤ d.toNat := hge
    have h16' : (16 : IrCode).toNat = 16 := rfl
    omega
  rw [getXmp, e₁]
  dsimp only
  rw [e₂]
  simp only [if_true, hp0, hs0, or_self, if_false, hsum, hnibble, if_neg hlt]
  rfl

/-- **XMP is a protocol of digits.** -/
theorem Xmp.multiBit (hX : Xmp remote) (hw : Widths remote) :
    MultiBit remote 4 (fun _ => remote.pzero) (fun d => remote.szero + d.toNat * remote.sone)
      (getXmp remote) := by
  have hcount := hw.count
  have hp : WinLirc.protocol remote = XMP := by simpa [isXmp] using hX.protocol
  obtain ⟨-, -, h1, -, h3, h4, h5, h6, -⟩ := protocol_cases remote XMP hp
  have hrcmm : ¬ isRcmm remote = true := by rw [h1]; decide
  have hgrundig : ¬ isGrundig remote = true := by rw [h3]; decide
  have hbo : ¬ isBo remote = true := by rw [h4]; decide
  have hserial : ¬ isSerial remote = true := by rw [h5]; decide
  refine ⟨fun hs => ?_, fun {width bit} hs value => ?_, fun {width bit} hs fuel b => ?_,
    fun d hd => ?_, fun c b => rfl, fun {d} hd {w h b} hv => hX.step hd hv⟩
  · exact (toNat_mul_div (hs.multiples hX.multiples).1 (hs.bounds hw).1).1
  · obtain ⟨h1, h2, h3⟩ := hs.bounds hw
    obtain ⟨hd1, hd2⟩ := hs.multiples hX.multiples
    obtain ⟨hn, hc⟩ := toNat_mul_div (k := 4) hd1 h1
    rw [dataSignal, if_neg hrcmm, if_pos hX.protocol, if_neg (by
      rw [Int.tmod_eq_zero_of_dvd hd1, Int.tmod_eq_zero_of_dvd hd2]
      simp)]
    have hrev : reverse value width = reverse value ((4 * (width.toNat / 4) : Nat) : Int) := by
      rw [← hc]
    rw [hrev, xmpSignal_eq _ (by omega)]
  · obtain ⟨hd1, hd2⟩ := hs.multiples hX.multiples
    have hwhole : ¬ (width.tmod 4 ≠ 0 ∨ bit.tmod 4 ≠ 0) := by
      rw [Int.tmod_eq_zero_of_dvd hd1, Int.tmod_eq_zero_of_dvd hd2]
      simp
    rw [getData, if_neg hrcmm, if_neg hgrundig, if_neg hserial, if_neg hbo]
    exact (if_pos hX.protocol).trans (if_neg hwhole)
  · have h0 := hX.szero
    have h1 : 0 ≤ (d.toNat : Int) * remote.sone :=
      Int.mul_nonneg (Int.natCast_nonneg _) (Int.le_of_lt hX.sone)
    exact ⟨hX.pzero, by omega⟩

theorem MultiBit.pulseData {k : Nat} {p s : IrCode → Int}
    {loop : Nat → IrCode → Rbuf → IrCode × Rbuf} (hm : MultiBit remote k p s loop) :
    PulseData remote := by
  constructor
  · intro width bit hs hpos value
    rw [hm.signal hs]
    have hfill := hm.fills hs
    cases hn : width.toNat / k with
    | zero =>
      rw [hn, Nat.mul_zero] at hfill
      omega
    | succ n => exact pulseFirst_cons _ _
  · intro width bit hs hpos value
    have h0 : width.toNat = 0 := by omega
    rw [hm.signal hs, h0, Nat.zero_div]
    rfl

/-- The header of an RC-MM frame is heard as a whole. -/
theorem Rcmm.heardHeader (hR : Rcmm remote) (htol : Tolerant remote) {w : Wire}
    {tail ops : List Emission} (hops : nextLevel ops tail ≠ some .space) (sync : Int) :
    HeardHeader remote (· = ·) w tail ops sync := by
  intro h b hL
  unfold headerSignal at hL
  unfold frontHeader
  by_cases hh : hasHeader remote = true
  · rw [if_pos hh] at hL
    rw [if_pos hh]
    obtain ⟨x, h₁, rfl, hx, hh₁⟩ := hL.heard.split_ne (by simp)
    obtain ⟨y, h₂, rfl, hy, hh₂⟩ := hh₁.split_ne hops
    have hx' : x = remote.phead := hx
    have hy' : y = remote.shead := hy
    subst hx' hy'
    obtain ⟨b₁, e₁, hv₁⟩ := hL.view.nextPulse
    obtain ⟨b₂, e₂, hv₂⟩ := hv₁.nextSpace
    have hp := (hL.view.sound _ List.mem_cons_self).1
    have hs := (hv₁.sound _ List.mem_cons_self).1
    have hp0 : remote.phead ≠ 0 := Int.ne_of_gt hp
    have hs0 : remote.shead ≠ 0 := Int.ne_of_gt hs
    have hself := expect_self htol (Int.le_of_lt (Int.add_pos hp hs))
    have he : getHeader remote b = (true, b₂) := by
      unfold getHeader
      rw [if_pos hR.protocol, e₁]
      dsimp only
      rw [if_pos rfl, if_neg hp0, e₂]
      dsimp only
      rw [if_pos rfl, if_neg hs0, if_pos hself]
    refine ⟨h₂, b₂, 0, ?_, Int.le_refl 0, hv₂, hh₂⟩
    rw [he, hh]
  · rw [if_neg hh] at hL
    have hf : hasHeader remote = false := by simpa using hh
    exact ⟨h, b, 0, by rw [if_neg hh, hf], Int.le_refl 0, hL⟩

end Protocols

/-! ## 4. The round trip -/

/-- **The round trip of RC-MM and XMP frames.** -/
theorem multiBit_roundTrip (fuel : Nat) (remote : IrRemote) (code : IrCode) (env : DecodeEnv)
    (b : Rbuf) (g₀ g : Int) (hm : Rcmm remote ∨ Xmp remote) (hlead : remote.plead = 0)
    (htrail : 0 < remote.ptrail) (htol : Tolerant remote)
    (hw : Within remote remote.preData code remote.postData)
    (hfit : (frameTimes remote code).length + 2 ≤ RBUF_SIZE)
    (hmask : ∀ d ∈ frameTimes remote code, d ≤ PULSE_MASK)
    (hg₀ : 0 < g₀ ∧ g₀ ≤ PULSE_MASK) (hg : 1000 ≤ g ∧ g ≤ PULSE_MASK)
    (hgap : 0 ≤ minGap remote ∧ minGap remote ≤ g) (henv : Fresh env)
    (hb : b.data ++ b.input = g₀ :: marked 0 (frameTimes remote code ++ [g]))
    (hcap : b.data.length ≤ RBUF_SIZE) :
    ∃ d b', receiveDecode fuel env remote b = some (some d, remote, b') ∧
      d.pre = remote.preData ∧ d.code = code ∧ d.post = remote.postData := by
  have hacc := accepts_eq htol
  have hne : remote.ptrail ≠ 0 := by omega
  -- both protocols are heard digit by digit
  have key {k : Nat} {p s : IrCode → Int} {loop : Nat → IrCode → Rbuf → IrCode × Rbuf}
      (hd : MultiBit remote k p s loop) (hraw : isRaw remote = false)
      (hhead : ∀ {w tail ops}, PulseFirst ops → HeardHeader remote (· = ·) w tail ops g₀) :
      ∃ d b', receiveDecode fuel env remote b = some (some d, remote, b') ∧
        d.pre = remote.preData ∧ d.code = code ∧ d.post = remote.postData := by
    have hops := pulseFirst_frameOps remote.preData code remote.postData
      hd.pulseData (.inr hne)
    have hpolar := polarFrom_frame hlead hne (fun hs value => hd.pairs hs value) remote.preData
      code remote.postData g
    have hpos := positive_frame remote.preData code remote.postData (by rw [hlead])
      (Int.le_of_lt htrail) (fun hs value => hd.positive hs value)
    have hlen := length_frame hw.toWidths (fun hs value => hd.length hs value) remote.preData code
      remote.postData
    have hcut := headCut_le_total hpos
    have hfirst : PulseFirst (headerSignal remote ++
        frameOps remote remote.preData code remote.postData) := by
      refine PulseFirst.append ?_ fun _ => hops
      by_cases hh : hasHeader remote = true
      · exact .inr (headerSignal_pulseFirst hh)
      · exact .inl (if_neg hh)
    have hcode : codeSignal remote code false =
        headerSignal remote ++ frameOps remote remote.preData code remote.postData :=
      codeSignal_eq (by simp) (by simp)
    generalize hs : headerSignal remote ++
      frameOps remote remote.preData code remote.postData = s at *
    have halt : Alternating (s ++ [(.space, g)]) := alternating_of_polarFrom hpolar
    have hco : coalesce s = s := coalesce_of_alternating (List.isChain_append.mp halt).1
    have hframe : frameTimes remote code = s.map Prod.snd := by
      rw [frameTimes, sendCode_written (by rw [hcode]; exact hpos) (by rw [hcode]; exact hfirst)
        (by rw [hcode, hco]; unfold WBUF_SIZE; omega), hcode, hco]
    have htape : marked 0 (frameTimes remote code ++ [g]) =
        (coalesce (s ++ [(Level.space, g)])).map sample := by
      rw [coalesce_of_alternating halt, ← marked_of_polarFrom hpolar, hframe]
      simp
    rw [hframe] at hfit hmask
    rw [List.length_map] at hfit
    obtain ⟨b', ps, e, -⟩ := (hd.coder hacc hlead hne).receive_coalesce [] hs.symm env henv.mode
      (henv.synced g₀) (by simp [henv.lastIsRemote]) hraw (.inl henv.lastRemote) hw (by rw [hlead])
      (Int.le_of_lt htrail) (hhead hops)
      (fun ps hps h0 => by
        rw [h0 hne, Int.zero_add, Int.sub_zero]
        exact gapAfterFrame_suffices htol (by omega) hgap.1 hgap.2 hg.1)
      hpos (by omega) (by rw [hb, htape, List.append_nil])
      (by rw [coalesce_of_alternating halt, List.length_append, List.length_singleton]; omega)
      hcap hg₀
      (fun e he => by
        rw [coalesce_of_alternating halt] at he
        rcases List.mem_append.mp he with he | he
        · exact hmask _ (List.mem_map_of_mem he)
        · rw [List.mem_singleton.mp he]
          exact hg.2) fuel
    exact ⟨_, b', e, rfl, rfl, rfl⟩
  rcases hm with hR | hX
  · have hp : protocol remote = RCMM := by simpa [isRcmm] using hR.protocol
    refine key (hR.multiBit htol hw.toWidths) (by rw [(protocol_cases remote RCMM hp).1]; decide)
      fun {w tail ops} hops => hR.heardHeader htol (hops.nextLevel tail) g₀
  · have hp : protocol remote = XMP := by simpa [isXmp] using hX.protocol
    obtain ⟨h0, -, h1, -, -, h4, -⟩ := protocol_cases remote XMP hp
    refine key (hX.multiBit hw.toWidths) (by rw [h0]; decide) fun {w tail ops} hops =>
      heardHeader hacc (by rw [h1]; decide) (by rw [h4]; decide) (fun hh _ => ⟨hops, ?_⟩) g₀
    rintro d rfl
    obtain ⟨-, hs⟩ : 0 < remote.phead ∧ 0 < remote.shead := by simpa [hasHeader] using hh
    exact expect_self htol (Int.le_of_lt hs)

/-- An RC-MM remote. -/
def rcmmRemote : IrRemote :=
  { name := "rcmm", flags := RCMM, bits := 4, eps := 10, aeps := 50, pzero := 170, szero := 280,
    pone := 170, sone := 450, ptwo := 170, stwo := 610, pthree := 170, sthree := 780,
    ptrail := 170, gap := 20000 }

def rcmmCode : IrCode := 0b0110

/-- The digits 1, 2 of an RC-MM remote are received. -/
theorem multiBit_roundTrip_rcmmRemote :
    ∃ d b', receiveDecode 0 {} rcmmRemote
        { input := 20000 :: marked 0 (frameTimes rcmmRemote rcmmCode ++ [20000]) } =
        some (some d, rcmmRemote, b') ∧
      d.pre = rcmmRemote.preData ∧ d.code = rcmmCode ∧ d.post = rcmmRemote.postData :=
  multiBit_roundTrip 0 rcmmRemote rcmmCode {} _ 20000 20000
    (.inl ⟨by decide, ⟨by decide, by decide, by decide⟩, by decide, by decide, by decide,
      by decide, by decide⟩) rfl (by decide) (.inl (by decide))
    ⟨⟨by decide, by decide, by decide, by decide⟩, by decide, by decide, by decide⟩ (by decide)
    (by decide) (by decide) (by decide) (by decide) ⟨by decide, rfl, rfl⟩ rfl (by decide)

/-- The frame of the remote for `rcmmCode` fits the receive buffer, yet it is
    not received. -/
def UnreceivedRcmm (remote : IrRemote) : Prop :=
  Rcmm remote ∧ remote.plead = 0 ∧ 0 < remote.ptrail ∧
  Within remote remote.preData rcmmCode remote.postData ∧
  (frameTimes remote rcmmCode).length + 2 ≤ RBUF_SIZE ∧ minGap remote = 20000 ∧ Fresh {} ∧
  ∃ b', receiveDecode 0 {} remote
    { input := 20000 :: marked 0 (frameTimes remote rcmmCode ++ [20000]) } = some (none, remote, b')

/-- **Two frames that are not received**: one under tolerances below 0, which
    accept no symbol for itself; and one whose trailing pulse is too long for a
    sample. -/
theorem multiBit_roundTrip_limits :
    UnreceivedRcmm { rcmmRemote with eps := -1, aeps := -1 } ∧
    UnreceivedRcmm { rcmmRemote with ptrail := 0x02000000 } := by
  constructor
  · exact ⟨⟨by decide, ⟨by decide, by decide, by decide⟩, by decide, by decide, by decide,
        by decide, by decide⟩, rfl, by decide,
      ⟨⟨by decide, by decide, by decide, by decide⟩, by decide, by decide, by decide⟩, by decide,
      rfl, ⟨by decide, rfl, rfl⟩, _, rfl⟩
  · exact ⟨⟨by decide, ⟨by decide, by decide, by decide⟩, by decide, by decide, by decide,
        by decide, by decide⟩, rfl, by decide,
      ⟨⟨by decide, by decide, by decide, by decide⟩, by decide, by decide, by decide⟩, by decide,
      rfl, ⟨by decide, rfl, rfl⟩, _, rfl⟩

end WinLirc
