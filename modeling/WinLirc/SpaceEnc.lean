/-
  File:      WinLirc/SpaceEnc.lean
  Subject:   Space-encoded frames, sent and heard.

  A bit is a pulse and a space. `expectone` goes first; where the heard pulse
  could be that of a one it reads on, and a zero is only told by its space:
  the two samples are read again by `expectzero` (`SpaceEnc.bitCoder`). What
  is needed is that the two symbols can be told apart in what is heard
  (`Distinct`).

  * `spaceEnc_roundTrip`: what `init_send` sends, `receive_decode` answers;
  * `spaceEnc_noise`: so it does where every time of the frame was replaced by
    one that `expect` accepts for it.
-/
import WinLirc.Bits
import WinLirc.Decode

namespace WinLirc

open Signal

/-! ## 1. The two symbols -/

/-- A space-encoded remote without lead pulse and toggle bits. -/
structure SpaceEnc (remote : IrRemote) : Prop where
  protocol : isSpaceEnc remote = true
  rc6 : remote.rc6Mask = 0
  toggleBit : remote.toggleBitMask = 0
  toggle : remote.toggleMask = 0
  plead : remote.plead = 0
  pone : 0 < remote.pone
  sone : 0 < remote.sone
  pzero : 0 < remote.pzero
  szero : 0 < remote.szero

/-- **A heard zero is not taken for a one**: by its pulse, or, where the space
    of a bit is heard with it, by its space. -/
def Distinct (remote : IrRemote) (acc : Int → Int → Prop) : Prop :=
  ∀ d, acc d remote.pzero → expect remote d remote.pone = true →
    0 < remote.ptrail ∧ ∀ d', acc d' remote.szero → expect remote d' remote.sone = false

section SpaceEnc

variable {remote : IrRemote}

theorem SpaceEnc.notBiphase (hS : SpaceEnc remote) : isBiphase remote = false := by
  have hp : WinLirc.protocol remote = SPACE_ENC := by simpa [isSpaceEnc] using hS.protocol
  simp [isBiphase, isRc5, isRc6, hp, hS.rc6, SPACE_ENC, RC5, RC6]

theorem SpaceEnc.notSpaceFirst (hS : SpaceEnc remote) : isSpaceFirst remote = false := by
  have hp : WinLirc.protocol remote = SPACE_ENC := by simpa [isSpaceEnc] using hS.protocol
  rw [(protocol_cases remote SPACE_ENC hp).2.1]
  decide

theorem SpaceEnc.notRaw (hS : SpaceEnc remote) : isRaw remote = false := by
  have hp : WinLirc.protocol remote = SPACE_ENC := by simpa [isSpaceEnc] using hS.protocol
  rw [(protocol_cases remote SPACE_ENC hp).1]
  decide

theorem SpaceEnc.bitCoded (hS : SpaceEnc remote) : BitCoded remote := by
  have hp : WinLirc.protocol remote = SPACE_ENC := by simpa [isSpaceEnc] using hS.protocol
  obtain ⟨-, -, h1, h2, h3, h4, h5, h6, -⟩ := protocol_cases remote SPACE_ENC hp
  exact ⟨hS.toggleBit, hS.toggle, h1, h3, h5, h4, h6, h2⟩

/-- The symbols of a space-encoded remote. -/
theorem SpaceEnc.symbol (hS : SpaceEnc remote) (bit : Int) (one : Bool) :
    bitSymbol remote (rc6Bit remote bit) one =
      if one then [(.pulse, remote.pone), (.space, remote.sone)]
      else [(.pulse, remote.pzero), (.space, remote.szero)] := by
  have hr : rc6Bit remote bit = false := by simp [rc6Bit, hS.rc6]
  rw [hr]
  unfold bitSymbol
  simp [hS.notBiphase, hS.notSpaceFirst]

/-- What may follow the space of a bit that is heard with it. -/
def NoSpace (remote : IrRemote) (tail ops : List Emission) : Prop :=
  0 < remote.ptrail → nextLevel ops tail ≠ some .space

variable {acc : Int → Int → Prop} {w : Wire} {tail ops h : List Emission} {ps : Int} {b : Rbuf}

/-- **A one is heard.** -/
theorem SpaceEnc.one (hS : SpaceEnc remote) (hacc : Accepts remote acc) (bit : Int)
    (hps : 0 ≤ ps) (ho : NoSpace remote tail ops)
    (hL : Listen acc w tail ((.pulse, remote.pone) :: (.space, remote.sone) :: ops) 0 ps h b) :
    ∃ h' b' ps', getBit remote bit b = (some true, b') ∧ 0 ≤ ps' ∧
      Listen acc w tail ops 0 ps' h' b' := by
  have hpone := hS.pone
  have hsone := hS.sone
  obtain ⟨h₁, b₁, e₁, hL₁⟩ := hL.expectpulse hacc (Int.le_of_lt hpone) (Int.le_refl 0) hps
    (.inl rfl) (by simp)
  unfold getBit expectone
  rw [if_neg (by simp [hS.notBiphase]), if_neg (by simp [hS.notSpaceFirst]), if_pos hpone, e₁]
  by_cases ht : 0 < remote.ptrail
  · obtain ⟨h₂, b₂, e₂, hL₂⟩ := hL₁.expectspace hacc (Int.le_of_lt hsone) (Int.le_refl 0)
      (Int.le_refl 0) (.inl rfl) (ho ht)
    refine ⟨h₂, b₂, 0, ?_, Int.le_refl 0, hL₂⟩
    dsimp only
    rw [if_pos ht, if_pos hsone, e₂]
  · refine ⟨h₁, _, remote.sone, ?_, Int.le_of_lt hsone, hL₁.deferSpace hsone⟩
    dsimp only
    rw [if_neg ht]

/-- **A zero is heard** by `expectzero`, its pulse next on the tape. -/
theorem SpaceEnc.expectzero (hS : SpaceEnc remote) (hacc : Accepts remote acc) (bit : Int)
    {d : Int} (hd : acc d remote.pzero) (ho : NoSpace remote tail ops)
    (hv : View w ((.pulse, d) :: h) 0 0 b)
    (hh : Heard acc tail ((.space, remote.szero) :: ops) h) :
    ∃ h' b' ps', expectzero remote bit b = (true, b') ∧ 0 ≤ ps' ∧
      Listen acc w tail ops 0 ps' h' b' := by
  have hszero := hS.szero
  obtain ⟨b₁, e₁, hv₁⟩ := hv.pulse remote
  have hexp := (hacc d remote.pzero (Int.le_of_lt hS.pzero) hd).2
  have hL₁ : Listen acc w tail ((.space, remote.szero) :: ops) 0 0 h b₁ := ⟨hv₁, hh⟩
  unfold WinLirc.expectzero
  rw [if_neg (by simp [hS.notBiphase]), if_neg (by simp [hS.notSpaceFirst]), e₁, hexp]
  by_cases ht : 0 < remote.ptrail
  · obtain ⟨h₂, b₂, e₂, hL₂⟩ := hL₁.expectspace hacc (Int.le_of_lt hszero) (Int.le_refl 0)
      (Int.le_refl 0) (.inl rfl) (ho ht)
    refine ⟨h₂, b₂, 0, ?_, Int.le_refl 0, hL₂⟩
    dsimp only
    rw [if_pos ht, e₂]
  · refine ⟨h, _, remote.szero, ?_, Int.le_of_lt hszero, hL₁.deferSpace hszero⟩
    dsimp only
    rw [if_neg ht]

/-- **A zero is not taken for a one**: `expectone` fails and goes back to the
    pulse. -/
theorem SpaceEnc.zero (hS : SpaceEnc remote) (hacc : Accepts remote acc)
    (hdist : Distinct remote acc) (bit : Int) (hps : 0 ≤ ps) (ho : NoSpace remote tail ops)
    (hL : Listen acc w tail ((.pulse, remote.pzero) :: (.space, remote.szero) :: ops) 0 ps h b) :
    ∃ h' b' ps', getBit remote bit b = (some false, b') ∧ 0 ≤ ps' ∧
      Listen acc w tail ops 0 ps' h' b' := by
  have hpone := hS.pone
  have hsone := hS.sone
  obtain ⟨d, h₁, b₁, hd, e₁, hL₁, hend, hd0⟩ := hL.pulse hacc hps (by simp)
  -- where the buffer stands once `expectone` has failed
  have hback : ∃ b₂, expectone remote bit b = (false, b₂) ∧ View w ((.pulse, d) :: h₁) 0 0 b₂ := by
    unfold expectone
    rw [if_neg (by simp [hS.notBiphase]), if_neg (by simp [hS.notSpaceFirst]), if_pos hpone, e₁]
    cases he : expect remote d remote.pone with
    | false => exact ⟨_, rfl, hL₁.view.unget1 hend hd0⟩
    | true =>
      obtain ⟨ht, hspace⟩ := hdist d hd he
      obtain ⟨d', h₂, rfl, hd', -⟩ := hL₁.heard.split_ne (ho ht)
      obtain ⟨b₂, e₂, hv₂⟩ := hL₁.view.space remote
      have hs := hL₁.view.sound (.space, d') List.mem_cons_self
      refine ⟨ungetRecBuffer 2 b₂, ?_, hv₂.unget2 hend fun f hf => ?_⟩
      · dsimp only
        rw [if_pos ht, if_pos hsone, e₂, hspace d' hd']
      · rcases List.mem_cons.mp hf with rfl | hf
        · exact hd0
        · rw [List.mem_singleton.mp hf]
          exact hs
  obtain ⟨b₂, e₂, hv₂⟩ := hback
  obtain ⟨h₃, b₃, ps₃, e₃, hps₃, hL₃⟩ := hS.expectzero hacc bit hd ho hv₂ hL₁.heard
  refine ⟨h₃, b₃, ps₃, ?_, hps₃, hL₃⟩
  unfold getBit
  rw [e₂]
  dsimp only
  rw [e₃]

/-- **Space-encoded frames are heard bit by bit.** -/
theorem SpaceEnc.bitCoder (w : Wire) (tail : List Emission) (hS : SpaceEnc remote)
    (hacc : Accepts remote acc) (hdist : Distinct remote acc) :
    BitCoder remote acc w tail (NoSpace remote tail) SpaceDeferred := by
  refine ⟨hacc, hS.bitCoded, ?_, ?_, ?_, ?_, ?_, ?_⟩
  · rintro pp ps ⟨rfl, h⟩
    exact ⟨Int.le_refl 0, h, .inl rfl⟩
  · rintro pp ps ⟨-, h, -⟩ hz
    rw [hS.plead, or_self] at hz
    exact ⟨hz, h⟩
  · intro bit one ops ht
    rw [hS.symbol]
    cases one <;> simp
  · intro d ops ht
    simp
  · intro ht
    have hne : remote.ptrail ≠ 0 := by omega
    rw [trailSignal, if_pos hne]
    simp
  · rintro bit one ops pp ps h b ⟨rfl, hps⟩ ho hL
    rw [hS.symbol] at hL
    cases one with
    | true =>
      obtain ⟨h', b', ps', e, hps', hL'⟩ := hS.one hacc bit hps ho hL
      exact ⟨h', b', 0, ps', e, ⟨rfl, hps'⟩, hL'⟩
    | false =>
      obtain ⟨h', b', ps', e, hps', hL'⟩ := hS.zero hacc hdist bit hps ho hL
      exact ⟨h', b', 0, ps', e, ⟨rfl, hps'⟩, hL'⟩

/-! ## 2. Frames of space-encoded bits -/

theorem SpaceEnc.dataSignal_eq (hS : SpaceEnc remote) (hw : Widths remote) {width bit : Int}
    (hs : Slot remote width bit) (value : IrCode) :
    dataSignal remote value width bit = symbols remote bit (bits width.toNat value) := by
  obtain ⟨h1, h2, h3⟩ := hs.bounds hw
  have hcount := hw.count
  exact dataSignal_symbols hS.bitCoded (by omega) value h1 h2 h3

theorem SpaceEnc.positive_symbols (hS : SpaceEnc remote) (bit : Int) (vs : List Bool) :
    Positive (symbols remote bit vs) := by
  induction vs generalizing bit with
  | nil => exact positive_nil
  | cons one vs ih =>
    refine Positive.append ?_ (ih (bit + 1))
    rw [hS.symbol]
    split
    · exact positive_cons hS.pone (positive_cons hS.sone positive_nil)
    · exact positive_cons hS.pzero (positive_cons hS.szero positive_nil)

theorem SpaceEnc.pulseData (hS : SpaceEnc remote) (hw : Widths remote) : PulseData remote := by
  constructor
  · intro width bit hs hpos value
    rw [hS.dataSignal_eq hw hs]
    obtain ⟨n, hn⟩ : ∃ n, width.toNat = n + 1 := ⟨width.toNat - 1, by omega⟩
    rw [hn, bits, symbols, hS.symbol]
    split <;> rfl
  · intro width bit hs hpos value
    have h0 : width.toNat = 0 := by omega
    rw [hS.dataSignal_eq hw hs, h0]
    rfl

/-- **A space-encoded frame** has positive times. -/
theorem SpaceEnc.positive (hS : SpaceEnc remote) (htrail : 0 ≤ remote.ptrail)
    (hw : Widths remote) (pre code post : IrCode) :
    Positive (headerSignal remote ++ frameOps remote pre code post) := by
  refine positive_frame _ _ _ (by rw [hS.plead]) htrail fun hs value => ?_
  rw [hS.dataSignal_eq hw hs]
  exact hS.positive_symbols _ _

end SpaceEnc

/-! ## 3. The round trip -/

/-- The zero symbol is not accepted as a one: by its pulse or its space, or by
    its pulse alone where no pulse trails. -/
def SymbolsDiffer (remote : IrRemote) : Prop :=
  if remote.ptrail > 0 then
    expect remote remote.pzero remote.pone = false ∨ expect remote remote.szero remote.sone = false
  else expect remote remote.pzero remote.pone = false

theorem SymbolsDiffer.distinct {remote : IrRemote} (h : SymbolsDiffer remote) :
    Distinct remote (· = ·) := by
  rintro d rfl he
  unfold SymbolsDiffer at h
  split at h
  · rename_i ht
    refine ⟨ht, ?_⟩
    rintro d' rfl
    rcases h with h | h
    · rw [he] at h
      simp at h
    · exact h
  · rw [he] at h
    simp at h

/-- The frame has a pulse in front: its header, a bit, or the trailing pulse;
    the header alone must not be one that a repeat may lack. -/
def HasPulse (remote : IrRemote) : Prop :=
  0 < bitCount remote ∨ 0 < remote.ptrail ∨
    (hasHeader remote = true ∧ hasFlag remote NO_HEAD_REP = false)

/-- **The round trip of space-encoded frames.** -/
theorem spaceEnc_roundTrip (fuel fuel' : Nat) (remote : IrRemote) (code : IrNcode)
    (res : SendResult) (env : DecodeEnv) (b : Rbuf) (g₀ : Int)
    (hS : SpaceEnc remote) (hT : Times remote) (hmin : remote.minRepeat = 0)
    (htol : Tolerant remote) (hw : Within remote remote.preData code.code remote.postData)
    (hsome : HasPulse remote)
    (hdiff : SymbolsDiffer remote) (hsingle : Single code)
    (hsend : initSend fuel remote code 0 = some res) (hret : res.ret = true)
    (hres : Receivable res.buf) (hg₀ : 0 < g₀ ∧ g₀ ≤ PULSE_MASK) (henv : Fresh env)
    (hb : b.data ++ b.input = fed g₀ res.buf) (hcap : b.data.length ≤ RBUF_SIZE) :
    ∃ d b', receiveDecode fuel' env remote b = some (some d, remote, b') ∧
      d.pre = remote.preData ∧ d.code = code.code ∧ d.post = remote.postData := by
  have hacc := accepts_eq htol
  have hbc := hS.bitCoded
  have hdata := hS.pulseData hw.toWidths
  have hpulse (h : 0 < bitCount remote ∨ 0 < remote.ptrail) :
      PulseFirst (frameOps remote remote.preData code.code remote.postData) :=
    pulseFirst_frameOps _ _ _ hdata (h.imp id fun h => by omega)
  refine receive_sent (NoSpace remote) (fun w g =>
      (SpaceEnc.bitCoder w [(.space, g)] hS hacc hdiff.distinct).coder hw.toWidths)
    (fun w g => heardHeader hacc hbc.rcmm hbc.bo fun hh hf => ⟨?_, ?_⟩) hsingle hS.notRaw hbc.rcmm
    hS.toggle hmin hT htol hw (hS.positive hT.ptrail hw.toWidths _ _ _) ?_ hsend hret hres hg₀ henv hb hcap
    fuel'
  · rcases hsome with h | h | ⟨-, h⟩
    · exact hpulse (.inl h)
    · exact hpulse (.inr h)
    · rw [hf] at h
      simp at h
  · rintro d rfl
    exact expect_self htol hT.shead
  · by_cases hh : hasHeader remote = true
    · exact PulseFirst.append (.inr (headerSignal_pulseFirst hh))
        fun h => absurd h (headerSignal_pulseFirst hh).ne_nil
    · refine PulseFirst.append (.inl (if_neg hh)) fun _ => ?_
      rcases hsome with h | h | ⟨h, -⟩
      · exact hpulse (.inl h)
      · exact hpulse (.inr h)
      · exact absurd h hh

/-- `plainRemote` gets its own code back. -/
theorem spaceEnc_roundTrip_plainRemote :
    ∃ d b', receiveDecode 0 {} plainRemote
        { input := fed 40000 ((initSend 1 plainRemote plainCode 0).get (by decide)).buf } =
        some (some d, plainRemote, b') ∧
      d.pre = plainRemote.preData ∧ d.code = plainCode.code ∧ d.post = plainRemote.postData :=
  spaceEnc_roundTrip 1 0 plainRemote plainCode _ {} _ 40000
    ⟨by decide, rfl, rfl, rfl, rfl, by decide, by decide, by decide, by decide⟩
    ⟨by decide, by decide, by decide, by decide, by decide⟩ rfl (.inl (by decide))
    ⟨⟨by decide, by decide, by decide, by decide⟩, by decide, by decide, by decide⟩
    (.inl (by decide)) (by unfold SymbolsDiffer; decide) ⟨rfl, rfl⟩ (Option.some_get _).symm
    (by decide) ⟨by decide, by decide⟩ ⟨by decide, by decide⟩ ⟨by decide, rfl, rfl⟩ rfl (by decide)

/-- A remote whose frame is a header alone, one that a repeat may lack. -/
def bareHeader : IrRemote :=
  { flags := SPACE_ENC ||| NO_HEAD_REP, eps := 30, aeps := 100, phead := 9000, shead := 4500,
    pone := 1500, sone := 500, pzero := 500, szero := 500, gap := 40000 }

/-- **A header alone is not recognised**: its space has merged with the gap,
    and `get_header` decides by the length of that space. -/
theorem spaceEnc_roundTrip_bareHeader :
    SpaceEnc bareHeader ∧ Times bareHeader ∧ bareHeader.minRepeat = 0 ∧
    0 ≤ bareHeader.eps ∧ bareHeader.eps ≤ 100 ∧ 0 ≤ bareHeader.aeps ∧
    Within bareHeader bareHeader.preData 0 bareHeader.postData ∧ SymbolsDiffer bareHeader ∧
    Fresh {} ∧ Single { name := "KEY_A", code := 0 } ∧
    ∃ res, initSend 1 bareHeader { name := "KEY_A", code := 0 } 0 = some res ∧ res.ret = true ∧
      Receivable res.buf ∧
      ∃ b', receiveDecode 0 {} bareHeader { input := fed 40000 res.buf } =
        some (none, bareHeader, b') := by
  refine ⟨⟨by decide, rfl, rfl, rfl, rfl, by decide, by decide, by decide, by decide⟩,
    ⟨by decide, by decide, by decide, by decide, by decide⟩, rfl, by decide, by decide,
    by decide, ⟨⟨by decide, by decide, by decide, by decide⟩, by decide, by decide, by decide⟩,
    by unfold SymbolsDiffer; decide, ⟨by decide, rfl, rfl⟩, ⟨rfl, rfl⟩, _, rfl, by decide,
    ⟨by decide, by decide⟩, _, rfl⟩

/-! ## 4. Noise -/

section Noise

variable {remote : IrRemote}

theorem SpaceEnc.pairs_symbols (hS : SpaceEnc remote) (bit : Int) (vs : List Bool) :
    Pairs (symbols remote bit vs) := by
  induction vs generalizing bit with
  | nil => exact pairs_nil
  | cons one vs ih =>
    rw [symbols, hS.symbol]
    refine Pairs.append ?_ (ih (bit + 1))
    split
    · exact pairs_two _ _
    · exact pairs_two _ _

theorem SpaceEnc.length_symbols (hS : SpaceEnc remote) (bit : Int) (vs : List Bool) :
    (symbols remote bit vs).length = 2 * vs.length := by
  induction vs generalizing bit with
  | nil => rfl
  | cons one vs ih =>
    rw [symbols, hS.symbol, List.length_append, ih (bit + 1), List.length_cons]
    split <;> simp <;> omega

theorem SpaceEnc.length_data (hS : SpaceEnc remote) (hw : Widths remote) {width bit : Int}
    (hs : Slot remote width bit) (value : IrCode) :
    (dataSignal remote value width bit).length ≤ 2 * width.toNat := by
  rw [hS.dataSignal_eq hw hs, hS.length_symbols, length_bits]

/-- The values a remote is configured with do not change its symbols. -/
theorem SpaceEnc.frameOps_values (hS : SpaceEnc remote) (hw : Widths remote)
    (p q pre code post : IrCode) :
    frameOps { remote with preData := p, postData := q } pre code post =
      frameOps remote pre code post := by
  have hS' : SpaceEnc { remote with preData := p, postData := q } :=
    ⟨hS.protocol, hS.rc6, hS.toggleBit, hS.toggle, hS.plead, hS.pone, hS.sone, hS.pzero, hS.szero⟩
  have hw' : Widths { remote with preData := p, postData := q } :=
    ⟨hw.preBits, hw.codeBits, hw.postBits, hw.count⟩
  have hsym (bit : Int) (vs : List Bool) :
      symbols { remote with preData := p, postData := q } bit vs = symbols remote bit vs := by
    induction vs generalizing bit with
    | nil => rfl
    | cons one vs ih => rw [symbols, symbols, hS'.symbol, hS.symbol, ih]
  have h1 := (hS'.dataSignal_eq hw' .pre pre).trans
    ((hsym _ _).trans (hS.dataSignal_eq hw .pre pre).symm)
  have h2 := (hS'.dataSignal_eq hw' .code code).trans
    ((hsym _ _).trans (hS.dataSignal_eq hw .code code).symm)
  have h3 := (hS'.dataSignal_eq hw' .post post).trans
    ((hsym _ _).trans (hS.dataSignal_eq hw .post post).symm)
  unfold frameOps preOps codeOps postOps
  rw [h1, h2, h3]
  rfl

end Noise

/-- The durations of the frame of three values, as `send_code` writes them. -/
def frameOf (remote : IrRemote) (pre code post : IrCode) : List Int :=
  frameTimes { remote with preData := pre, postData := post } code

/-- The tolerances of the two pulses, or of the two spaces, have no length in
    common. -/
def TolerancesDisjoint (remote : IrRemote) : Prop :=
  (∀ d, ¬ (expect remote d remote.pone = true ∧ expect remote d remote.pzero = true)) ∨
    ∀ d, ¬ (expect remote d remote.sone = true ∧ expect remote d remote.szero = true)

/-- Tolerances of 100% and more have 1 in common. -/
theorem TolerancesDisjoint.eps {remote : IrRemote} (h : TolerancesDisjoint remote)
    (hS : SpaceEnc remote) : remote.eps < 100 := by
  by_contra hno
  have key (e : Int) (he : 0 < e) : expect remote 1 e = true := by
    have hx : e * 100 ≤ e * remote.eps :=
      Int.mul_le_mul_of_nonneg_left (by omega) (Int.le_of_lt he)
    unfold expect
    rw [Int.tdiv_eq_ediv_of_nonneg (by omega)]
    simp only [Bool.or_eq_true, decide_eq_true_eq]
    left
    omega
  rcases h with h | h
  · exact h 1 ⟨key _ hS.pone, key _ hS.pzero⟩
  · exact h 1 ⟨key _ hS.sone, key _ hS.szero⟩

/-- A tolerance below 100% accepts what is no shorter, even than a negative
    length. -/
theorem expectAtLeast_of_eps {remote : IrRemote} (h : Tolerant remote) (heps : remote.eps < 100)
    {d e : Int} (hd : 0 ≤ d) (hle : e ≤ d) : expectAtLeast remote d e = true := by
  by_cases he : 0 ≤ e
  · exact expectAtLeast_of_le h he hle
  · unfold expectAtLeast
    simp only [Bool.or_eq_true, decide_eq_true_eq]
    rcases h with h | h
    · left
      have h0 : 0 ≤ -e * remote.eps := Int.mul_nonneg (by omega) h
      have h1 : -e * remote.eps ≤ -e * 100 := Int.mul_le_mul_of_nonneg_left (by omega) (by omega)
      have h2 : (e * remote.eps).tdiv 100 = -((-e * remote.eps) / 100) := by
        rw [← Int.tdiv_eq_ediv_of_nonneg h0, Int.neg_mul, Int.neg_tdiv, Int.neg_neg]
      rw [h2]
      omega
    · right
      omega

/-- What `expect` accepts of a positive time. -/
def Expected (remote : IrRemote) (d e : Int) : Prop := 0 < d ∧ expect remote d e = true

theorem TolerancesDisjoint.distinct {remote : IrRemote} (h : TolerancesDisjoint remote)
    (ht : 0 < remote.ptrail) : Distinct remote (Expected remote) := by
  rintro d ⟨-, hd⟩ he
  refine ⟨ht, ?_⟩
  rintro d' ⟨-, hd'⟩
  rcases h with h | h
  · exact absurd ⟨he, hd⟩ (h d)
  · by_contra hs
    exact h d' ⟨by simpa using hs, hd'⟩

/-- Times heard for a signal, with its levels. -/
theorem exists_heard {R : Int → Int → Prop} {frame : List Emission} {noisy : List Int}
    (h : List.Forall₂ R noisy (frame.map Prod.snd)) :
    ∃ t : List Emission, t.map Prod.snd = noisy ∧
      List.Forall₂ (fun n e => n.1 = e.1 ∧ R n.2 e.2) t frame := by
  induction frame generalizing noisy with
  | nil =>
    cases h
    exact ⟨[], rfl, .nil⟩
  | cons e frame ih =>
    cases h with
    | @cons d _ noisy _ hd h =>
      obtain ⟨t, rfl, ht⟩ := ih h
      exact ⟨(e.1, d) :: t, rfl, .cons ⟨rfl, hd⟩ ht⟩

/-- Signals with the same levels stand at their places alike. -/
theorem polarFrom_of_levels {t s u : List Emission} {n : Nat}
    (h : List.Forall₂ (fun n e => n.1 = e.1) t s) (hp : PolarFrom n (s ++ u)) :
    PolarFrom n (t ++ u) := by
  induction h generalizing n with
  | nil => exact hp
  | cons he _ ih => exact ⟨he.trans hp.1, ih hp.2⟩

/-- **Noisy frames are received**: every duration of the frame may be replaced
    by one that `expect` accepts for it. -/
theorem spaceEnc_noise (fuel : Nat) (remote : IrRemote) (pre code post : IrCode)
    (env : DecodeEnv) (b : Rbuf) (noisy : List Int) (g₀ g : Int)
    (hS : SpaceEnc remote) (htrail : 0 < remote.ptrail) (hconst : isConst remote = false)
    (hflag : hasFlag remote NO_HEAD_REP = false) (htol : Tolerant remote)
    (hdis : TolerancesDisjoint remote) (hw : Within remote pre code post)
    (hnoisy : List.Forall₂ (Expected remote) noisy (frameOf remote pre code post))
    (hfit : noisy.length + 2 ≤ RBUF_SIZE) (hmask : ∀ n ∈ noisy, n ≤ PULSE_MASK)
    (hg₀ : 0 < g₀ ∧ g₀ ≤ PULSE_MASK) (hg : 0 < g ∧ g ≤ PULSE_MASK)
    (hgap : minGap remote ≤ g) (henv : Fresh env)
    (hb : b.data ++ b.input = g₀ :: marked 0 (noisy ++ [g])) (hcap : b.data.length ≤ RBUF_SIZE) :
    ∃ d b', receiveDecode fuel env remote b = some (some d, remote, b') ∧
      d.pre = pre ∧ d.code = code ∧ d.post = post := by
  have hbc := hS.bitCoded
  have hne : remote.ptrail ≠ 0 := by omega
  have hacc : Accepts remote (Expected remote) := fun d e _ h => ⟨Int.le_of_lt h.1, h.2⟩
  -- the frame as it is sent
  have hcode : codeSignal { remote with preData := pre, postData := post } code false =
      headerSignal remote ++ frameOps remote pre code post := by
    rw [codeSignal_eq (by simp) (by simp), hS.frameOps_values hw.toWidths]
    rfl
  have hpolar := polarFrom_frame hS.plead hne (fun hs value => by
    rw [hS.dataSignal_eq hw.toWidths hs]
    exact hS.pairs_symbols _ _) pre code post g
  have hpos := hS.positive (Int.le_of_lt htrail) hw.toWidths pre code post
  have hlen := length_frame hw.toWidths (fun hs value => hS.length_data hw.toWidths hs value) pre
    code post
  generalize hs : headerSignal remote ++ frameOps remote pre code post = s at *
  have halt : Alternating (s ++ [(.space, g)]) := alternating_of_polarFrom hpolar
  have hco : coalesce s = s :=
    coalesce_of_alternating (List.isChain_append.mp halt).1
  have hfirst : PulseFirst s := by
    have hp := pulseFirst_frameOps pre code post
      (hS.pulseData hw.toWidths) (.inr hne)
    rw [← hs]
    refine PulseFirst.append ?_ fun _ => hp
    by_cases hh : hasHeader remote = true
    · exact .inr (headerSignal_pulseFirst hh)
    · exact .inl (if_neg hh)
  have hframe : frameOf remote pre code post = s.map Prod.snd := by
    rw [frameOf, frameTimes, sendCode_written (by rw [hcode]; exact hpos) (by rw [hcode]; exact hfirst)
      (by rw [hcode, hco]; unfold WBUF_SIZE; omega), hcode, hco]
  -- what is heard of it
  rw [hframe] at hnoisy
  obtain ⟨t, rfl, ht⟩ := exists_heard hnoisy
  have hheard : Heard (Expected remote) [(.space, g)] s (t ++ [(.space, g)]) :=
    heard_of_forall₂ halt ht
  have htape : marked 0 (t.map Prod.snd ++ [g]) = (t ++ [(Level.space, g)]).map sample := by
    rw [← marked_of_polarFrom (polarFrom_of_levels (ht.imp fun _ _ h => h.1) hpolar)]
    simp
  have hsound : Sound ((.space, g₀) :: (t ++ [(.space, g)])) := by
    intro e he
    rcases List.mem_cons.mp he with rfl | he
    · exact hg₀
    · rcases List.mem_append.mp he with he | he
      · refine ⟨?_, hmask e.2 (List.mem_map_of_mem he)⟩
        obtain ⟨i, hi, rfl⟩ := List.mem_iff_getElem.mp he
        exact (List.forall₂_iff_get.mp ht).2 i hi (by rw [← ht.length_eq]; exact hi) |>.2.1
      · rw [List.mem_singleton.mp he]
        exact hg
  rw [List.length_map] at hfit
  have hcoder := (SpaceEnc.bitCoder (arrival g₀ (t ++ [(.space, g)]) []) [(.space, g)] hS hacc
    (hdis.distinct htrail)).coder hw.toWidths
  have hexp (sum ps : Int) (_ : 0 ≤ ps) (h0 : remote.ptrail ≠ 0 → ps = 0) :
      expectAtLeast remote (ps + g) (gapAfterFrame remote sum) = true := by
    rw [h0 hne, Int.zero_add]
    unfold gapAfterFrame
    rw [if_neg (by simp [hbc.rcmm]), if_neg (by simp [hconst])]
    exact expectAtLeast_of_eps htol (hdis.eps hS) (Int.le_of_lt hg.1) hgap
  obtain ⟨b', ps, e, -⟩ := hcoder.receive env henv.mode (henv.synced g₀)
    (by simp [henv.lastIsRemote]) hS.notRaw (.inr hS.toggle) hw (by rw [hS.plead]) (Int.le_of_lt htrail)
    (heardHeader hacc hbc.rcmm hbc.bo (fun _ hf => by rw [hflag] at hf; simp at hf) g₀)
    (fun ps => hexp _ ps) (by rw [hs]; exact hheard) (by rw [hb, htape]; simp [arrival, sample])
    (by rw [List.length_append, List.length_singleton]; omega) hcap hsound fuel
  exact ⟨_, b', e, rfl, rfl, rfl⟩

theorem disjoint_plainRemote : TolerancesDisjoint plainRemote := by
  right
  intro d
  have h1 : plainRemote.sone = 1500 := rfl
  have h2 : plainRemote.szero = 500 := rfl
  have h3 : plainRemote.aeps = 100 := rfl
  have h4 : ((1500 : Int) * plainRemote.eps).tdiv 100 = 450 := by decide
  have h5 : ((500 : Int) * plainRemote.eps).tdiv 100 = 150 := by decide
  simp only [expect, h1, h2, h3, h4, h5, Bool.or_eq_true, decide_eq_true_eq]
  omega

/-- The frame 500, 1500, 500, 500, 500 with every duration off. -/
theorem spaceEnc_noise_plainRemote :
    ∃ d b', receiveDecode 0 {} plainRemote
        { input := 77 :: marked 0 ([450, 1600, 520, 480, 550] ++ [50000]) } =
        some (some d, plainRemote, b') ∧ d.pre = 0 ∧ d.code = 2 ∧ d.post = 0 :=
  spaceEnc_noise 0 plainRemote 0 2 0 {} _ [450, 1600, 520, 480, 550] 77 50000
    ⟨by decide, rfl, rfl, rfl, rfl, by decide, by decide, by decide, by decide⟩ (by decide)
    (by decide) (by decide) (.inl (by decide)) disjoint_plainRemote
    ⟨⟨by decide, by decide, by decide, by decide⟩, by decide, by decide, by decide⟩
    (by unfold Expected; decide) (by decide) (by decide) ⟨by decide, by decide⟩
    ⟨by decide, by decide⟩ (by decide) ⟨by decide, rfl, rfl⟩ rfl (by decide)

/-- Short durations and tolerances below 0: a length below 100 is still
    accepted for itself, a longer one is not. -/
def strictRemote : IrRemote :=
  { flags := SPACE_ENC, bits := 2, eps := -1, aeps := -1, pone := 50, sone := 90, pzero := 50,
    szero := 20, ptrail := 50, gap := 1000 }

theorem disjoint_strictRemote : TolerancesDisjoint strictRemote := by
  right
  intro d
  have h1 : strictRemote.sone = 90 := rfl
  have h2 : strictRemote.szero = 20 := rfl
  have h3 : strictRemote.aeps = -1 := rfl
  have h4 : ((90 : Int) * strictRemote.eps).tdiv 100 = 0 := by decide
  have h5 : ((20 : Int) * strictRemote.eps).tdiv 100 = 0 := by decide
  simp only [expect, h1, h2, h3, h4, h5, Bool.or_eq_true, decide_eq_true_eq]
  omega

/-- **Two frames that are not received**: the exact frame under negative
    tolerances, whose gap is not accepted for itself; and a frame whose gap of
    2^24 microseconds is, as a sample, a pulse. -/
theorem spaceEnc_noise_limits :
    (SpaceEnc strictRemote ∧ TolerancesDisjoint strictRemote ∧ Within strictRemote 0 2 0 ∧
      List.Forall₂ (Expected strictRemote) [50, 90, 50, 20, 50] (frameOf strictRemote 0 2 0) ∧
      ∃ b', receiveDecode 0 {} strictRemote
        { input := 1000 :: marked 0 ([50, 90, 50, 20, 50] ++ [1000]) } =
        some (none, strictRemote, b')) ∧
    (SpaceEnc plainRemote ∧ TolerancesDisjoint plainRemote ∧ Within plainRemote 0 2 0 ∧
      List.Forall₂ (Expected plainRemote) [500, 1500, 500, 500, 500] (frameOf plainRemote 0 2 0) ∧
      ∃ b', receiveDecode 0 {} plainRemote
        { input := 40000 :: marked 0 ([500, 1500, 500, 500, 500] ++ [0x01000000]) } =
        some (none, plainRemote, b')) := by
  refine ⟨⟨⟨by decide, rfl, rfl, rfl, rfl, by decide, by decide, by decide, by decide⟩,
    disjoint_strictRemote, ⟨⟨by decide, by decide, by decide, by decide⟩, by decide, by decide,
    by decide⟩, by unfold Expected; decide, _, rfl⟩,
    ⟨by decide, rfl, rfl, rfl, rfl, by decide, by decide, by decide, by decide⟩,
    disjoint_plainRemote, ⟨⟨by decide, by decide, by decide, by decide⟩, by decide, by decide,
    by decide⟩, by unfold Expected; decide, _, rfl⟩

end WinLirc
