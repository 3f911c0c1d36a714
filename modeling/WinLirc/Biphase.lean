/-
  File:      WinLirc/Biphase.lean
  Subject:   Biphase frames (RC5, RC6), sent and heard.

  A one is a space and a pulse, a zero a pulse and a space; neighbours of one
  level merge on the wire, and rc6_mask doubles some of them. The receiver
  keeps the second half of every bit deferred (`pendingp`, `pendings`) until
  the next bit tells whether it has merged.

  `expectone` goes first. On a zero it meets a pulse that is too long for what
  is deferred, or a space that ends with it (`Separated`), and one sample back
  everything is as it was (`Biphase.back`).
-/
import WinLirc.Bits
import WinLirc.Decode

namespace WinLirc

open Signal

/-! ## 1. The two symbols -/

/-- A biphase remote without toggle bits. -/
structure Biphase (remote : IrRemote) : Prop where
  protocol : WinLirc.protocol remote = RC5 ∨ WinLirc.protocol remote = RC6
  toggleBit : remote.toggleBitMask = 0
  toggle : remote.toggleMask = 0
  pone : 0 < remote.pone
  sone : 0 < remote.sone
  pzero : 0 < remote.pzero
  szero : 0 < remote.szero

/-- **The lengths by which the bits are told apart**: no pulse that may be
    deferred is accepted where half a zero follows it, and no time at all is
    accepted for the space of a one. -/
structure Separated (remote : IrRemote) : Prop where
  pulse : ∀ x, x = remote.plead ∨ x = remote.pone ∨ x = 2 * remote.pone →
    ∀ y, y = remote.pzero ∨ y = 2 * remote.pzero → expect remote (x + y) x = false
  space : ∀ y, y = remote.sone ∨ y = 2 * remote.sone → expect remote 0 y = false

section Biphase

variable {remote : IrRemote}

theorem Biphase.isBiphase (hB : Biphase remote) : isBiphase remote = true := by
  rcases hB.protocol with hp | hp
  · simp [WinLirc.isBiphase, isRc5, hp]
  · simp [WinLirc.isBiphase, isRc6, hp]

theorem Biphase.notSpaceFirst (hB : Biphase remote) : isSpaceFirst remote = false := by
  rcases hB.protocol with hp | hp
  · rw [(protocol_cases remote RC5 hp).2.1]
    decide
  · rw [(protocol_cases remote RC6 hp).2.1]
    decide

theorem Biphase.notRaw (hB : Biphase remote) : isRaw remote = false := by
  rcases hB.protocol with hp | hp
  · rw [(protocol_cases remote RC5 hp).1]
    decide
  · rw [(protocol_cases remote RC6 hp).1]
    decide

theorem Biphase.bitCoded (hB : Biphase remote) : BitCoded remote := by
  rcases hB.protocol with hp | hp
  · obtain ⟨-, -, h1, h2, h3, h4, h5, h6, -⟩ := protocol_cases remote RC5 hp
    exact ⟨hB.toggleBit, hB.toggle, h1, h3, h5, h4, h6, h2⟩
  · obtain ⟨-, -, h1, h2, h3, h4, h5, h6, -⟩ := protocol_cases remote RC6 hp
    exact ⟨hB.toggleBit, hB.toggle, h1, h3, h5, h4, h6, h2⟩

/-- How often half a bit is taken: rc6_mask doubles it. -/
def times (double : Bool) : Int := if double then 2 else 1

theorem times_mul (double : Bool) (x : Int) : times double * x = x ∨ times double * x = 2 * x := by
  cases double <;> simp [times]

theorem times_mul_pos (double : Bool) {x : Int} (h : 0 < x) : 0 < times double * x := by
  rcases times_mul double x with e | e <;> omega

/-- The symbols of a biphase remote. -/
theorem Biphase.symbol (hB : Biphase remote) (double one : Bool) :
    bitSymbol remote double one =
      if one then [(.space, times double * remote.sone), (.pulse, times double * remote.pone)]
      else [(.pulse, times double * remote.pzero), (.space, times double * remote.szero)] := by
  unfold bitSymbol times
  cases double <;> simp [hB.isBiphase, hB.notSpaceFirst]

/-- What may be deferred: any space, the lead pulse, or the pulse of a one. -/
def HalfDeferred (remote : IrRemote) (pp ps : Int) : Prop :=
  Deferred pp ps ∧
    (pp = 0 ∨ pp = remote.plead ∨ pp = remote.pone ∨ pp = 2 * remote.pone)

variable {w : Wire} {tail ops h : List Emission} {pp ps : Int} {b : Rbuf}

/-- **A one is heard**, and its pulse deferred. -/
theorem Biphase.one (hB : Biphase remote) (hacc : Accepts remote (· = ·)) (bit : Int)
    (hd : Deferred pp ps)
    (hL : Listen (· = ·) w tail ((.space, times (rc6Bit remote bit) * remote.sone) ::
      (.pulse, times (rc6Bit remote bit) * remote.pone) :: ops) pp ps h b) :
    ∃ h' b', getBit remote bit b = (some true, b') ∧
      Listen (· = ·) w tail ops (times (rc6Bit remote bit) * remote.pone) 0 h' b' := by
  obtain ⟨hpp, hps, hone⟩ := hd
  have hs := times_mul_pos (rc6Bit remote bit) hB.sone
  have hp := times_mul_pos (rc6Bit remote bit) hB.pone
  obtain ⟨h₁, b₁, e₁, hL₁⟩ := hL.expectspace hacc (Int.le_of_lt hs) hpp hps hone (by simp)
  refine ⟨h₁, _, ?_, hL₁.deferPulse hp⟩
  have hk : (if rc6Bit remote bit = true then (2 : Int) else 1) = times (rc6Bit remote bit) := rfl
  unfold getBit expectone
  rw [if_pos hB.isBiphase, hk]
  dsimp only
  rw [if_pos hB.sone, e₁]

/-- **A zero is not taken for a one**: `expectspace` fails, and one sample back
    everything is still to be heard. -/
theorem Biphase.back (hB : Biphase remote) (hsep : Separated remote) {x y z : Int}
    (hd : HalfDeferred remote pp ps) (hx : x = remote.pzero ∨ x = 2 * remote.pzero)
    (hz : z = remote.sone ∨ z = 2 * remote.sone)
    (hL : Listen (· = ·) w tail ((.pulse, x) :: (.space, y) :: ops) pp ps h b) :
    ∃ b', expectspace remote z b = (false, b') ∧ View w h pp ps (ungetRecBuffer 1 b') := by
  obtain ⟨⟨hpp, hps, hone⟩, hpulse⟩ := hd
  have hx0 : 0 < x := by
    have h := hB.pzero
    rcases hx with e | e <;> omega
  unfold expectspace
  by_cases hp : 0 < pp
  · -- a pulse is deferred, and half a zero makes it longer
    have h0 : ps = 0 := by omega
    subst h0
    have hh := hL.heard
    rw [pend_pulse hp] at hh
    obtain ⟨d, h', rfl, hh'⟩ := hh.split_eq rfl
    obtain ⟨d', h'', e, hdx, -⟩ := hh'.split_ne (by simp)
    obtain ⟨rfl, rfl⟩ : d = d' ∧ h' = h'' := by simpa using e
    have hdx' : d = x := hdx
    subst hdx'
    obtain ⟨b₁, hnext, hv₁⟩ := hL.view.nextPulse
    have hrej : expect remote (pp + d) pp = false := by
      refine hsep.pulse pp ?_ d hx
      rcases hpulse with h0 | h0
      · omega
      · exact h0
    have hne : pp + d ≠ 0 := by omega
    have hsync : syncPendingPulse remote b = (false, b₁) := by
      unfold syncPendingPulse
      rw [hL.view.pendingp, if_pos hp, hnext]
      simp [hne, hv₁.pendingp, hrej]
    rw [hsync]
    exact ⟨b₁, rfl, hv₁.unget1 hL.view.endsWith (hL.view.sound _ List.mem_cons_self)⟩
  · have h0 : pp = 0 := by omega
    subst h0
    rw [syncPendingPulse_none (by rw [hL.view.pendingp])]
    by_cases hs : 0 < ps
    · -- a space is deferred, and nothing is left of it for a one
      have hh := hL.heard
      rw [pend_space hs] at hh
      obtain ⟨d, h', rfl, hdx, -⟩ := hh.split_ne (by simp)
      have hdx' : d = ps := hdx
      subst hdx'
      obtain ⟨b₁, hnext, hv₁⟩ := hL.view.nextSpace
      have hne : d ≠ 0 := by omega
      refine ⟨b₁, ?_, hv₁.unget1 hL.view.endsWith (hL.view.sound _ List.mem_cons_self)⟩
      simp [hnext, hne, hv₁.pendings, hs, hsep.space z hz]
    · have h0 : ps = 0 := by omega
      subst h0
      obtain ⟨d, h', rfl, -, -⟩ := hL.heard.split_ne (by simp)
      obtain ⟨b₁, hnext, hv₁⟩ := hL.view.nextSpace
      refine ⟨b₁, ?_, hv₁.unget1 hL.view.endsWith (hL.view.sound _ List.mem_cons_self)⟩
      simp [hnext]

/-- **A zero is heard**, and its space deferred. -/
theorem Biphase.zero (hB : Biphase remote) (hacc : Accepts remote (· = ·))
    (hsep : Separated remote) (bit : Int) (hd : HalfDeferred remote pp ps)
    (hL : Listen (· = ·) w tail ((.pulse, times (rc6Bit remote bit) * remote.pzero) ::
      (.space, times (rc6Bit remote bit) * remote.szero) :: ops) pp ps h b) :
    ∃ h' b', getBit remote bit b = (some false, b') ∧
      Listen (· = ·) w tail ops 0 (times (rc6Bit remote bit) * remote.szero) h' b' := by
  have hp := times_mul_pos (rc6Bit remote bit) hB.pzero
  have hs := times_mul_pos (rc6Bit remote bit) hB.szero
  obtain ⟨b₁, e₁, hv₁⟩ := hB.back hsep hd (times_mul (rc6Bit remote bit) _)
    (times_mul (rc6Bit remote bit) _) hL
  obtain ⟨⟨hpp, hps, hone⟩, -⟩ := hd
  have hL₁ : Listen (· = ·) w tail _ pp ps h (ungetRecBuffer 1 b₁) := ⟨hv₁, hL.heard⟩
  obtain ⟨h₂, b₂, e₂, hL₂⟩ := hL₁.expectpulse hacc (Int.le_of_lt hp) hpp hps hone (by simp)
  refine ⟨h₂, _, ?_, hL₂.deferSpace hs⟩
  have hk : (if rc6Bit remote bit = true then (2 : Int) else 1) = times (rc6Bit remote bit) := rfl
  unfold getBit expectone expectzero
  simp only [hB.isBiphase, if_true, hk, if_pos hB.sone, e₁, e₂]

/-- **Biphase frames are heard bit by bit.** -/
theorem Biphase.bitCoder (hB : Biphase remote) (hacc : Accepts remote (· = ·))
    (hsep : Separated remote) :
    BitCoder remote (· = ·) w tail (fun _ => True) (HalfDeferred remote) := by
  refine ⟨hacc, hB.bitCoded, fun h => h.1, fun h1 h2 => ⟨h1, ?_⟩, fun _ _ _ => trivial,
    fun _ _ => trivial, trivial, ?_⟩
  · exact h2.imp id .inl
  · rintro bit one ops pp ps h b hd - hL
    rw [hB.symbol] at hL
    cases one with
    | true =>
      obtain ⟨h', b', e, hL'⟩ := hB.one hacc bit hd.1 hL
      have hp := times_mul_pos (rc6Bit remote bit) hB.pone
      refine ⟨h', b', _, 0, e, ⟨⟨Int.le_of_lt hp, Int.le_refl 0, .inr rfl⟩, ?_⟩, hL'⟩
      exact .inr (.inr (times_mul (rc6Bit remote bit) _))
    | false =>
      obtain ⟨h', b', e, hL'⟩ := hB.zero hacc hsep bit hd hL
      have hs := times_mul_pos (rc6Bit remote bit) hB.szero
      exact ⟨h', b', 0, _, e, ⟨⟨Int.le_refl 0, Int.le_of_lt hs, .inl rfl⟩, .inl rfl⟩, hL'⟩

theorem Biphase.positive_symbols (hB : Biphase remote) (bit : Int) (vs : List Bool) :
    Positive (symbols remote bit vs) := by
  induction vs generalizing bit with
  | nil => exact positive_nil
  | cons one vs ih =>
    refine Positive.append ?_ (ih (bit + 1))
    rw [hB.symbol]
    split
    · exact positive_cons (times_mul_pos _ hB.sone)
        (positive_cons (times_mul_pos _ hB.pone) positive_nil)
    · exact positive_cons (times_mul_pos _ hB.pzero)
        (positive_cons (times_mul_pos _ hB.szero) positive_nil)

end Biphase

/-! ## 2. The round trip -/

/-- **The round trip of biphase frames.** -/
theorem biphase_roundTrip (fuel fuel' : Nat) (remote : IrRemote) (code : IrNcode)
    (res : SendResult) (env : DecodeEnv) (b : Rbuf) (g₀ : Int)
    (hB : Biphase remote) (hT : Times remote) (hmin : remote.minRepeat = 0)
    (hflag : hasFlag remote NO_HEAD_REP = false)
    (hfront : hasHeader remote = true ∨ remote.plead ≠ 0) (htol : Tolerant remote)
    (hsep : Separated remote) (hw : Within remote remote.preData code.code remote.postData)
    (hsingle : Single code) (hsend : initSend fuel remote code 0 = some res)
    (hret : res.ret = true) (hres : Receivable res.buf) (hg₀ : 0 < g₀ ∧ g₀ ≤ PULSE_MASK)
    (henv : Fresh env) (hb : b.data ++ b.input = fed g₀ res.buf)
    (hcap : b.data.length ≤ RBUF_SIZE) :
    ∃ d b', receiveDecode fuel' env remote b = some (some d, remote, b') ∧
      d.pre = remote.preData ∧ d.code = code.code ∧ d.post = remote.postData := by
  have hacc := accepts_eq htol
  have hbc := hB.bitCoded
  have hcount := hw.count
  refine receive_sent (fun _ _ => True)
    (fun w g => (hB.bitCoder hacc hsep).coder hw.toWidths)
    (fun w g => heardHeader hacc hbc.rcmm hbc.bo fun _ hf => ?_) hsingle hB.notRaw hbc.rcmm
    hB.toggle hmin hT htol hw ?_ ?_ hsend hret hres hg₀ henv hb hcap fuel'
  · rw [hflag] at hf
    simp at hf
  · refine positive_frame _ _ _ hT.plead hT.ptrail fun hs value => ?_
    obtain ⟨h1, h2, h3⟩ := hs.bounds hw.toWidths
    rw [dataSignal_symbols hbc (by omega) value h1 h2 h3]
    exact hB.positive_symbols _ _
  · by_cases hh : hasHeader remote = true
    · exact PulseFirst.append (.inr (headerSignal_pulseFirst hh))
        fun h => absurd h (headerSignal_pulseFirst hh).ne_nil
    · refine PulseFirst.append (.inl (if_neg hh)) fun _ => ?_
      have hlead : remote.plead ≠ 0 := hfront.resolve_left hh
      unfold frameOps leadSignal
      rw [if_pos hlead]
      exact pulseFirst_cons _ _

/-- An RC5 remote with a lead pulse. -/
def rc5Remote : IrRemote :=
  { name := "rc5", flags := RC5, bits := 3, eps := 30, aeps := 100, plead := 889, pone := 889,
    sone := 889, pzero := 889, szero := 889, gap := 100000 }

def rc5Code : IrNcode := { name := "KEY_6", code := 6 }

/-- The bits 1, 1, 0 of an RC5 remote are sent and received. -/
theorem biphase_roundTrip_rc5Remote :
    ∃ d b', receiveDecode 0 {} rc5Remote
        { input := fed 100000 ((initSend 1 rc5Remote rc5Code 0).get (by decide)).buf } =
        some (some d, rc5Remote, b') ∧
      d.pre = rc5Remote.preData ∧ d.code = rc5Code.code ∧ d.post = rc5Remote.postData :=
  biphase_roundTrip 1 0 rc5Remote rc5Code _ {} _ 100000
    ⟨.inl (by decide), rfl, rfl, by decide, by decide, by decide, by decide⟩
    ⟨by decide, by decide, by decide, by decide, by decide⟩ rfl (by decide) (.inr (by decide))
    (.inl (by decide)) ⟨by rintro x (rfl | rfl | rfl) y (rfl | rfl) <;> decide,
      by rintro y (rfl | rfl) <;> decide⟩
    ⟨⟨by decide, by decide, by decide, by decide⟩, by decide, by decide, by decide⟩ ⟨rfl, rfl⟩
    (Option.some_get _).symm (by decide) ⟨by decide, by decide⟩ ⟨by decide, by decide⟩
    ⟨by decide, rfl, rfl⟩ rfl (by decide)

/-- `rc5Remote` with tolerances below 0. -/
def rc5Strict : IrRemote := { rc5Remote with eps := -1, aeps := -1 }

/-- `rc5Remote` with a lead pulse that does not fit the 24 bits of a sample. -/
def rc5Long : IrRemote := { rc5Remote with eps := 0, plead := 0x02000000 }

/-- No length is accepted where half a bit more or less was sent. -/
theorem rc5Strict_apart (x y : Int) (hx : 0 ≤ x) (hy : y = 889 ∨ y = 2 * 889) :
    expect rc5Strict (x + y) x = false ∧ expect rc5Strict x (x + y) = false := by
  have key (e : Int) (he : 0 ≤ e) : (e * rc5Strict.eps).tdiv 100 ≤ 0 := by
    show (e * -1).tdiv 100 ≤ 0
    rw [Int.mul_neg, Int.mul_one, Int.neg_tdiv]
    have := Int.tdiv_nonneg he (by decide : (0 : Int) ≤ 100)
    omega
  have h1 := key x hx
  have h2 := key (x + y) (by omega)
  have ha : rc5Strict.aeps = -1 := rfl
  simp only [expect, ha, Bool.or_eq_false_iff, decide_eq_false_iff_not]
  omega

theorem rc5Long_apart (x y : Int) (hy : y = 889 ∨ y = 2 * 889) :
    expect rc5Long (x + y) x = false ∧ expect rc5Long x (x + y) = false := by
  have key (e : Int) : (e * rc5Long.eps).tdiv 100 = 0 := by
    show (e * 0).tdiv 100 = 0
    rw [Int.mul_zero, Int.zero_tdiv]
  have ha : rc5Long.aeps = 100 := rfl
  simp only [expect, key, ha, Bool.or_eq_false_iff, decide_eq_false_iff_not]
  omega

/-- The remote tells its half bits of 889 apart, yet its frame for `rc5Code` is
    sent and not received. -/
def Unreceived (remote : IrRemote) : Prop :=
  Biphase remote ∧ Times remote ∧ remote.minRepeat = 0 ∧ hasFlag remote NO_HEAD_REP = false ∧
  remote.plead ≠ 0 ∧
  (∀ x y, 0 ≤ x → (y = 889 ∨ y = 2 * 889) →
    expect remote (x + y) x = false ∧ expect remote x (x + y) = false) ∧
  Within remote remote.preData rc5Code.code remote.postData ∧ Single rc5Code ∧ Fresh {} ∧
  ∃ res, initSend 1 remote rc5Code 0 = some res ∧ res.ret = true ∧
    res.buf.data.length + 1 ≤ RBUF_SIZE ∧
    ∃ b', receiveDecode 0 {} remote { input := fed 100000 res.buf } = some (none, remote, b')

/-- **Two frames that are not received**: one under tolerances below 0, which
    accept no half bit for itself; and one whose lead pulse is too long for a
    sample. -/
theorem biphase_roundTrip_limits : Unreceived rc5Strict ∧ Unreceived rc5Long := by
  constructor
  · refine ⟨⟨.inl (by decide), rfl, rfl, by decide, by decide, by decide, by decide⟩,
      ⟨by decide, by decide, by decide, by decide, by decide⟩, rfl, by decide, by decide,
      fun x y hx hy => rc5Strict_apart x y hx hy,
      ⟨⟨by decide, by decide, by decide, by decide⟩, by decide, by decide, by decide⟩, ⟨rfl, rfl⟩,
      ⟨by decide, rfl, rfl⟩, _, rfl, by decide, by decide, _, rfl⟩
  · refine ⟨⟨.inl (by decide), rfl, rfl, by decide, by decide, by decide, by decide⟩,
      ⟨by decide, by decide, by decide, by decide, by decide⟩, rfl, by decide, by decide,
      fun x y _ hy => rc5Long_apart x y hy,
      ⟨⟨by decide, by decide, by decide, by decide⟩, by decide, by decide, by decide⟩, ⟨rfl, rfl⟩,
      ⟨by decide, rfl, rfl⟩, _, rfl, by decide, by decide, _, rfl⟩

end WinLirc
