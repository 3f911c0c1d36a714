/-
  File:      WinLirc/Decode.lean
  Subject:   `receive_decode` on one frame that is heard.

  The space in front of the frame is taken by `sync_rec_buffer`, which starts
  `sum` anew (`View.sync`); the frame then is heard part by part
  (`Coder.decodeFrame`), and the gap behind it is looked at, not taken. So
  `receive_decode` answers the values of the frame and leaves the read
  position at its gap (`Coder.receive`).

  `Coder.roundTrip` is the case where the receiver gets exactly what the
  sender has put into its buffer.
-/
import WinLirc.Frame
import WinLirc.Transmission

namespace WinLirc

open Signal

/-! ## 1. The space in front -/

/-- What the hardware delivers: a space of `g`, the signal `h`, the rest. -/
def arrival (g : Int) (h : List Emission) (extra : List Int) : Wire :=
  ⟨sample (.space, g) :: h.map sample, extra, total h⟩

/-- A receive buffer in front of its first sample. -/
theorem View.start {g : Int} {h : List Emission} {extra : List Int} {b : Rbuf} (bi : Bool)
    (hb : b.data ++ b.input = (arrival g h extra).tape ++ extra) (hroom : h.length + 1 ≤ RBUF_SIZE)
    (hcap : b.data.length ≤ RBUF_SIZE) (hs : Sound ((.space, g) :: h)) :
    View { arrival g h extra with sum := g + total h } ((.space, g) :: h) 0 0
      { rewindRecBuffer b with isBiphase := bi } := by
  refine ⟨hb, ⟨[], rfl, rfl, Nat.zero_le _⟩, ?_, hcap, hs, rfl, rfl, ?_⟩
  · simpa [arrival] using hroom
  · rw [total_cons]
    show 0 + (g + total h) = g + total h
    omega

/-- The space is long enough for the gap of the frame decoded before. -/
def Synced (lastRemote : Option IrRemote) (g : Int) : Prop :=
  ∀ last, lastRemote = some last → expectAtLeast last g last.minRemainingGap = true

theorem syncLoop_of_expect {last : IrRemote} {g : Int}
    (h : expectAtLeast last g last.minRemainingGap = true) (n : Nat) (b : Rbuf) :
    syncLoop last n g b = (g, b) := by
  unfold syncLoop
  rw [if_pos h]

/-- **The space in front is taken**, and the time of the frame starts. -/
theorem View.sync {remote : IrRemote} {lastRemote : Option IrRemote} {g : Int}
    {h : List Emission} {extra : List Int} {b : Rbuf}
    (hv : View { arrival g h extra with sum := g + total h } ((.space, g) :: h) 0 0 b)
    (hsync : Synced lastRemote g) (htm : lastRemote = none ∨ remote.toggleMask = 0) :
    ∃ b' : Rbuf, syncRecBuffer lastRemote remote b = (g, remote, { b' with sum := 0 }) ∧
      View (arrival g h extra) h 0 0 { b' with sum := 0 } := by
  obtain ⟨b', hnext, hv'⟩ := hv.nextSpace
  have hg := (hv.sound (.space, g) List.mem_cons_self).1
  have hne : g ≠ 0 := by omega
  refine ⟨b', ?_, hv'.tape, hv'.suffix, hv'.room, hv'.cap, hv'.sound, hv'.pendingp, hv'.pendings, ?_⟩
  · unfold syncRecBuffer
    rw [hnext]
    simp only [if_true, if_neg hne]
    cases lastRemote with
    | none => rfl
    | some last =>
      have htm' : remote.toggleMask = 0 := htm.resolve_left (by simp)
      dsimp only
      split
      · rfl
      · simp [syncLoop_of_expect (hsync last rfl), hne, hasToggleMask, htm']
  · show 0 + total h = total h
    omega

/-! ## 2. One frame -/

section Receive

variable {remote : IrRemote} {acc : Int → Int → Prop} {May : List Emission → Prop}
  {Def : Int → Int → Prop}

/-- **The header of a frame is heard**, where no repeat frame is expected. -/
def HeardHeader (remote : IrRemote) (acc : Int → Int → Prop) (w : Wire) (tail ops : List Emission)
    (sync : Int) : Prop :=
  ∀ h b, Listen acc w tail (headerSignal remote ++ ops) 0 0 h b →
    ∃ h' b' ps, frontHeader remote sync b = (.frame sync (hasHeader remote), b') ∧ 0 ≤ ps ∧
      Listen acc w tail ops 0 ps h' b'

/-- **`receive_decode` answers the frame it hears** behind the front. -/
theorem Coder.receive_behind {g₀ g : Int} {h h₂ : List Emission} {extra : List Int} {ps₂ : Int}
    (hc : Coder remote acc (arrival g₀ h extra) [(.space, g)] May Def) (env : DecodeEnv)
    (hmode : isSampleMode env.recMode = true) (hraw : isRaw remote = false) {pre code post : IrCode}
    (hw : Within remote pre code post) (hlead : 0 ≤ remote.plead) (htrail : 0 ≤ remote.ptrail)
    (hgap : ∀ ps, 0 ≤ ps → (remote.ptrail ≠ 0 → ps = 0) → expectAtLeast remote (ps + g)
      (gapAfterFrame remote (total h - headCut remote (hasHeader remote) - (ps + g))) = true)
    {b b₂ : Rbuf} (hfront : decodeFront env remote b = (.frame g₀ (hasHeader remote), remote, b₂))
    (hps₂ : 0 ≤ ps₂)
    (hL₂ : Listen acc (arrival g₀ h extra) [(.space, g)] (frameOps remote pre code post) 0 ps₂ h₂ b₂)
    (fuel : Nat) :
    ∃ b' ps, receiveDecode fuel env remote b =
        some (some (decodedFrame env remote g₀ (pre, code, post) b'), remote, b') ∧
      0 ≤ ps ∧ (remote.ptrail ≠ 0 → ps = 0) ∧
      View ((arrival g₀ h extra).less (headCut remote (hasHeader remote))) [(.space, ps + g)]
        0 ps b' := by
  obtain ⟨b₃, ps₃, e₃, hps₃, ht₃, hv₃⟩ := hc.decodeFrame fuel (hasHeader remote) hw hlead htrail
    (fun ps h1 h2 => by simpa [arrival] using hgap ps h1 h2) hps₂ hL₂
  refine ⟨b₃, ps₃, ?_, hps₃, ht₃, hv₃⟩
  have hcode : env.recMode ≠ LIRC_MODE_LIRCCODE := by
    intro h
    rw [h] at hmode
    simp [isSampleMode, LIRC_MODE_LIRCCODE, LIRC_MODE_MODE2, LIRC_MODE_PULSE, LIRC_MODE_RAW] at hmode
  unfold receiveDecode
  rw [if_pos hmode, hfront]
  dsimp only
  unfold decodeRest
  rw [if_neg (by simp [hraw]), if_neg hcode, e₃]

/-- **`receive_decode` answers the frame it hears**, its read position at the
    gap. -/
theorem Coder.receive {g₀ g : Int} {h : List Emission} {extra : List Int}
    (hc : Coder remote acc (arrival g₀ h extra) [(.space, g)] May Def) (env : DecodeEnv)
    (hmode : isSampleMode env.recMode = true) (hsync : Synced env.lastRemote g₀)
    (hrep : (hasRepeat remote && env.lastIsRemote) = false) (hraw : isRaw remote = false)
    (htm : env.lastRemote = none ∨ remote.toggleMask = 0) {pre code post : IrCode}
    (hw : Within remote pre code post) (hlead : 0 ≤ remote.plead) (htrail : 0 ≤ remote.ptrail)
    (hhead : HeardHeader remote acc (arrival g₀ h extra) [(.space, g)]
      (frameOps remote pre code post) g₀)
    (hgap : ∀ ps, 0 ≤ ps → (remote.ptrail ≠ 0 → ps = 0) → expectAtLeast remote (ps + g)
      (gapAfterFrame remote (total h - headCut remote (hasHeader remote) - (ps + g))) = true)
    (hheard : Heard acc [(.space, g)]
      (headerSignal remote ++ frameOps remote pre code post) h)
    {b : Rbuf} (hb : b.data ++ b.input = (arrival g₀ h extra).tape ++ extra)
    (hroom : h.length + 1 ≤ RBUF_SIZE) (hcap : b.data.length ≤ RBUF_SIZE)
    (hs : Sound ((.space, g₀) :: h)) (fuel : Nat) :
    ∃ b' ps, receiveDecode fuel env remote b =
        some (some (decodedFrame env remote g₀ (pre, code, post) b'), remote, b') ∧
      0 ≤ ps ∧ (remote.ptrail ≠ 0 → ps = 0) ∧
      View ((arrival g₀ h extra).less (headCut remote (hasHeader remote))) [(.space, ps + g)]
        0 ps b' := by
  obtain ⟨b₁, e₁, hv₁⟩ := (View.start (isBiphase remote) hb hroom hcap hs).sync hsync htm
  obtain ⟨h₂, b₂, ps₂, e₂, hps₂, hL₂⟩ := hhead h _ ⟨hv₁, hheard⟩
  have hne : g₀ ≠ 0 := by
    have h0 := (hs (.space, g₀) List.mem_cons_self).1
    have h1 : ((Level.space, g₀) : Emission).2 = g₀ := rfl
    omega
  refine hc.receive_behind env hmode hraw hw hlead htrail hgap ?_ hps₂ hL₂ fuel
  unfold decodeFront
  simp only [e₁, if_neg hne, hrep, Bool.false_eq_true, if_false, e₂]

/-! ## 3. What the sender has sent -/

/-- The times of a remote that stand for themselves: none is negative. -/
structure Times (remote : IrRemote) : Prop where
  phead : 0 ≤ remote.phead
  shead : 0 ≤ remote.shead
  plead : 0 ≤ remote.plead
  ptrail : 0 ≤ remote.ptrail
  gap : 0 < minGap remote

/-- The kind of a first frame. -/
theorem slotKind_first {remote : IrRemote} (hraw : isRaw remote = false) (t : Int)
    (part : IrCode) : slotKind remote t part false = .code part false t := by
  simp [slotKind, hraw]

/-- **The gap the receiver expects** is no longer than the one that was sent,
    whatever the receiver has deferred into it. -/
theorem gap_suffices (ht : Tolerant remote) (hT : Times remote) (hrcmm : isRcmm remote = false)
    {s : List Emission} {part : IrCode} {t g : Int}
    (hk : kindSignal remote (.code part false t) = s) (hpos : Positive s) (hs : PulseFirst s)
    (hg : gapBehind remote (.code part false t) = some g) {ps : Int} (hps : 0 ≤ ps) :
    expectAtLeast remote (ps + g)
      (gapAfterFrame remote (total s - headCut remote (hasHeader remote) - ps)) = true := by
  obtain ⟨-, htot, hopen, -⟩ := flushed_cases hpos hs
  have h1 := hT.phead
  have h2 := hT.shead
  have hmin := hT.gap
  unfold gapBehind at hg
  rw [hk] at hg
  have hcut : headCut remote (hasHeader remote) ≤ kindCut remote (.code part false t) := by
    have hflag : hasFlag remote CONST_LENGTH = isConst remote := rfl
    show headCut remote (hasHeader remote) ≤ sumCut remote false
    unfold headCut sumCut
    rw [hflag]
    by_cases hf : (hasFlag remote NO_HEAD_REP && isConst remote) = true
    · rw [Bool.not_false, Bool.true_and, if_pos hf]
      split <;> omega
    · have hn : ¬ (hasHeader remote && isConst remote && hasFlag remote NO_HEAD_REP) = true := by
        rw [Bool.and_assoc, Bool.and_comm (isConst remote)]
        simp [hf]
      rw [Bool.not_false, Bool.true_and, if_neg hf, if_neg hn]
  unfold kindGap at hg
  rw [if_neg (by simp)] at hg
  unfold gapAfterFrame
  rw [if_neg (by simp [hrcmm])]
  by_cases hconst : isConst remote = true
  · rw [if_pos hconst] at hg ⊢
    split at hg
    · have hgv : minGap remote - (total (flushed s) - kindCut remote (.code part false t)) = g := by
        simpa using hg
      unfold restOfGap
      split
      · exact expectAtLeast_of_le ht (by omega) (by omega)
      · exact expectAtLeast_of_le ht (Int.le_refl 0) (by omega)
    · simp at hg
  · rw [if_neg hconst] at hg ⊢
    have hgv : minGap remote = g := by simpa using hg
    exact expectAtLeast_of_le ht (by omega) (by omega)

/-- **A frame in its normal form** is heard, every time for itself. -/
theorem Coder.receive_coalesce {g₀ g : Int} {s : List Emission} (extra : List Int)
    {pre code post : IrCode} (hs : s = headerSignal remote ++ frameOps remote pre code post)
    (hc : Coder remote (· = ·) (arrival g₀ (coalesce (s ++ [(.space, g)])) extra) [(.space, g)]
      May Def)
    (env : DecodeEnv) (hmode : isSampleMode env.recMode = true) (hsync : Synced env.lastRemote g₀)
    (hrep : (hasRepeat remote && env.lastIsRemote) = false) (hraw : isRaw remote = false)
    (htm : env.lastRemote = none ∨ remote.toggleMask = 0) (hw : Within remote pre code post)
    (hlead : 0 ≤ remote.plead) (htrail : 0 ≤ remote.ptrail)
    (hhead : HeardHeader remote (· = ·) (arrival g₀ (coalesce (s ++ [(.space, g)])) extra)
      [(.space, g)] (frameOps remote pre code post) g₀)
    (hgap : ∀ ps, 0 ≤ ps → (remote.ptrail ≠ 0 → ps = 0) → expectAtLeast remote (ps + g)
      (gapAfterFrame remote (total s - headCut remote (hasHeader remote) - ps)) = true)
    (hpos : Positive s) (hg : 0 < g)
    {b : Rbuf} (hb : b.data ++ b.input =
      g₀ :: (coalesce (s ++ [(.space, g)])).map sample ++ extra)
    (hroom : (coalesce (s ++ [(.space, g)])).length + 1 ≤ RBUF_SIZE)
    (hcap : b.data.length ≤ RBUF_SIZE) (hg₀ : 0 < g₀ ∧ g₀ ≤ PULSE_MASK)
    (hmask : ∀ e ∈ coalesce (s ++ [(.space, g)]), e.2 ≤ PULSE_MASK) (fuel : Nat) :
    ∃ b' ps, receiveDecode fuel env remote b =
        some (some (decodedFrame env remote g₀ (pre, code, post) b'), remote, b') ∧
      0 ≤ ps ∧ (remote.ptrail ≠ 0 → ps = 0) ∧
      View ((arrival g₀ (coalesce (s ++ [(.space, g)])) extra).less
        (headCut remote (hasHeader remote))) [(.space, ps + g)] 0 ps b' := by
  have hpos' : Positive (s ++ [(.space, g)]) := by
    intro e he
    rcases List.mem_append.mp he with he | he
    · exact hpos e he
    · rw [List.mem_singleton.mp he]
      exact hg
  have hsound : Sound ((.space, g₀) :: coalesce (s ++ [(.space, g)])) := by
    intro e he
    rcases List.mem_cons.mp he with rfl | he
    · exact hg₀
    · exact ⟨coalesce_pos hpos' e he, hmask e he⟩
  refine hc.receive env hmode hsync hrep hraw htm hw hlead htrail hhead (fun ps h1 h2 => ?_) ?_ hb
    hroom hcap hsound fuel
  · have htot : total (coalesce (s ++ [(Level.space, g)])) -
        headCut remote (hasHeader remote) - (ps + g) =
        total s - headCut remote (hasHeader remote) - ps := by
      rw [total_coalesce, total_append, total_cons, total_nil]
      show total s + (g + 0) - _ - (ps + g) = _
      omega
    rw [htot]
    exact hgap ps h1 h2
  · rw [← hs]
    exact heard_coalesce (alternating_singleton _) fun _ _ => rfl

end Receive

/-! ## 4. Frames that start with a pulse -/

theorem PulseFirst.append {s t : List Emission} (hs : s = [] ∨ PulseFirst s)
    (ht : s = [] → PulseFirst t) : PulseFirst (s ++ t) := by
  rcases hs with rfl | hs
  · exact ht rfl
  · cases s with
    | nil => simp [PulseFirst] at hs
    | cons e s => exact hs

theorem Positive.append {s t : List Emission} (hs : Positive s) (ht : Positive t) :
    Positive (s ++ t) := fun e he => (List.mem_append.mp he).elim (hs e) (ht e)

theorem positive_nil : Positive [] := fun e he => by simp at he

theorem positive_cons {l : Level} {d : Int} {s : List Emission} (hd : 0 < d) (hs : Positive s) :
    Positive ((l, d) :: s) := fun e he => by
  rcases List.mem_cons.mp he with rfl | he
  · exact hd
  · exact hs e he

theorem pulseFirst_cons (d : Int) (s : List Emission) : PulseFirst ((.pulse, d) :: s) := rfl

section Parts

variable {remote : IrRemote} {pre code post : IrCode}

theorem headerSignal_pulseFirst (h : hasHeader remote = true) : PulseFirst (headerSignal remote) := by
  rw [headerSignal, if_pos h]
  rfl

theorem positive_pairSignal (p s : Int) : Positive (pairSignal p s) := by
  unfold pairSignal
  split
  · rename_i h
    exact positive_cons h.1 (positive_cons h.2 positive_nil)
  · exact positive_nil

theorem pairSignal_cases (p s : Int) : pairSignal p s = [] ∨ PulseFirst (pairSignal p s) := by
  unfold pairSignal
  split
  · exact .inr (pulseFirst_cons _ _)
  · exact .inl rfl

/-- **The parts of a frame last** if the values of its fields do. -/
theorem positive_frame (pre code post : IrCode) (hlead : 0 ≤ remote.plead)
    (htrail : 0 ≤ remote.ptrail)
    (hdata : ∀ {width bit}, Slot remote width bit → ∀ value,
      Positive (dataSignal remote value width bit)) :
    Positive (headerSignal remote ++ frameOps remote pre code post) := by
  have hheader : Positive (headerSignal remote) := by
    unfold headerSignal
    split
    · rename_i h
      obtain ⟨hp, hs⟩ : 0 < remote.phead ∧ 0 < remote.shead := by simpa [hasHeader] using h
      exact positive_cons hp (positive_cons hs positive_nil)
    · exact positive_nil
  have hfoot : Positive (footSignal remote) := by
    unfold footSignal
    split
    · rename_i h
      obtain ⟨hp, hs⟩ : 0 < remote.pfoot ∧ 0 < remote.sfoot := by simpa [hasFoot] using h
      exact positive_cons hs (positive_cons hp positive_nil)
    · exact positive_nil
  have hleads : Positive (leadSignal remote) := by
    unfold leadSignal
    split
    · exact positive_cons (by omega) positive_nil
    · exact positive_nil
  have htrails : Positive (trailSignal remote) := by
    unfold trailSignal
    split
    · exact positive_cons (by omega) positive_nil
    · exact positive_nil
  have hpre : Positive (preOps remote pre) := by
    unfold preOps
    split
    · exact (hdata .pre pre).append (positive_pairSignal _ _)
    · exact positive_nil
  have hpost : Positive (postOps remote post) := by
    unfold postOps
    split
    · exact (positive_pairSignal _ _).append (hdata .post post)
    · exact positive_nil
  exact hheader.append (hleads.append (hpre.append ((hdata .code code).append
    (hpost.append (htrails.append hfoot)))))

theorem length_pairSignal (p s : Int) : (pairSignal p s).length ≤ 2 := by
  unfold pairSignal
  split <;> simp

/-- **A frame is short**: at most 63 bits and the parts around them. -/
theorem length_frame (hw : Widths remote)
    (hdata : ∀ {width bit}, Slot remote width bit → ∀ value,
      (dataSignal remote value width bit).length ≤ 2 * width.toNat) (pre code post : IrCode) :
    (headerSignal remote ++ frameOps remote pre code post).length ≤ 2 * 63 + 10 := by
  obtain ⟨h1, h2, h3, h4⟩ := hw
  unfold bitCount at h4
  have hheader : (headerSignal remote).length ≤ 2 := by
    unfold headerSignal
    split <;> simp
  have hlead : (leadSignal remote).length ≤ 1 := by
    unfold leadSignal
    split <;> simp
  have htrail : (trailSignal remote).length ≤ 1 := by
    unfold trailSignal
    split <;> simp
  have hfoot : (footSignal remote).length ≤ 2 := by
    unfold footSignal
    split <;> simp
  have hpre : (preOps remote pre).length ≤ 2 * remote.preDataBits.toNat + 2 := by
    have hd := hdata .pre pre
    have hp := length_pairSignal remote.preP remote.preS
    unfold preOps
    split
    · rw [List.length_append]
      omega
    · simp
  have hpost : (postOps remote post).length ≤ 2 * remote.postDataBits.toNat + 2 := by
    have hd := hdata .post post
    have hp := length_pairSignal remote.postP remote.postS
    unfold postOps
    split
    · rw [List.length_append]
      omega
    · simp
  have hcode : (codeOps remote code).length ≤ 2 * remote.bits.toNat := hdata .code code
  unfold frameOps
  simp only [List.length_append]
  omega

theorem total_nonneg {s : List Emission} (h : NonNeg s) : 0 ≤ total s := by
  induction s with
  | nil => exact Int.le_refl 0
  | cons e s ih =>
    rw [total_cons]
    exact Int.add_nonneg (h e List.mem_cons_self) (ih fun f hf => h f (List.mem_cons_of_mem e hf))

/-- What the receiver takes off is the time of the header. -/
theorem headCut_le_total
    (hpos : Positive (headerSignal remote ++ frameOps remote pre code post)) :
    headCut remote (hasHeader remote) ≤
      total (headerSignal remote ++ frameOps remote pre code post) := by
  have h0 := total_nonneg hpos.nonNeg
  have h1 : 0 ≤ total (frameOps remote pre code post) :=
    total_nonneg fun e he => hpos.nonNeg e (List.mem_append_right _ he)
  unfold headCut
  split
  · rename_i h
    obtain ⟨⟨hh, -⟩, -⟩ : (hasHeader remote = true ∧ isConst remote = true) ∧
        hasFlag remote NO_HEAD_REP = true := by simpa using h
    rw [total_append, headerSignal, if_pos hh]
    show _ ≤ remote.phead + (remote.shead + 0) + _
    omega
  · exact h0

/-- A gap no shorter than `min_gap` and the 1000 of RC-MM is long enough. -/
theorem gapAfterFrame_suffices (htol : Tolerant remote) {g sum : Int} (hsum : 0 ≤ sum)
    (hmin : 0 ≤ minGap remote) (hg : minGap remote ≤ g) (hg' : 1000 ≤ g) :
    expectAtLeast remote g (gapAfterFrame remote sum) = true := by
  unfold gapAfterFrame restOfGap
  split_ifs
  · exact expectAtLeast_of_le htol (by omega) (by omega)
  · exact expectAtLeast_of_le htol (by omega) (by omega)
  · exact expectAtLeast_of_le htol (Int.le_refl 0) (by omega)
  · exact expectAtLeast_of_le htol hmin hg

theorem PulseFirst.nextLevel {s : List Emission} (h : PulseFirst s) (tail : List Emission) :
    nextLevel s tail ≠ some .space := by
  rw [WinLirc.nextLevel, List.head?_append]
  unfold PulseFirst at h
  cases s with
  | nil => simp at h
  | cons e s =>
    have he : e.1 = .pulse := by simpa using h
    simp [he]

/-- The values of a remote start with a pulse, and a field of no width has no
    value. -/
structure PulseData (remote : IrRemote) : Prop where
  first : ∀ {width bit}, Slot remote width bit → 0 < width → ∀ value,
    PulseFirst (dataSignal remote value width bit)
  none : ∀ {width bit}, Slot remote width bit → ¬ 0 < width → ∀ value,
    dataSignal remote value width bit = []

/-- **A frame with a bit or a trailing pulse** starts with a pulse, even
    without its header. -/
theorem pulseFirst_frameOps (pre code post : IrCode) (hd : PulseData remote)
    (hsome : 0 < bitCount remote ∨ remote.ptrail ≠ 0) :
    PulseFirst (frameOps remote pre code post) := by
  unfold bitCount at hsome
  refine PulseFirst.append ?_ fun _ => PulseFirst.append ?_ fun hpre => PulseFirst.append ?_
    fun hcode => PulseFirst.append ?_ fun hpost => PulseFirst.append ?_ fun htrail => ?_
  · unfold leadSignal
    split
    · exact .inr rfl
    · exact .inl rfl
  · unfold preOps
    split
    · rename_i h
      exact .inr (PulseFirst.append (.inr (hd.first .pre (by simpa [hasPre] using h) pre))
        fun hn => absurd hn (hd.first .pre (by simpa [hasPre] using h) pre).ne_nil)
    · exact .inl rfl
  · by_cases hb : 0 < remote.bits
    · exact .inr (hd.first .code hb code)
    · exact .inl (hd.none .code hb code)
  · unfold postOps
    split
    · rename_i h
      have hf := hd.first .post (by simpa [hasPost] using h) post
      exact .inr (PulseFirst.append (pairSignal_cases _ _) fun _ => hf)
    · exact .inl rfl
  · unfold trailSignal
    split
    · exact .inr rfl
    · exact .inl rfl
  · -- then there is neither a bit nor a trailing pulse
    exfalso
    have h0 : remote.ptrail = 0 := by
      by_contra h
      simp [trailSignal, h] at htrail
    have h1 : ¬ 0 < remote.preDataBits := fun h => by
      rw [preOps, if_pos (by simpa [hasPre] using h)] at hpre
      exact (hd.first .pre h pre).ne_nil (List.append_eq_nil_iff.mp hpre).1
    have h2 : ¬ 0 < remote.bits := fun h => (hd.first .code h code).ne_nil hcode
    have h3 : ¬ 0 < remote.postDataBits := fun h => by
      rw [postOps, if_pos (by simpa [hasPost] using h)] at hpost
      exact (hd.first .post h post).ne_nil (List.append_eq_nil_iff.mp hpost).2
    omega

/-- The header of a frame that goes on with a pulse is heard. -/
theorem heardHeader {acc : Int → Int → Prop} {w : Wire} {tail ops : List Emission}
    (hacc : Accepts remote acc) (hrcmm : isRcmm remote = false) (hbo : isBo remote = false)
    (hflag : hasHeader remote = true → hasFlag remote NO_HEAD_REP = true →
      PulseFirst ops ∧ ∀ d, acc d remote.shead → expect remote remote.shead d = true)
    (sync : Int) : HeardHeader remote acc w tail ops sync := by
  intro h b hL
  exact hL.frontHeader hacc sync hrcmm hbo fun h1 h2 =>
    ⟨(hflag h1 h2).1.nextLevel tail, (hflag h1 h2).2⟩

end Parts

/-! ## 5. Frames of pulses and spaces by turns -/

/-- Pulses and spaces by turns, a space last. -/
def Pairs (s : List Emission) : Prop := PolarFrom 0 s ∧ s.length % 2 = 0

theorem pairs_nil : Pairs [] := ⟨trivial, rfl⟩

theorem pairs_two (p s : Int) : Pairs [(.pulse, p), (.space, s)] :=
  ⟨⟨rfl, rfl, trivial⟩, by simp⟩

theorem Pairs.polarFrom {s t : List Emission} (hs : Pairs s) (ht : PolarFrom 0 t) :
    PolarFrom 0 (s ++ t) := by
  refine polarFrom_append.mpr ⟨hs.1, ?_⟩
  have he := hs.2
  exact (polarFrom_even (by omega)).mpr ht

theorem Pairs.append {s t : List Emission} (hs : Pairs s) (ht : Pairs t) : Pairs (s ++ t) := by
  refine ⟨hs.polarFrom ht.1, ?_⟩
  have h1 := hs.2
  have h2 := ht.2
  rw [List.length_append]
  omega

theorem pairs_pairSignal (p s : Int) : Pairs (pairSignal p s) := by
  unfold pairSignal
  split
  · exact pairs_two p s
  · exact pairs_nil

/-- Entries at their places alternate. -/
theorem alternating_of_polarFrom {n : Nat} {s : List Emission} (h : PolarFrom n s) :
    Alternating s := by
  induction s generalizing n with
  | nil => exact alternating_nil
  | cons e s ih =>
    cases s with
    | nil => exact alternating_singleton e
    | cons f s =>
      refine alternating_cons_cons.mpr ⟨?_, ih h.2⟩
      rw [h.1, h.2.1, rawLevel_succ]
      exact (Level.other_ne _).symm

/-- **A frame of pairs with a trailing pulse alternates**, up to the gap. -/
theorem polarFrom_frame {remote : IrRemote} (hlead : remote.plead = 0) (htrail : remote.ptrail ≠ 0)
    (hdata : ∀ {width bit}, Slot remote width bit → ∀ value,
      Pairs (dataSignal remote value width bit)) (pre code post : IrCode) (g : Int) :
    PolarFrom 0 (headerSignal remote ++ frameOps remote pre code post ++ [(.space, g)]) := by
  have hheader : Pairs (headerSignal remote) := by
    unfold headerSignal
    split
    · exact pairs_two _ _
    · exact pairs_nil
  have hpre : Pairs (preOps remote pre) := by
    unfold preOps
    split
    · exact (hdata .pre pre).append (pairs_pairSignal _ _)
    · exact pairs_nil
  have hpost : Pairs (postOps remote post) := by
    unfold postOps
    split
    · exact (pairs_pairSignal _ _).append (hdata .post post)
    · exact pairs_nil
  have hl : leadSignal remote = [] := by rw [leadSignal, if_neg (by simp [hlead])]
  unfold frameOps
  rw [hl, List.nil_append]
  simp only [List.append_assoc]
  refine hheader.polarFrom (hpre.polarFrom ((hdata .code code).polarFrom (hpost.polarFrom ?_)))
  rw [trailSignal, if_pos htrail]
  refine ⟨rfl, ?_⟩
  unfold footSignal
  split
  · exact ⟨rfl, rfl, rfl, trivial⟩
  · exact ⟨rfl, trivial⟩

/-! ## 6. What was sent is received -/

/-- A receiver of samples that has decoded nothing yet. -/
structure Fresh (env : DecodeEnv) : Prop where
  mode : isSampleMode env.recMode = true
  lastRemote : env.lastRemote = none
  lastIsRemote : env.lastIsRemote = false

theorem Fresh.synced {env : DecodeEnv} (h : Fresh env) (g : Int) : Synced env.lastRemote g := by
  intro last hl
  rw [h.lastRemote] at hl
  simp at hl

/-- The buffer holds entries that fit a sample, and leaves a place in the
    receive buffer for the space in front. -/
structure Receivable (b : Sbuf) : Prop where
  length : b.data.length + 1 ≤ RBUF_SIZE
  mask : ∀ e ∈ b.data, e.2 ≤ PULSE_MASK

/-- **What `init_send` sends once, `receive_decode` answers.** -/
theorem receive_sent {remote : IrRemote} {code : IrNcode} {fuel : Nat} {res : SendResult}
    (May : List Emission → List Emission → Prop) {Def : Int → Int → Prop}
    (hc : ∀ w g, Coder remote (· = ·) w [(.space, g)] (May [(.space, g)]) Def)
    (hhead : ∀ w g sync, HeardHeader remote (· = ·) w [(.space, g)]
      (frameOps remote remote.preData code.code remote.postData) sync)
    (hsingle : Single code) (hraw : isRaw remote = false) (hrcmm : isRcmm remote = false)
    (htm : remote.toggleMask = 0) (hmin : remote.minRepeat = 0) (hT : Times remote)
    (htol : Tolerant remote) (hw : Within remote remote.preData code.code remote.postData)
    (hpos : Positive (headerSignal remote ++
      frameOps remote remote.preData code.code remote.postData))
    (hfirst : PulseFirst (headerSignal remote ++
      frameOps remote remote.preData code.code remote.postData))
    (hsend : initSend fuel remote code 0 = some res) (hret : res.ret = true)
    (hres : Receivable res.buf) {g₀ : Int} (hg₀ : 0 < g₀ ∧ g₀ ≤ PULSE_MASK) {env : DecodeEnv}
    (henv : Fresh env) {b : Rbuf} (hb : b.data ++ b.input = fed g₀ res.buf)
    (hcap : b.data.length ≤ RBUF_SIZE) (fuel' : Nat) :
    ∃ d b', receiveDecode fuel' env remote b = some (some d, remote, b') ∧
      d.pre = remote.preData ∧ d.code = code.code ∧ d.post = remote.postData := by
  generalize hs : headerSignal remote ++
    frameOps remote remote.preData code.code remote.postData = s at *
  have hkind : kindSignal remote (.code code.code false remote.toggleMaskState) = s := by
    rw [kindSignal, codeSignal_atToggle, codeSignal_eq (by simp) (by simp), hs]
  have hnot : ¬ 0 < max remote.minRepeat 0 := by omega
  obtain ⟨g, hg, hdata⟩ := initSend_single hsingle (by simp [hasToggleMask, htm]) hraw
    (fun _ => hT.gap) hsend hret (slotKind_first hraw _ _).symm rfl (by rw [hkind]; exact hpos)
    (by rw [hkind]; exact hfirst) (fun h => absurd h hnot)
  rcases hdata with ⟨-, hdata⟩ | ⟨h, -⟩
  · rw [sentFrame, hkind] at hdata
    have hg0 : 0 < g := kindGap_pos (fun _ => hT.gap) hg
    have hmarked : fed g₀ res.buf = g₀ :: (coalesce (s ++ [(.space, g)])).map sample := by
      unfold fed
      rw [hdata, marked_of_polarFrom (polarFrom_of_alternating (alternating_coalesce _) ?_)]
      intro e he
      have hlev := coalesce_head_level (s ++ [(Level.space, g)])
      have hp : PulseFirst (s ++ [(.space, g)]) :=
        PulseFirst.append (.inr hfirst) fun h => absurd h hfirst.ne_nil
      rw [he, hp] at hlev
      simpa [rawLevel] using hlev
    rw [hmarked] at hb
    obtain ⟨b', ps, e, -⟩ := (hc _ g).receive_coalesce [] hs.symm env henv.mode
      (henv.synced g₀) (by simp [henv.lastIsRemote]) hraw (.inr htm) hw hT.plead hT.ptrail (hhead _ g g₀)
      (fun ps hps _ => gap_suffices htol hT hrcmm hkind hpos hfirst hg hps) hpos hg0
      (by rw [hb, List.append_nil]) (by rw [← hdata]; exact hres.length) hcap hg₀
      (by rw [← hdata]; exact hres.mask) fuel'
    exact ⟨_, b', e, rfl, rfl, rfl⟩
  · exact absurd h hnot

end WinLirc
