/-
  File:      WinLirc/NoisyFrame.lean
  Subject:   Frames within the tolerances, one behind the other.

  * `AtGap`: where `receive_decode` leaves the buffer, and what
    `clear_rec_buffer` makes of it;
  * `receive_noisy`: a space-encoded frame whose times lie in the tolerances is
    received, whatever the gap behind it is accepted for;
  * `View.notRepeat`: the attempt to read it as a repeat frame fails where its
    first pulse or space differs, and `exists_front` goes on from the start;
  * `receive_repeat`: a repeat frame is received.
-/
import WinLirc.SpaceEnc

namespace WinLirc

open Signal

/-! ## 1. The buffer behind a frame -/

/-- The buffer has read everything in front of the gap `g`; `extra` comes behind. -/
structure AtGap (b : Rbuf) (g : Int) (extra : List Int) : Prop where
  tape : ∃ past, past ≠ [] ∧ b.data ++ b.input = past ++ g :: extra ∧ b.rptr = past.length ∧
    past.length ≤ b.data.length
  cap : b.data.length ≤ RBUF_SIZE

theorem View.atGap {w : Wire} {g ps : Int} {b : Rbuf} (hv : View w [(.space, g)] 0 ps b)
    (hlen : 1 < w.tape.length) : AtGap b g w.extra := by
  obtain ⟨past, ht, hr, hle⟩ := hv.suffix
  refine ⟨⟨past, ?_, ?_, hr, hle⟩, hv.cap⟩
  · rintro rfl
    rw [ht] at hlen
    exact absurd hlen (Nat.lt_irrefl 1)
  · rw [hv.tape, ht, List.append_assoc]
    rfl

/-- **`clear_rec_buffer` keeps the gap**: it is the first sample of the next frame. -/
theorem AtGap.clear {b : Rbuf} {g : Int} {extra : List Int} (h : AtGap b g extra) {recMode : Nat}
    (hmode : recMode ≠ LIRC_MODE_LIRCCODE) :
    (clearRecBuffer recMode b).data ++ (clearRecBuffer recMode b).input = g :: extra ∧
      (clearRecBuffer recMode b).data.length ≤ RBUF_SIZE := by
  obtain ⟨past, hne, htape, hr, hle⟩ := h.tape
  have hpos : 0 < past.length := List.length_pos_of_ne_nil hne
  unfold clearRecBuffer rewindRecBuffer
  rw [if_neg hmode]
  dsimp only
  by_cases hlt : past.length < b.data.length
  · rw [if_pos ⟨by unfold Rbuf.wptr; omega, by omega⟩]
    dsimp only
    rw [hr, Int.toNat_natCast]
    constructor
    · rw [← List.drop_append_of_le_length hle, htape, List.drop_left]
    · have hcap := h.cap
      rw [List.length_drop]
      omega
  · have heq : b.data.length = past.length := by omega
    obtain ⟨-, hinput⟩ := List.append_inj htape heq
    rw [if_neg (by unfold Rbuf.wptr; omega), hinput]
    exact ⟨rfl, Nat.succ_le_succ (Nat.zero_le _)⟩

/-- Nothing was read yet: `clear_rec_buffer` reads the first sample. -/
theorem clear_empty {b : Rbuf} (hd : b.data = []) {g : Int} {extra : List Int} (hi : b.input = g :: extra)
    {recMode : Nat} (hmode : recMode ≠ LIRC_MODE_LIRCCODE) :
    (clearRecBuffer recMode b).data ++ (clearRecBuffer recMode b).input = g :: extra ∧
      (clearRecBuffer recMode b).data.length ≤ RBUF_SIZE := by
  unfold clearRecBuffer rewindRecBuffer
  rw [if_neg hmode, hi]
  dsimp only
  rw [if_neg]
  · exact ⟨rfl, Nat.succ_le_succ (Nat.zero_le _)⟩
  · unfold Rbuf.wptr
    rw [hd, List.length_nil]
    omega

/-! ## 2. A frame within the tolerances -/

section Noisy

variable {remote : IrRemote} {env : DecodeEnv} {b : Rbuf} {noisy extra : List Int} {g₀ g : Int}

/-- What is heard of a signal that ends in a pulse, and the gap behind it. -/
theorem exists_arrival (extra : List Int) {s : List Emission} (hpolar : PolarFrom 0 (s ++ [(.space, g)]))
    (hnoisy : List.Forall₂ (Expected remote) noisy (s.map Prod.snd)) (hmask : ∀ n ∈ noisy, n ≤ PULSE_MASK)
    (hg₀ : 0 < g₀ ∧ g₀ ≤ PULSE_MASK) (hg : 0 < g ∧ g ≤ PULSE_MASK) :
    ∃ t : List Emission, t.map Prod.snd = noisy ∧ Heard (Expected remote) [(.space, g)] s (t ++ [(.space, g)]) ∧
      (arrival g₀ (t ++ [(.space, g)]) extra).tape = g₀ :: marked 0 (noisy ++ [g]) ∧
      Sound ((.space, g₀) :: (t ++ [(.space, g)])) ∧ PolarFrom 0 (t ++ [(.space, g)]) := by
  obtain ⟨t, rfl, ht⟩ := exists_heard hnoisy
  have hp := polarFrom_of_levels (ht.imp fun _ _ h => h.1) hpolar
  have htape : marked 0 (t.map Prod.snd ++ [g]) = (t ++ [(Level.space, g)]).map sample := by
    rw [← marked_of_polarFrom hp, List.map_append]
    rfl
  refine ⟨t, rfl, heard_of_forall₂ (alternating_of_polarFrom hpolar) ht, by rw [htape]; rfl, ?_, hp⟩
  refine List.forall_mem_cons.mpr ⟨hg₀, fun e he => ?_⟩
  rcases List.mem_append.mp he with he | he
  · refine ⟨?_, hmask e.2 (List.mem_map_of_mem he)⟩
    obtain ⟨i, hi, rfl⟩ := List.mem_iff_getElem.mp he
    exact ((List.forall₂_iff_get.mp ht).2 i hi (ht.length_eq ▸ hi)).2.1
  · rw [List.mem_singleton.mp he]
    exact hg

theorem length_arrival (g₀ : Int) (t : List Emission) (e : Emission) (extra : List Int) :
    1 < (arrival g₀ (t ++ [e]) extra).tape.length := by
  show 1 < (g₀ :: (t ++ [e]).map sample).length
  rw [List.length_cons, List.length_map, List.length_append, List.length_singleton]
  omega

/-- The frame is told from a repeat frame by its first pulse or its first space,
    behind the header where repeat frames have one. -/
def NotRepeat (remote : IrRemote) (times : List Int) : Prop :=
  ∃ p s rest, times.drop (if hasFlag remote REPEAT_HEADER && hasHeader remote then 2 else 0) = p :: s :: rest ∧
    (expect remote p remote.prepeat = false ∨ expect remote s remote.srepeat = false)

section Refused

variable {w : Wire} {h t : List Emission} {p x : Int} {b : Rbuf}

theorem View.syncSpace_refused {ps : Int} (hv : View w ((.space, x) :: h) 0 ps b) (hps : 0 < ps)
    (he : expect remote x ps = false) :
    ∃ b', syncPendingSpace remote b = (false, b') ∧ View w h 0 ps b' := by
  obtain ⟨b', hnext, hv'⟩ := hv.nextSpace
  have hx : x ≠ 0 := ne_of_gt (hv.sound (.space, x) List.mem_cons_self).1
  refine ⟨b', ?_, hv'⟩
  unfold syncPendingSpace
  rw [if_pos (by rw [hv.pendings]; exact hps), hnext]
  simp only [if_true, if_neg hx, hv'.pendings, he, Bool.not_false]

/-- **`get_repeat` refuses a frame** whose first pulse or first space is another
    than that of a repeat frame. -/
theorem View.getRepeat_refused (hv : View w ((.pulse, p) :: (.space, x) :: h) 0 0 b) (hS : SpaceEnc remote)
    (htrail : 0 < remote.ptrail) (hrepeat : hasRepeat remote = true)
    (hno : expect remote p remote.prepeat = false ∨ expect remote x remote.srepeat = false) :
    ∃ b' h' ps, getRepeat remote b = (false, b') ∧ View w h' 0 ps b' := by
  have hs : 0 < remote.srepeat := by
    unfold hasRepeat at hrepeat
    rw [Bool.and_eq_true, decide_eq_true_eq, decide_eq_true_eq] at hrepeat
    exact hrepeat.2
  obtain ⟨b₁, e₁, hv₁⟩ := hv.pulse remote
  unfold getRepeat WinLirc.getLead
  rw [if_pos hS.plead]
  dsimp only
  rw [hS.notBiphase, if_neg Bool.false_ne_true, e₁]
  cases hp : expect remote p remote.prepeat with
  | false => exact ⟨b₁, _, 0, rfl, hv₁⟩
  | true =>
    have hx := hno.resolve_left fun h => by rw [hp] at h; exact nomatch h
    obtain ⟨b₂, e₂, hv₂⟩ := (hv₁.deferSpace remote.srepeat).syncSpace_refused hs hx
    refine ⟨b₂, h, remote.srepeat, ?_, hv₂⟩
    dsimp only
    unfold WinLirc.getTrail expectpulse
    rw [if_pos (ne_of_gt htrail), e₂]

/-- The attempt to read a repeat frame, and where it ends. -/
theorem View.notRepeat (hv : View w (t ++ [(.space, g)]) 0 0 b) (hS : SpaceEnc remote) (htrail : 0 < remote.ptrail)
    (hflag : hasFlag remote NO_HEAD_REP = false) (hrepeat : hasRepeat remote = true)
    (hpolar : PolarFrom 0 (t ++ [(.space, g)])) {ops : List Emission}
    (hheard : List.Forall₂ (Expected remote) (t.map Prod.snd) ((headerSignal remote ++ ops).map Prod.snd))
    (hno : NotRepeat remote (t.map Prod.snd)) :
    ∃ b₂ b₃ h' ps, (if hasFlag remote REPEAT_HEADER && hasHeader remote then getHeader remote b else (true, b)) =
        (true, b₂) ∧ getRepeat remote b₂ = (false, b₃) ∧ View w h' 0 ps b₃ := by
  obtain ⟨p, x, rest, hdrop, hno⟩ := hno
  by_cases hh : (hasFlag remote REPEAT_HEADER && hasHeader remote) = true
  · have hheader := (Bool.and_eq_true_iff.mp hh).2
    obtain ⟨hphead, hshead⟩ : 0 < remote.phead ∧ 0 < remote.shead := by
      unfold hasHeader at hheader
      rw [Bool.and_eq_true, decide_eq_true_eq, decide_eq_true_eq] at hheader
      exact hheader
    rw [headerSignal, if_pos hheader] at hheard
    rw [if_pos hh] at hdrop ⊢
    obtain ⟨d₁, tail₁, h1, hheard₁, htimes⟩ := List.forall₂_cons_right_iff.mp hheard
    obtain ⟨d₂, tail₂, h2, -, rfl⟩ := List.forall₂_cons_right_iff.mp hheard₁
    rw [htimes, List.drop_succ_cons, List.drop_succ_cons, List.drop_zero] at hdrop
    rw [hdrop] at htimes
    obtain ⟨e₁, t₁, rfl, rfl, hm₁⟩ := List.map_eq_cons_iff.mp htimes
    obtain ⟨e₂, t₂, rfl, rfl, hm₂⟩ := List.map_eq_cons_iff.mp hm₁
    obtain ⟨e₃, t₃, rfl, rfl, hm₃⟩ := List.map_eq_cons_iff.mp hm₂
    obtain ⟨e₄, t₄, rfl, rfl, -⟩ := List.map_eq_cons_iff.mp hm₃
    obtain ⟨l₁, d₁⟩ := e₁
    obtain ⟨l₂, d₂⟩ := e₂
    obtain ⟨l₃, d₃⟩ := e₃
    obtain ⟨l₄, d₄⟩ := e₄
    obtain ⟨rfl, rfl, rfl, rfl, -⟩ := hpolar
    obtain ⟨b₁, e₁, hv₁⟩ := View.pulse remote hv
    obtain ⟨b₂, e₂, hv₂⟩ := (hv₁.deferSpace remote.shead).syncSpace hshead h2.2
    obtain ⟨b₃, h', ps, e₃, hv₃⟩ := hv₂.getRepeat_refused hS htrail hrepeat hno
    refine ⟨setPendingSpace remote.shead b₁, b₃, h', ps, ?_, ?_, hv₃⟩
    · unfold WinLirc.getHeader
      rw [hS.bitCoded.rcmm, if_neg Bool.false_ne_true, hS.bitCoded.bo, if_neg Bool.false_ne_true,
        if_neg (by omega), e₁, h1.2]
      dsimp only
      rw [hflag]
      rfl
    · rw [← e₃]
      unfold getRepeat WinLirc.getLead
      rw [if_pos hS.plead, if_pos hS.plead]
      dsimp only
      rw [hS.notBiphase, if_neg Bool.false_ne_true, if_neg Bool.false_ne_true,
        expectpulse_of_sync remote.prepeat e₂ (le_of_eq hv₂.pendings)]
  · rw [if_neg hh] at hdrop ⊢
    rw [List.drop_zero] at hdrop
    obtain ⟨e₃, t₃, rfl, rfl, hm⟩ := List.map_eq_cons_iff.mp hdrop
    obtain ⟨e₄, t₄, rfl, rfl, -⟩ := List.map_eq_cons_iff.mp hm
    obtain ⟨l₃, d₃⟩ := e₃
    obtain ⟨l₄, d₄⟩ := e₄
    obtain ⟨rfl, rfl, -⟩ := hpolar
    obtain ⟨b₃, h', ps, e₃, hv₃⟩ := View.getRepeat_refused hv hS htrail hrepeat hno
    exact ⟨b, b₃, h', ps, rfl, e₃, hv₃⟩

end Refused

/-- **The front of a frame**, also where a repeat frame was looked for first. -/
theorem exists_front {t : List Emission} {pre code post : IrCode} (hS : SpaceEnc remote) (htrail : 0 < remote.ptrail)
    (hflag : hasFlag remote NO_HEAD_REP = false)
    (hheard : Heard (Expected remote) [(.space, g)] (headerSignal remote ++ frameOps remote pre code post)
      (t ++ [(.space, g)]))
    (htimes : List.Forall₂ (Expected remote) (t.map Prod.snd)
      ((headerSignal remote ++ frameOps remote pre code post).map Prod.snd))
    (hpolar : PolarFrom 0 (t ++ [(.space, g)])) (hsound : Sound ((.space, g₀) :: (t ++ [(.space, g)])))
    (hsync : Synced env.lastRemote g₀)
    (hrep : (hasRepeat remote && env.lastIsRemote) = true → NotRepeat remote (t.map Prod.snd))
    (hb : b.data ++ b.input = (arrival g₀ (t ++ [(.space, g)]) extra).tape ++ extra)
    (hroom : (t ++ [(Level.space, g)]).length + 1 ≤ RBUF_SIZE) (hcap : b.data.length ≤ RBUF_SIZE) :
    ∃ h₂ b₂ ps₂, decodeFront env remote b = (.frame g₀ (hasHeader remote), remote, b₂) ∧ 0 ≤ ps₂ ∧
      Listen (Expected remote) (arrival g₀ (t ++ [(.space, g)]) extra) [(.space, g)] (frameOps remote pre code post)
        0 ps₂ h₂ b₂ := by
  have hbc := hS.bitCoded
  have hacc : Accepts remote (Expected remote) := fun d e _ h => ⟨Int.le_of_lt h.1, h.2⟩
  have hhead : HeardHeader remote (Expected remote) (arrival g₀ (t ++ [(.space, g)]) extra) [(.space, g)]
      (frameOps remote pre code post) g₀ :=
    heardHeader hacc hbc.rcmm hbc.bo (fun _ hf => absurd hf (by rw [hflag]; exact Bool.false_ne_true)) g₀
  have hne : g₀ ≠ 0 := ne_of_gt (hsound (.space, g₀) List.mem_cons_self).1
  obtain ⟨b₁, e₁, hv₁⟩ := (View.start (isBiphase remote) hb hroom hcap hsound).sync hsync (.inr hS.toggle)
  by_cases hr : (hasRepeat remote && env.lastIsRemote) = true
  · obtain ⟨b₂, b₃, h', ps, e₂, e₃, hv₃⟩ := View.notRepeat hv₁ hS htrail hflag (Bool.and_eq_true_iff.mp hr).1 hpolar
      htimes (hrep hr)
    -- the buffer is rewound: it is at the space in front again
    obtain ⟨b₄, e₄, hv₄⟩ := (View.start (rewindRecBuffer b₃).isBiphase hv₃.tape hroom hv₃.cap hsound).sync hsync
      (.inr hS.toggle)
    obtain ⟨h₅, b₅, ps₅, e₅, hps₅, hL₅⟩ := hhead _ _ ⟨hv₄, hheard⟩
    refine ⟨h₅, b₅, ps₅, ?_, hps₅, hL₅⟩
    have e₄' : syncRecBuffer env.lastRemote remote (rewindRecBuffer b₃) = (g₀, remote, { b₄ with sum := 0 }) := e₄
    unfold decodeFront
    dsimp only
    rw [e₁]
    dsimp only
    rw [if_neg hne, if_pos hr, e₂]
    dsimp only
    rw [e₃]
    dsimp only
    rw [e₄']
    dsimp only
    rw [e₅]
  · obtain ⟨h₂, b₂, ps₂, e₂, hps₂, hL₂⟩ := hhead _ _ ⟨hv₁, hheard⟩
    refine ⟨h₂, b₂, ps₂, ?_, hps₂, hL₂⟩
    unfold decodeFront
    dsimp only
    rw [e₁]
    dsimp only
    rw [if_neg hne, if_neg hr, e₂]

/-- **A noisy frame is received** if the gap behind it is long enough for the
    remote; the buffer is left at the gap. -/
theorem receive_noisy {pre code post : IrCode} (hS : SpaceEnc remote) (htrail : 0 < remote.ptrail)
    (hflag : hasFlag remote NO_HEAD_REP = false) (hdis : TolerancesDisjoint remote)
    (hw : Within remote pre code post)
    (hnoisy : List.Forall₂ (Expected remote) noisy
      ((headerSignal remote ++ frameOps remote pre code post).map Prod.snd))
    (hmask : ∀ n ∈ noisy, n ≤ PULSE_MASK)
    (hg₀ : 0 < g₀ ∧ g₀ ≤ PULSE_MASK) (hg : 0 < g ∧ g ≤ PULSE_MASK)
    (hgap : expectAtLeast remote g (gapAfterFrame remote noisy.sum) = true)
    (hmode : isSampleMode env.recMode = true) (hsync : Synced env.lastRemote g₀)
    (hrep : (hasRepeat remote && env.lastIsRemote) = true → NotRepeat remote noisy)
    (hb : b.data ++ b.input = g₀ :: marked 0 (noisy ++ [g]) ++ extra) (hcap : b.data.length ≤ RBUF_SIZE)
    (fuel : Nat) :
    ∃ b', receiveDecode fuel env remote b =
        some (some (decodedFrame env remote g₀ (pre, code, post) b'), remote, b') ∧
      b'.sum = noisy.sum ∧ AtGap b' g extra := by
  have hbc := hS.bitCoded
  have hne : remote.ptrail ≠ 0 := by omega
  have hacc : Accepts remote (Expected remote) := fun d e _ h => ⟨Int.le_of_lt h.1, h.2⟩
  have hpolar := polarFrom_frame hS.plead hne (fun hs value => by
    rw [hS.dataSignal_eq hw.toWidths hs]
    exact hS.pairs_symbols _ _) pre code post g
  obtain ⟨t, rfl, hheard, htape, hsound, hpolar'⟩ := exists_arrival extra hpolar hnoisy hmask hg₀ hg
  have hcut : headCut remote (hasHeader remote) = 0 := by
    unfold headCut
    rw [hflag, Bool.and_false, if_neg Bool.false_ne_true]
  have hcoder := (SpaceEnc.bitCoder (arrival g₀ (t ++ [(.space, g)]) extra) [(.space, g)] hS hacc
    (hdis.distinct htrail)).coder hw.toWidths
  have htotal : total (t ++ [(Level.space, g)]) = (t.map Prod.snd).sum + g := by
    rw [total_append, total_cons, total_nil, add_zero]
    rfl
  have hfit : (t ++ [(Level.space, g)]).length + 1 ≤ RBUF_SIZE := by
    have hlen := length_frame hw.toWidths (fun hs value => hS.length_data hw.toWidths hs value) pre code post
    have heq := hnoisy.length_eq
    rw [List.length_map, List.length_map] at heq
    rw [List.length_append, List.length_singleton]
    unfold RBUF_SIZE
    omega
  obtain ⟨h₂, b₂, ps₂, efront, hps₂, hL₂⟩ := exists_front hS htrail hflag hheard hnoisy hpolar' hsound hsync hrep
    (by rw [hb, htape]) hfit hcap
  obtain ⟨b', ps, e, -, hps, hview⟩ := hcoder.receive_behind env hmode hS.notRaw hw (by rw [hS.plead])
    (Int.le_of_lt htrail) (fun ps _ h0 => by
      rw [h0 hne, zero_add, hcut, htotal, sub_zero, add_sub_cancel_right]
      exact hgap) efront hps₂ hL₂ fuel
  obtain rfl := hps hne
  rw [zero_add, hcut] at hview
  refine ⟨b', e, ?_, hview.atGap ?_⟩
  · have hsum := hview.sum
    have hwire : ((arrival g₀ (t ++ [(Level.space, g)]) extra).less 0).sum = total (t ++ [(Level.space, g)]) :=
      sub_zero _
    rw [hwire, htotal, total_cons, total_nil, add_zero] at hsum
    exact add_right_cancel hsum
  · exact length_arrival g₀ t _ extra

/-! ## 3. A repeat frame -/

theorem repeatFrame_signal (hS : SpaceEnc remote) (htrail : 0 < remote.ptrail) :
    kindSignal remote .repeatFrame =
      (if hasFlag remote REPEAT_HEADER && hasHeader remote then headerSignal remote else []) ++
        [(.pulse, remote.prepeat), (.space, remote.srepeat), (.pulse, remote.ptrail)] := by
  have hlead : leadSignal remote = [] := if_neg (not_not.mpr hS.plead)
  have htrails : trailSignal remote = [(.pulse, remote.ptrail)] := if_pos (ne_of_gt htrail)
  unfold kindSignal repeatSignal
  rw [hlead, htrails]
  rfl

theorem polarFrom_repeat (hS : SpaceEnc remote) (htrail : 0 < remote.ptrail) (g : Int) :
    PolarFrom 0 (kindSignal remote .repeatFrame ++ [(.space, g)]) := by
  rw [repeatFrame_signal hS htrail]
  split
  · next hh =>
    rw [headerSignal, if_pos (Bool.and_eq_true_iff.mp hh).2]
    exact ⟨rfl, rfl, rfl, rfl, rfl, rfl, trivial⟩
  · exact ⟨rfl, rfl, rfl, rfl, trivial⟩

/-- **A repeat frame is heard**, behind the header it may have. -/
theorem Listen.getRepeat {acc : Int → Int → Prop} {w : Wire} {h : List Emission} {ps : Int}
    (hacc : Accepts remote acc) (hS : SpaceEnc remote) (htrail : 0 < remote.ptrail)
    (hrepeat : hasRepeat remote = true)
    (hL : Listen acc w [(.space, g)]
      [(.pulse, remote.prepeat), (.space, remote.srepeat), (.pulse, remote.ptrail)] 0 ps h b) (hps : 0 ≤ ps)
    (hgap : expectAtLeast remote g (gapAfterRepeat remote (minGap remote) (w.sum - g)) = true) :
    ∃ b', getRepeat remote b = (true, b') ∧ View w [(.space, g)] 0 0 b' := by
  obtain ⟨hp, hs⟩ : 0 < remote.prepeat ∧ 0 < remote.srepeat := by
    unfold hasRepeat at hrepeat
    rw [Bool.and_eq_true, decide_eq_true_eq, decide_eq_true_eq] at hrepeat
    exact hrepeat
  obtain ⟨h₁, b₁, e₁, hL₁⟩ := hL.expectpulse hacc (Int.le_of_lt hp) (Int.le_refl 0) hps (.inl rfl) (by simp)
  have hL₂ := hL₁.deferSpace hs
  have htrails : trailSignal remote = [(.pulse, remote.ptrail)] := if_pos (ne_of_gt htrail)
  have hL₂' : Listen acc w [(.space, g)] (trailSignal remote ++ []) 0 remote.srepeat h₁
      (setPendingSpace remote.srepeat b₁) := by
    rw [htrails]
    exact hL₂
  obtain ⟨h₃, b₃, ps₃, e₃, hps₃, hzero, hL₃⟩ := hL₂'.getTrail hacc (Int.le_refl 0) (Int.le_of_lt hs) (.inl rfl)
    (Int.le_of_lt htrail) (by simp)
  obtain rfl := hzero (ne_of_gt htrail)
  have hrest := hL₃.rest (Int.le_refl 0)
  have hsum : b₃.sum = w.sum - g := by
    have hs := hL₃.view.sum
    rw [hrest, total_cons, total_nil, zero_add, add_zero] at hs
    omega
  have hgap' : expectAtLeast remote (0 + g) (gapAfterRepeat remote (minGap remote) b₃.sum) = true := by
    rw [zero_add, hsum]
    exact hgap
  obtain ⟨b₄, e₄, hv⟩ := hL₃.getGap (Int.le_refl 0) hgap'
  refine ⟨b₄, ?_, by rw [zero_add] at hv; exact hv⟩
  unfold WinLirc.getRepeat WinLirc.getLead
  rw [if_pos hS.plead]
  dsimp only
  rw [hS.notBiphase, if_neg Bool.false_ne_true, e₁]
  dsimp only
  rw [e₃]
  exact e₄

/-- **A noisy repeat frame is recognised**: it is the code that was sent last. -/
theorem receive_repeat (hS : SpaceEnc remote) (htrail : 0 < remote.ptrail)
    (hflag : hasFlag remote NO_HEAD_REP = false) (hrepeat : hasRepeat remote = true)
    (hnoisy : List.Forall₂ (Expected remote) noisy ((kindSignal remote .repeatFrame).map Prod.snd))
    (hmask : ∀ n ∈ noisy, n ≤ PULSE_MASK) (hg₀ : 0 < g₀ ∧ g₀ ≤ PULSE_MASK) (hg : 0 < g ∧ g ≤ PULSE_MASK)
    (hgap : expectAtLeast remote g (gapAfterRepeat remote (minGap remote) noisy.sum) = true)
    (hmode : isSampleMode env.recMode = true) (hsync : Synced env.lastRemote g₀)
    (hlast : env.lastIsRemote = true) {i : Nat} (hcode : remote.lastCode = some i)
    (hb : b.data ++ b.input = g₀ :: marked 0 (noisy ++ [g]) ++ extra) (hcap : b.data.length ≤ RBUF_SIZE)
    (fuel : Nat) :
    ∃ b', receiveDecode fuel env remote b =
        some (some (decodedRepeat remote ((remote.codes[i]?.map (·.code)).getD 0) b'), remote, b') ∧
      b'.sum = noisy.sum ∧ AtGap b' g extra := by
  have hbc := hS.bitCoded
  have hacc : Accepts remote (Expected remote) := fun d e _ h => ⟨Int.le_of_lt h.1, h.2⟩
  rw [repeatFrame_signal hS htrail] at hnoisy
  have hpolar := polarFrom_repeat hS htrail g
  rw [repeatFrame_signal hS htrail] at hpolar
  obtain ⟨t, rfl, hheard, htape, hsound, -⟩ := exists_arrival extra hpolar hnoisy hmask hg₀ hg
  have htotal : total (t ++ [(Level.space, g)]) = (t.map Prod.snd).sum + g := by
    rw [total_append, total_cons, total_nil, add_zero]
    rfl
  have hroom : (t ++ [(Level.space, g)]).length + 1 ≤ RBUF_SIZE := by
    have hlen := hnoisy.length_eq
    rw [List.length_map, List.length_map, List.length_append] at hlen
    have hheader : (if hasFlag remote REPEAT_HEADER && hasHeader remote then headerSignal remote
        else []).length ≤ 2 := by
      unfold headerSignal
      split_ifs <;> simp
    rw [List.length_append, List.length_singleton, hlen]
    unfold RBUF_SIZE
    simp only [List.length_cons, List.length_nil]
    omega
  obtain ⟨b₁, e₁, hv₁⟩ := (View.start (isBiphase remote) (by rw [hb, htape]) hroom hcap hsound).sync hsync
    (.inr hS.toggle)
  -- the header, where repeat frames have one
  obtain ⟨h₂, b₂, ps, e₂, hps, hL₂⟩ : ∃ h₂ b₂ ps,
      (if hasFlag remote REPEAT_HEADER && hasHeader remote then getHeader remote { b₁ with sum := 0 }
        else (true, { b₁ with sum := 0 })) = (true, b₂) ∧ 0 ≤ ps ∧
      Listen (Expected remote) (arrival g₀ (t ++ [(.space, g)]) extra) [(.space, g)]
        [(.pulse, remote.prepeat), (.space, remote.srepeat), (.pulse, remote.ptrail)] 0 ps h₂ b₂ := by
    split at hheard
    · next hh =>
      have hheader := (Bool.and_eq_true_iff.mp hh).2
      rw [headerSignal, if_pos hheader] at hheard
      have hL : Listen (Expected remote) (arrival g₀ (t ++ [(.space, g)]) extra) [(.space, g)] _ 0 0 _ _ :=
        ⟨hv₁, hheard⟩
      obtain ⟨h₂, b₂, ps, e₂, hps, hL₂⟩ := hL.getHeader hacc hbc.rcmm hbc.bo hheader
        (fun hf => absurd hf (by rw [hflag]; exact Bool.false_ne_true))
      exact ⟨h₂, b₂, ps, by rw [if_pos hh]; exact e₂, hps, hL₂⟩
    · next hh => exact ⟨_, _, 0, if_neg hh, Int.le_refl 0, hv₁, hheard⟩
  obtain ⟨b₃, e₃, hv₃⟩ := hL₂.getRepeat hacc hS htrail hrepeat hps (by
    show expectAtLeast remote g (gapAfterRepeat remote (minGap remote) (total (t ++ [(Level.space, g)]) - g)) = true
    rw [htotal, add_sub_cancel_right]
    exact hgap)
  have hsum : b₃.sum = (t.map Prod.snd).sum := by
    have hs := hv₃.sum
    have hwire : (arrival g₀ (t ++ [(Level.space, g)]) extra).sum = total (t ++ [(Level.space, g)]) := rfl
    rw [hwire, htotal, total_cons, total_nil, add_zero] at hs
    exact add_right_cancel hs
  refine ⟨b₃, ?_, hsum, hv₃.atGap (length_arrival g₀ t _ extra)⟩
  have hne : g₀ ≠ 0 := by omega
  have hfront : decodeFront env remote b =
      (.repeated (decodedRepeat remote ((remote.codes[i]?.map (·.code)).getD 0) b₃), remote, b₃) := by
    unfold decodeFront
    dsimp only
    rw [e₁]
    dsimp only
    rw [if_neg hne, hrepeat, hlast, Bool.true_and, if_pos rfl, e₂]
    dsimp only
    rw [e₃]
    dsimp only
    rw [hcode]
  unfold receiveDecode
  rw [if_pos hmode, hfront]

end Noisy

end WinLirc
