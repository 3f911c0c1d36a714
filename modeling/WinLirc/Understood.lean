/-
  File:      WinLirc/Understood.lean
  Subject:   A remote that was recorded understands its keys.

  * `understood`: a remote of which only the name was known when it was learned
    receives every frame of the remote control, with the noise of the recording
    and that of the key;
  * `getLengths_understands`: `get_lengths`, then `receive_decode`.
-/
import WinLirc.NoisyFrame
import WinLirc.Learned

namespace WinLirc

open Signal

/-! ## 1. The remote that is learned from nothing -/

section Blank

variable {eps : Nat} {aeps δ : Int} {t t' : Timing} {name : String}

theorem unknown_blank (name : String) : Unknown { name } := by
  refine ⟨?_, rfl, rfl⟩
  show ((0 : Flags) &&& CONST_LENGTH != 0) = false
  decide

/-- The remote that `get_lengths` makes of a remote with a name. -/
def learnedRemote (eps : Nat) (aeps : Int) (name : String) (t : Timing) : IrRemote := learned eps aeps { name } t

/-- **The tolerances tell the bits apart**, the noise of the recording and that
    of the key included. -/
structure Separate (eps : Nat) (aeps δ : Int) (t : Timing) : Prop where
  relative : (t.szero + δ) * (100 + eps) < (t.sone - δ) * (100 - eps)
  zero : (t.szero + δ) * (100 + eps) < 100 * (t.sone - δ - aeps)
  one : 100 * (t.szero + δ + aeps) < (t.sone - δ) * (100 - eps)

theorem near_times (hT : Tolerable eps aeps δ t) (h : t'.Near δ t) :
    0 < t'.phead ∧ 0 < t'.shead ∧ 0 < t'.pulse ∧ 0 < t'.szero ∧ 0 < t'.sone ∧ 0 < t'.ptrail := by
  have htime := hT.times
  have hsym := hT.symbols
  have hnoise := hT.noise
  obtain ⟨-, h1, h2, h3, h4, h5, h6, -⟩ := h
  simp only [List.forall_mem_cons, List.not_mem_nil, false_imp_iff, implies_true, and_true] at htime
  unfold Close at h1 h2 h3 h4 h5 h6
  rw [abs_le] at h1 h2 h3 h4 h5 h6
  have haeps := hT.aeps_lt
  omega

theorem spaceEnc_recorded (hT : Tolerable eps aeps δ t) (h : t'.Near δ t) :
    SpaceEnc (learnedRemote eps aeps name t') := by
  obtain ⟨-, -, h1, h2, h3, -⟩ := near_times hT h
  refine ⟨?_, rfl, rfl, rfl, rfl, h1, h3, h1, h2⟩
  show (((0 : Flags) &&& ~~~IR_PROTOCOL_MASK ||| SPACE_ENC) &&& IR_PROTOCOL_MASK == SPACE_ENC) = true
  decide

theorem within_recorded (h : t'.Near δ t) (hbits : t.bits ≤ 63) {code : IrCode}
    (hcode : code.toNat < 2 ^ t.bits) : Within (learnedRemote eps aeps name t') 0 code 0 := by
  have hcount : bitCount (learnedRemote eps aeps name t') = t.bits := by
    show (0 : Int) + t'.bits + 0 = t.bits
    rw [h.bits]
    omega
  refine ⟨⟨le_refl 0, Int.natCast_nonneg _, le_refl 0, by rw [hcount]; omega⟩, Nat.zero_lt_one, ?_, Nat.zero_lt_one⟩
  show code.toNat < 2 ^ t'.bits
  rw [h.bits]
  exact hcode

/-- The frame of the remote is that of its timing. -/
theorem frame_recorded (hT : Tolerable eps aeps δ t) (h : t'.Near δ t) (hbits : t.bits ≤ 63) {code : IrCode}
    (hcode : code.toNat < 2 ^ t.bits) :
    (headerSignal (learnedRemote eps aeps name t') ++
        frameOps (learnedRemote eps aeps name t') 0 code 0).map Prod.snd = t'.frame (bits t.bits code) := by
  have hS := @spaceEnc_recorded _ _ _ _ _ name hT h
  have hw := (@within_recorded eps aeps _ _ _ name h hbits _ hcode).toWidths
  obtain ⟨h1, h2, -, -, -, h6⟩ := near_times hT h
  have hdata : codeOps (learnedRemote eps aeps name t') code =
      symbols (learnedRemote eps aeps name t') 0 (bits t.bits code) := by
    have heq := hS.dataSignal_eq hw .code code
    have hwidth : (learnedRemote eps aeps name t').bits.toNat = t.bits := h.bits
    rw [hwidth] at heq
    exact heq
  have hsymbols (i : Int) (bs : List Bool) :
      (symbols (learnedRemote eps aeps name t') i bs).map Prod.snd = bs.flatMap t'.symbol := by
    induction bs generalizing i with
    | nil => rfl
    | cons one bs ih =>
      rw [symbols, hS.symbol, List.map_append, ih, List.flatMap_cons]
      cases one <;> rfl
  have hheader : headerSignal (learnedRemote eps aeps name t') = [(.pulse, t'.phead), (.space, t'.shead)] := by
    unfold headerSignal hasHeader
    exact if_pos (by
      rw [Bool.and_eq_true, decide_eq_true_eq, decide_eq_true_eq]
      exact ⟨h1, h2⟩)
  have htrail : trailSignal (learnedRemote eps aeps name t') = [(.pulse, t'.ptrail)] := if_pos (ne_of_gt h6)
  have hframe : frameOps (learnedRemote eps aeps name t') 0 code 0 =
      symbols (learnedRemote eps aeps name t') 0 (bits t.bits code) ++ [(.pulse, t'.ptrail)] := by
    have hlead : leadSignal (learnedRemote eps aeps name t') = [] := rfl
    have hpre : preOps (learnedRemote eps aeps name t') 0 = [] := rfl
    have hpost : postOps (learnedRemote eps aeps name t') 0 = [] := rfl
    have hfoot : footSignal (learnedRemote eps aeps name t') = [] := rfl
    unfold frameOps
    rw [hlead, hpre, hpost, hfoot, hdata, htrail]
    rfl
  rw [hheader, hframe, List.map_append, List.map_append, hsymbols]
  rfl

/-- Times that deviate from the same ones are expected for each other. -/
theorem expected_of_close {remote : IrRemote} (haeps : 2 * δ ≤ remote.aeps) {xs ys zs : List Int}
    (hx : List.Forall₂ (Close δ) xs zs) (hy : List.Forall₂ (Close δ) ys zs) (hpos : ∀ x ∈ xs, 0 < x) :
    List.Forall₂ (Expected remote) xs ys := by
  induction hx generalizing ys with
  | nil =>
    cases hy
    exact .nil
  | @cons x z xs zs hd hx ih =>
    cases hy with
    | @cons y _ ys _ hd' hy =>
      refine .cons ⟨hpos x List.mem_cons_self, ?_⟩ (ih hy fun x' hx' => hpos x' (List.mem_cons_of_mem x hx'))
      unfold Close at hd hd'
      rw [abs_le] at hd hd'
      unfold expect
      rw [Bool.or_eq_true, decide_eq_true_eq, decide_eq_true_eq]
      omega

theorem near_frame (h : t'.Near δ t) (bs : List Bool) : List.Forall₂ (Close δ) (t'.frame bs) (t.frame bs) := by
  refine .cons h.phead (.cons h.shead (List.rel_append ?_ (.cons h.ptrail .nil)))
  induction bs with
  | nil => exact .nil
  | cons one bs ih =>
    cases one
    · exact .cons h.pulse (.cons h.szero ih)
    · exact .cons h.pulse (.cons h.sone ih)

theorem mem_frame {bs : List Bool} {x : Int} (hx : x ∈ t.frame bs) :
    x ∈ [t.phead, t.shead, t.pulse, t.szero, t.sone, t.ptrail, t.gap] := by
  unfold Timing.frame at hx
  simp only [List.mem_cons, List.mem_append, List.mem_flatMap, List.not_mem_nil, or_false] at hx ⊢
  rcases hx with h | h | ⟨b, -, h⟩ | h
  · exact .inl h
  · exact .inr (.inl h)
  · unfold Timing.symbol at h
    cases b <;> simp only [List.mem_cons, List.not_mem_nil, or_false, if_true, Bool.false_eq_true, if_false] at h <;>
      tauto
  · tauto

/-- A heard frame has durations. -/
theorem durations_heard (hT : Tolerable eps aeps δ t) {times : List Int} {bs : List Bool}
    (h : List.Forall₂ (Close δ) times (t.frame bs)) : ∀ x ∈ times, Duration x := by
  intro x hx
  obtain ⟨i, hi, rfl⟩ := List.mem_iff_getElem.mp hx
  have hi' : i < (t.frame bs).length := h.length_eq ▸ hi
  exact hT.duration (mem_frame (List.getElem_mem hi')) ((List.forall₂_iff_get.mp h).2 i hi hi')

/-- What the spaces of the bits are taken for. -/
theorem disjoint_recorded (hT : Tolerable eps aeps δ t) (hsep : Separate eps aeps δ t) (h : t'.Near δ t) :
    TolerancesDisjoint (learnedRemote eps aeps name t') := by
  obtain ⟨-, -, -, hzero, hone, -⟩ := near_times hT h
  obtain ⟨-, -, -, -, hz, ho, -, -⟩ := h
  obtain ⟨s1, s2, s3⟩ := hsep
  have hsym := hT.symbols
  have hpercent := hT.percent
  unfold Close at hz ho
  rw [abs_le] at hz ho
  -- the limits of the two tolerances
  have hz1 : t'.szero * (100 + eps) ≤ (t.szero + δ) * (100 + eps) :=
    mul_le_mul_of_nonneg_right (by omega) (by omega)
  have ho1 : (t.sone - δ) * (100 - eps) ≤ t'.sone * (100 - eps) :=
    mul_le_mul_of_nonneg_right (by omega) (by omega)
  refine .inr fun d hd => ?_
  obtain ⟨h1, h0⟩ := hd
  unfold expect at h1 h0
  have e1 : (learnedRemote eps aeps name t').sone = t'.sone := rfl
  have e0 : (learnedRemote eps aeps name t').szero = t'.szero := rfl
  have ee : (learnedRemote eps aeps name t').eps = eps := rfl
  have ea : (learnedRemote eps aeps name t').aeps = aeps := rfl
  rw [e1, ee, ea, Int.tdiv_eq_ediv_of_nonneg (mul_nonneg (le_of_lt hone) (Int.natCast_nonneg _)), Bool.or_eq_true,
    decide_eq_true_eq, decide_eq_true_eq] at h1
  rw [e0, ee, ea, Int.tdiv_eq_ediv_of_nonneg (mul_nonneg (le_of_lt hzero) (Int.natCast_nonneg _)), Bool.or_eq_true,
    decide_eq_true_eq, decide_eq_true_eq] at h0
  rw [mul_add t'.szero] at hz1
  rw [mul_sub t'.sone] at ho1
  generalize hA : t'.szero * (eps : Int) = a at h0 hz1
  generalize hB : t'.sone * (eps : Int) = c at h1 ho1
  omega

/-- The gap that was learned is not longer than one that is heard. -/
theorem gap_recorded (hT : Tolerable eps aeps δ t) (h : t'.Near δ t) {g : Int} (hg : t.gap - δ ≤ g) (sum : Int) :
    expectAtLeast (learnedRemote eps aeps name t') g (gapAfterFrame (learnedRemote eps aeps name t') sum) = true := by
  have hrcmm : isRcmm (learnedRemote eps aeps name t') = false := (spaceEnc_recorded hT h).bitCoded.rcmm
  have hconst : isConst (learnedRemote eps aeps name t') = false := by
    show (((0 : Flags) &&& ~~~IR_PROTOCOL_MASK ||| SPACE_ENC) &&& CONST_LENGTH != 0) = false
    decide
  have hmin : minGap (learnedRemote eps aeps name t') = t'.gap := if_neg fun hand => hand.1 rfl
  have haeps : (learnedRemote eps aeps name t').aeps = aeps := rfl
  have hgap := h.gap
  have hnoise := hT.noise
  unfold Close at hgap
  rw [abs_le] at hgap
  unfold gapAfterFrame expectAtLeast
  rw [hrcmm, hconst, hmin, haeps, if_neg Bool.false_ne_true, if_neg Bool.false_ne_true, Bool.or_eq_true,
    decide_eq_true_eq, decide_eq_true_eq]
  omega

/-- **A key is understood**: its frame may deviate from the remote by as much
    as the recording did. -/
theorem understood (hT : Tolerable eps aeps δ t) (hsep : Separate eps aeps δ t) (hbits : t.bits ≤ 63)
    (h : t'.Near δ t) {code : IrCode} (hcode : code.toNat < 2 ^ t.bits) {times : List Int} {g₀ g : Int}
    (htimes : List.Forall₂ (Close δ) times (t.frame (bits t.bits code)))
    (hg₀ : 0 < g₀ ∧ g₀ ≤ PULSE_MASK) (hg : t.gap - δ ≤ g ∧ g ≤ PULSE_MASK) {env : DecodeEnv} (henv : Fresh env)
    {b : Rbuf} (hb : b.data ++ b.input = g₀ :: marked 0 (times ++ [g])) (hcap : b.data.length ≤ RBUF_SIZE)
    (fuel : Nat) :
    ∃ d b', receiveDecode fuel env (learnedRemote eps aeps name t') b =
        some (some d, learnedRemote eps aeps name t', b') ∧
      d.pre = 0 ∧ d.code = code ∧ d.post = 0 := by
  have hdur := durations_heard hT htimes
  have hnoise := hT.noise
  have hlong := hT.gap
  unfold MIN_GAP at hlong
  have hflag : hasFlag (learnedRemote eps aeps name t') NO_HEAD_REP = false := by
    show (((0 : Flags) &&& ~~~IR_PROTOCOL_MASK ||| SPACE_ENC) &&& NO_HEAD_REP != 0) = false
    decide
  have hexpected : List.Forall₂ (Expected (learnedRemote eps aeps name t')) times
      ((headerSignal (learnedRemote eps aeps name t') ++
        frameOps (learnedRemote eps aeps name t') 0 code 0).map Prod.snd) := by
    rw [frame_recorded hT h hbits hcode]
    exact expected_of_close (Int.le_of_lt hnoise.2) htimes (near_frame h _) fun x hx => (hdur x hx).1
  obtain ⟨b', e, -⟩ := receive_noisy (spaceEnc_recorded hT h) (near_times hT h).2.2.2.2.2 hflag
    (disjoint_recorded hT hsep h) (within_recorded h hbits hcode) hexpected (fun x hx => (hdur x hx).2) hg₀
    ⟨by omega, hg.2⟩ (gap_recorded hT h hg.1 _) henv.mode (henv.synced g₀)
    (fun h => by rw [henv.lastIsRemote, Bool.and_false] at h; exact nomatch h) (by rw [List.append_nil]; exact hb)
    hcap fuel
  exact ⟨_, b', e, rfl, rfl, rfl⟩

end Blank

/-! ## 2. From the recording to the keys -/

section Recorded

variable {eps : Nat} {aeps δ : Int} {t : Timing} {presses : List Press} {silence : Int}

/-- **Recorded and understood**: `get_lengths` makes of a recording a remote
    with which `receive_decode` gets every code of the remote control from its
    frames. -/
theorem getLengths_understands (h : Pressed eps aeps δ t presses) (hsep : Separate eps aeps δ t)
    (hbits : t.bits ≤ 63) (name : String) (hs : 100000 < silence ∧ silence ≤ PULSE_MASK) :
    ∃ remote, getLengths eps aeps false { name } (silence :: (framesOf presses).flatMap HeardFrame.samples) =
        some (true, remote) ∧
      ∀ (code : IrCode) (times : List Int) (g₀ g : Int) (env : DecodeEnv) (b : Rbuf) (fuel : Nat),
        code.toNat < 2 ^ t.bits → List.Forall₂ (Close δ) times (t.frame (bits t.bits code)) →
        0 < g₀ ∧ g₀ ≤ PULSE_MASK → t.gap - δ ≤ g ∧ g ≤ PULSE_MASK → Fresh env →
        b.data ++ b.input = g₀ :: marked 0 (times ++ [g]) → b.data.length ≤ RBUF_SIZE →
        ∃ d b', receiveDecode fuel env remote b = some (some d, remote, b') ∧
          d.pre = 0 ∧ d.code = code ∧ d.post = 0 := by
  obtain ⟨t', s', hnear, hlearned, hloop⟩ := lengthsLoop_learned h (unknown_blank name) hs
  refine ⟨learnedRemote eps aeps name t', ?_, fun code times g₀ g env b fuel hcode htimes hg₀ hg henv hb hcap =>
    understood h.tolerable hsep hbits hnear hcode htimes hg₀ hg henv hb hcap fuel⟩
  unfold getLengths
  rw [hloop, Option.map_some]
  dsimp only
  rw [hlearned]
  rfl

end Recorded

/-- The keys of the small remote, and all its other codes. -/
theorem getLengths_understands_smallTiming :
    ∃ remote, getLengths 30 100 false { name := "small" } (100001 :: (framesOf smallPresses).flatMap
        HeardFrame.samples) = some (true, remote) ∧
      ∀ (code : IrCode) (times : List Int) (g₀ g : Int) (env : DecodeEnv) (b : Rbuf) (fuel : Nat),
        code.toNat < 2 ^ 4 → List.Forall₂ (Close 10) times (smallTiming.frame (bits 4 code)) →
        0 < g₀ ∧ g₀ ≤ PULSE_MASK → 30000 - 10 ≤ g ∧ g ≤ PULSE_MASK → Fresh env →
        b.data ++ b.input = g₀ :: marked 0 (times ++ [g]) → b.data.length ≤ RBUF_SIZE →
        ∃ d b', receiveDecode fuel env remote b = some (some d, remote, b') ∧
          d.pre = 0 ∧ d.code = code ∧ d.post = 0 :=
  getLengths_understands pressed_smallPresses ⟨by decide, by decide, by decide⟩ (by decide) "small"
    ⟨by decide, by decide⟩

end WinLirc
