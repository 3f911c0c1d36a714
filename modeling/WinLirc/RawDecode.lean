/-
  File:      WinLirc/RawDecode.lean
  Subject:   Which raw code `receive_decode` finds in a recorded frame.

  The codes are tried one after the other. A code whose signals do not match is
  followed by `rewind_rec_buffer` and `sync_rec_buffer`; one whose signals match
  but whose gap is missing is not: the next code is tried on the samples behind
  it. `placeOf` says where, over the samples alone, and `rawDecode_first` for
  which frames that does not show. In a frame of pulses and spaces by turns
  (`inStep_alternating`) it passes over every second one of the codes behind a
  run of such beginnings.
-/
import WinLirc.LeadingGap
import WinLirc.Interference

namespace WinLirc

/-! ## 1. A raw code and the samples -/

/-- A sample within the tolerance of a signal. -/
def sampleFits (remote : IrRemote) (pulse : Bool) (signal sample : Int) : Bool :=
  if pulse then
    isPulse sample && maskPulse sample != 0 && expect remote (maskPulse sample) signal
  else isSpace sample && sample != 0 && expect remote sample signal

/-- The samples begin with the signals, pulses and spaces by turns. -/
def signalsFit (remote : IrRemote) : Bool → List Int → List Int → Bool
  | _, [], _ => true
  | _, _ :: _, [] => false
  | pulse, signal :: signals, sample :: samples =>
    sampleFits remote pulse signal sample && signalsFit remote (!pulse) signals samples

def duration (samples : List Int) : Int := (samples.map maskPulse).sum

/-- The gap a raw code must be followed by, `sum` microseconds after the
    leading gap. -/
def rawGap (remote : IrRemote) (sum : Int) : Int :=
  if isConst remote then minGap remote - sum else minGap remote

/-- At least that gap, or no further sample. -/
def gapFollows (remote : IrRemote) (gap : Int) : List Int → Bool
  | [] => true
  | sample :: _ => sample == 0 || (isSpace sample && expectAtLeast remote sample gap)

def IrNcode.sequence (c : IrNcode) : List Int := c.signals.getD []

/-- The code lies behind the first `k` samples, with its gap. -/
def completeAt (remote : IrRemote) (samples : List Int) (k : Nat) (c : IrNcode) : Bool :=
  signalsFit remote true c.sequence (samples.drop k) &&
    gapFollows remote (rawGap remote (duration (samples.take (k + c.sequence.length))))
      (samples.drop (k + c.sequence.length))

/-- **The complete sequence of the code matches**, and its gap follows. -/
def complete (remote : IrRemote) (samples : List Int) (c : IrNcode) : Bool :=
  completeAt remote samples 0 c

/-- Where the code leaves the next one, if it is not taken: at the start of the
    frame if its signals do not match, else behind them. A pulse where the gap
    should be is not given back. -/
def placeBehind (remote : IrRemote) (samples : List Int) (k : Nat) (c : IrNcode) : Nat :=
  if signalsFit remote true c.sequence (samples.drop k) then
    match samples.drop (k + c.sequence.length) with
    | [] => k + c.sequence.length
    | sample :: _ =>
      if isPulse sample then k + c.sequence.length + 1 else k + c.sequence.length
  else 0

/-- Where the code behind the codes `codes` is tried. -/
def placeOf (remote : IrRemote) (samples : List Int) (codes : List IrNcode) : Nat :=
  codes.foldl (placeBehind remote samples) 0

/-- What `receive_decode` owes for a raw remote: the first complete code, and
    none only if there is none. -/
def ReturnsFirst (fuel : Nat) (env : DecodeEnv) (remote : IrRemote) (b : Rbuf) : Prop :=
  (receiveDecode fuel env remote b).map (fun r => r.1.map (·.code)) =
    some (((afterGap env.lastRemote b.samples).bind fun frame =>
      remote.codes.find? (complete remote frame.2)).map (·.code))

/-- Up to the first complete code, every code is complete where it is tried
    just if it is complete at the start of the frame. -/
def InStep (remote : IrRemote) (samples : List Int) (codes : List IrNcode) : Prop :=
  ∀ i c, codes[i]? = some c → (∀ c' ∈ codes.take i, complete remote samples c' = false) →
    completeAt remote samples (placeOf remote samples (codes.take i)) c =
      complete remote samples c

/-- That for the codes of a remote and the frame in the buffer. -/
def FrameInStep (env : DecodeEnv) (remote : IrRemote) (b : Rbuf) : Prop :=
  ∀ gap samples, afterGap env.lastRemote b.samples = some (gap, samples) →
    InStep remote samples remote.codes

/-! ## 2. Reading signals -/

section Reading

variable {past rest : List Int} {sum x : Int} {b : Rbuf}

theorem Reading.pulse (h : Reading past (x :: rest) sum b) (remote : IrRemote) (signal : Int) :
    ∃ b', expectpulse remote signal b = (sampleFits remote true signal x, b') ∧
      Reading (past ++ [x]) rest (sum + maskPulse x) b' := by
  obtain ⟨b', hread, hb'⟩ := h.nextPulse
  refine ⟨b', ?_, hb'⟩
  unfold expectpulse
  rw [syncPendingSpace_none h.pendings.le]
  dsimp only
  rw [hread]
  dsimp only
  rw [hb'.pendingp, if_neg (lt_irrefl 0)]
  unfold sampleFits
  rw [if_pos rfl]
  cases isPulse x with
  | false => rfl
  | true =>
    rw [if_pos rfl, Bool.true_and]
    by_cases hm : maskPulse x = 0
    · rw [if_pos hm, hm]
      rfl
    · rw [if_neg hm, bne_iff_ne.mpr hm, Bool.true_and]

theorem Reading.space (h : Reading past (x :: rest) sum b) (remote : IrRemote) (signal : Int) :
    ∃ b', expectspace remote signal b = (sampleFits remote false signal x, b') ∧
      Reading (past ++ [x]) rest (sum + maskPulse x) b' := by
  obtain ⟨b', hread, hb'⟩ := h.nextSpace
  refine ⟨b', ?_, hb'⟩
  unfold expectspace
  rw [syncPendingPulse_none h.pendingp.le]
  dsimp only
  rw [hread]
  dsimp only
  rw [hb'.pendings, if_neg (lt_irrefl 0)]
  unfold sampleFits
  rw [if_neg Bool.false_ne_true]
  cases isSpace x with
  | false => rfl
  | true =>
    rw [if_pos rfl, Bool.true_and]
    by_cases hm : x = 0
    · rw [if_pos hm, hm]
      rfl
    · rw [if_neg hm, bne_iff_ne.mpr hm, Bool.true_and]

theorem Reading.pulse_atEnd (h : Reading past [] sum b) (remote : IrRemote) (signal : Int) :
    (expectpulse remote signal b).1 = false := by
  unfold expectpulse
  rw [syncPendingSpace_none h.pendings.le]
  dsimp only
  rw [if_pos (h.noPulse _)]

theorem Reading.space_atEnd (h : Reading past [] sum b) (remote : IrRemote) (signal : Int) :
    (expectspace remote signal b).1 = false := by
  unfold expectspace
  rw [syncPendingPulse_none h.pendingp.le]
  dsimp only
  rw [if_pos (h.noSpace _)]

end Reading

/-! ## 3. One code, and the gap behind it -/

theorem duration_cons (x : Int) (samples : List Int) :
    duration (x :: samples) = maskPulse x + duration samples := List.sum_cons

theorem duration_append (a b : List Int) : duration (a ++ b) = duration a + duration b := by
  unfold duration
  rw [List.map_append, List.sum_append]

/-- **One code**: its signals are matched against the next samples. -/
theorem Reading.signals (remote : IrRemote) : ∀ (signals : List Int) {past rest : List Int}
    {sum : Int} {b : Rbuf}, Reading past rest sum b →
    (matchSignals remote signals b).1 = signalsFit remote true signals rest ∧
      (signalsFit remote true signals rest = true →
        Reading (past ++ rest.take signals.length) (rest.drop signals.length)
          (sum + duration (rest.take signals.length)) (matchSignals remote signals b).2)
  | [], past, rest, sum, b, h => by
    refine ⟨rfl, fun _ => ?_⟩
    rw [List.length_nil, List.take_zero, List.append_nil, List.drop_zero]
    have hsum : sum + duration [] = sum := Int.add_zero sum
    rw [hsum]
    exact h
  | [p], past, [], sum, b, h => by
    have hend := h.pulse_atEnd remote p
    exact ⟨hend, fun hfit => absurd hfit Bool.false_ne_true⟩
  | [p], past, x :: rest, sum, b, h => by
    obtain ⟨b', hp, hb'⟩ := h.pulse remote p
    have hfit : signalsFit remote true [p] (x :: rest) = sampleFits remote true p x := by
      unfold signalsFit
      exact Bool.and_true _
    have hrun : matchSignals remote [p] b = (sampleFits remote true p x, b') := hp
    rw [hrun, hfit]
    refine ⟨rfl, fun _ => ?_⟩
    have hsum : duration ([x] : List Int) = maskPulse x := Int.add_zero _
    show Reading (past ++ [x]) rest (sum + duration [x]) b'
    rw [hsum]
    exact hb'
  | p :: s :: signals, past, [], sum, b, h => by
    have hend := h.pulse_atEnd remote p
    unfold matchSignals
    generalize expectpulse remote p b = r at hend ⊢
    obtain ⟨ok, b'⟩ := r
    dsimp only at hend
    subst hend
    exact ⟨rfl, fun hfit => absurd hfit Bool.false_ne_true⟩
  | p :: s :: signals, past, [x], sum, b, h => by
    obtain ⟨b1, hp, hb1⟩ := h.pulse remote p
    have hend := hb1.space_atEnd remote s
    have hfit : signalsFit remote true (p :: s :: signals) [x] = false := by
      unfold signalsFit
      exact Bool.and_false _
    rw [hfit]
    refine ⟨?_, fun hf => absurd hf Bool.false_ne_true⟩
    unfold matchSignals
    rw [hp]
    cases sampleFits remote true p x with
    | false => rfl
    | true =>
      dsimp only
      generalize expectspace remote s b1 = r at hend ⊢
      obtain ⟨ok, b'⟩ := r
      dsimp only at hend
      subst hend
      rfl
  | p :: s :: signals, past, x :: y :: rest, sum, b, h => by
    obtain ⟨b1, hp, hb1⟩ := h.pulse remote p
    obtain ⟨b2, hs, hb2⟩ := hb1.space remote s
    have hfit : signalsFit remote true (p :: s :: signals) (x :: y :: rest) =
        (sampleFits remote true p x &&
          (sampleFits remote false s y && signalsFit remote true signals rest)) := rfl
    have hrun : matchSignals remote (p :: s :: signals) b =
        if sampleFits remote true p x then
          if sampleFits remote false s y then matchSignals remote signals b2 else (false, b2)
        else (false, b1) := by
      rw [matchSignals, hp]
      cases sampleFits remote true p x with
      | false => rfl
      | true =>
        dsimp only
        rw [hs]
        cases sampleFits remote false s y <;> rfl
    rw [hrun, hfit]
    cases sampleFits remote true p x with
    | false => exact ⟨rfl, fun hf => absurd hf Bool.false_ne_true⟩
    | true =>
      cases sampleFits remote false s y with
      | false => exact ⟨rfl, fun hf => absurd hf Bool.false_ne_true⟩
      | true =>
        obtain ⟨hfst, hnext⟩ := Reading.signals remote signals hb2
        refine ⟨hfst, fun hf => ?_⟩
        have hlast := hnext hf
        have hpast : past ++ [x] ++ [y] ++ rest.take signals.length =
            past ++ (x :: y :: rest).take (p :: s :: signals).length := by
          simp
        have hsum : sum + maskPulse x + maskPulse y + duration (rest.take signals.length) =
            sum + duration ((x :: y :: rest).take (p :: s :: signals).length) := by
          show _ = sum + duration (x :: y :: rest.take signals.length)
          rw [duration_cons, duration_cons]
          omega
        rw [hpast, hsum] at hlast
        exact hlast

section Gap

variable {past rest : List Int} {sum x : Int} {b : Rbuf}

theorem Reading.gap_atEnd (h : Reading past [] sum b) (remote : IrRemote) (gap : Int) :
    (getGap remote gap b).1 = true := by
  have hread := h.atEnd (gap - (gap * remote.eps).tdiv 100)
  unfold getGap
  generalize getNextRecBuffer (gap - (gap * remote.eps).tdiv 100) b = r at hread ⊢
  obtain ⟨data, b'⟩ := r
  dsimp only at hread ⊢
  rw [if_pos hread]

/-- Giving the last sample back. -/
theorem Reading.unget (h : Reading (past ++ [x]) rest (sum + maskPulse x) b) :
    Reading past (x :: rest) sum (ungetRecBuffer 1 b) := by
  have hs := h.samples
  have hw := h.within
  have hlen : (past ++ [x]).length = past.length + 1 := by simp
  have hr : b.rptr - 1 = past.length := by
    rw [h.rptr, hlen]
    omega
  have hlt : past.length < b.data.length := by omega
  have hsplit : (past ++ [x]) ++ rest = past ++ x :: rest := by simp
  have hx : b.sample past.length = x := by
    rw [Rbuf.sample, if_pos (Int.natCast_nonneg _), Int.toNat_natCast]
    exact sample_at (hs.trans hsplit) hlt
  have hunget : ungetRecBuffer 1 b =
      { b with rptr := past.length, sum := sum } := by
    have hsum := h.sum
    unfold ungetRecBuffer
    rw [if_pos (Or.inl rfl)]
    dsimp only
    rw [if_neg (by decide)]
    have hcast : b.rptr - ((1 : Nat) : Int) = past.length := hr
    have hsample : Rbuf.sample { b with rptr := (past.length : Int) } past.length = x := hx
    rw [hcast, hsample, hsum]
    have hback : sum + maskPulse x - maskPulse x = sum := by omega
    rw [hback]
  rw [hunget]
  exact ⟨hs.trans hsplit, rfl, Nat.le_of_lt hlt, h.pendingp, h.pendings, rfl, h.nonzero⟩

/-- **The gap**: a space is given back, a pulse is not. -/
theorem Reading.gap (h : Reading past (x :: rest) sum b) (remote : IrRemote) (gap : Int) :
    (getGap remote gap b).1 = gapFollows remote gap (x :: rest) ∧
      (x ≠ 0 → if isPulse x then
          Reading (past ++ [x]) rest (sum + maskPulse x) (getGap remote gap b).2
        else Reading past (x :: rest) sum (getGap remote gap b).2) := by
  obtain ⟨b', hread, hb'⟩ := h.read
  unfold getGap gapFollows
  rw [hread]
  dsimp only
  by_cases hx : x = 0
  · rw [if_pos hx]
    refine ⟨?_, fun hne => absurd hx hne⟩
    rw [hx]
    rfl
  · rw [if_neg hx, beq_eq_false_iff_ne.mpr hx, Bool.false_or]
    unfold isSpace
    cases isPulse x with
    | true => exact ⟨rfl, fun _ => hb'⟩
    | false => exact ⟨rfl, fun _ => hb'.unget⟩

end Gap

/-! ## 4. All the codes -/

theorem Tuned.expect {a b : IrRemote} (h : Tuned a b) (delta exdelta : Int) :
    WinLirc.expect b delta exdelta = WinLirc.expect a delta exdelta := by
  rw [h.rest]
  rfl

theorem Tuned.signalsFit {a b : IrRemote} (h : Tuned a b) (pulse : Bool)
    (signals samples : List Int) :
    WinLirc.signalsFit b pulse signals samples = WinLirc.signalsFit a pulse signals samples := by
  induction signals generalizing pulse samples with
  | nil => rfl
  | cons signal signals ih =>
    cases samples with
    | nil => rfl
    | cons sample samples =>
      have hfits : sampleFits b pulse signal sample = sampleFits a pulse signal sample := by
        unfold sampleFits
        rw [h.expect, h.expect]
      rw [WinLirc.signalsFit, WinLirc.signalsFit, hfits, ih]

theorem Tuned.gapFollows {a b : IrRemote} (h : Tuned a b) (sum : Int) (samples : List Int) :
    WinLirc.gapFollows b (rawGap b sum) samples = WinLirc.gapFollows a (rawGap a sum) samples := by
  have hgap : rawGap b sum = rawGap a sum := by
    rw [h.rest]
    rfl
  have hleast : ∀ x gap, expectAtLeast b x gap = expectAtLeast a x gap := by
    intro x gap
    rw [h.rest]
    rfl
  cases samples with
  | nil => rfl
  | cons x samples => rw [WinLirc.gapFollows, WinLirc.gapFollows, hgap, hleast]

theorem Tuned.isRcmm_of_isRaw {a b : IrRemote} (h : Tuned a b) (hraw : isRaw a = true) :
    isRcmm b = false := by
  have hprotocol : protocol b = protocol a := by
    rw [h.rest]
    rfl
  have hb : protocol b = RAW_CODES := hprotocol.trans (beq_iff_eq.mp hraw)
  rw [(protocol_cases b RAW_CODES hb).2.2.1]
  decide

/-- The first code that is complete where it is tried, the first one behind the
    first `k` samples. -/
def takenFrom (remote : IrRemote) (samples : List Int) : Nat → List IrNcode → Option IrNcode
  | _, [] => none
  | k, c :: codes =>
    if completeAt remote samples k c then some c
    else takenFrom remote samples (placeBehind remote samples k c) codes

theorem decodeRaw_cons (env : DecodeEnv) (c : IrNcode) (codes : List IrNcode) (r : IrRemote)
    (b : Rbuf) :
    decodeRaw env (c :: codes) r b =
      if (matchSignals r c.sequence b).1 then
        if (getGap r (rawGap r (matchSignals r c.sequence b).2.sum)
            (matchSignals r c.sequence b).2).1 then
          (some c, r, (getGap r (rawGap r (matchSignals r c.sequence b).2.sum)
            (matchSignals r c.sequence b).2).2)
        else
          decodeRaw env codes r (getGap r (rawGap r (matchSignals r c.sequence b).2.sum)
            (matchSignals r c.sequence b).2).2
      else
        decodeRaw env codes
          (syncRecBuffer env.lastRemote r (rewindRecBuffer (matchSignals r c.sequence b).2)).2.1
          (syncRecBuffer env.lastRemote r (rewindRecBuffer (matchSignals r c.sequence b).2)).2.2 := by
  rw [decodeRaw]
  unfold IrNcode.sequence rawGap
  generalize matchSignals r (c.signals.getD []) b = m
  obtain ⟨ok, b1⟩ := m
  cases ok with
  | false =>
    dsimp only
    generalize syncRecBuffer env.lastRemote r (rewindRecBuffer b1) = synced
    rw [if_neg Bool.false_ne_true]
  | true =>
    dsimp only
    generalize getGap r (if isConst r = true then minGap r - b1.sum else minGap r) b1 = g
    obtain ⟨gap, b2⟩ := g
    cases gap <;> rfl

/-- **The loop over the codes** takes that one. -/
theorem decodeRaw_takenFrom {remote : IrRemote} (hraw : isRaw remote = true) {env : DecodeEnv}
    {all samples : List Int} {gap : Int} (hgap : afterGap env.lastRemote all = some (gap, samples))
    (codes : List IrNcode) {r : IrRemote} {b : Rbuf} {lead : List Int} {k : Nat}
    (ht : Tuned remote r)
    (h : Reading (lead ++ samples.take k) (samples.drop k) (duration (samples.take k)) b)
    (hall : lead ++ samples = all) :
    (decodeRaw env codes r b).1 = takenFrom remote samples k codes := by
  induction codes generalizing r b lead k with
  | nil => rfl
  | cons c codes ih =>
    obtain ⟨hfst, hnext⟩ := h.signals r c.sequence
    rw [ht.signalsFit] at hfst hnext
    have hmoved := moves_matchSignals moves_sameSamples r c.sequence b h.nonzero
    have hwhole : b.samples = all := by
      rw [h.samples, List.append_assoc, List.take_append_drop, hall]
    rw [decodeRaw_cons, takenFrom]
    unfold completeAt placeBehind
    rw [hfst]
    cases hfit : signalsFit remote true c.sequence (samples.drop k) with
    | false =>
      rw [if_neg Bool.false_ne_true, Bool.false_and, if_neg Bool.false_ne_true,
        if_neg Bool.false_ne_true]
      -- the buffer is rewound, and the leading gap read again
      have hrewound := reading_rewind hmoved.2
      rw [hmoved.1, hwhole] at hrewound
      have hrcmm : isRcmm r = false := ht.isRcmm_of_isRaw hraw
      obtain ⟨-, lead', hread, hall'⟩ := (hrewound.syncRecBuffer hrcmm).2 gap samples hgap
      have ht' := ht.trans (syncRecBuffer_tuned env.lastRemote r
        (rewindRecBuffer (matchSignals r c.sequence b).2))
      refine ih ht' ?_ hall'
      rw [List.take_zero, List.append_nil, List.drop_zero]
      exact hread
    | true =>
      have hread := hnext hfit
      rw [if_pos rfl, if_pos rfl, Bool.true_and]
      have htake : samples.take k ++ (samples.drop k).take c.sequence.length =
          samples.take (k + c.sequence.length) := List.take_add.symm
      rw [List.append_assoc, htake, ← duration_append, htake, List.drop_drop] at hread
      have hsum := hread.sum
      have hgapFollows := ht.gapFollows (duration (samples.take (k + c.sequence.length)))
      rw [hsum]
      generalize hrest : samples.drop (k + c.sequence.length) = rest at hread ⊢
      cases rest with
      | nil =>
        rw [if_pos (hread.gap_atEnd r _)]
        rfl
      | cons x rest =>
        obtain ⟨hfound, hleft⟩ := hread.gap r
          (rawGap r (duration (samples.take (k + c.sequence.length))))
        rw [hgapFollows] at hfound
        rw [hfound]
        cases hcomplete : gapFollows remote
            (rawGap remote (duration (samples.take (k + c.sequence.length)))) (x :: rest) with
        | true =>
          rw [if_pos rfl, if_pos rfl]
        | false =>
          rw [if_neg Bool.false_ne_true, if_neg Bool.false_ne_true]
          have hx : x ≠ 0 := by
            rintro rfl
            exact absurd hcomplete.symm Bool.false_ne_true
          have hleft := hleft hx
          dsimp only
          cases hpulse : isPulse x with
          | true =>
            rw [hpulse, if_pos rfl] at hleft
            rw [if_pos rfl]
            have hone : (samples.drop (k + c.sequence.length)).take 1 = [x] := by
              rw [hrest]
              rfl
            have htake' : samples.take (k + c.sequence.length + 1) =
                samples.take (k + c.sequence.length) ++ [x] := by
              rw [List.take_add, hone]
            have hdrop' : samples.drop (k + c.sequence.length + 1) = rest := by
              rw [← List.drop_drop, hrest]
              rfl
            have hlen : duration [x] = maskPulse x := Int.add_zero _
            refine ih ht ?_ hall
            rw [htake', hdrop', duration_append, hlen, ← List.append_assoc]
            exact hleft
          | false =>
            rw [hpulse, if_neg Bool.false_ne_true] at hleft
            rw [if_neg Bool.false_ne_true]
            refine ih ht ?_ hall
            rw [hrest]
            exact hleft

/-! ## 5. The code that is taken, and the first complete one -/

/-- `InStep` for codes of which the first is tried behind `k` samples. -/
def InStepFrom (remote : IrRemote) (samples : List Int) (k : Nat) (codes : List IrNcode) : Prop :=
  ∀ i c, codes[i]? = some c → (∀ c' ∈ codes.take i, complete remote samples c' = false) →
    completeAt remote samples ((codes.take i).foldl (placeBehind remote samples) k) c =
      complete remote samples c

theorem inStepFrom_cons (remote : IrRemote) (samples : List Int) (k : Nat) (c : IrNcode)
    (codes : List IrNcode) :
    InStepFrom remote samples k (c :: codes) ↔
      completeAt remote samples k c = complete remote samples c ∧
        (complete remote samples c = false →
          InStepFrom remote samples (placeBehind remote samples k c) codes) := by
  constructor
  · intro h
    refine ⟨h 0 c rfl (fun c' hc' => absurd hc' List.not_mem_nil), fun hc i c' hi hbefore => ?_⟩
    refine h (i + 1) c' hi fun d hd => ?_
    rw [List.take_succ_cons] at hd
    rcases List.mem_cons.mp hd with rfl | hd
    · exact hc
    · exact hbefore d hd
  · rintro ⟨hfirst, hrest⟩ i c' hi hbefore
    cases i with
    | zero =>
      obtain rfl := Option.some.inj hi
      exact hfirst
    | succ i =>
      rw [List.take_succ_cons] at hbefore
      have hc := hbefore c List.mem_cons_self
      exact hrest hc i c' hi fun d hd => hbefore d (List.mem_cons_of_mem _ hd)

theorem takenFrom_mem {remote : IrRemote} {samples : List Int} {k : Nat} {codes : List IrNcode}
    {c : IrNcode} (h : takenFrom remote samples k codes = some c) : c ∈ codes := by
  induction codes generalizing k with
  | nil => exact absurd h.symm (Option.some_ne_none _)
  | cons d codes ih =>
    rw [takenFrom] at h
    split at h
    · obtain rfl := Option.some.inj h
      exact List.mem_cons_self
    · exact List.mem_cons_of_mem _ (ih h)

theorem takenFrom_eq_find {remote : IrRemote} {samples : List Int} {k : Nat}
    {codes : List IrNcode} (h : InStepFrom remote samples k codes) :
    takenFrom remote samples k codes = codes.find? (complete remote samples) := by
  induction codes generalizing k with
  | nil => rfl
  | cons c codes ih =>
    obtain ⟨hfirst, hrest⟩ := (inStepFrom_cons remote samples k c codes).mp h
    rw [takenFrom, List.find?_cons, hfirst]
    cases hc : complete remote samples c with
    | true => rfl
    | false =>
      rw [if_neg Bool.false_ne_true]
      exact ih (hrest hc)

/-- The number of a code of the list is not that of the code in front. -/
theorem number_ne {c : IrNcode} {codes : List IrNcode} (h : c.code ∉ codes.map (·.code))
    {found : Option IrNcode} (hfound : ∀ d, found = some d → d ∈ codes) :
    found.map (·.code) ≠ some c.code := by
  intro he
  obtain ⟨d, hd, hcode⟩ := Option.map_eq_some_iff.mp he
  exact h (hcode ▸ List.mem_map_of_mem (hfound d hd))

/-- Where the numbers of the codes differ, the number tells the code. -/
theorem inStepFrom_of_takenFrom {remote : IrRemote} {samples : List Int} {k : Nat}
    {codes : List IrNcode} (hnumbers : (codes.map (·.code)).Nodup)
    (h : (takenFrom remote samples k codes).map (·.code) =
      (codes.find? (complete remote samples)).map (·.code)) :
    InStepFrom remote samples k codes := by
  induction codes generalizing k with
  | nil => exact fun i c hi => absurd hi.symm (Option.some_ne_none _)
  | cons c codes ih =>
    rw [List.map_cons] at hnumbers
    obtain ⟨hnot, hnumbers⟩ := List.nodup_cons.mp hnumbers
    rw [takenFrom, List.find?_cons] at h
    rw [inStepFrom_cons]
    cases htaken : completeAt remote samples k c with
    | true =>
      rw [htaken, if_pos rfl] at h
      cases hc : complete remote samples c with
      | true => exact ⟨rfl, fun hf => absurd hf.symm Bool.false_ne_true⟩
      | false =>
        rw [hc] at h
        exact absurd h.symm (number_ne hnot fun d hd => List.mem_of_find?_eq_some hd)
    | false =>
      rw [htaken, if_neg Bool.false_ne_true] at h
      cases hc : complete remote samples c with
      | true =>
        rw [hc] at h
        exact absurd h (number_ne hnot fun d hd => takenFrom_mem hd)
      | false =>
        rw [hc] at h
        exact ⟨rfl, fun _ => ih hnumbers h⟩

/-- The frame begins with the signals of the code. -/
def begins (remote : IrRemote) (samples : List Int) (c : IrNcode) : Bool :=
  signalsFit remote true c.sequence samples

theorem placeOf_noBeginning {remote : IrRemote} {samples : List Int} {codes : List IrNcode}
    (h : ∀ c ∈ codes, begins remote samples c = false) : placeOf remote samples codes = 0 := by
  unfold placeOf
  induction codes with
  | nil => rfl
  | cons c codes ih =>
    have hc : placeBehind remote samples 0 c = 0 := by
      unfold placeBehind
      rw [List.drop_zero, if_neg (by rw [← begins, h c List.mem_cons_self]; decide)]
    rw [List.foldl_cons, hc]
    exact ih fun d hd => h d (List.mem_cons_of_mem _ hd)

/-- Where no code in front of the first complete one begins the frame. -/
theorem inStep_of_noBeginning {remote : IrRemote} {samples : List Int} {codes : List IrNcode}
    (h : ∀ i, (∀ c ∈ codes.take i, complete remote samples c = false) →
      i < codes.length → ∀ c ∈ codes.take i, begins remote samples c = false) :
    InStep remote samples codes := by
  intro i c hi hbefore
  have hlt : i < codes.length := (List.getElem?_eq_some_iff.mp hi).1
  rw [placeOf_noBeginning (h i hbefore hlt)]
  rfl

/-- `receive_decode` of a raw remote without header and repeat frame. -/
theorem receiveDecode_raw {remote : IrRemote} (hraw : isRaw remote = true)
    (hheader : hasHeader remote = false) (hrepeat : hasRepeat remote = false) {env : DecodeEnv}
    (hmode : isSampleMode env.recMode = true) {b : Rbuf} (hb : 0 ∉ b.input) (fuel : Nat) :
    (receiveDecode fuel env remote b).map (fun r => r.1.map (·.code)) =
      some (((afterGap env.lastRemote b.samples).bind fun frame =>
        takenFrom remote frame.2 0 remote.codes).map (·.code)) := by
  have hread : Reading [] b.samples 0
      { rewindRecBuffer b with isBiphase := isBiphase remote } :=
    { reading_rewind hb with }
  have hrcmm : isRcmm remote = false := (Tuned.refl remote).isRcmm_of_isRaw hraw
  have hcode : env.recMode ≠ LIRC_MODE_LIRCCODE := by
    intro he
    rw [he] at hmode
    exact absurd hmode (by decide)
  have ht := syncRecBuffer_tuned env.lastRemote remote
    { rewindRecBuffer b with isBiphase := isBiphase remote }
  obtain ⟨hnone, hsome⟩ := @Reading.syncRecBuffer env.lastRemote remote hrcmm b.samples _ hread
  unfold receiveDecode decodeFront
  rw [if_pos hmode]
  dsimp only
  generalize syncRecBuffer env.lastRemote remote
    { rewindRecBuffer b with isBiphase := isBiphase remote } = synced at ht hnone hsome ⊢
  obtain ⟨sync, r, b1⟩ := synced
  dsimp only at ht hnone hsome ⊢
  have hrepeat' : hasRepeat r = false := by
    rw [ht.rest]
    exact hrepeat
  have hheader' : hasHeader r = false := by
    rw [ht.rest]
    exact hheader
  have hraw' : isRaw r = true := by
    rw [ht.rest]
    exact hraw
  have hcodes : r.codes = remote.codes := by rw [ht.rest]
  cases hgap : afterGap env.lastRemote b.samples with
  | none =>
    rw [if_pos (hnone hgap)]
    rfl
  | some frame =>
    obtain ⟨gap, samples⟩ := frame
    obtain ⟨rfl, lead, hread1, hall⟩ := hsome gap samples hgap
    have hread2 : Reading (lead ++ samples.take 0) (samples.drop 0) (duration (samples.take 0)) b1 := by
      rw [List.take_zero, List.append_nil, List.drop_zero]
      exact hread1
    have hloop := decodeRaw_takenFrom hraw hgap remote.codes ht hread2 hall
    rw [if_neg (afterGap_ne hgap), hrepeat', Bool.false_and, if_neg Bool.false_ne_true]
    unfold frontHeader
    rw [hheader', if_neg Bool.false_ne_true]
    dsimp only
    unfold decodeRest
    rw [if_pos hraw', if_neg hcode, hcodes]
    rw [Option.bind_some, ← hloop]
    generalize decodeRaw env remote.codes r b1 = found
    obtain ⟨_ | c, r', b'⟩ := found <;> rfl

/-- **The first complete code** is returned, and none only if there is none,
    where the frame keeps the codes in step; and, if the numbers of the codes
    differ, for no other frame. -/
theorem rawDecode_first {remote : IrRemote} (hraw : isRaw remote = true)
    (hheader : hasHeader remote = false) (hrepeat : hasRepeat remote = false) {env : DecodeEnv}
    (hmode : isSampleMode env.recMode = true) {b : Rbuf} (hb : 0 ∉ b.input) (fuel : Nat) :
    (FrameInStep env remote b → ReturnsFirst fuel env remote b) ∧
      ((remote.codes.map (·.code)).Nodup →
        ReturnsFirst fuel env remote b → FrameInStep env remote b) := by
  unfold ReturnsFirst FrameInStep
  rw [receiveDecode_raw hraw hheader hrepeat hmode hb]
  cases hgap : afterGap env.lastRemote b.samples with
  | none => exact ⟨fun _ => rfl, fun _ _ gap samples h => absurd h.symm (Option.some_ne_none _)⟩
  | some frame =>
    obtain ⟨gap, samples⟩ := frame
    rw [Option.bind_some, Option.bind_some]
    constructor
    · intro h
      rw [takenFrom_eq_find (h gap samples rfl)]
    · intro hnumbers h gap' samples' he
      obtain ⟨rfl, rfl⟩ := Prod.mk.inj (Option.some.inj he)
      exact inStepFrom_of_takenFrom hnumbers (Option.some.inj h)

/-- Two codes of which the first begins the second. -/
def beginningRemote : IrRemote :=
  { name := "beginning", flags := RAW_CODES, eps := 30, aeps := 100, gap := 40000
    codes := [{ name := "A", code := 0, signals := some [500] },
      { name := "B", code := 1, signals := some [500, 1000, 500] }] }

/-- The second one received. -/
def beginningBuf : Rbuf := { data := [100000, PULSE_BIT + 500, 1000, PULSE_BIT + 500, 50000] }

/-- The first one received. -/
def firstBuf : Rbuf := { data := [100000, PULSE_BIT + 500, 50000] }

theorem rawDecode_first_beginning : ReturnsFirst 0 {} beginningRemote firstBuf :=
  (rawDecode_first (by decide) (by decide) (by decide) (by decide) (by decide) 0).1 (by
    intro gap samples h
    have hframe : afterGap none firstBuf.samples = some (100000, [PULSE_BIT + 500, 50000]) := by
      decide +kernel
    obtain ⟨-, rfl⟩ := Prod.mk.inj (Option.some.inj (hframe.symm.trans h))
    refine inStep_of_noBeginning fun i hbefore hlt => ?_
    have hi : i = 0 := by
      by_contra hne
      obtain ⟨n, rfl⟩ := Nat.exists_eq_succ_of_ne_zero hne
      exact absurd (hbefore _ List.mem_cons_self) (by decide +kernel)
    rw [hi, List.take_zero]
    exact fun c hc => absurd hc List.not_mem_nil)

/-- **A code behind its own beginning is passed over.** -/
theorem rawDecode_passedOver :
    isRaw beginningRemote = true ∧ hasHeader beginningRemote = false ∧
      hasRepeat beginningRemote = false ∧ (beginningRemote.codes.map (·.code)).Nodup ∧
      beginningBuf.input = [] ∧
      complete beginningRemote [PULSE_BIT + 500, 1000, PULSE_BIT + 500, 50000]
        { name := "B", code := 1, signals := some [500, 1000, 500] } = true ∧
      ¬ ReturnsFirst 0 {} beginningRemote beginningBuf := by
  unfold ReturnsFirst
  decide +kernel

/-! ## 6. Pulses and spaces by turns -/

/-- Pulses and spaces by turns. -/
def ByTurns : Bool → List Int → Prop
  | _, [] => True
  | pulse, x :: samples => isPulse x = pulse ∧ ByTurns (!pulse) samples

/-- There is no pulse behind the first `k` samples. -/
def NoPulseAt (samples : List Int) (k : Nat) : Prop :=
  ∀ x rest, samples.drop k = x :: rest → isPulse x = false

theorem alternating_drop {pulse : Bool} {samples : List Int} (h : ByTurns pulse samples)
    (k : Nat) : ∃ pulse', ByTurns pulse' (samples.drop k) := by
  induction k generalizing pulse samples with
  | zero => exact ⟨pulse, h⟩
  | succ k ih =>
    cases samples with
    | nil => exact ⟨pulse, trivial⟩
    | cons x samples => exact ih h.2

/-- A code that is not taken leaves the next one in front of a space. -/
theorem noPulseAt_placeBehind {remote : IrRemote} {samples : List Int}
    (halt : ByTurns true samples) {c : IrNcode} (hc : begins remote samples c = true) :
    NoPulseAt samples (placeBehind remote samples 0 c) := by
  unfold placeBehind
  rw [List.drop_zero, ← begins, if_pos hc, Nat.zero_add]
  generalize hrest : samples.drop c.sequence.length = rest
  cases rest with
  | nil =>
    intro x more h
    exact absurd (hrest.symm.trans h) (List.cons_ne_nil x more).symm
  | cons x rest =>
    dsimp only
    cases hpulse : isPulse x with
    | false =>
      rw [if_neg Bool.false_ne_true]
      intro y more h
      obtain ⟨rfl, -⟩ := List.cons.inj (hrest.symm.trans h)
      exact hpulse
    | true =>
      rw [if_pos rfl]
      intro y more h
      rw [← List.drop_drop, hrest] at h
      have hdrop : rest = y :: more := h
      obtain ⟨pulse, halt'⟩ := alternating_drop halt c.sequence.length
      rw [hrest, hdrop] at halt'
      obtain ⟨h1, h2, -⟩ := halt'
      rw [h2, ← h1, hpulse]
      rfl

/-- In front of a space no code with a signal is found. -/
theorem signalsFit_noPulseAt {remote : IrRemote} {samples : List Int} {k : Nat}
    (hk : NoPulseAt samples k) {c : IrNcode} (hc : c.sequence ≠ []) :
    signalsFit remote true c.sequence (samples.drop k) = false := by
  obtain ⟨signal, signals, hsignals⟩ := List.exists_cons_of_ne_nil hc
  rw [hsignals]
  generalize hrest : samples.drop k = rest
  cases rest with
  | nil => rfl
  | cons x rest =>
    have hfits : sampleFits remote true signal x = false := by
      unfold sampleFits
      rw [if_pos rfl, hk x rest hrest, Bool.false_and, Bool.false_and]
    rw [signalsFit, hfits, Bool.false_and]

/-- How many of the last codes begin the frame, without a break. -/
def beginningsAtEnd (remote : IrRemote) (samples : List Int) (codes : List IrNcode) : Nat :=
  (codes.reverse.takeWhile (begins remote samples)).length

/-- Where a code is tried: at the start of the frame, or in front of a space. -/
theorem placeOf_alternating {remote : IrRemote} {samples : List Int}
    (halt : ByTurns true samples) {codes : List IrNcode} (hne : ∀ c ∈ codes, c.sequence ≠ []) :
    (beginningsAtEnd remote samples codes % 2 = 0 → placeOf remote samples codes = 0) ∧
      (beginningsAtEnd remote samples codes % 2 = 1 →
        NoPulseAt samples (placeOf remote samples codes)) := by
  induction codes using List.reverseRecOn with
  | nil => exact ⟨fun _ => rfl, fun h => absurd h Nat.zero_ne_one⟩
  | append_singleton codes c ih =>
    obtain ⟨heven, hodd⟩ := ih fun d hd => hne d (List.mem_append_left _ hd)
    have hc : c.sequence ≠ [] := hne c (by simp)
    have hplace : placeOf remote samples (codes ++ [c]) =
        placeBehind remote samples (placeOf remote samples codes) c := by
      unfold placeOf
      rw [List.foldl_append]
      rfl
    have hcount : beginningsAtEnd remote samples (codes ++ [c]) =
        if begins remote samples c then beginningsAtEnd remote samples codes + 1 else 0 := by
      unfold beginningsAtEnd
      rw [List.reverse_append, List.reverse_singleton, List.singleton_append, List.takeWhile_cons]
      cases begins remote samples c <;> rfl
    -- in front of a space the code fails, and the next one starts anew
    have haway : beginningsAtEnd remote samples codes % 2 = 1 →
        placeBehind remote samples (placeOf remote samples codes) c = 0 := by
      intro h
      unfold placeBehind
      rw [signalsFit_noPulseAt (hodd h) hc, if_neg Bool.false_ne_true]
    rw [hplace, hcount]
    cases hbegins : begins remote samples c with
    | false =>
      rw [if_neg Bool.false_ne_true]
      refine ⟨fun _ => ?_, fun h => absurd h (by decide)⟩
      rcases Nat.mod_two_eq_zero_or_one (beginningsAtEnd remote samples codes) with h | h
      · rw [heven h]
        unfold placeBehind
        rw [List.drop_zero, ← begins, hbegins, if_neg Bool.false_ne_true]
      · exact haway h
    | true =>
      rw [if_pos rfl]
      constructor
      · intro h
        exact haway (by omega)
      · intro h
        rw [heven (by omega)]
        exact noPulseAt_placeBehind halt hbegins

/-- **In a frame of pulses and spaces by turns** the codes are in step just if
    the first complete one stands behind an even number of codes that begin
    the frame. -/
theorem inStep_alternating {remote : IrRemote} {samples : List Int}
    (halt : ByTurns true samples) {codes : List IrNcode} (hne : ∀ c ∈ codes, c.sequence ≠ []) :
    InStep remote samples codes ↔ ∀ i c, codes[i]? = some c →
      (∀ c' ∈ codes.take i, complete remote samples c' = false) →
      complete remote samples c = true → beginningsAtEnd remote samples (codes.take i) % 2 = 0 := by
  have hplace : ∀ i, (beginningsAtEnd remote samples (codes.take i) % 2 = 0 →
      placeOf remote samples (codes.take i) = 0) ∧
      (beginningsAtEnd remote samples (codes.take i) % 2 = 1 →
        NoPulseAt samples (placeOf remote samples (codes.take i))) :=
    fun i => placeOf_alternating halt fun c hc => hne c (List.mem_of_mem_take hc)
  have haway : ∀ i c, codes[i]? = some c →
      beginningsAtEnd remote samples (codes.take i) % 2 = 1 →
        completeAt remote samples (placeOf remote samples (codes.take i)) c = false := by
    intro i c hi hodd
    unfold completeAt
    rw [signalsFit_noPulseAt ((hplace i).2 hodd) (hne c (List.mem_of_getElem? hi)), Bool.false_and]
  constructor
  · intro h i c hi hbefore hc
    by_contra hodd
    have hsame := h i c hi hbefore
    rw [haway i c hi (by omega), hc] at hsame
    exact Bool.false_ne_true hsame
  · intro h i c hi hbefore
    rcases Nat.mod_two_eq_zero_or_one (beginningsAtEnd remote samples (codes.take i)) with he | ho
    · rw [(hplace i).1 he]
      rfl
    · rw [haway i c hi ho]
      cases hc : complete remote samples c with
      | false => rfl
      | true =>
        have heven := h i c hi hbefore hc
        omega

end WinLirc
