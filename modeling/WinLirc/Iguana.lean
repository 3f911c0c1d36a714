/-
  File:      WinLirc/Iguana.lean
  Subject:   DLL/Iguana/SendReceiveData.cpp: the packets of the device.

  `receiveLoop` merges the words of a packet, and carries the last run over to
  the next one. `receiveLoop_runs`: over all packets it emits the normal form
  of the whole stream without its last run, each time saturated.
-/
import WinLirc.LircDefines
import WinLirc.Signal.Coalesce

namespace WinLirc.Iguana

open Signal

/-! ## 1. `receiveLoop` -/

/-- `data & PULSE_BIT`. -/
def pulseBit (data : Int) : Int := if isPulse data then PULSE_BIT else 0

/-- `prevCode` where a run begins with `code`. -/
def startRun (code : Int) : Int :=
  let prevCode := maskPulse code
  let prevCode := if prevCode > PULSE_MASK then PULSE_MASK else prevCode
  if isPulse code then PULSE_BIT + prevCode else prevCode

/-- `prevCode` where its run goes on with `code`. -/
def joinRun (prevCode code : Int) : Int :=
  if maskPulse prevCode + maskPulse code > PULSE_MASK then pulseBit prevCode + PULSE_MASK
  else prevCode + maskPulse code

/-- The loop over the words of a packet: `prevCode` and what is in `buffer`;
    `none` if it is written to behind its end. -/
def translate : Int → List Int → List Int → Option (Int × List Int)
  | prevCode, buffer, [] => some (prevCode, buffer)
  | prevCode, buffer, code :: more =>
    if prevCode = -1 then translate (startRun code) buffer more
    else if (isPulse prevCode && isPulse code) || (!isPulse prevCode && !isPulse code) then
      translate (joinRun prevCode code) buffer more
    else if buffer.length = 8 then none
    else translate (startRun code) (buffer ++ [prevCode]) more

/-- What `setData` is given for each packet. -/
def receiveLoop : Int → List (List Int) → Option (List (List Int))
  | _, [] => some []
  | prevCode, packet :: packets =>
    (translate prevCode [] packet).bind fun (prevCode, buffer) =>
      (receiveLoop prevCode packets).map (buffer :: ·)

/-! ## 2. Runs -/

/-- A word: is it a pulse, and how long. -/
def signalOf (code : Int) : Bool × Int := (isPulse code, maskPulse code)

/-- The sample for a run. -/
def sampleOf (run : Bool × Int) : Int :=
  (if run.1 then PULSE_BIT else 0) + min run.2 PULSE_MASK

variable {l : Bool} {d : Int}

theorem isPulse_sampleOf (h : 0 ≤ d) : isPulse (sampleOf (l, d)) = l := by
  have hmask : 0 ≤ PULSE_MASK := by decide
  have h0 : 0 ≤ min d PULSE_MASK := le_min h hmask
  have h1 : min d PULSE_MASK ≤ PULSE_MASK := min_le_right d PULSE_MASK
  unfold sampleOf
  cases l with
  | true => exact isPulse_add h0 h1
  | false =>
    rw [if_neg Bool.false_ne_true, zero_add]
    exact isPulse_of_le h0 h1

theorem maskPulse_sampleOf (h : 0 ≤ d) : maskPulse (sampleOf (l, d)) = min d PULSE_MASK := by
  have hmask : 0 ≤ PULSE_MASK := by decide
  have h0 : 0 ≤ min d PULSE_MASK := le_min h hmask
  have h1 : min d PULSE_MASK ≤ PULSE_MASK := min_le_right d PULSE_MASK
  unfold sampleOf
  cases l with
  | true => exact maskPulse_add h0 h1
  | false =>
    rw [if_neg Bool.false_ne_true, zero_add]
    exact maskPulse_of_le h0 h1

theorem sampleOf_ne (h : 0 ≤ d) : sampleOf (l, d) ≠ -1 := by
  have hmask : 0 ≤ PULSE_MASK := by decide
  have h0 : 0 ≤ min d PULSE_MASK := le_min h hmask
  have hbit : 0 ≤ if l then PULSE_BIT else 0 := by
    cases l <;> decide
  unfold sampleOf
  dsimp only
  omega

theorem maskPulse_nonneg (code : Int) : 0 ≤ maskPulse code := Int.emod_nonneg code (by decide)

theorem startRun_eq (code : Int) : startRun code = sampleOf (signalOf code) := by
  have hlt : maskPulse code < PULSE_BIT := Int.emod_lt_of_pos code (by decide)
  have hle : maskPulse code ≤ PULSE_MASK := by
    unfold PULSE_BIT at hlt
    unfold PULSE_MASK
    omega
  unfold startRun sampleOf signalOf
  dsimp only
  rw [if_neg (not_lt.mpr hle), min_eq_left hle]
  split
  · rfl
  · exact (zero_add _).symm

/-- **One more word of the run.** -/
theorem joinRun_eq (h : 0 ≤ d) (code : Int) :
    joinRun (sampleOf (l, d)) code = sampleOf (l, d + maskPulse code) := by
  have hcode := maskPulse_nonneg code
  unfold joinRun pulseBit
  rw [maskPulse_sampleOf h, isPulse_sampleOf h]
  unfold sampleOf
  dsimp only
  generalize (if l then PULSE_BIT else 0) = bit
  split
  · next hover =>
    rw [min_eq_right (b := PULSE_MASK)]
    omega
  · next hfits => omega

/-! ## 3. The stream -/

/-- The runs of a stream of words. -/
def runs (codes : List Int) : List (Bool × Int) := coalesce (codes.map signalOf)

/-- What is pending and what has been emitted after the words `codes`. -/
inductive Pending : List Int → Int → List Int → Prop where
  | start : Pending [] (-1) []
  | run {codes : List Int} {front : List (Bool × Int)} {l : Bool} {d : Int}
      (hruns : runs codes = front ++ [(l, d)]) (hd : 0 ≤ d) :
      Pending codes (sampleOf (l, d)) (front.map sampleOf)

theorem same_kind (a b : Bool) : ((a && b) || (!a && !b)) = (a == b) := by
  cases a <;> cases b <;> rfl

theorem runs_snoc (codes : List Int) (code : Int) :
    runs (codes ++ [code]) = coalesce (codes.map signalOf ++ [(isPulse code, maskPulse code)]) := by
  unfold runs
  rw [List.map_append]
  rfl

/-- What is emitted is all runs but the last. -/
theorem Pending.emitted {codes emitted : List Int} {prevCode : Int} (h : Pending codes prevCode emitted) :
    emitted = ((runs codes).map sampleOf).dropLast := by
  cases h with
  | start => rfl
  | run hruns _ => rw [hruns, List.map_append, List.map_singleton, List.dropLast_concat]

/-- **The words of a packet.** -/
theorem translate_pending {codes emitted buffer packet : List Int} {prevCode : Int}
    (h : Pending codes prevCode (emitted ++ buffer)) (hlen : buffer.length + packet.length ≤ 8) :
    ∃ prevCode' buffer', translate prevCode buffer packet = some (prevCode', buffer') ∧
      buffer'.length ≤ 8 ∧ Pending (codes ++ packet) prevCode' (emitted ++ buffer') := by
  induction packet generalizing codes prevCode buffer with
  | nil =>
    rw [List.append_nil]
    exact ⟨prevCode, buffer, rfl, hlen, h⟩
  | cons code more ih =>
    rw [List.length_cons] at hlen
    have happend : codes ++ code :: more = codes ++ [code] ++ more := by
      rw [List.append_assoc]
      rfl
    rw [translate, happend]
    generalize hbuffer : emitted ++ buffer = out at h
    cases h with
    | start =>
      obtain ⟨rfl, rfl⟩ := List.append_eq_nil_iff.mp hbuffer
      rw [if_pos rfl, startRun_eq]
      exact ih (@Pending.run [code] [] _ _ rfl (maskPulse_nonneg code)) (by omega)
    | @run _ front l d hruns hd =>
      have hcode := maskPulse_nonneg code
      rw [if_neg (sampleOf_ne hd), isPulse_sampleOf hd, same_kind]
      by_cases hsame : l = isPulse code
      · have hnext : runs (codes ++ [code]) = front ++ [(l, d + maskPulse code)] := by
          rw [runs_snoc, ← hsame]
          exact coalesce_snoc_same (maskPulse code) hruns
        rw [if_pos (beq_iff_eq.mpr hsame), joinRun_eq hd]
        refine ih ?_ (by omega)
        rw [hbuffer]
        exact .run hnext (by omega)
      · have hnext : runs (codes ++ [code]) = front ++ [(l, d)] ++ [signalOf code] := by
          rw [runs_snoc, List.append_assoc]
          exact coalesce_snoc_ne (maskPulse code) hruns hsame
        rw [if_neg (fun h => hsame (beq_iff_eq.mp h)), if_neg (by omega), startRun_eq]
        refine ih ?_ (by rw [List.length_append, List.length_singleton]; omega)
        rw [← List.append_assoc, hbuffer]
        have hrun := Pending.run hnext hcode
        rwa [List.map_append] at hrun

/-- **All packets**, from any pending run on. -/
theorem receiveLoop_pending {codes emitted : List Int} {prevCode : Int} {packets : List (List Int)}
    (h : Pending codes prevCode emitted) (hlen : ∀ packet ∈ packets, packet.length ≤ 8) :
    ∃ log prevCode', receiveLoop prevCode packets = some log ∧ (∀ buffer ∈ log, buffer.length ≤ 8) ∧
      Pending (codes ++ packets.flatten) prevCode' (emitted ++ log.flatten) := by
  induction packets generalizing codes emitted prevCode with
  | nil =>
    rw [List.flatten_nil, List.append_nil]
    refine ⟨[], prevCode, rfl, fun _ hb => absurd hb List.not_mem_nil, ?_⟩
    rwa [List.flatten_nil, List.append_nil]
  | cons packet packets ih =>
    rw [← List.append_nil emitted] at h
    have hpacket : ([] : List Int).length + packet.length ≤ 8 := by
      rw [List.length_nil, Nat.zero_add]
      exact hlen packet List.mem_cons_self
    obtain ⟨prev1, buffer, htranslate, hbuffer, h1⟩ := translate_pending h hpacket
    obtain ⟨log, prev2, hloop, hlog, h2⟩ := ih h1 fun p hp => hlen p (List.mem_cons_of_mem packet hp)
    refine ⟨buffer :: log, prev2, ?_, List.forall_mem_cons.mpr ⟨hbuffer, hlog⟩, ?_⟩
    · rw [receiveLoop, htranslate, Option.bind_some]
      dsimp only
      rw [hloop]
      rfl
    · rwa [List.flatten_cons, List.flatten_cons, ← List.append_assoc, ← List.append_assoc]

/-- The samples of a stream alternate. -/
theorem alternating_samples (codes : List Int) :
    ((runs codes).map sampleOf).IsChain fun a b => isPulse a ≠ isPulse b := by
  have h0 : ∀ run ∈ runs codes, 0 ≤ run.2 := by
    refine forall_coalesce (fun a b ha hb => Int.add_nonneg ha hb) fun e he => ?_
    obtain ⟨code, -, rfl⟩ := List.mem_map.mp he
    exact maskPulse_nonneg code
  refine (List.isChain_map sampleOf).mpr ((alternating_coalesce _).imp_of_mem_imp ?_)
  intro a b ha hb hne
  rw [isPulse_sampleOf (h0 a ha), isPulse_sampleOf (h0 b hb)]
  exact hne

/-- **What is received** in packets of at most 8 words: the runs of the whole stream
    without the last one. -/
theorem receiveLoop_runs (packets : List (List Int)) (hlen : ∀ packet ∈ packets, packet.length ≤ 8) :
    ∃ log, receiveLoop (-1) packets = some log ∧ (∀ buffer ∈ log, buffer.length ≤ 8) ∧
      log.flatten = ((runs packets.flatten).map sampleOf).dropLast ∧
      log.flatten.IsChain fun a b => isPulse a ≠ isPulse b := by
  obtain ⟨log, prevCode, hloop, hlog, h⟩ := receiveLoop_pending .start hlen
  rw [List.nil_append, List.nil_append] at h
  refine ⟨log, hloop, hlog, h.emitted, ?_⟩
  rw [h.emitted]
  exact (alternating_samples packets.flatten).dropLast

/-- A pulse in two packets, the second with more than a sample can hold. -/
theorem receiveLoop_runs_two :
    ∃ log, receiveLoop (-1) [[0x1000190, 0x10000C8], [0x1FFFFFF, 0x320, 0x1000190]] = some log ∧
      log.flatten = [0x1FFFFFF, 0x320] := by
  obtain ⟨log, hloop, -, hlog, -⟩ :=
    receiveLoop_runs [[0x1000190, 0x10000C8], [0x1FFFFFF, 0x320, 0x1000190]] (by decide)
  refine ⟨log, hloop, hlog.trans ?_⟩
  decide

end WinLirc.Iguana
