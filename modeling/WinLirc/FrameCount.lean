/-
  File:      WinLirc/FrameCount.lean
  Subject:   The frames of a transmission: how many, which, and when they are
             sent.

  For a remote that sends codes only (not raw, no repeat frame) the schedule
  is the parts of the code, once and again for every repeat (`parts_schedule`).
  `init_send` ends within that many turns, and it succeeds when the frames
  and their gaps fit (`allSend_iff`) and there is a pulse among them.
-/
import WinLirc.Polarity

namespace WinLirc

open Signal

/-! ## 1. The parts in the schedule -/

/-- The part of a code that a frame sends. -/
def FrameKind.part : FrameKind → Option IrCode
  | .code part _ _ => some part
  | _ => none

/-- How often the parts of the code are sent. -/
def rounds (remote : IrRemote) (repeats : Int) : Nat := 1 + (max remote.minRepeat repeats).toNat

theorem parts_kindsFrom {remote : IrRemote} (hraw : isRaw remote = false)
    (hrep : hasRepeat remote = false) (t : Int) (slots : List (IrCode × Bool)) :
    (kindsFrom remote t slots).map FrameKind.part = slots.map (fun e => some e.1) := by
  induction slots generalizing t with
  | nil => rfl
  | cons e slots ih =>
    obtain ⟨part, rep⟩ := e
    rw [kindsFrom, List.map_cons, ih, List.map_cons]
    simp [slotKind, hraw, hrep, FrameKind.part]

theorem slotsLeft_init {remote : IrRemote} {code : IrNcode} {repeats : Int}
    (hts : code.transmitState = []) :
    (slotsLeft (initSendState remote code repeats)).map Prod.fst =
      (List.replicate (rounds remote repeats) (fullRound code)).flatten := by
  have hround : roundLeft code = fullRound code := by rw [roundLeft, hts, fullRound]
  have hmap (b : Bool) (l : List IrCode) : (l.map (·, b)).map Prod.fst = l := by
    rw [List.map_map]
    exact List.map_id l
  rw [rounds, Nat.add_comm, List.replicate_succ, List.flatten_cons, slotsLeft, List.map_append]
  show ((roundLeft code).map (·, false)).map Prod.fst ++ _ = _
  rw [hmap, hround]
  congr 1
  rw [List.map_flatten, List.map_replicate, hmap]
  rfl

/-- **The schedule of a remote that sends codes only**: the parts in order,
    once for every round. -/
theorem parts_schedule {remote : IrRemote} {code : IrNcode} (repeats : Int)
    (hraw : isRaw remote = false) (hrep : hasRepeat remote = false)
    (hts : code.transmitState = []) :
    (schedule remote code repeats).map FrameKind.part =
      ((List.replicate (rounds remote repeats) (fullRound code)).flatten).map some := by
  have hkinds : schedule remote code repeats =
      kindsFrom remote remote.toggleMaskState (slotsLeft (initSendState remote code repeats)) := by
    rw [schedule, kindsLeft, ← kindsFrom_config, initSendState_config, kindsFrom_config]
    rfl
  rw [hkinds, parts_kindsFrom hraw hrep, ← slotsLeft_init hts, List.map_map]
  rfl

theorem kind_transmitFrames (remote : IrRemote) (code : IrNcode) (kinds : List FrameKind)
    (data : List Emission) :
    (transmitFrames remote code kinds data).map Frame.kind = kinds := by
  induction kinds generalizing data with
  | nil => rfl
  | cons k kinds ih => rw [transmitFrames, List.map_cons, ih]

/-! ## 2. When every frame is sent -/

section Fit

variable {remote : IrRemote} {code : IrNcode}

theorem length_le_transmit (kinds : List FrameKind) (data : List Emission) :
    data.length ≤ (transmit remote code kinds data).length := by
  induction kinds generalizing data with
  | nil => exact Nat.le_refl _
  | cons k kinds ih =>
    have h := ih (sendKind remote code data k)
    have hlen := length_sendKind remote code data k
    rw [List.length_append] at hlen
    rw [transmit]
    omega

/-- **All frames are sent** if the whole transmission fits the buffer, every
    gap is long enough, and raw codes have signals. -/
theorem allSend_iff {kinds : List FrameKind} {data : List Emission}
    (hraw : ∀ k ∈ kinds, k = .raw → code.signals ≠ none) (he : data.length % 2 = 0)
    (hcap : data.length ≤ WBUF_SIZE) :
    AllSend remote code kinds data ↔
      (transmit remote code kinds data).length ≤ WBUF_SIZE ∧
      ∀ before k after, kinds = before ++ k :: after →
        (frameGap remote code (transmit remote code before data) k).isSome := by
  induction kinds generalizing data with
  | nil => simp [AllSend, transmit, hcap]
  | cons k kinds ih =>
    have hlen := length_sendKind remote code data k
    have hle : (sendKind remote code data k).length ≤
        (transmit remote code kinds (sendKind remote code data k)).length :=
      length_le_transmit kinds _
    rw [List.length_append] at hlen
    rw [AllSend, transmit, Sends]
    constructor
    · rintro ⟨⟨-, hfit, hgap⟩, hall⟩
      have hcap' : (sendKind remote code data k).length ≤ WBUF_SIZE := by
        unfold WBUF_SIZE at *
        omega
      obtain ⟨h1, h2⟩ := (ih (fun j hj => hraw j (List.mem_cons_of_mem _ hj)) (by omega)
        hcap').mp hall
      refine ⟨h1, fun before j after hsplit => ?_⟩
      cases before with
      | nil =>
        obtain ⟨rfl, -⟩ := List.cons.inj hsplit
        exact hgap
      | cons b before =>
        obtain ⟨rfl, hrest⟩ := List.cons.inj hsplit
        exact h2 before j after hrest
    · rintro ⟨h1, h2⟩
      have hcap' : (sendKind remote code data k).length ≤ WBUF_SIZE := Nat.le_trans hle h1
      refine ⟨⟨hraw k List.mem_cons_self, by omega, h2 [] k kinds rfl⟩, ?_⟩
      refine (ih (fun j hj => hraw j (List.mem_cons_of_mem _ hj)) (by omega) hcap').mpr
        ⟨h1, fun before j after hsplit => ?_⟩
      exact h2 (k :: before) j after (by rw [hsplit]; rfl)

/-- Every entry of a transmission of positive times is positive. -/
theorem positive_transmit {kinds : List FrameKind} {data : List Emission}
    (hpos : ∀ k ∈ kinds, Positive (frameSignal remote code k)) (hd : Positive data)
    (hgap : ∀ before k after, kinds = before ++ k :: after →
      (frameGap remote code (transmit remote code before data) k).isSome)
    (hmin : 0 < minGap remote) : Positive (transmit remote code kinds data) := by
  induction kinds generalizing data with
  | nil => exact hd
  | cons k kinds ih =>
    have hk := hpos k List.mem_cons_self
    obtain ⟨g, hg⟩ := Option.isSome_iff_exists.mp (hgap [] k kinds rfl)
    have hg' : frameGap remote code data k = some g := hg
    have hg0 : 0 < g := kindGap_pos (fun _ => hmin) hg'
    have hn : NonNeg (kindSignal remote k) := by
      cases k with
      | code part rep t => exact hk.nonNeg
      | repeatFrame => exact hk.nonNeg
      | raw => exact fun e he => by simp [kindSignal] at he
    have hent : Positive (entries remote code data k) := by
      have key {s : List Emission} (hs : Positive s) : Positive (flushed (audible data s)) := by
        intro e he
        have hsa := positive_audible data hs
        refine coalesce_pos hsa e ?_
        rw [coalesce_eq_flushed hsa]
        exact List.mem_append_left _ he
      cases k with
      | code part rep t => exact key hk
      | repeatFrame => exact key hk
      | raw => exact hk
    refine ih (fun j hj => hpos j (List.mem_cons_of_mem _ hj)) ?_ fun before j after hsplit =>
      hgap (k :: before) j after (by rw [hsplit]; rfl)
    intro e he
    unfold sendKind closeFrame at he
    split at he
    · simp at he
    · rcases List.mem_append.mp he with he | he
      · have hsub : e ∈ data ++ entries remote code data k := by
          unfold dropSpace at he
          split at he
          · exact List.dropLast_subset _ he
          · exact he
        rcases List.mem_append.mp hsub with he | he
        · exact hd e he
        · exact hent e he
      · rw [List.mem_singleton.mp he, hg']
        have := heldSpace_nonneg data hn
        show 0 < heldSpace remote data k + g
        omega

/-- A transmission is empty exactly if no frame has a pulse. -/
theorem transmit_eq_nil {kinds : List FrameKind} {data : List Emission}
    (hpos : ∀ k ∈ kinds, Positive (frameSignal remote code k)) :
    transmit remote code kinds data = [] ↔
      data = [] ∧ ∀ k ∈ kinds, Mute (frameSignal remote code k) := by
  induction kinds generalizing data with
  | nil => simp [transmit]
  | cons k kinds ih =>
    rw [transmit, ih (fun j hj => hpos j (List.mem_cons_of_mem _ hj)),
      sendKind_eq_nil _ (hpos k List.mem_cons_self), List.forall_mem_cons, and_assoc]

end Fit

/-! ## 3. The whole call -/

/-- The frames and their gaps fit the send buffer, every gap is long enough,
    and there is a pulse to send. -/
structure Fits (remote : IrRemote) (code : IrNcode) (repeats : Int) : Prop where
  buffer : (transmit remote code (schedule remote code repeats) []).length ≤ WBUF_SIZE
  gaps : ∀ before k after, schedule remote code repeats = before ++ k :: after →
    (frameGap remote code (transmit remote code before []) k).isSome
  pulse : ∃ k ∈ schedule remote code repeats, ¬ Mute (frameSignal remote code k)

/-- **The frames of a transmission.** For a remote `init_send` can send, of
    positive durations, not raw and without a repeat frame, and a code whose
    parts come to an end: the call ends within one turn for each part and
    round; if the frames fit it returns 1, and the frames sent are the parts in
    order, round by round; whenever it returns 1 the next call starts with the
    first part again, and for a code of one part it always does. -/
theorem frames_sent (remote : IrRemote) (code : IrNcode) (repeats : Int)
    (hsup : Supported remote) (hraw : isRaw remote = false) (hrep : hasRepeat remote = false)
    (hpos : PositiveDurations remote code repeats) (hts : code.transmitState = [])
    (hxmp : isXmp remote = false ∨ code.next = []) :
    ∃ res, initSend (rounds remote repeats * (1 + code.next.length)) remote code repeats = some res ∧
      (Fits remote code repeats → res.ret = true ∧
        res.frames.map (fun f => f.kind.part) =
          ((List.replicate (rounds remote repeats) (code.code :: code.next)).flatten).map some) ∧
      (res.ret = true → res.code.transmitState = []) ∧
      (code.next = [] → res.code.transmitState = []) := by
  have hends : Ends remote code := by
    unfold Ends
    split
    · exact hts
    · rename_i hn
      exact hxmp.resolve_right hn
  have hparts := parts_schedule repeats hraw hrep hts
  have hturns : turns remote code repeats = rounds remote repeats * (1 + code.next.length) := by
    have hlen := congrArg List.length hparts
    simp only [List.length_map, List.length_flatten, List.map_replicate,
      List.sum_replicate_nat, fullRound, List.length_cons] at hlen
    rw [turns, hlen, Nat.add_comm code.next.length]
  have hnoraw : ∀ k ∈ schedule remote code repeats, k = .raw → code.signals ≠ none := by
    rintro k hk rfl
    have hm : FrameKind.part .raw ∈ (schedule remote code repeats).map FrameKind.part :=
      List.mem_map_of_mem hk
    rw [hparts] at hm
    simp [FrameKind.part] at hm
  obtain ⟨res, hrun, hcase⟩ := initSend_run hsup hends hpos.lasting
  rw [hturns] at hrun
  refine ⟨res, hrun, ?_⟩
  rcases hcase with ⟨-, hdata, hframes, hret, hp⟩ | ⟨hno, hret, hp⟩
  · refine ⟨fun hfit => ⟨?_, ?_⟩, fun _ => hp, fun _ => hp⟩
    · obtain ⟨k, hk, hm⟩ := hfit.pulse
      have hne : res.buf.data ≠ [] := by
        rw [hdata]
        intro h0
        exact hm (((transmit_eq_nil hpos.signal).mp h0).2 k hk)
      have hall : Positive res.buf.data := by
        rw [hdata]
        exact positive_transmit hpos.signal (fun e he => by simp at he) hfit.gaps hpos.gap
      rw [hret]
      have hnz : ∀ e ∈ res.buf.data, e.2 ≠ 0 := fun e he => by
        have := hall e he
        omega
      simpa [checkSendBuffer, Sbuf.wptr, hne] using fun l d h => hnz (l, d) h
    · have hmap : res.frames.map (fun f => f.kind.part) =
          (res.frames.map Frame.kind).map FrameKind.part := by
        rw [List.map_map]
        rfl
      rw [hmap, hframes, kind_transmitFrames, hparts]
      rfl
  · refine ⟨fun hfit => ?_, fun h => ?_, fun hn => ?_⟩
    · exact absurd ((allSend_iff hnoraw rfl (Nat.zero_le _)).mpr ⟨hfit.buffer, hfit.gaps⟩) hno
    · rw [hret] at h
      simp at h
    · rw [hp hn, hts]

theorem fits_plainRemote : Fits plainRemote plainCode 1 where
  buffer := by decide
  gaps := fun _ _ _ _ => rfl
  pulse := by
    unfold Mute
    decide

/-- Two frames of a code of one part. -/
theorem frames_sent_plainRemote :
    ∃ res, initSend 2 plainRemote plainCode 1 = some res ∧ res.ret = true ∧
      res.frames.map (fun f => f.kind.part) = [some 2, some 2] ∧
      res.code.transmitState = [] := by
  obtain ⟨res, hrun, hfit, -, hone⟩ := frames_sent plainRemote plainCode 1 rfl (by decide)
    (by decide) positive_plainRemote rfl (.inr rfl)
  obtain ⟨hret, hframes⟩ := hfit fits_plainRemote
  exact ⟨res, hrun, hret, hframes, hone rfl⟩

def twoPartCode : IrNcode := { name := "KEY_B", code := 0, next := [3] }

/-- **What `init_send` does not do**, each for a remote of positive durations,
    neither raw nor with a repeat frame:

    * a protocol it cannot send, and a frame without a pulse, give 0 although
      everything fits;
    * a negative repeat count still sends one round;
    * a part too long for its constant length ends the call in the middle of
      the code;
    * an XMP code of two parts never gives 1. -/
theorem frames_sent_limits :
    (let grundig := { plainRemote with flags := GRUNDIG };
      PositiveDurations grundig plainCode 0 ∧ Fits grundig plainCode 0 ∧
      (initSend 1 grundig plainCode 0).map (·.ret) = some false) ∧
    (let silent := { plainRemote with bits := 0, ptrail := 0 };
      PositiveDurations silent plainCode 0 ∧
      (initSend 1 silent plainCode 0).map (·.ret) = some false) ∧
    (let below := { plainRemote with minRepeat := -3 };
      (initSend 1 below plainCode (-3)).map (fun r => (r.ret, r.frames.length)) = some (true, 1)) ∧
    (let short := { plainRemote with flags := SPACE_ENC ||| CONST_LENGTH, gap := 3000 };
      PositiveDurations short twoPartCode 0 ∧
      (initSend 2 short twoPartCode 0).map (fun r => (r.ret, r.code.transmitState)) =
        some (false, [3])) ∧
    (let xmp := { plainRemote with flags := XMP, bits := 4 };
      PositiveDurations xmp twoPartCode 0 ∧ Fits xmp twoPartCode 0 ∧
      ∀ fuel res, initSend fuel xmp twoPartCode 0 = some res → res.ret = false) := by
  refine ⟨⟨⟨?_, ?_⟩, ⟨?_, fun _ _ _ _ => rfl, ?_⟩, ?_⟩, ⟨⟨?_, ?_⟩, ?_⟩, ?_, ⟨⟨?_, ?_⟩, ?_⟩,
    ⟨⟨?_, ?_⟩, ⟨?_, fun _ _ _ _ => rfl, ?_⟩, fun fuel res h => ?_⟩⟩
  all_goals try (unfold Positive; decide)
  all_goals try (unfold Mute; decide)
  all_goals try decide
  exact initSendLoop_endless
    (s := initSendState { plainRemote with flags := XMP, bits := 4 } twoPartCode 0)
    (by unfold Ends; decide) h

end WinLirc
