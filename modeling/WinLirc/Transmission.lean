/-
  File:      WinLirc/Transmission.lean
  Subject:   A transmission as a receiver gets it.

  The send buffer holds times alone; the hardware sends entry 0 as a pulse,
  entry 1 as a space and so on, and a receiver marks what it measures as a
  pulse with `PULSE_BIT` (`marked`, `fed`).

  A frame of positive times that starts with a pulse reaches the buffer in its
  normal form, the gap merged into its last space (`sendKind_coalesce`). A code
  of one part is sent as one first frame and the repeats (`schedule_single`),
  so the buffer is the first frame and copies of the repeated one
  (`initSend_single`).
-/
import WinLirc.ConstLength
import WinLirc.Listen

namespace WinLirc

open Signal

/-! ## 1. What is fed to the receiver -/

/-- The samples of the times in a send buffer, from place `i` on. -/
def marked : Nat → List Int → List Int
  | _, [] => []
  | i, d :: ds => (if i % 2 = 0 then PULSE_BIT + d else d) :: marked (i + 1) ds

/-- **A transmission behind a space** of `g` microseconds. -/
def fed (g : Int) (b : Sbuf) : List Int := g :: marked 0 (b.data.map Prod.snd)

/-- Where every entry is at its place, the samples are those of the levels. -/
theorem marked_of_polarFrom {n : Nat} {data : List Emission} (h : PolarFrom n data) :
    marked n (data.map Prod.snd) = data.map sample := by
  induction data generalizing n with
  | nil => rfl
  | cons e data ih =>
    obtain ⟨he, h⟩ := h
    rw [List.map_cons, marked, ih h, List.map_cons, sample, he, rawLevel]
    by_cases hn : n % 2 = 0 <;> simp [hn]

/-- The level of an entry depends on the parity of its place. -/
theorem marked_mod_two (i : Nat) (xs : List Int) : marked i xs = marked (i % 2) xs := by
  induction xs generalizing i with
  | nil => rfl
  | cons x xs ih => rw [marked, marked, Nat.mod_mod, ih (i + 1), ih (i % 2 + 1), Nat.mod_add_mod]

theorem marked_append (i : Nat) (xs ys : List Int) :
    marked i (xs ++ ys) = marked i xs ++ marked (i + xs.length) ys := by
  induction xs generalizing i with
  | nil => rfl
  | cons x xs ih =>
    rw [List.cons_append, marked, marked, ih, List.length_cons, List.cons_append, Nat.add_assoc, Nat.add_comm 1]

/-! ## 2. One frame in the buffer -/

/-- The signal starts with a pulse. -/
def PulseFirst (s : List Emission) : Prop := s.head?.map Prod.fst = some .pulse

theorem PulseFirst.ne_nil {s : List Emission} (h : PulseFirst s) : s ≠ [] := by
  rintro rfl
  simp [PulseFirst] at h

/-- The gap behind a frame that starts with a pulse. -/
def gapBehind (remote : IrRemote) (kind : FrameKind) : Option Int :=
  kindGap remote kind (total (flushed (kindSignal remote kind)) - kindCut remote kind)

/-- The frame with a gap of `g`, as it is sent. -/
def sentFrame (remote : IrRemote) (g : Int) (kind : FrameKind) : List Emission :=
  coalesce (kindSignal remote kind ++ [(.space, g)])

theorem audible_of_pulseFirst {s : List Emission} (hpos : Positive s) (hs : PulseFirst s)
    (data : List Emission) : audible data s = s := by
  unfold audible
  split
  · cases s with
    | nil => rfl
    | cons e t =>
      have hl : e.1 = .pulse := by simpa [PulseFirst] using hs
      have hd := hpos e List.mem_cons_self
      have hd0 : e.2 ≠ 0 := by omega
      rw [List.dropWhile_cons_of_neg (by simp [silent, hl, hd0])]
  · rfl

/-- **How a frame ends**: in a pulse, or in a space that is left pending. -/
theorem flushed_cases {s : List Emission} (hpos : Positive s) (hs : PulseFirst s) :
    (flushed s).length % 2 = 1 ∧ total (flushed s) = total s - openRun s .space ∧
      0 ≤ openRun s .space ∧
      ∀ g, coalesce (s ++ [(.space, g)]) = flushed s ++ [(.space, openRun s .space + g)] := by
  obtain ⟨u, l, d, hu⟩ := coalesce_snoc_of_ne_nil hs.ne_nil
  have hd : 0 < d := coalesce_pos hpos (l, d) (by rw [hu]; simp)
  have hlev : l = rawLevel u.length := by
    refine length_before (u := u) (e := (l, d)) (v := []) ?_ ?_
    · rw [← hu]
      exact alternating_coalesce s
    · rw [← hu, coalesce_head_level]
      exact hs
  have heq := coalesce_eq_flushed hpos
  have htot := total_coalesce s
  rw [hu] at heq htot
  rw [total_append, total_cons, total_nil] at htot
  rw [openRun_of_snoc _ hu] at heq ⊢
  cases l with
  | pulse =>
    have heven : u.length % 2 = 0 := by
      by_contra h
      rw [rawLevel, if_neg h] at hlev
      simp at hlev
    have hfl : flushed s = u ++ [(.pulse, d)] := by simpa using heq.symm
    rw [hfl]
    refine ⟨by simp; omega, by simp; omega, by simp, fun g => ?_⟩
    rw [coalesce_snoc_ne g hu (by simp)]
    simp
  | space =>
    have hodd : u.length % 2 ≠ 0 := by
      intro h
      rw [rawLevel, if_pos h] at hlev
      simp at hlev
    have hfl : flushed s = u := by simpa [hd] using heq.symm
    rw [hfl]
    refine ⟨by omega, by simp; omega, by simp; omega, fun g => ?_⟩
    rw [coalesce_snoc_same g hu]
    simp

section Frame

variable {remote : IrRemote} {code : IrNcode} {kind : FrameKind} {data : List Emission}

/-- What a frame that starts with a pulse writes, on any buffer. -/
theorem entries_of_pulseFirst (code : IrNcode) (data : List Emission) (hraw : kind ≠ .raw) (hpos : Positive (kindSignal remote kind))
    (hs : PulseFirst (kindSignal remote kind)) :
    entries remote code data kind = flushed (kindSignal remote kind) ∧
      heldSpace remote data kind = openRun (kindSignal remote kind) .space := by
  have ha := audible_of_pulseFirst hpos hs data
  cases kind with
  | raw => exact absurd rfl hraw
  | code part rep t => exact ⟨congrArg flushed ha, congrArg (openRun · .space) ha⟩
  | repeatFrame => exact ⟨congrArg flushed ha, congrArg (openRun · .space) ha⟩

theorem frameGap_eq (hraw : kind ≠ .raw) (hpos : Positive (kindSignal remote kind))
    (hs : PulseFirst (kindSignal remote kind)) :
    frameGap remote code data kind = gapBehind remote kind := by
  rw [frameGap, (entries_of_pulseFirst _ _ hraw hpos hs).1, gapBehind]

/-- **What a frame that starts with a pulse adds to the buffer.** -/
theorem sendKind_coalesce (code : IrNcode) {data : List Emission} (hraw : kind ≠ .raw) (hpos : Positive (kindSignal remote kind))
    (hs : PulseFirst (kindSignal remote kind)) (he : data.length % 2 = 0) {g : Int}
    (hg : gapBehind remote kind = some g) :
    sendKind remote code data kind = data ++ sentFrame remote g kind := by
  obtain ⟨hodd, -, -, hco⟩ := flushed_cases hpos hs
  obtain ⟨hent, hheld⟩ := entries_of_pulseFirst code data hraw hpos hs
  have hne : flushed (kindSignal remote kind) ≠ [] := by
    intro h
    rw [h] at hodd
    simp at hodd
  rw [sendKind, frameGap_eq hraw hpos hs, hg, hent, hheld, closeFrame_append he hne,
    if_neg (by omega), sentFrame, hco]
  rfl

/-- **Repeated frames** are copies of one frame. -/
theorem transmit_replicate (hraw : kind ≠ .raw) (hpos : Positive (kindSignal remote kind))
    (hs : PulseFirst (kindSignal remote kind)) (he : data.length % 2 = 0) {g : Int}
    (hg : gapBehind remote kind = some g) (n : Nat) :
    transmit remote code (List.replicate n kind) data =
      data ++ (List.replicate n (sentFrame remote g kind)).flatten := by
  induction n generalizing data with
  | zero => simp [transmit]
  | succ n ih =>
    have hlen := length_sendKind remote code data kind
    have hk := sendKind_coalesce code hraw hpos hs he hg
    rw [List.replicate_succ, transmit, ih (by omega), hk, List.replicate_succ, List.flatten_cons,
      List.append_assoc]

end Frame

/-- The durations of one frame as `send_code` writes them. -/
def frameTimes (remote : IrRemote) (code : IrCode) : List Int :=
  (flushSendBuffer (sendCode remote code false clearSendBuffer)).data.map Prod.snd

/-- **What `send_code` writes** is the normal form of its calls. -/
theorem sendCode_written {remote : IrRemote} {code : IrCode} {rep : Bool}
    (hpos : Positive (codeSignal remote code rep)) (hs : PulseFirst (codeSignal remote code rep))
    (hfit : (coalesce (codeSignal remote code rep)).length ≤ WBUF_SIZE) :
    (flushSendBuffer (sendCode remote code rep clearSendBuffer)).data =
      coalesce (codeSignal remote code rep) := by
  generalize hes : codeSignal remote code rep = es at *
  have hco := coalesce_eq_flushed hpos
  have hb : Settled clearSendBuffer := ⟨rfl, rfl, rfl⟩
  have hl := leaves_emit hb (Nat.zero_le _) hpos.nonNeg (.inr fun e he => by
    have hl : e.1 = .pulse := by
      unfold PulseFirst at hs
      rw [he] at hs
      simpa using hs
    exact ⟨hl, hpos e (List.mem_of_mem_head? he)⟩)
  have hlen : (flushed es).length ≤ WBUF_SIZE := by
    rw [hco, List.length_append] at hfit
    omega
  have hF := hl.fits (by simpa [clearSendBuffer] using hlen)
  -- the last space is still to be written
  have hflush : flushSendBuffer (sendCode remote code rep clearSendBuffer) =
      let b := flushPulse (sendCode remote code rep clearSendBuffer)
      if b.pendings > 0 then { addSendBuffer .space b.pendings b with pendings := 0 } else b := rfl
  rw [hflush, sendCode_eq, hes, flushPulse_cut]
  obtain ⟨hd, -, hp, -, -⟩ := hF
  have hd' : (flushPulse (emit es clearSendBuffer)).data = flushed es := by
    rw [hd]
    rfl
  dsimp only
  rw [hp, hco]
  by_cases h0 : 0 < openRun es .space
  · rw [hco, if_pos h0, List.length_append, List.length_singleton] at hfit
    rw [if_pos h0, if_pos h0, addSendBuffer_of_lt _ _ (by rw [hd']; omega), hd']
  · rw [if_neg h0, if_neg h0, hd', List.append_nil]

/-! ## 3. A code of one part -/

/-- A code of one part that is not in the middle of anything. -/
structure Single (code : IrNcode) : Prop where
  next : code.next = []
  transmitState : code.transmitState = []

section Single

variable {remote : IrRemote} {code : IrNcode}

/-- **The schedule of a code of one part**: the first frame and the repeats. -/
theorem schedule_single (hc : Single code) (htm : hasToggleMask remote = false) (repeats : Int) :
    schedule remote code repeats =
      slotKind remote remote.toggleMaskState code.code false ::
        List.replicate (max remote.minRepeat repeats).toNat
          (slotKind remote remote.toggleMaskState code.code true) := by
  have hkinds : schedule remote code repeats =
      kindsFrom remote remote.toggleMaskState (slotsLeft (initSendState remote code repeats)) := by
    rw [schedule, kindsLeft, ← kindsFrom_config, initSendState_config, kindsFrom_config]
    rfl
  have htog (k : FrameKind) : kindToggle remote remote.toggleMaskState k =
      remote.toggleMaskState := by
    cases k <;> simp [kindToggle, stepToggle, htm]
  have hrep (n : Nat) : kindsFrom remote remote.toggleMaskState
      (List.replicate n (code.code, true)) =
      List.replicate n (slotKind remote remote.toggleMaskState code.code true) := by
    induction n with
    | zero => rfl
    | succ n ih => rw [List.replicate_succ, kindsFrom, htog, ih, List.replicate_succ]
  have hslots : slotsLeft (initSendState remote code repeats) = (code.code, false) ::
      List.replicate (max remote.minRepeat repeats).toNat (code.code, true) := by
    have hfull : fullRound code = [code.code] := by rw [fullRound, hc.next]
    have hround : roundLeft code = [code.code] := by rw [roundLeft, hc.transmitState, hc.next]
    have hflat (n : Nat) : (List.replicate n [(code.code, true)]).flatten =
        List.replicate n (code.code, true) := by
      induction n with
      | zero => rfl
      | succ n ih => rw [List.replicate_succ, List.flatten_cons, ih, List.replicate_succ]; rfl
    show (roundLeft code).map (·, false) ++ (List.replicate (max remote.minRepeat repeats).toNat
      ((fullRound code).map (·, true))).flatten = _
    rw [hround, hfull]
    show (code.code, false) :: (List.replicate _ [(code.code, true)]).flatten = _
    rw [hflat]
  rw [hkinds, hslots, kindsFrom, htog, hrep]

theorem slotKind_ne_raw (hraw : isRaw remote = false) (t : Int) (part : IrCode) (rep : Bool) :
    slotKind remote t part rep ≠ .raw := by
  unfold slotKind
  split
  · simp
  · simp [hraw]

/-- **The buffer of a transmission of one part**: the first frame with its gap,
    and copies of the repeated frame with its own. -/
theorem initSend_single {fuel : Nat} {repeats : Int} {res : SendResult} (hc : Single code)
    (htm : hasToggleMask remote = false) (hraw : isRaw remote = false)
    (hgap : isConst remote = false → 0 < minGap remote)
    (h : initSend fuel remote code repeats = some res) (hret : res.ret = true)
    {first again : FrameKind}
    (hfirst : first = slotKind remote remote.toggleMaskState code.code false)
    (hagain : again = slotKind remote remote.toggleMaskState code.code true)
    (hpos : Positive (kindSignal remote first)) (hs : PulseFirst (kindSignal remote first))
    (hrest : 0 < max remote.minRepeat repeats →
      Positive (kindSignal remote again) ∧ PulseFirst (kindSignal remote again)) :
    ∃ g, gapBehind remote first = some g ∧
      (max remote.minRepeat repeats ≤ 0 ∧ res.buf.data = sentFrame remote g first ∨
        0 < max remote.minRepeat repeats ∧ ∃ g', gapBehind remote again = some g' ∧
          res.buf.data = sentFrame remote g first ++
            (List.replicate (max remote.minRepeat repeats).toNat
              (sentFrame remote g' again)).flatten) := by
  have hsched := schedule_single hc htm repeats
  have hraw₁ : first ≠ .raw := hfirst ▸ slotKind_ne_raw hraw _ _ _
  have hraw₂ : again ≠ .raw := hagain ▸ slotKind_ne_raw hraw _ _ _
  rw [← hfirst, ← hagain] at hsched
  have hl : LastingSchedule remote code repeats := by
    intro k hk
    rw [hsched, List.mem_cons] at hk
    rcases hk with rfl | hk
    · exact ⟨hpos.nonNeg, hgap⟩
    · obtain ⟨hn, rfl⟩ := List.mem_replicate.mp hk
      exact ⟨(hrest (by omega)).1.nonNeg, hgap⟩
  obtain ⟨hall, hdata, -, -⟩ := initSend_sent h hret hl
  rw [hsched] at hall hdata
  obtain ⟨hsend, hall⟩ := hall
  have hg := hsend.2.2
  rw [frameGap_eq hraw₁ hpos hs] at hg
  obtain ⟨g, hg⟩ := Option.isSome_iff_exists.mp hg
  have hk : sendKind remote code [] first = [] ++ sentFrame remote g first :=
    sendKind_coalesce code hraw₁ hpos hs rfl hg
  rw [List.nil_append] at hk
  have hlen := length_sendKind remote code [] first
  rw [transmit] at hdata
  refine ⟨g, hg, ?_⟩
  generalize max remote.minRepeat repeats = r at *
  by_cases hr : 0 < r
  · right
    obtain ⟨hpos', hs'⟩ := hrest hr
    obtain ⟨n, hn⟩ : ∃ n, r.toNat = n + 1 := ⟨r.toNat - 1, by omega⟩
    rw [hn, List.replicate_succ] at hall
    have hg' := hall.1.2.2
    rw [frameGap_eq hraw₂ hpos' hs'] at hg'
    obtain ⟨g', hg'⟩ := Option.isSome_iff_exists.mp hg'
    refine ⟨hr, g', hg', ?_⟩
    rw [hdata, transmit_replicate hraw₂ hpos' hs' (by omega) hg', hk]
  · left
    have hz : r.toNat = 0 := by omega
    rw [hz] at hdata
    exact ⟨by omega, by rw [hdata, List.replicate_zero, transmit, hk]⟩

end Single

end WinLirc
