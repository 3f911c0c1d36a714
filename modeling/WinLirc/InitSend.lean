/-
  File:      WinLirc/InitSend.lean
  Subject:   Whole runs of `init_send`.

  A turn of the loop sends one frame and its gap. Which frame, is settled
  before the run: the SCHEDULE lists the kinds of all turns (`schedule`), from
  the parts of the code, the repeat count and the toggle counter. What a turn
  writes depends on the kind and on the entries so far (`entries`, `heldSpace`,
  `kindGap`), so the whole buffer is a fold over the schedule (`transmit`).

  * `initSendStep_turn`: one turn, from a state at the loop head (`AtHead`);
  * `initSendLoop_run`: all turns, to the return of the loop;
  * `initSend_sent`: a transmission that succeeds has sent the schedule, and its
    buffer is `transmit` of it, which is not empty (`initSend_ne_nil`).
-/
import WinLirc.SendBuffer

namespace WinLirc

open Signal

/-! ## 1. What `init_send` leaves alone in the remote -/

/-- The remote without the fields that `init_send` writes. -/
def IrRemote.config (remote : IrRemote) : IrRemote :=
  { remote with
    toggleMaskState := 0, repeatCountdown := 0, minRemainingGap := 0, maxRemainingGap := 0 }

/-- The remote as an encoder sees it: with its toggle counter. -/
def IrRemote.atToggle (remote : IrRemote) (t : Int) : IrRemote :=
  { remote.config with toggleMaskState := t }

theorem rcmmSignal_atToggle (remote : IrRemote) (t : Int) (n : Nat) (data : IrCode) :
    rcmmSignal (remote.atToggle t) n data = rcmmSignal remote n data := by
  induction n generalizing data with
  | zero => rfl
  | succ n ih =>
    rw [rcmmSignal, rcmmSignal, ih]
    rfl

theorem xmpSignal_atToggle (remote : IrRemote) (t : Int) (n : Nat) (data : IrCode) :
    xmpSignal (remote.atToggle t) n data = xmpSignal remote n data := by
  induction n generalizing data with
  | zero => rfl
  | succ n ih =>
    rw [xmpSignal, xmpSignal, ih]
    rfl

theorem bitsSignal_atToggle (remote : IrRemote) (n : Nat) (mask data : IrCode) :
    bitsSignal (remote.atToggle remote.toggleMaskState) n mask data =
      bitsSignal remote n mask data := by
  induction n generalizing mask data with
  | zero => rfl
  | succ n ih =>
    have ht : toggleData (remote.atToggle remote.toggleMaskState) mask data =
        toggleData remote mask data := rfl
    rw [bitsSignal, bitsSignal, ht, ih]
    rfl

theorem dataSignal_atToggle (remote : IrRemote) (data : IrCode) (bits done : Int) :
    dataSignal (remote.atToggle remote.toggleMaskState) data bits done =
      dataSignal remote data bits done := by
  unfold dataSignal
  rw [rcmmSignal_atToggle, xmpSignal_atToggle, bitsSignal_atToggle]
  rfl

/-- **An encoder reads the configuration and the toggle counter**, nothing
    else of what `init_send` writes. -/
theorem codeSignal_atToggle (remote : IrRemote) (part : IrCode) (rep : Bool) :
    codeSignal (remote.atToggle remote.toggleMaskState) part rep = codeSignal remote part rep := by
  unfold codeSignal preSignal postSignal
  rw [dataSignal_atToggle, dataSignal_atToggle, dataSignal_atToggle]
  rfl

/-! ## 2. One turn -/

/-- The kind of frame a turn sends. -/
def slotKind (remote : IrRemote) (t : Int) (part : IrCode) (rep : Bool) : FrameKind :=
  if rep && hasRepeat remote then .repeatFrame
  else if !isRaw remote then .code part rep t
  else .raw

/-- The toggle counter after a code was sent. -/
def stepToggle (remote : IrRemote) (t : Int) : Int :=
  if hasToggleMask remote then if t + 1 = 4 then 2 else t + 1 else t

/-- The toggle counter after a frame. -/
def kindToggle (remote : IrRemote) (t : Int) : FrameKind → Int
  | .code _ _ _ => stepToggle remote t
  | _ => t

/-- The calls of a frame. -/
def kindSignal (remote : IrRemote) : FrameKind → List Emission
  | .code part rep t => codeSignal (remote.atToggle t) part rep
  | .repeatFrame =>
    (if hasFlag remote REPEAT_HEADER && hasHeader remote then headerSignal remote else []) ++
      repeatSignal remote
  | .raw => []

/-- What a frame of calls takes off `sum`. -/
def kindCut (remote : IrRemote) : FrameKind → Int
  | .code _ rep _ => sumCut remote rep
  | _ => 0

/-- The signals of a code, `NULL` as none. -/
def signalsOf (code : IrNcode) : List Int := code.signals.getD []

/-- The entries that a frame adds to a buffer holding `data`. -/
def entries (remote : IrRemote) (code : IrNcode) (data : List Emission) :
    FrameKind → List Emission
  | .raw => rawSignal (signalsOf code)
  | k => flushed (audible data (kindSignal remote k))

/-- The space that is pending behind them. -/
def heldSpace (remote : IrRemote) (data : List Emission) : FrameKind → Int
  | .raw => 0
  | k => openRun (audible data (kindSignal remote k)) .space

/-- The gap behind a frame that has taken `sum`, unless `init_send` gives up. -/
def kindGap (remote : IrRemote) (kind : FrameKind) (sum : Int) : Option Int :=
  if hasRepeatGap remote && kind == .repeatFrame then some remote.repeatGap
  else if isConst remote then
    if minGap remote > sum then some (minGap remote - sum) else none
  else some (minGap remote)

/-- The gap behind a frame sent to a buffer holding `data`. -/
def frameGap (remote : IrRemote) (code : IrNcode) (data : List Emission) (kind : FrameKind) :
    Option Int :=
  kindGap remote kind (total (entries remote code data kind) - kindCut remote kind)

/-- `init_send` gets to the gap of the frame. -/
def Sends (remote : IrRemote) (code : IrNcode) (data : List Emission) (kind : FrameKind) : Prop :=
  (kind = .raw → code.signals ≠ none) ∧
    data.length + (entries remote code data kind).length ≤ WBUF_SIZE ∧
    (frameGap remote code data kind).isSome

/-- The buffer behind the gap. -/
def sendKind (remote : IrRemote) (code : IrNcode) (data : List Emission) (kind : FrameKind) :
    List Emission :=
  closeFrame (data ++ entries remote code data kind) (heldSpace remote data kind)
    ((frameGap remote code data kind).getD 0)

/-- The encoder of a frame. -/
def encode (remote : IrRemote) (code : IrNcode) (kind : FrameKind) (b : Sbuf) : Sbuf :=
  match kind with
  | .code part rep _ => sendCode remote part rep b
  | .repeatFrame =>
    sendRepeat remote
      (if hasFlag remote REPEAT_HEADER && hasHeader remote then sendHeader remote b else b)
  | .raw => sendSignals (signalsOf code) b

/-- The remote after a frame of a kind. -/
def kindRemote (remote : IrRemote) : FrameKind → IrRemote
  | .code _ _ _ => stepToggleMaskState remote
  | _ => remote

/-- The kind of the turn that starts in `s`. -/
def SendState.kind (s : SendState) : FrameKind :=
  slotKind s.remote s.remote.toggleMaskState (nextCode s.code) s.rep

theorem sendFrame_eq (s : SendState) :
    sendFrame s =
      if s.kind = .raw ∧ s.code.signals = none then none
      else some (s.kind,
        { s with buf := encode s.remote s.code s.kind s.buf, remote := kindRemote s.remote s.kind }) := by
  unfold sendFrame SendState.kind slotKind
  by_cases hr : (s.rep && hasRepeat s.remote) = true
  · simp [hr, encode, kindRemote]
  · by_cases hraw : isRaw s.remote = true
    · cases hs : s.code.signals with
      | none => simp [hr, hraw]
      | some signals => simp [hr, hraw, encode, kindRemote, signalsOf, hs]
    · simp [hr, hraw, encode, kindRemote]

/-- **What a frame leaves**, on a settled buffer. -/
theorem leaves_encode {remote : IrRemote} (code : IrNcode) {kind : FrameKind} {b : Sbuf}
    (hb : Settled b) (hcap : b.data.length ≤ WBUF_SIZE)
    (ht : ∀ part rep t, kind = .code part rep t → t = remote.toggleMaskState)
    (hn : NonNeg (kindSignal remote kind)) :
    Leaves b (entries remote code b.data kind) (heldSpace remote b.data kind)
      (kindCut remote kind) (flushPulse (encode remote code kind b)) := by
  cases kind with
  | code part rep t =>
    have htt := ht part rep t rfl
    subst htt
    have hl := (leaves_audible hb hcap hn).cut (c := sumCut remote rep)
    rw [← flushPulse_cut] at hl
    simpa [encode, sendCode_eq, entries, heldSpace, kindCut, kindSignal, codeSignal_atToggle] using hl
  | repeatFrame =>
    have he : encode remote code .repeatFrame b = emit (kindSignal remote .repeatFrame) b := by
      simp only [encode, kindSignal, sendRepeat_eq, emit_append, sendHeader_eq]
      split <;> rfl
    rw [he]
    exact leaves_audible hb hcap hn
  | raw => exact leaves_sendSignals hb hcap _

/-- The state at the head of the loop. -/
structure AtHead (s : SendState) : Prop where
  settled : Settled s.buf
  sum : s.buf.sum = 0
  even : s.buf.data.length % 2 = 0
  cap : s.buf.data.length ≤ WBUF_SIZE

/-- **What one turn does** when it gets to its gap. -/
structure Turned (s s' : SendState) : Prop where
  config : s'.remote.config = s.remote.config
  toggle : s'.remote.toggleMaskState = kindToggle s.remote s.remote.toggleMaskState s.kind
  countdown : s'.remote.repeatCountdown = s.remote.repeatCountdown
  gap : frameGap s.remote s.code s.buf.data s.kind = some s'.remote.minRemainingGap
  code : s'.code = stepTransmitState s.remote s.code
  rep : s'.rep = s.rep
  frames : s'.frames = s.frames ++ [⟨s.kind, s.buf.wptr, s'.buf.wptr⟩]
  data : s'.buf.data = sendKind s.remote s.code s.buf.data s.kind
  settled : Settled s'.buf

/-- The frame of a turn has times that are not negative, and so has its gap. -/
structure Lasting (remote : IrRemote) (kind : FrameKind) : Prop where
  signal : NonNeg (kindSignal remote kind)
  gap : isConst remote = false → 0 < minGap remote

theorem kindGap_pos {remote : IrRemote} {kind : FrameKind} {sum g : Int}
    (hg : isConst remote = false → 0 < minGap remote) (h : kindGap remote kind sum = some g) :
    0 < g := by
  unfold kindGap at h
  split at h
  · rename_i hr
    have hr' : 0 < remote.repeatGap := by
      simp only [hasRepeatGap, Bool.and_eq_true, decide_eq_true_eq] at hr
      exact hr.1
    simp only [Option.some.injEq] at h
    omega
  · split at h
    · split at h
      · simp only [Option.some.injEq] at h
        omega
      · simp at h
    · rename_i hc
      have := hg (by simpa using hc)
      simp only [Option.some.injEq] at h
      omega

theorem setGap_eq (s : SendState) (kind : FrameKind)
    (hk : (kind == .repeatFrame) = (s.rep && hasRepeat s.remote)) :
    match kindGap s.remote kind s.buf.sum with
    | some g => ∃ hi, setGap s =
        (true, { s with remote := { s.remote with minRemainingGap := g, maxRemainingGap := hi } })
    | none => ∃ lo hi, setGap s =
        (false, { s with remote := { s.remote with minRemainingGap := lo, maxRemainingGap := hi } }) := by
  unfold setGap kindGap
  rw [hk, Bool.and_assoc]
  by_cases h1 : (hasRepeatGap s.remote && (s.rep && hasRepeat s.remote)) = true
  · simp only [h1, if_true]
    exact ⟨_, rfl⟩
  · simp only [h1]
    by_cases h2 : isConst s.remote = true
    · by_cases h3 : minGap s.remote > s.buf.sum
      · simp only [h2, h3, if_true]
        exact ⟨_, rfl⟩
      · simp only [h2, h3, if_true, if_false]
        exact ⟨_, _, rfl⟩
    · simp only [h2]
      exact ⟨_, rfl⟩

theorem kind_repeatFrame (s : SendState) :
    (s.kind == .repeatFrame) = (s.rep && hasRepeat s.remote) := by
  unfold SendState.kind slotKind
  by_cases hr : (s.rep && hasRepeat s.remote) = true
  · simp [hr]
  · simp only [hr]
    by_cases hraw : isRaw s.remote = true <;> simp [hraw]

theorem kind_toggle (s : SendState) (part : IrCode) (rep : Bool) (t : Int)
    (h : s.kind = .code part rep t) : t = s.remote.toggleMaskState := by
  unfold SendState.kind slotKind at h
  split at h
  · simp at h
  · split at h
    · simp only [FrameKind.code.injEq] at h
      exact h.2.2.symm
    · simp at h

theorem stepToggleMaskState_config (remote : IrRemote) :
    (stepToggleMaskState remote).config = remote.config := by
  unfold stepToggleMaskState
  split_ifs <;> rfl

theorem kindRemote_config (remote : IrRemote) (kind : FrameKind) :
    (kindRemote remote kind).config = remote.config := by
  cases kind with
  | code part rep t => exact stepToggleMaskState_config remote
  | repeatFrame => rfl
  | raw => rfl

theorem kindRemote_toggle (remote : IrRemote) (kind : FrameKind) :
    (kindRemote remote kind).toggleMaskState = kindToggle remote remote.toggleMaskState kind := by
  cases kind with
  | code part rep t =>
    show (stepToggleMaskState remote).toggleMaskState = stepToggle remote remote.toggleMaskState
    unfold stepToggleMaskState stepToggle
    split_ifs <;> rfl
  | repeatFrame => rfl
  | raw => rfl

theorem kindRemote_countdown (remote : IrRemote) (kind : FrameKind) :
    (kindRemote remote kind).repeatCountdown = remote.repeatCountdown := by
  cases kind with
  | code part rep t =>
    show (stepToggleMaskState remote).repeatCountdown = remote.repeatCountdown
    unfold stepToggleMaskState
    split_ifs <;> rfl
  | repeatFrame => rfl
  | raw => rfl

/-- What the gap and the parts depend on is configuration. -/
theorem kindGap_config (remote : IrRemote) (kind : FrameKind) (sum : Int) :
    kindGap remote.config kind sum = kindGap remote kind sum := rfl

theorem stepTransmitState_config (remote : IrRemote) (code : IrNcode) :
    stepTransmitState remote.config code = stepTransmitState remote code := rfl

/-- An empty buffer has no space pending. -/
theorem heldSpace_of_empty {remote : IrRemote} {code : IrNcode} {b : Sbuf} {kind : FrameKind}
    (hn : NonNeg (kindSignal remote kind)) (h : b.data ++ entries remote code b.data kind = []) :
    heldSpace remote b.data kind = 0 := by
  cases kind with
  | raw => rfl
  | code part rep t =>
    show openRun (audible b.data _) .space = 0
    rw [audible_eq_nil_of_flushed _ hn h, openRun_nil]
  | repeatFrame =>
    show openRun (audible b.data _) .space = 0
    rw [audible_eq_nil_of_flushed _ hn h, openRun_nil]

theorem heldSpace_nonneg {remote : IrRemote} (data : List Emission) {kind : FrameKind}
    (hn : NonNeg (kindSignal remote kind)) : 0 ≤ heldSpace remote data kind := by
  cases kind with
  | raw => exact Int.le_refl 0
  | code part rep t => exact openRun_nonneg (audible_nonNeg hn) _
  | repeatFrame => exact openRun_nonneg (audible_nonNeg hn) _

/-- **One turn of `init_send_loop`**: it gives up, the code untouched, or it
    sends the frame and its gap. -/
theorem initSendStep_turn {s : SendState} (h : AtHead s) (hl : Lasting s.remote s.kind) :
    (¬ Sends s.remote s.code s.buf.data s.kind ∧
      ∃ res, initSendStep s = .inr res ∧ res.ret = false ∧ res.code = s.code) ∨
    (Sends s.remote s.code s.buf.data s.kind ∧
      ∃ s', initSendStep s = loopOrEnd s' ∧ Turned s s') := by
  unfold initSendStep
  rw [sendFrame_eq]
  by_cases hnull : s.kind = .raw ∧ s.code.signals = none
  · left
    rw [if_pos hnull]
    exact ⟨fun hs => hs.1 hnull.1 hnull.2, _, rfl, rfl, rfl⟩
  rw [if_neg hnull]
  have hleaves := leaves_encode s.code h.settled h.cap (kind_toggle s) hl.signal
  simp only [syncSendBuffer_eq]
  generalize hb₁ : flushPulse (encode s.remote s.code s.kind s.buf) = b₁ at *
  by_cases hfit : s.buf.data.length + (entries s.remote s.code s.buf.data s.kind).length ≤ WBUF_SIZE
  · have hF := hleaves.fits hfit
    have hbad : badSendBuffer { b₁ with data := dropSpace b₁.data } = false := by
      simp [badSendBuffer, hF.tooLong, hF.pendingp]
    rw [if_neg (by simp [hbad])]
    have hgap := setGap_eq { s with
      buf := { b₁ with data := dropSpace b₁.data }, remote := kindRemote s.remote s.kind } s.kind (by
        rw [kind_repeatFrame]
        have hc := kindRemote_config s.remote s.kind
        show (s.rep && hasRepeat s.remote) = (s.rep && hasRepeat (kindRemote s.remote s.kind))
        have e1 : hasRepeat (kindRemote s.remote s.kind) = hasRepeat (kindRemote s.remote s.kind).config := rfl
        rw [e1, hc]
        rfl)
    have hfg : kindGap (kindRemote s.remote s.kind) s.kind b₁.sum =
        frameGap s.remote s.code s.buf.data s.kind := by
      rw [← kindGap_config, kindRemote_config, kindGap_config, frameGap, hF.sum, h.sum]
      congr 1
      omega
    simp only [hfg] at hgap
    cases hg : frameGap s.remote s.code s.buf.data s.kind with
    | none =>
      rw [hg] at hgap
      obtain ⟨lo, hi, hgap⟩ := hgap
      left
      refine ⟨fun hs => ?_, ?_⟩
      · have := hs.2.2
        simp [hg] at this
      · rw [hgap]
        exact ⟨_, rfl, rfl, rfl⟩
    | some g =>
      rw [hg] at hgap
      obtain ⟨hi, hgap⟩ := hgap
      right
      refine ⟨⟨fun hr => ?_, hfit, by simp [hg]⟩, _, by rw [hgap], ?_⟩
      · exact fun hn => hnull ⟨hr, hn⟩
      · have hg0 : 0 < g := kindGap_pos hl.gap hg
        obtain ⟨hdata, hset⟩ := flush_gap hF hfit hg0 (heldSpace_nonneg _ hl.signal)
          (heldSpace_of_empty hl.signal)
        refine ⟨?_, kindRemote_toggle s.remote s.kind, kindRemote_countdown s.remote s.kind, hg, ?_,
          rfl, rfl, ?_, hset⟩
        · exact kindRemote_config s.remote s.kind
        · show stepTransmitState (kindRemote s.remote s.kind) s.code = _
          rw [← stepTransmitState_config, kindRemote_config, stepTransmitState_config]
        · rw [sendKind, hg]
          exact hdata
  · left
    have htl : b₁.tooLong = true := hleaves.overflows (by omega)
    have hbad : badSendBuffer { b₁ with data := dropSpace b₁.data } = true := by
      simp [badSendBuffer, htl]
    rw [if_pos (by simp [hbad])]
    exact ⟨fun hs => hfit hs.2.1, _, rfl, rfl, rfl⟩

/-! ## 3. The schedule -/

/-- The parts of a code that its current round has still to send. -/
def roundLeft (code : IrNcode) : List IrCode :=
  match code.transmitState with
  | [] => code.code :: code.next
  | parts => parts

/-- All parts of a code. -/
def fullRound (code : IrNcode) : List IrCode := code.code :: code.next

/-- The turns still to come: the part of each, and whether it is a repeat. -/
def slotsLeft (s : SendState) : List (IrCode × Bool) :=
  (roundLeft s.code).map (·, s.rep) ++
    (List.replicate s.remote.repeatCountdown.toNat ((fullRound s.code).map (·, true))).flatten

/-- The kinds of the turns, from toggle counter `t` on. -/
def kindsFrom (remote : IrRemote) : Int → List (IrCode × Bool) → List FrameKind
  | _, [] => []
  | t, (part, rep) :: slots =>
    slotKind remote t part rep ::
      kindsFrom remote (kindToggle remote t (slotKind remote t part rep)) slots

def kindsLeft (s : SendState) : List FrameKind :=
  kindsFrom s.remote s.remote.toggleMaskState (slotsLeft s)

/-- **The frames that a call of `init_send` is to send.** -/
def schedule (remote : IrRemote) (code : IrNcode) (repeats : Int) : List FrameKind :=
  kindsLeft (initSendState remote code repeats)

/-- The stepping of the parts comes to an end: an XMP code of several parts
    never leaves its sequence, and neither does a sequence that has no parts. -/
def Ends (remote : IrRemote) (code : IrNcode) : Prop :=
  if code.next = [] then code.transmitState = [] else isXmp remote = false

theorem length_kindsFrom (remote : IrRemote) (t : Int) (slots : List (IrCode × Bool)) :
    (kindsFrom remote t slots).length = slots.length := by
  induction slots generalizing t with
  | nil => rfl
  | cons e slots ih =>
    obtain ⟨part, rep⟩ := e
    rw [kindsFrom, List.length_cons, ih, List.length_cons]

theorem kindsFrom_config (remote : IrRemote) (t : Int) (slots : List (IrCode × Bool)) :
    kindsFrom remote.config t slots = kindsFrom remote t slots := by
  induction slots generalizing t with
  | nil => rfl
  | cons e slots ih =>
    obtain ⟨part, rep⟩ := e
    rw [kindsFrom, kindsFrom, ih]
    rfl

theorem isXmp_config (remote : IrRemote) : isXmp remote.config = isXmp remote := rfl

/-- The parts of a code and its signals never change. -/
def SameParts (c c' : IrNcode) : Prop :=
  c'.next = c.next ∧ c'.code = c.code ∧ c'.signals = c.signals

theorem stepTransmitState_sameParts (remote : IrRemote) (code : IrNcode) :
    SameParts code (stepTransmitState remote code) := by
  unfold stepTransmitState
  split
  · split
    · exact ⟨rfl, rfl, rfl⟩
    · split_ifs <;> exact ⟨rfl, rfl, rfl⟩
  · exact ⟨rfl, rfl, rfl⟩

/-- **Stepping the parts**: one part of the round is done; the pointer is
    `NULL` again exactly at the end of the round. -/
theorem roundLeft_step {remote : IrRemote} {code : IrNcode} (he : Ends remote code) :
    roundLeft code = nextCode code :: (stepTransmitState remote code).transmitState := by
  unfold Ends at he
  unfold roundLeft nextCode stepTransmitState
  by_cases hn : code.next = []
  · rw [if_pos hn] at he
    simp [hn, he]
  · rw [if_neg hn] at he
    cases ht : code.transmitState with
    | nil => simp [hn]
    | cons c rest => simp [hn, he]

theorem ends_step {remote : IrRemote} {code : IrNcode} (he : Ends remote code) :
    Ends remote (stepTransmitState remote code) := by
  obtain ⟨hn, -, -⟩ := stepTransmitState_sameParts remote code
  unfold Ends at he ⊢
  rw [hn]
  split at he
  · rename_i h
    rw [if_pos h]
    simpa [stepTransmitState, h] using he
  · rename_i h
    rw [if_neg h]
    exact he

/-- **The loop ends** exactly with its last slot. -/
theorem loopOrEnd_eq {s s' : SendState} (he : Ends s.remote s.code) (ht : Turned s s') :
    (slotsLeft s = [(nextCode s.code, s.rep)] ∧ s'.code.transmitState = [] ∧
      loopOrEnd s' = .inr (s'.return (checkSendBuffer s'.buf))) ∨
    ∃ s'', loopOrEnd s' = .inl s'' ∧
      slotsLeft s = (nextCode s.code, s.rep) :: slotsLeft s'' ∧
      s''.remote.config = s'.remote.config ∧
      s''.remote.toggleMaskState = s'.remote.toggleMaskState ∧
      s''.code = s'.code ∧ s''.buf = { s'.buf with sum := 0 } ∧ s''.frames = s'.frames := by
  have hround := roundLeft_step he
  obtain ⟨hnext, hcode, -⟩ := stepTransmitState_sameParts s.remote s.code
  have hfull : fullRound s'.code = fullRound s.code := by
    rw [ht.code, fullRound, fullRound, hnext, hcode]
  have hslots : slotsLeft s = (nextCode s.code, s.rep) ::
      (s'.code.transmitState.map (·, s.rep) ++
        (List.replicate s.remote.repeatCountdown.toNat
          ((fullRound s.code).map (·, true))).flatten) := by
    rw [slotsLeft, hround, ht.code]
    rfl
  unfold loopOrEnd
  by_cases hts : s'.code.transmitState = []
  · rw [hts] at hslots
    by_cases hc : s'.remote.repeatCountdown > 0
    · -- the next round
      right
      rw [if_pos (Or.inl hc), if_pos (Or.inr hts)]
      refine ⟨_, rfl, ?_, rfl, rfl, rfl, rfl, rfl⟩
      rw [hslots]
      congr 1
      have hn : s.remote.repeatCountdown.toNat = (s'.remote.repeatCountdown - 1).toNat + 1 := by
        rw [ht.countdown] at hc ⊢
        omega
      have hr : roundLeft s'.code = fullRound s'.code := by
        rw [roundLeft, hts]
        rfl
      rw [slotsLeft, hn, List.replicate_succ, List.flatten_cons]
      simp only [hr, hfull]
      rfl
    · left
      rw [if_neg (by simp [hts]; omega)]
      refine ⟨?_, hts, rfl⟩
      have hn : s.remote.repeatCountdown.toNat = 0 := by
        rw [ht.countdown] at hc
        omega
      rw [hslots, hn]
      rfl
  · -- the next part
    right
    have hne : s'.code.next ≠ [] := by
      intro hn
      have hs : s.code.next = [] := by rw [← hnext, ← ht.code, hn]
      have he' := he
      unfold Ends at he'
      rw [if_pos hs] at he'
      apply hts
      rw [ht.code]
      simp [stepTransmitState, hs, he']
    rw [if_pos (Or.inr hts), if_neg (by simp [hne, hts])]
    refine ⟨_, rfl, ?_, rfl, rfl, rfl, rfl, rfl⟩
    rw [hslots]
    congr 1
    have hr : roundLeft s'.code = s'.code.transmitState := by
      rw [roundLeft]
      split
      · rename_i h
        exact absurd h hts
      · rfl
    rw [slotsLeft]
    simp only [hr, hfull, ht.rep, ht.countdown]

theorem kindsLeft_cons {s s'' : SendState}
    (hslots : slotsLeft s = (nextCode s.code, s.rep) :: slotsLeft s'')
    (hconfig : s''.remote.config = s.remote.config)
    (htoggle : s''.remote.toggleMaskState =
      kindToggle s.remote s.remote.toggleMaskState s.kind) :
    kindsLeft s = s.kind :: kindsLeft s'' := by
  rw [kindsLeft, hslots, kindsFrom, kindsLeft, htoggle, ← kindsFrom_config s''.remote, hconfig,
    kindsFrom_config]
  rfl

/-! ## 4. Runs -/

/-- The buffer after the frames of a list of kinds. -/
def transmit (remote : IrRemote) (code : IrNcode) : List FrameKind → List Emission → List Emission
  | [], data => data
  | k :: kinds, data => transmit remote code kinds (sendKind remote code data k)

/-- The frames in it. -/
def transmitFrames (remote : IrRemote) (code : IrNcode) :
    List FrameKind → List Emission → List Frame
  | [], _ => []
  | k :: kinds, data =>
    ⟨k, data.length, (sendKind remote code data k).length⟩ ::
      transmitFrames remote code kinds (sendKind remote code data k)

/-- Every frame gets to its gap. -/
def AllSend (remote : IrRemote) (code : IrNcode) : List FrameKind → List Emission → Prop
  | [], _ => True
  | k :: kinds, data =>
    Sends remote code data k ∧ AllSend remote code kinds (sendKind remote code data k)

theorem entries_congr {remote remote' : IrRemote} {code code' : IrNcode} (data : List Emission)
    (kind : FrameKind) (hr : remote'.config = remote.config) (hc : SameParts code code') :
    entries remote' code' data kind = entries remote code data kind := by
  obtain ⟨-, -, hs⟩ := hc
  have h (r : IrRemote) (c : IrNcode) : entries r c data kind =
      entries r.config { c with code := 0, next := [], current := [], transmitState := [], name := "" }
        data kind := by
    cases kind <;> rfl
  rw [h remote', h remote, hr, hs]

theorem frameGap_congr {remote remote' : IrRemote} {code code' : IrNcode} (data : List Emission)
    (kind : FrameKind) (hr : remote'.config = remote.config) (hc : SameParts code code') :
    frameGap remote' code' data kind = frameGap remote code data kind := by
  have h (r : IrRemote) (sum : Int) : kindGap r kind (sum - kindCut r kind) =
      kindGap r.config kind (sum - kindCut r.config kind) := by
    cases kind <;> rfl
  rw [frameGap, entries_congr data kind hr hc, h, hr, ← h, frameGap]

theorem sendKind_congr {remote remote' : IrRemote} {code code' : IrNcode} (data : List Emission)
    (kind : FrameKind) (hr : remote'.config = remote.config) (hc : SameParts code code') :
    sendKind remote' code' data kind = sendKind remote code data kind := by
  have h (r : IrRemote) : heldSpace r data kind = heldSpace r.config data kind := by
    cases kind <;> rfl
  rw [sendKind, frameGap_congr data kind hr hc, entries_congr data kind hr hc, h, hr, ← h, sendKind]

theorem transmit_congr {remote remote' : IrRemote} {code code' : IrNcode} (kinds : List FrameKind)
    (data : List Emission) (hr : remote'.config = remote.config) (hc : SameParts code code') :
    transmit remote' code' kinds data = transmit remote code kinds data ∧
    transmitFrames remote' code' kinds data = transmitFrames remote code kinds data ∧
    (AllSend remote' code' kinds data ↔ AllSend remote code kinds data) := by
  induction kinds generalizing data with
  | nil => exact ⟨rfl, rfl, Iff.rfl⟩
  | cons k kinds ih =>
    have hk := sendKind_congr data k hr hc
    obtain ⟨h1, h2, h3⟩ := ih (sendKind remote code data k)
    refine ⟨?_, ?_, ?_⟩
    · rw [transmit, transmit, hk, h1]
    · rw [transmitFrames, transmitFrames, hk, h2]
    · rw [AllSend, AllSend, hk, h3, Sends, Sends, entries_congr data k hr hc,
        frameGap_congr data k hr hc, hc.2.2]

theorem length_sendKind (remote : IrRemote) (code : IrNcode) (data : List Emission)
    (kind : FrameKind) : (sendKind remote code data kind).length =
      (data ++ entries remote code data kind).length +
        (data ++ entries remote code data kind).length % 2 :=
  length_closeFrame _ _ _

theorem initSendLoop_mono {n m : Nat} {s : SendState} {res : SendResult}
    (h : initSendLoop n s = some res) (hnm : n ≤ m) : initSendLoop m s = some res := by
  induction n generalizing m s with
  | zero => simp [initSendLoop] at h
  | succ n ih =>
    obtain ⟨m, rfl⟩ : ∃ k, m = k + 1 := ⟨m - 1, by omega⟩
    unfold initSendLoop at h ⊢
    cases hs : initSendStep s with
    | inl s' =>
      rw [hs] at h
      exact ih h (by omega)
    | inr r =>
      rw [hs] at h
      exact h

theorem initSendLoop_unique {n m : Nat} {s : SendState} {r r' : SendResult}
    (h : initSendLoop n s = some r) (h' : initSendLoop m s = some r') : r = r' := by
  have h1 := initSendLoop_mono h (Nat.le_max_left n m)
  have h2 := initSendLoop_mono h' (Nat.le_max_right n m)
  rw [h1] at h2
  exact Option.some.inj h2

theorem kindSignal_config (remote : IrRemote) (kind : FrameKind) :
    kindSignal remote.config kind = kindSignal remote kind := by
  cases kind <;> rfl

theorem isConst_config (remote : IrRemote) : isConst remote.config = isConst remote := rfl

theorem minGap_config (remote : IrRemote) : minGap remote.config = minGap remote := rfl

theorem Lasting.congr {remote remote' : IrRemote} {kind : FrameKind} (h : Lasting remote kind)
    (hr : remote'.config = remote.config) : Lasting remote' kind := by
  obtain ⟨hs, hg⟩ := h
  rw [← kindSignal_config, ← hr, kindSignal_config] at hs
  rw [← isConst_config, ← minGap_config, ← hr] at hg
  exact ⟨hs, hg⟩

theorem ends_congr {remote remote' : IrRemote} {code : IrNcode}
    (hr : remote'.config = remote.config) : Ends remote' code ↔ Ends remote code := by
  unfold Ends
  rw [← isXmp_config remote', hr, isXmp_config]

/-- The next turn starts at the loop head again. -/
theorem atHead_next {s s' s'' : SendState} (hs : Sends s.remote s.code s.buf.data s.kind)
    (ht : Turned s s') (hbuf : s''.buf = { s'.buf with sum := 0 }) : AtHead s'' := by
  have hdata : s''.buf.data = sendKind s.remote s.code s.buf.data s.kind := by
    rw [hbuf]
    exact ht.data
  have hlen := length_sendKind s.remote s.code s.buf.data s.kind
  have hfit := hs.2.1
  rw [List.length_append] at hlen
  refine ⟨?_, by rw [hbuf], ?_, ?_⟩
  · rw [hbuf]
    exact ⟨ht.settled.pendingp, ht.settled.pendings, ht.settled.tooLong⟩
  · rw [hdata]
    omega
  · rw [hdata]
    unfold WBUF_SIZE at *
    omega

/-- **How a transmission ends**: every frame was sent, or it gave up. -/
inductive RunEnd (s : SendState) (res : SendResult) : Prop where
  | sent (hall : AllSend s.remote s.code (kindsLeft s) s.buf.data)
      (hdata : res.buf.data = transmit s.remote s.code (kindsLeft s) s.buf.data)
      (hframes : res.frames = s.frames ++
        transmitFrames s.remote s.code (kindsLeft s) s.buf.data)
      (hret : res.ret = checkSendBuffer res.buf)
      (hparts : res.code.transmitState = [])
  | gaveUp (hall : ¬ AllSend s.remote s.code (kindsLeft s) s.buf.data) (hret : res.ret = false)
      (hparts : s.code.next = [] → res.code.transmitState = s.code.transmitState)

/-- **The run of the loop**, by induction on the slots that are left: it takes
    at most one turn for each. -/
theorem initSendLoop_run {n : Nat} {s : SendState} (hn : (slotsLeft s).length = n)
    (h : AtHead s) (he : Ends s.remote s.code) (hl : ∀ k ∈ kindsLeft s, Lasting s.remote k) :
    ∃ res, initSendLoop n s = some res ∧ RunEnd s res := by
  induction n generalizing s with
  | zero =>
    exfalso
    have hr := roundLeft_step he
    rw [slotsLeft, hr] at hn
    simp at hn
  | succ n ih =>
    have hhead : ∃ kinds, kindsLeft s = s.kind :: kinds := by
      have hr := roundLeft_step he
      rw [kindsLeft, slotsLeft, hr]
      exact ⟨_, rfl⟩
    obtain ⟨kinds, hk⟩ := hhead
    have hls : Lasting s.remote s.kind := hl _ (by rw [hk]; exact List.mem_cons_self)
    rw [initSendLoop]
    rcases initSendStep_turn h hls with ⟨hno, res, hstep, hret, hcode⟩ | ⟨hsends, s', hstep, ht⟩
    · rw [hstep]
      refine ⟨res, rfl, .gaveUp ?_ hret fun _ => by rw [hcode]⟩
      rw [hk, AllSend]
      exact fun hall => hno hall.1
    · rw [hstep]
      rcases loopOrEnd_eq he ht with ⟨hslots, hts, hend⟩ | ⟨s'', hloop, hslots, hcfg, htg, hcode, hbuf, hfr⟩
      · rw [hend]
        have hkinds : kindsLeft s = [s.kind] := by
          rw [kindsLeft, hslots, kindsFrom, kindsFrom]
          rfl
        refine ⟨_, rfl, .sent ?_ ?_ ?_ rfl hts⟩
        · rw [hkinds]
          exact ⟨hsends, trivial⟩
        · rw [hkinds]
          exact ht.data
        · rw [hkinds]
          show s'.frames = _
          rw [ht.frames, transmitFrames, transmitFrames, ← ht.data]
          rfl
      · rw [hloop]
        have hcfg' : s''.remote.config = s.remote.config := hcfg.trans ht.config
        have hcode' : s''.code = stepTransmitState s.remote s.code := hcode.trans ht.code
        have hparts : SameParts s.code s''.code := by
          rw [hcode']
          exact stepTransmitState_sameParts s.remote s.code
        have hcons := kindsLeft_cons hslots hcfg' (htg.trans ht.toggle)
        have hdata : s''.buf.data = sendKind s.remote s.code s.buf.data s.kind := by
          rw [hbuf]
          exact ht.data
        have hhead' : AtHead s'' := atHead_next hsends ht hbuf
        have he' : Ends s''.remote s''.code := by
          rw [hcode']
          exact (ends_congr hcfg').mpr (ends_step he)
        have hlast : ∀ k ∈ kindsLeft s'', Lasting s''.remote k := fun k hk' =>
          (hl k (by rw [hcons]; exact List.mem_cons_of_mem _ hk')).congr hcfg'
        have hlen' : (slotsLeft s'').length = n := by
          rw [hslots, List.length_cons] at hn
          omega
        obtain ⟨res, hrun, hend⟩ := ih hlen' hhead' he' hlast
        refine ⟨res, hrun, ?_⟩
        obtain ⟨t1, t2, t3⟩ := transmit_congr (kindsLeft s'') s''.buf.data hcfg' hparts
        rw [hdata] at t1 t2 t3
        cases hend with
        | sent hall hd hf hr hp =>
          rw [hdata] at hall hd hf
          refine .sent ?_ ?_ ?_ hr hp
          · rw [hcons, AllSend]
            exact ⟨hsends, t3.mp hall⟩
          · rw [hcons, transmit, hd, t1]
          · rw [hcons, transmitFrames, hf, t2, hfr, ht.frames, ← ht.data]
            simp [Sbuf.wptr]
        | gaveUp hall hr hp =>
          refine .gaveUp ?_ hr fun hnext => ?_
          · rw [hdata] at hall
            rw [hcons, AllSend]
            exact fun h => hall (t3.mpr h.2)
          · rw [hp (by rw [hparts.1, hnext]), hcode']
            simp [stepTransmitState, hnext]

/-! ## 5. Runs that have no end -/

/-- One turn, from any state: what becomes of the parts. -/
theorem initSendStep_parts (s : SendState) :
    (∃ res, initSendStep s = .inr res ∧ res.ret = false) ∨
    ∃ s', initSendStep s = loopOrEnd s' ∧ s'.code = stepTransmitState s.remote s.code ∧
      s'.remote.config = s.remote.config := by
  unfold initSendStep
  rw [sendFrame_eq]
  split_ifs with hnull
  · exact .inl ⟨_, rfl, rfl⟩
  have hcfg := kindRemote_config s.remote s.kind
  have hgap := setGap_eq { s with
    buf := syncSendBuffer (encode s.remote s.code s.kind s.buf),
    remote := kindRemote s.remote s.kind } s.kind (by
      rw [kind_repeatFrame]
      show (s.rep && hasRepeat s.remote.config) =
        (s.rep && hasRepeat (kindRemote s.remote s.kind).config)
      rw [hcfg])
  dsimp only at hgap ⊢
  by_cases hbad : badSendBuffer (syncSendBuffer (encode s.remote s.code s.kind s.buf)) = true
  · rw [if_pos hbad]
    exact .inl ⟨_, rfl, rfl⟩
  rw [if_neg hbad]
  split at hgap
  · obtain ⟨hi, hgap⟩ := hgap
    rw [hgap]
    refine .inr ⟨_, rfl, ?_, hcfg⟩
    show stepTransmitState (kindRemote s.remote s.kind) s.code = _
    rw [← stepTransmitState_config, hcfg, stepTransmitState_config]
  · obtain ⟨lo, hi, hgap⟩ := hgap
    rw [hgap]
    exact .inl ⟨_, rfl, rfl⟩

/-- A sequence without an end has always a next part. -/
theorem endless_step {remote : IrRemote} {code : IrNcode} (he : ¬ Ends remote code) :
    (stepTransmitState remote code).transmitState ≠ [] ∧
      ¬ Ends remote (stepTransmitState remote code) := by
  obtain ⟨hnext, -, -⟩ := stepTransmitState_sameParts remote code
  unfold Ends at he ⊢
  rw [hnext]
  by_cases hn : code.next = []
  · rw [if_pos hn] at he ⊢
    have hs : stepTransmitState remote code = code := by simp [stepTransmitState, hn]
    rw [hs]
    exact ⟨he, he⟩
  · rw [if_neg hn] at he ⊢
    have hx : isXmp remote = true := by simpa using he
    refine ⟨?_, he⟩
    unfold stepTransmitState
    rw [if_pos hn]
    cases code.transmitState with
    | nil => exact hn
    | cons c rest =>
      by_cases hr : rest = []
      · simpa [hx, hr] using hn
      · simp [hr]

/-- **Such a transmission never succeeds**: the loop goes on until the buffer
    is full. -/
theorem initSendLoop_endless {fuel : Nat} {s : SendState} {res : SendResult}
    (he : ¬ Ends s.remote s.code) (h : initSendLoop fuel s = some res) : res.ret = false := by
  induction fuel generalizing s with
  | zero => simp [initSendLoop] at h
  | succ fuel ih =>
    rw [initSendLoop] at h
    rcases initSendStep_parts s with ⟨r, hstep, hret⟩ | ⟨s', hstep, hcode, hcfg⟩
    · rw [hstep] at h
      simp only [Option.some.injEq] at h
      rw [← h]
      exact hret
    · rw [hstep] at h
      obtain ⟨hts, he'⟩ := endless_step he
      rw [← hcode] at hts he'
      have hends : ¬ Ends s'.remote s'.code := mt (ends_congr hcfg).mp he'
      unfold loopOrEnd at h
      rw [if_pos (Or.inr hts)] at h
      split_ifs at h
      · exact ih (s := { s' with
          remote := { s'.remote with repeatCountdown := s'.remote.repeatCountdown - 1 },
          rep := true, buf := { s'.buf with sum := 0 } }) hends h
      · exact ih (s := { s' with buf := { s'.buf with sum := 0 } }) hends h

/-- The loop succeeds only behind `check_send_buffer`. -/
theorem initSendLoop_checked {fuel : Nat} {s : SendState} {res : SendResult}
    (h : initSendLoop fuel s = some res) (hret : res.ret = true) :
    checkSendBuffer res.buf = true := by
  induction fuel generalizing s with
  | zero => simp [initSendLoop] at h
  | succ fuel ih =>
    rw [initSendLoop] at h
    rcases initSendStep_parts s with ⟨r, hstep, hfalse⟩ | ⟨s', hstep, -, -⟩
    · rw [hstep] at h
      obtain rfl := Option.some.inj h
      rw [hret] at hfalse
      exact Bool.noConfusion hfalse
    · rw [hstep] at h
      unfold loopOrEnd at h
      split_ifs at h
      · exact ih h
      · exact ih h
      · obtain rfl := Option.some.inj h
        exact hret

/-! ## 6. `init_send` as a whole -/

/-- The protocols `init_send` can send. -/
def Supported (remote : IrRemote) : Prop :=
  (isGrundig remote || isGoldstar remote || isSerial remote || isBo remote) = false

/-- Every frame of the schedule, and every gap, lasts. -/
def LastingSchedule (remote : IrRemote) (code : IrNcode) (repeats : Int) : Prop :=
  ∀ k ∈ schedule remote code repeats, Lasting remote k

theorem atHead_init (remote : IrRemote) (code : IrNcode) (repeats : Int) :
    AtHead (initSendState remote code repeats) :=
  ⟨⟨rfl, rfl, rfl⟩, rfl, rfl, Nat.zero_le _⟩

theorem initSendState_config (remote : IrRemote) (code : IrNcode) (repeats : Int) :
    (initSendState remote code repeats).remote.config = remote.config := rfl

/-- How many turns a transmission takes at most. -/
def turns (remote : IrRemote) (code : IrNcode) (repeats : Int) : Nat :=
  (schedule remote code repeats).length

/-- **A whole call of `init_send`**: it ends within the turns of its schedule,
    and succeeds exactly if every frame was sent and the buffer is good. -/
theorem initSend_run {remote : IrRemote} {code : IrNcode} {repeats : Int}
    (hsup : Supported remote) (he : Ends remote code)
    (hl : LastingSchedule remote code repeats) :
    ∃ res, initSend (turns remote code repeats) remote code repeats = some res ∧
      ((AllSend remote code (schedule remote code repeats) [] ∧
          res.buf.data = transmit remote code (schedule remote code repeats) [] ∧
          res.frames = transmitFrames remote code (schedule remote code repeats) [] ∧
          res.ret = checkSendBuffer res.buf ∧ res.code.transmitState = []) ∨
        (¬ AllSend remote code (schedule remote code repeats) [] ∧ res.ret = false ∧
          (code.next = [] → res.code.transmitState = code.transmitState))) := by
  have hcfg := initSendState_config remote code repeats
  have hlen : (slotsLeft (initSendState remote code repeats)).length =
      turns remote code repeats := (length_kindsFrom _ _ _).symm
  obtain ⟨res, hrun, hend⟩ := initSendLoop_run hlen (atHead_init remote code repeats)
    ((ends_congr hcfg).mpr he) (fun k hk => (hl k hk).congr hcfg)
  obtain ⟨h1, h2, h3⟩ := transmit_congr (schedule remote code repeats) [] hcfg
    (⟨rfl, rfl, rfl⟩ : SameParts code code)
  refine ⟨res, ?_, ?_⟩
  · rw [initSend, if_neg (by rw [hsup]; simp)]
    exact hrun
  · cases hend with
    | sent hall hdata hframes hret hparts =>
      exact .inl ⟨h3.mp hall, hdata.trans h1, hframes.trans h2, hret, hparts⟩
    | gaveUp hall hret hparts => exact .inr ⟨fun h => hall (h3.mpr h), hret, hparts⟩

/-- **A transmission that succeeds** is not empty. -/
theorem initSend_ne_nil {fuel : Nat} {remote : IrRemote} {code : IrNcode} {repeats : Int}
    {res : SendResult} (h : initSend fuel remote code repeats = some res) (hret : res.ret = true) :
    res.buf.data ≠ [] := by
  have hcheck : checkSendBuffer res.buf = true := by
    unfold initSend at h
    split at h
    · obtain rfl := Option.some.inj h
      exact Bool.noConfusion hret
    · exact initSendLoop_checked h hret
  intro hnil
  unfold checkSendBuffer Sbuf.wptr at hcheck
  rw [hnil] at hcheck
  exact Bool.noConfusion hcheck

/-- **A transmission that succeeds has sent its schedule.** -/
theorem initSend_sent {fuel : Nat} {remote : IrRemote} {code : IrNcode} {repeats : Int}
    {res : SendResult} (h : initSend fuel remote code repeats = some res) (hret : res.ret = true)
    (hl : LastingSchedule remote code repeats) :
    AllSend remote code (schedule remote code repeats) [] ∧
      res.buf.data = transmit remote code (schedule remote code repeats) [] ∧
      res.frames = transmitFrames remote code (schedule remote code repeats) [] ∧
      checkSendBuffer res.buf = true := by
  have hsup : Supported remote := by
    unfold Supported
    by_contra hno
    rw [initSend, if_pos ((Bool.not_eq_false _).mp hno)] at h
    simp only [Option.some.injEq] at h
    rw [← h] at hret
    simp at hret
  have hloop : initSendLoop fuel (initSendState remote code repeats) = some res := by
    rw [initSend, if_neg (by rw [hsup]; simp)] at h
    exact h
  have he : Ends remote code := by
    by_contra hno
    have hf := initSendLoop_endless (s := initSendState remote code repeats) hno hloop
    rw [hret] at hf
    simp at hf
  obtain ⟨r, hrun, hcase⟩ := initSend_run hsup he hl
  rw [initSend, if_neg (by rw [hsup]; simp)] at hrun
  have hr := initSendLoop_unique hrun hloop
  subst hr
  rcases hcase with ⟨h1, h2, h3, h4, -⟩ | ⟨-, hf, -⟩
  · exact ⟨h1, h2, h3, by rw [← h4]; exact hret⟩
  · rw [hret] at hf
    simp at hf

end WinLirc
