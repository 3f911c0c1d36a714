/-
  File:      WinLirc/Encoder.lean
  Subject:   What a frame emits.

  The encoders of Send.cpp only call `send_pulse` and `send_space`. This file
  reads each of them as the LIST of these calls (`headerSignal`,
  `dataSignal`, …, `codeSignal`, `repeatSignal`) and proves that the encoder
  is the replay of its list (`sendCode_eq`, `sendRepeat_eq`).

  What the send buffer makes of a frame is then a fact about replays alone
  (WinLirc/SendBuffer.lean).
-/
import WinLirc.Signal.Coalesce
import WinLirc.Send

namespace WinLirc

open Signal

/-! ## 1. The calls of a frame -/

/-- One call of `send_pulse` or `send_space`. -/
def emitOne (e : Emission) (b : Sbuf) : Sbuf :=
  match e with
  | (.pulse, d) => sendPulse d b
  | (.space, d) => sendSpace d b

/-- A list of calls, in order. -/
def emit (es : List Emission) (b : Sbuf) : Sbuf := es.foldl (fun b e => emitOne e b) b

@[simp] theorem emit_nil (b : Sbuf) : emit [] b = b := rfl

@[simp] theorem emit_cons (e : Emission) (es : List Emission) (b : Sbuf) :
    emit (e :: es) b = emit es (emitOne e b) := rfl

theorem emit_append (es fs : List Emission) (b : Sbuf) :
    emit (es ++ fs) b = emit fs (emit es b) := List.foldl_append

def headerSignal (remote : IrRemote) : List Emission :=
  if hasHeader remote then [(.pulse, remote.phead), (.space, remote.shead)] else []

def footSignal (remote : IrRemote) : List Emission :=
  if hasFoot remote then [(.space, remote.sfoot), (.pulse, remote.pfoot)] else []

def leadSignal (remote : IrRemote) : List Emission :=
  if remote.plead ≠ 0 then [(.pulse, remote.plead)] else []

def trailSignal (remote : IrRemote) : List Emission :=
  if remote.ptrail ≠ 0 then [(.pulse, remote.ptrail)] else []

/-- A pulse and a space, if both are configured. -/
def pairSignal (p s : Int) : List Emission :=
  if p > 0 ∧ s > 0 then [(.pulse, p), (.space, s)] else []

/-- One RC-MM symbol; `data` is the reversed word. -/
def rcmmSymbol (remote : IrRemote) (data : IrCode) : List Emission :=
  if data &&& 3 = 0 then [(.pulse, remote.pzero), (.space, remote.szero)]
  else if data &&& 3 = 2 then [(.pulse, remote.pone), (.space, remote.sone)]
  else if data &&& 3 = 1 then [(.pulse, remote.ptwo), (.space, remote.stwo)]
  else [(.pulse, remote.pthree), (.space, remote.sthree)]

def rcmmSignal (remote : IrRemote) : Nat → IrCode → List Emission
  | 0, _ => []
  | n + 1, data => rcmmSymbol remote data ++ rcmmSignal remote n (data >>> 2)

def xmpSignal (remote : IrRemote) : Nat → IrCode → List Emission
  | 0, _ => []
  | n + 1, data =>
    [(.pulse, remote.pzero),
      (.space, remote.szero + (reverse (data &&& 0xf) 4).toNat * remote.sone)] ++
      xmpSignal remote n (data >>> 4)

def bitSignal (remote : IrRemote) (mask : IrCode) (one : Bool) : List Emission :=
  let k : Int := if mask &&& remote.rc6Mask ≠ 0 then 2 else 1
  if one then
    if isBiphase remote then [(.space, k * remote.sone), (.pulse, k * remote.pone)]
    else if isSpaceFirst remote then [(.space, remote.sone), (.pulse, remote.pone)]
    else [(.pulse, remote.pone), (.space, remote.sone)]
  else
    if mask &&& remote.rc6Mask ≠ 0 then [(.pulse, 2 * remote.pzero), (.space, 2 * remote.szero)]
    else if isSpaceFirst remote then [(.space, remote.szero), (.pulse, remote.pzero)]
    else [(.pulse, remote.pzero), (.space, remote.szero)]

def bitsSignal (remote : IrRemote) : Nat → IrCode → IrCode → List Emission
  | 0, _, _ => []
  | n + 1, mask, data =>
    bitSignal remote mask ((toggleData remote mask data).getLsbD 0) ++
      bitsSignal remote n (mask >>> 1) (toggleData remote mask data >>> 1)

def dataSignal (remote : IrRemote) (data : IrCode) (bits done : Int) : List Emission :=
  if isRcmm remote then
    if bits.tmod 2 ≠ 0 ∨ done.tmod 2 ≠ 0 then []
    else rcmmSignal remote (bits.toNat / 2) (reverse data bits)
  else if isXmp remote then
    if bits.tmod 4 ≠ 0 ∨ done.tmod 4 ≠ 0 then []
    else xmpSignal remote (bits.toNat / 4) (reverse data bits)
  else
    bitsSignal remote bits.toNat ((1 : IrCode) <<< (bitCount remote - 1 - done).toNat)
      (reverse data bits)

def preSignal (remote : IrRemote) : List Emission :=
  if hasPre remote then
    dataSignal remote remote.preData remote.preDataBits 0 ++ pairSignal remote.preP remote.preS
  else []

def postSignal (remote : IrRemote) : List Emission :=
  if hasPost remote then
    pairSignal remote.postP remote.postS ++
      dataSignal remote remote.postData remote.postDataBits (remote.preDataBits + remote.bits)
  else []

def repeatSignal (remote : IrRemote) : List Emission :=
  leadSignal remote ++ [(.pulse, remote.prepeat), (.space, remote.srepeat)] ++ trailSignal remote

def codeSignal (remote : IrRemote) (code : IrCode) (rep : Bool) : List Emission :=
  (if !rep || !hasFlag remote NO_HEAD_REP then headerSignal remote else []) ++
  leadSignal remote ++ preSignal remote ++
  dataSignal remote code remote.bits remote.preDataBits ++
  postSignal remote ++ trailSignal remote ++
  (if !rep || !hasFlag remote NO_FOOT_REP then footSignal remote else [])

/-! ## 2. The encoders replay their calls -/

theorem sendHeader_eq (remote : IrRemote) (b : Sbuf) :
    sendHeader remote b = emit (headerSignal remote) b := by
  unfold sendHeader headerSignal
  split <;> rfl

theorem sendFoot_eq (remote : IrRemote) (b : Sbuf) :
    sendFoot remote b = emit (footSignal remote) b := by
  unfold sendFoot footSignal
  split <;> rfl

theorem sendLead_eq (remote : IrRemote) (b : Sbuf) :
    sendLead remote b = emit (leadSignal remote) b := by
  unfold sendLead leadSignal
  split <;> rfl

theorem sendTrail_eq (remote : IrRemote) (b : Sbuf) :
    sendTrail remote b = emit (trailSignal remote) b := by
  unfold sendTrail trailSignal
  split <;> rfl

theorem sendRcmm_eq (remote : IrRemote) (n : Nat) (data : IrCode) (b : Sbuf) :
    sendRcmm remote n data b = emit (rcmmSignal remote n data) b := by
  induction n generalizing data b with
  | zero => rfl
  | succ n ih =>
    rw [sendRcmm, ih, rcmmSignal, emit_append]
    congr 1
    unfold rcmmSymbol
    split_ifs <;> rfl

theorem sendXmp_eq (remote : IrRemote) (n : Nat) (data : IrCode) (b : Sbuf) :
    sendXmp remote n data b = emit (xmpSignal remote n data) b := by
  induction n generalizing data b with
  | zero => rfl
  | succ n ih =>
    rw [sendXmp, ih, xmpSignal, emit_append]
    rfl

theorem sendBit_eq (remote : IrRemote) (mask : IrCode) (one : Bool) (b : Sbuf) :
    sendBit remote mask one b = emit (bitSignal remote mask one) b := by
  unfold sendBit bitSignal
  split_ifs <;> simp [emitOne]

theorem sendBits_eq (remote : IrRemote) (n : Nat) (mask data : IrCode) (b : Sbuf) :
    sendBits remote n mask data b = emit (bitsSignal remote n mask data) b := by
  induction n generalizing mask data b with
  | zero => rfl
  | succ n ih =>
    rw [sendBits, ih, sendBit_eq, bitsSignal, emit_append]

theorem sendData_eq (remote : IrRemote) (data : IrCode) (bits done : Int) (b : Sbuf) :
    sendData remote data bits done b = emit (dataSignal remote data bits done) b := by
  unfold sendData dataSignal
  split_ifs
  · rfl
  · exact sendRcmm_eq _ _ _ _
  · rfl
  · exact sendXmp_eq _ _ _ _
  · exact sendBits_eq _ _ _ _ _

theorem emit_pairSignal (p s : Int) (b : Sbuf) :
    emit (pairSignal p s) b = if p > 0 ∧ s > 0 then sendSpace s (sendPulse p b) else b := by
  unfold pairSignal
  split <;> rfl

theorem sendPre_eq (remote : IrRemote) (b : Sbuf) :
    sendPre remote b = emit (preSignal remote) b := by
  unfold sendPre preSignal
  split
  · rw [emit_append, emit_pairSignal, sendData_eq]
  · rfl

theorem sendPost_eq (remote : IrRemote) (b : Sbuf) :
    sendPost remote b = emit (postSignal remote) b := by
  unfold sendPost postSignal
  split
  · rw [emit_append, emit_pairSignal, sendData_eq]
  · rfl

/-- **A repeat frame is the replay of its calls.** -/
theorem sendRepeat_eq (remote : IrRemote) (b : Sbuf) :
    sendRepeat remote b = emit (repeatSignal remote) b := by
  rw [sendRepeat, sendLead_eq, sendTrail_eq, repeatSignal, emit_append, emit_append]
  rfl

/-- What `send_code` takes off `sum` at its end. -/
def sumCut (remote : IrRemote) (rep : Bool) : Int :=
  if !rep && hasFlag remote NO_HEAD_REP && hasFlag remote CONST_LENGTH then
    remote.phead + remote.shead
  else 0

/-- **A code frame is the replay of its calls**, but for `sum`. -/
theorem sendCode_eq (remote : IrRemote) (code : IrCode) (rep : Bool) (b : Sbuf) :
    sendCode remote code rep b =
      { emit (codeSignal remote code rep) b with
        sum := (emit (codeSignal remote code rep) b).sum - sumCut remote rep } := by
  have hh : (if !rep || !hasFlag remote NO_HEAD_REP then sendHeader remote b else b) =
      emit (if !rep || !hasFlag remote NO_HEAD_REP then headerSignal remote else []) b := by
    split
    · exact sendHeader_eq remote b
    · rfl
  have hf (b : Sbuf) : (if !rep || !hasFlag remote NO_FOOT_REP then sendFoot remote b else b) =
      emit (if !rep || !hasFlag remote NO_FOOT_REP then footSignal remote else []) b := by
    split
    · exact sendFoot_eq remote b
    · rfl
  simp only [sendCode, hh, hf, sendTrail_eq, sendPost_eq, sendData_eq, sendPre_eq, sendLead_eq,
    ← emit_append]
  unfold sumCut codeSignal
  split
  · rfl
  · simp

end WinLirc
