/-
  File:      WinLirc/Send.lean
  Subject:   DLL/Common/Send.cpp: the send buffer, the encoders and `init_send`.

  Two things here are GHOSTS, for the theorems only: the level beside each
  buffer entry (the C array keeps the time alone, the parity of the index is
  all that tells a pulse from a space) and the log `frames` of what
  `init_send` has emitted. Neither is read by a modelled function.

  The loop of `init_send` is a step function (`initSendStep`) iterated at
  most `fuel` times; `none` is a run that needs more turns.
-/
import WinLirc.LircDefines

namespace WinLirc

/-- What the encoder emits: light on or light off. -/
inductive Level where
  | pulse | space
  deriving DecidableEq, Repr

/-- An emission: a level, and how long it lasts. -/
abbrev Emission := Level × Int

/-! ## 1. The send buffer -/

/-- `struct sbuf`: `data` is `_data[0 .. wptr)`, each entry beside the level
    the encoder emitted it at. -/
structure Sbuf where
  data : List Emission := []
  tooLong : Bool := false
  isBiphase : Bool := false
  pendingp : Int := 0
  pendings : Int := 0
  sum : Int := 0
  deriving DecidableEq, Repr

def Sbuf.wptr (b : Sbuf) : Nat := b.data.length

def clearSendBuffer : Sbuf := {}

def addSendBuffer (level : Level) (data : Int) (b : Sbuf) : Sbuf :=
  if b.wptr < WBUF_SIZE then
    { b with sum := b.sum + data, data := b.data ++ [(level, data)] }
  else
    { b with tooLong := true }

def sendPulse (data : Int) (b : Sbuf) : Sbuf :=
  if b.pendingp > 0 then
    { b with pendingp := b.pendingp + data }
  else
    let b := if b.pendings > 0 then
        { addSendBuffer .space b.pendings b with pendings := 0 }
      else b
    { b with pendingp := data }

def sendSpace (data : Int) (b : Sbuf) : Sbuf :=
  if b.wptr = 0 ∧ b.pendingp = 0 then b
  else if b.pendings > 0 then
    { b with pendings := b.pendings + data }
  else
    let b := if b.pendingp > 0 then
        { addSendBuffer .pulse b.pendingp b with pendingp := 0 }
      else b
    { b with pendings := data }

def badSendBuffer (b : Sbuf) : Bool :=
  b.tooLong || (b.wptr == WBUF_SIZE && decide (b.pendingp > 0))

def checkSendBuffer (b : Sbuf) : Bool :=
  b.wptr != 0 && b.data.all (fun e => e.2 != 0)

def flushSendBuffer (b : Sbuf) : Sbuf :=
  let b := if b.pendingp > 0 then
      { addSendBuffer .pulse b.pendingp b with pendingp := 0 }
    else b
  if b.pendings > 0 then
    { addSendBuffer .space b.pendings b with pendings := 0 }
  else b

def syncSendBuffer (b : Sbuf) : Sbuf :=
  let b := if b.pendingp > 0 then
      { addSendBuffer .pulse b.pendingp b with pendingp := 0 }
    else b
  if b.wptr > 0 ∧ b.wptr % 2 = 0 then { b with data := b.data.dropLast } else b

/-! ## 2. The parts of a frame -/

def sendHeader (remote : IrRemote) (b : Sbuf) : Sbuf :=
  if hasHeader remote then sendSpace remote.shead (sendPulse remote.phead b) else b

def sendFoot (remote : IrRemote) (b : Sbuf) : Sbuf :=
  if hasFoot remote then sendPulse remote.pfoot (sendSpace remote.sfoot b) else b

def sendLead (remote : IrRemote) (b : Sbuf) : Sbuf :=
  if remote.plead ≠ 0 then sendPulse remote.plead b else b

def sendTrail (remote : IrRemote) (b : Sbuf) : Sbuf :=
  if remote.ptrail ≠ 0 then sendPulse remote.ptrail b else b

/-- The RC-MM loop of `send_data`: `n` symbols of two bits are left. -/
def sendRcmm (remote : IrRemote) : Nat → IrCode → Sbuf → Sbuf
  | 0, _, b => b
  | n + 1, data, b =>
    let b :=
      if data &&& 3 = 0 then sendSpace remote.szero (sendPulse remote.pzero b)
      -- 2 and 1 swapped due to reverse()
      else if data &&& 3 = 2 then sendSpace remote.sone (sendPulse remote.pone b)
      else if data &&& 3 = 1 then sendSpace remote.stwo (sendPulse remote.ptwo b)
      else sendSpace remote.sthree (sendPulse remote.pthree b)
    sendRcmm remote n (data >>> 2) b

/-- The XMP loop of `send_data`: `n` nibbles are left. The cast of the space
    to `unsigned long` changes nothing while the sum fits an int. -/
def sendXmp (remote : IrRemote) : Nat → IrCode → Sbuf → Sbuf
  | 0, _, b => b
  | n + 1, data, b =>
    let nibble := reverse (data &&& 0xf) 4
    let b := sendPulse remote.pzero b
    let b := sendSpace (remote.szero + nibble.toNat * remote.sone) b
    sendXmp remote n (data >>> 4) b

/-- The current bit of `data` after the toggle masks of `send_data`. -/
def toggleData (remote : IrRemote) (mask data : IrCode) : IrCode :=
  let data :=
    if hasToggleBitMask remote && mask &&& remote.toggleBitMask != 0 then
      if bitsSet remote.toggleBitMask = 1 then
        -- backwards compatibility
        let data := data &&& ~~~1
        if remote.toggleBitMaskState &&& mask ≠ 0 then data ||| 1 else data
      else if remote.toggleBitMaskState &&& mask ≠ 0 then data ^^^ 1 else data
    else data
  if hasToggleMask remote && mask &&& remote.toggleMask != 0 &&
      decide (remote.toggleMaskState.tmod 2 ≠ 0) then data ^^^ 1 else data

/-- One bit of `send_data`, `one` its value. -/
def sendBit (remote : IrRemote) (mask : IrCode) (one : Bool) (b : Sbuf) : Sbuf :=
  if one then
    if isBiphase remote then
      if mask &&& remote.rc6Mask ≠ 0 then
        sendPulse (2 * remote.pone) (sendSpace (2 * remote.sone) b)
      else sendPulse remote.pone (sendSpace remote.sone b)
    else if isSpaceFirst remote then sendPulse remote.pone (sendSpace remote.sone b)
    else sendSpace remote.sone (sendPulse remote.pone b)
  else
    if mask &&& remote.rc6Mask ≠ 0 then
      sendSpace (2 * remote.szero) (sendPulse (2 * remote.pzero) b)
    else if isSpaceFirst remote then sendPulse remote.pzero (sendSpace remote.szero b)
    else sendSpace remote.szero (sendPulse remote.pzero b)

/-- The bit loop of `send_data`: `n` bits are left. -/
def sendBits (remote : IrRemote) : Nat → IrCode → IrCode → Sbuf → Sbuf
  | 0, _, _, b => b
  | n + 1, mask, data, b =>
    let data := toggleData remote mask data
    let b := sendBit remote mask (data.getLsbD 0) b
    sendBits remote n (mask >>> 1) (data >>> 1) b

def sendData (remote : IrRemote) (data : IrCode) (bits done : Int) (b : Sbuf) : Sbuf :=
  let data := reverse data bits
  if isRcmm remote then
    if bits.tmod 2 ≠ 0 ∨ done.tmod 2 ≠ 0 then b else sendRcmm remote (bits.toNat / 2) data b
  else if isXmp remote then
    if bits.tmod 4 ≠ 0 ∨ done.tmod 4 ≠ 0 then b else sendXmp remote (bits.toNat / 4) data b
  else
    sendBits remote bits.toNat ((1 : IrCode) <<< (bitCount remote - 1 - done).toNat) data b

def sendPre (remote : IrRemote) (b : Sbuf) : Sbuf :=
  if hasPre remote then
    let b := sendData remote remote.preData remote.preDataBits 0 b
    if remote.preP > 0 ∧ remote.preS > 0 then sendSpace remote.preS (sendPulse remote.preP b)
    else b
  else b

def sendPost (remote : IrRemote) (b : Sbuf) : Sbuf :=
  if hasPost remote then
    let b := if remote.postP > 0 ∧ remote.postS > 0 then
        sendSpace remote.postS (sendPulse remote.postP b)
      else b
    sendData remote remote.postData remote.postDataBits (remote.preDataBits + remote.bits) b
  else b

def sendRepeat (remote : IrRemote) (b : Sbuf) : Sbuf :=
  let b := sendLead remote b
  let b := sendPulse remote.prepeat b
  let b := sendSpace remote.srepeat b
  sendTrail remote b

def sendCode (remote : IrRemote) (code : IrCode) (rep : Bool) (b : Sbuf) : Sbuf :=
  let b := if !rep || !hasFlag remote NO_HEAD_REP then sendHeader remote b else b
  let b := sendLead remote b
  let b := sendPre remote b
  let b := sendData remote code remote.bits remote.preDataBits b
  let b := sendPost remote b
  let b := sendTrail remote b
  let b := if !rep || !hasFlag remote NO_FOOT_REP then sendFoot remote b else b
  if !rep && hasFlag remote NO_HEAD_REP && hasFlag remote CONST_LENGTH then
    { b with sum := b.sum - (remote.phead + remote.shead) }
  else b

/-- The level of the `i`th signal of a raw code. -/
def rawLevel (i : Nat) : Level := if i % 2 = 0 then .pulse else .space

/-- The loop of `send_signals` from signal `i` on. -/
def sendSignalsFrom : Nat → List Int → Sbuf → Sbuf
  | _, [], b => b
  | i, s :: signals, b => sendSignalsFrom (i + 1) signals (addSendBuffer (rawLevel i) s b)

def sendSignals (signals : List Int) (b : Sbuf) : Sbuf := sendSignalsFrom 0 signals b

/-! ## 3. `init_send` -/

/-- What one turn of the loop of `init_send` emitted (ghost). -/
inductive FrameKind where
  | code (part : IrCode) (rep : Bool) (toggleMaskState : Int)
  | repeatFrame
  | raw
  deriving DecidableEq, Repr

/-- A frame with its gap: the entries `start .. stop` of the buffer (ghost). -/
structure Frame where
  kind : FrameKind
  start : Nat
  stop : Nat
  deriving DecidableEq, Repr

structure SendState where
  remote : IrRemote
  code : IrNcode
  buf : Sbuf
  rep : Bool
  frames : List Frame
  deriving DecidableEq, Repr

structure SendResult where
  ret : Bool
  remote : IrRemote
  code : IrNcode
  buf : Sbuf
  frames : List Frame
  deriving DecidableEq, Repr

def SendState.return (s : SendState) (ret : Bool) : SendResult :=
  ⟨ret, s.remote, s.code, s.buf, s.frames⟩

/-- `code->code` or `code->transmit_state->code`. -/
def nextCode (code : IrNcode) : IrCode :=
  match code.transmitState with
  | [] => code.code
  | c :: _ => c

/-- The toggle counter after a sent code. -/
def stepToggleMaskState (remote : IrRemote) : IrRemote :=
  if hasToggleMask remote then
    if remote.toggleMaskState + 1 = 4 then { remote with toggleMaskState := 2 }
    else { remote with toggleMaskState := remote.toggleMaskState + 1 }
  else remote

/-- The frame of one turn; `none` is `return(0)` for a raw code without
    signals. -/
def sendFrame (s : SendState) : Option (FrameKind × SendState) :=
  if s.rep && hasRepeat s.remote then
    let b := if hasFlag s.remote REPEAT_HEADER && hasHeader s.remote then
        sendHeader s.remote s.buf
      else s.buf
    some (.repeatFrame, { s with buf := sendRepeat s.remote b })
  else if !isRaw s.remote then
    let c := nextCode s.code
    some (.code c s.rep s.remote.toggleMaskState,
      { s with buf := sendCode s.remote c s.rep s.buf, remote := stepToggleMaskState s.remote })
  else
    match s.code.signals with
    | none => none
    | some signals => some (.raw, { s with buf := sendSignals signals s.buf })

/-- The gap of one turn, left in the remote; `false` is `return(0)`. -/
def setGap (s : SendState) : Bool × SendState :=
  let setGaps (lo hi : Int) : SendState :=
    { s with remote := { s.remote with minRemainingGap := lo, maxRemainingGap := hi } }
  if hasRepeatGap s.remote && s.rep && hasRepeat s.remote then
    (true, setGaps s.remote.repeatGap s.remote.repeatGap)
  else if isConst s.remote then
    if minGap s.remote > s.buf.sum then
      (true, setGaps (minGap s.remote - s.buf.sum) (maxGap s.remote - s.buf.sum))
    else (false, setGaps (minGap s.remote) (maxGap s.remote))
  else (true, setGaps (minGap s.remote) (maxGap s.remote))

/-- The next part of a code of several parts. -/
def stepTransmitState (remote : IrRemote) (code : IrNcode) : IrNcode :=
  if code.next ≠ [] then
    match code.transmitState with
    | [] => { code with transmitState := code.next }
    | _ :: rest =>
      if isXmp remote && rest.isEmpty then { code with transmitState := code.next }
      else { code with transmitState := rest }
  else code

/-- The end of a turn once its gap is known: the next part, the gap, the log. -/
def endFrame (kind : FrameKind) (start : Nat) (s : SendState) : SendState :=
  let buf := flushSendBuffer (sendSpace s.remote.minRemainingGap s.buf)
  { s with
    code := stepTransmitState s.remote s.code
    buf := buf
    frames := s.frames ++ [⟨kind, start, buf.wptr⟩] }

/-- `goto init_send_loop`, or the end. -/
def loopOrEnd (s : SendState) : SendState ⊕ SendResult :=
  if s.remote.repeatCountdown > 0 ∨ s.code.transmitState ≠ [] then
    if s.code.next = [] ∨ s.code.transmitState = [] then
      .inl { s with
        remote := { s.remote with repeatCountdown := s.remote.repeatCountdown - 1 }
        rep := true
        buf := { s.buf with sum := 0 } }
    else .inl { s with buf := { s.buf with sum := 0 } }
  else .inr (s.return (checkSendBuffer s.buf))

/-- One turn of `init_send_loop`: the next state, or the return. -/
def initSendStep (s : SendState) : SendState ⊕ SendResult :=
  match sendFrame s with
  | none => .inr (s.return false)
  | some (kind, s₁) =>
    let s₂ : SendState := { s₁ with buf := syncSendBuffer s₁.buf }
    if badSendBuffer s₂.buf then .inr (s₂.return false)
    else
      match setGap s₂ with
      | (false, s₃) => .inr (s₃.return false)
      | (true, s₃) => loopOrEnd (endFrame kind s.buf.wptr s₃)

/-- At most `fuel` turns of the loop. -/
def initSendLoop : Nat → SendState → Option SendResult
  | 0, _ => none
  | fuel + 1, s =>
    match initSendStep s with
    | .inl s => initSendLoop fuel s
    | .inr res => some res

/-- The state in which the loop starts. -/
def initSendState (remote : IrRemote) (code : IrNcode) (repeats : Int) : SendState where
  remote := { remote with repeatCountdown := max remote.minRepeat repeats }
  code := code
  buf := { clearSendBuffer with isBiphase := isBiphase remote }
  rep := false
  frames := []

/-- `init_send`. The protocols it cannot send leave the buffer alone; the
    result then carries an empty one. -/
def initSend (fuel : Nat) (remote : IrRemote) (code : IrNcode) (repeats : Int) :
    Option SendResult :=
  if isGrundig remote || isGoldstar remote || isSerial remote || isBo remote then
    some ⟨false, remote, code, {}, []⟩
  else initSendLoop fuel (initSendState remote code repeats)

end WinLirc
