/-
  File:      WinLirc/Receive.lean
  Subject:   DLL/Common/Receive.cpp: the receive buffer, the `expect` helpers,
             `get_data` and `receive_decode`.

  * The hardware is the list `input` of the samples it will still deliver:
    `data_ready` answers whether one is left, `readdata` takes it (and gives 0
    when none is left), `wait_for_data` only spends time. The waiting time
    `maxusec` is kept as an argument, nothing depends on it.
  * `rptr` is an integer: `unget_rec_buffer` may move it below 0. A read
    outside `data[0 .. wptr)` is undefined in the source; here it gives 0.
  * A failed `get_data` answers `irFail`, the source's `(ir_code) -1`.
  * The serial and Grundig loops of `get_data` run on received time, not on a
    counter; they take at most `fuel` turns, and `none` is a run that needs
    more.
-/
import WinLirc.LircDefines

namespace WinLirc

/-! ## 1. The receive buffer -/

/-- `struct rbuf` with the hardware's queue: `data` is `data[0 .. wptr)`. -/
structure Rbuf where
  data : List Int := []
  decoded : IrCode := 0
  rptr : Int := 0
  tooLong : Bool := false
  isBiphase : Bool := false
  pendingp : Int := 0
  pendings : Int := 0
  sum : Int := 0
  input : List Int := []
  deriving DecidableEq, Repr

def Rbuf.wptr (b : Rbuf) : Nat := b.data.length

/-- `rec_buffer.data[i]`. -/
def Rbuf.sample (b : Rbuf) (i : Int) : Int := if 0 ≤ i then b.data.getD i.toNat 0 else 0

def setPendingPulse (deltap : Int) (b : Rbuf) : Rbuf := { b with pendingp := deltap }

def setPendingSpace (deltas : Int) (b : Rbuf) : Rbuf := { b with pendings := deltas }

def getNextRecBuffer (_maxusec : Int) (b : Rbuf) : Int × Rbuf :=
  if b.rptr < b.wptr then
    let data := b.sample b.rptr
    (data, { b with sum := b.sum + maskPulse data, rptr := b.rptr + 1 })
  else if b.wptr < RBUF_SIZE then
    match b.input with
    | [] => (0, b)
    | data :: rest =>
      if data = 0 then (0, { b with input := rest })
      else
        let b := { b with data := b.data ++ [data], input := rest }
        let data := b.sample b.rptr
        (data, { b with sum := b.sum + maskPulse data, rptr := b.rptr + 1 })
  else (0, { b with tooLong := true })

def rewindRecBuffer (b : Rbuf) : Rbuf :=
  { b with rptr := 0, tooLong := false, pendingp := 0, pendings := 0, sum := 0 }

/-- `clear_rec_buffer` for a receiver of samples, and for one of codes
    (`LIRC_MODE_LIRCCODE`). -/
def clearRecBuffer (recMode : Nat) (b : Rbuf) : Rbuf :=
  let b :=
    if recMode = LIRC_MODE_LIRCCODE then b
    else if b.wptr - b.rptr > 0 ∧ b.rptr > 0 then { b with data := b.data.drop b.rptr.toNat }
    else { b with data := [b.input.headD 0], input := b.input.tail }
  { rewindRecBuffer b with isBiphase := false }

def ungetRecBuffer (count : Nat) (b : Rbuf) : Rbuf :=
  if count = 1 ∨ count = 2 then
    let b := { b with rptr := b.rptr - count }
    let b := { b with sum := b.sum - maskPulse (b.sample b.rptr) }
    if count = 2 then { b with sum := b.sum - maskPulse (b.sample (b.rptr + 1)) } else b
  else b

def ungetRecBufferDelta (delta : Int) (b : Rbuf) : Rbuf :=
  { b with
    rptr := b.rptr - 1
    sum := b.sum - maskPulse delta
    data := b.data.set (b.rptr - 1).toNat delta }

def getNextPulse (maxusec : Int) (b : Rbuf) : Int × Rbuf :=
  let (data, b) := getNextRecBuffer maxusec b
  if data = 0 then (0, b) else if !isPulse data then (0, b) else (maskPulse data, b)

def getNextSpace (maxusec : Int) (b : Rbuf) : Int × Rbuf :=
  let (data, b) := getNextRecBuffer maxusec b
  if data = 0 then (0, b) else if !isSpace data then (0, b) else (data, b)

/-! ## 2. Expected pulses and spaces -/

def syncPendingPulse (remote : IrRemote) (b : Rbuf) : Bool × Rbuf :=
  if b.pendingp > 0 then
    let (deltap, b) := getNextPulse b.pendingp b
    if deltap = 0 then (false, b)
    else if !expect remote deltap b.pendingp then (false, b)
    else (true, setPendingPulse 0 b)
  else (true, b)

def syncPendingSpace (remote : IrRemote) (b : Rbuf) : Bool × Rbuf :=
  if b.pendings > 0 then
    let (deltas, b) := getNextSpace b.pendings b
    if deltas = 0 then (false, b)
    else if !expect remote deltas b.pendings then (false, b)
    else (true, setPendingSpace 0 b)
  else (true, b)

/-- Nothing deferred, nothing to synchronise. -/
theorem syncPendingSpace_none {remote : IrRemote} {b : Rbuf} (h : b.pendings ≤ 0) :
    syncPendingSpace remote b = (true, b) := by
  rw [syncPendingSpace, if_neg (by omega)]

theorem syncPendingPulse_none {remote : IrRemote} {b : Rbuf} (h : b.pendingp ≤ 0) :
    syncPendingPulse remote b = (true, b) := by
  rw [syncPendingPulse, if_neg (by omega)]

def expectpulse (remote : IrRemote) (exdelta : Int) (b : Rbuf) : Bool × Rbuf :=
  match syncPendingSpace remote b with
  | (false, b) => (false, b)
  | (true, b) =>
    let (deltap, b) := getNextPulse (b.pendingp + exdelta) b
    if deltap = 0 then (false, b)
    else if b.pendingp > 0 then
      if b.pendingp > deltap then (false, b)
      else if !expect remote (deltap - b.pendingp) exdelta then (false, b)
      else (true, setPendingPulse 0 b)
    else (expect remote deltap exdelta, b)

def expectspace (remote : IrRemote) (exdelta : Int) (b : Rbuf) : Bool × Rbuf :=
  match syncPendingPulse remote b with
  | (false, b) => (false, b)
  | (true, b) =>
    let (deltas, b) := getNextSpace (b.pendings + exdelta) b
    if deltas = 0 then (false, b)
    else if b.pendings > 0 then
      if b.pendings > deltas then (false, b)
      else if !expect remote (deltas - b.pendings) exdelta then (false, b)
      else (true, setPendingSpace 0 b)
    else (expect remote deltas exdelta, b)

/-- `mask & remote->rc6_mask` for the bit at position `bit` of the frame. -/
def rc6Bit (remote : IrRemote) (bit : Int) : Bool :=
  ((1 : IrCode) <<< (bitCount remote - 1 - bit).toNat) &&& remote.rc6Mask != 0

def expectone (remote : IrRemote) (bit : Int) (b : Rbuf) : Bool × Rbuf :=
  if isBiphase remote then
    let k : Int := if rc6Bit remote bit then 2 else 1
    match (if remote.sone > 0 then expectspace remote (k * remote.sone) b else (true, b)) with
    | (false, b) => (false, ungetRecBuffer 1 b)
    | (true, b) => (true, setPendingPulse (k * remote.pone) b)
  else if isSpaceFirst remote then
    match (if remote.sone > 0 then expectspace remote remote.sone b else (true, b)) with
    | (false, b) => (false, ungetRecBuffer 1 b)
    | (true, b) =>
      match (if remote.pone > 0 then expectpulse remote remote.pone b else (true, b)) with
      | (false, b) => (false, ungetRecBuffer 2 b)
      | (true, b) => (true, b)
  else
    match (if remote.pone > 0 then expectpulse remote remote.pone b else (true, b)) with
    | (false, b) => (false, ungetRecBuffer 1 b)
    | (true, b) =>
      if remote.ptrail > 0 then
        match (if remote.sone > 0 then expectspace remote remote.sone b else (true, b)) with
        | (false, b) => (false, ungetRecBuffer 2 b)
        | (true, b) => (true, b)
      else (true, setPendingSpace remote.sone b)

def expectzero (remote : IrRemote) (bit : Int) (b : Rbuf) : Bool × Rbuf :=
  if isBiphase remote then
    let k : Int := if rc6Bit remote bit then 2 else 1
    match expectpulse remote (k * remote.pzero) b with
    | (false, b) => (false, ungetRecBuffer 1 b)
    | (true, b) => (true, setPendingSpace (k * remote.szero) b)
  else if isSpaceFirst remote then
    match (if remote.szero > 0 then expectspace remote remote.szero b else (true, b)) with
    | (false, b) => (false, ungetRecBuffer 1 b)
    | (true, b) =>
      match (if remote.pzero > 0 then expectpulse remote remote.pzero b else (true, b)) with
      | (false, b) => (false, ungetRecBuffer 2 b)
      | (true, b) => (true, b)
  else
    match expectpulse remote remote.pzero b with
    | (false, b) => (false, ungetRecBuffer 1 b)
    | (true, b) =>
      if remote.ptrail > 0 then
        match expectspace remote remote.szero b with
        | (false, b) => (false, ungetRecBuffer 2 b)
        | (true, b) => (true, b)
      else (true, setPendingSpace remote.szero b)

/-! ## 3. The parts of a frame -/

/-- The loop of `sync_rec_buffer`; `n` is `REC_SYNC - count`. -/
def syncLoop (last : IrRemote) : Nat → Int → Rbuf → Int × Rbuf
  | n, deltas, b =>
    if expectAtLeast last deltas last.minRemainingGap then (deltas, b)
    else
      let (deltap, b) := getNextPulse 1000000 b
      if deltap = 0 then (0, b)
      else
        let (deltas, b) := getNextSpace 1000000 b
        if deltas = 0 then (0, b)
        else
          match n with
          | 0 => (0, b) -- no sync found, let's try a different remote
          | n + 1 => syncLoop last n deltas b

/-- `sync_rec_buffer`; `lastRemote` is what `last_remote` points to. -/
def syncRecBuffer (lastRemote : Option IrRemote) (remote : IrRemote) (b : Rbuf) :
    Int × IrRemote × Rbuf :=
  let (deltas, b) := getNextSpace 1000000 b
  if deltas = 0 then (0, remote, b)
  else
    match lastRemote with
    | none => (deltas, remote, { b with sum := 0 })
    | some last =>
      if isRcmm remote then (deltas, remote, { b with sum := 0 })
      else
        let (deltas, b) := syncLoop last REC_SYNC deltas b
        if deltas = 0 then (0, remote, b)
        else
          let remote :=
            if hasToggleMask remote && !expectAtMost last deltas last.maxRemainingGap then
              { remote with toggleMaskState := 0, toggleCode := none }
            else remote
          (deltas, remote, { b with sum := 0 })

def getHeader (remote : IrRemote) (b : Rbuf) : Bool × Rbuf :=
  if isRcmm remote then
    let (deltap, b) := getNextPulse remote.phead b
    if deltap = 0 then (false, ungetRecBuffer 1 b)
    else
      let (deltas, b) := getNextSpace remote.shead b
      if deltas = 0 then (false, ungetRecBuffer 2 b)
      else if expect remote (deltap + deltas) (remote.phead + remote.shead) then (true, b)
      else (false, ungetRecBuffer 2 b)
  else if isBo remote then
    match expectpulse remote remote.pone b with
    | (false, b) => (false, b)
    | (true, b) =>
      match expectspace remote remote.sone b with
      | (false, b) => (false, b)
      | (true, b) =>
        match expectpulse remote remote.pone b with
        | (false, b) => (false, b)
        | (true, b) =>
          match expectspace remote remote.sone b with
          | (false, b) => (false, b)
          | (true, b) =>
            match expectpulse remote remote.phead b with
            | (false, b) => (false, b)
            | (true, b) => expectspace remote remote.shead b
  else if remote.shead = 0 then
    match syncPendingSpace remote b with
    | (false, b) => (false, b)
    | (true, b) => (true, setPendingPulse remote.phead b)
  else
    match expectpulse remote remote.phead b with
    | (false, b) => (false, ungetRecBuffer 1 b)
    | (true, b) =>
      -- if this flag is set I need a decision now if this is really a header
      if hasFlag remote NO_HEAD_REP then
        let (deltas, b) := getNextSpace remote.shead b
        if deltas ≠ 0 then
          if expect remote remote.shead deltas then (true, b) else (false, ungetRecBuffer 2 b)
        else (true, setPendingSpace remote.shead b)
      else (true, setPendingSpace remote.shead b)

def getFoot (remote : IrRemote) (b : Rbuf) : Bool × Rbuf :=
  match expectspace remote remote.sfoot b with
  | (false, b) => (false, b)
  | (true, b) => expectpulse remote remote.pfoot b

def getLead (remote : IrRemote) (b : Rbuf) : Bool × Rbuf :=
  if remote.plead = 0 then (true, b)
  else
    match syncPendingSpace remote b with
    | (false, b) => (false, b)
    | (true, b) => (true, setPendingPulse remote.plead b)

def getTrail (remote : IrRemote) (b : Rbuf) : Bool × Rbuf :=
  match (if remote.ptrail ≠ 0 then expectpulse remote remote.ptrail b else (true, b)) with
  | (false, b) => (false, b)
  | (true, b) => if b.pendingp > 0 then syncPendingPulse remote b else (true, b)

def getGap (remote : IrRemote) (gap : Int) (b : Rbuf) : Bool × Rbuf :=
  let (data, b) := getNextRecBuffer (gap - (gap * remote.eps).tdiv 100) b
  if data = 0 then (true, b)
  else if !isSpace data then (false, b)
  else (expectAtLeast remote data gap, ungetRecBuffer 1 b)

/-- The gap still to come after a frame of `sum` microseconds, for the
    constant-length remotes (`min_gap` or `max_gap` as `gap`). -/
def restOfGap (gap sum : Int) : Int := if gap > sum then gap - sum else 0

/-- The gap after a repeat frame. -/
def gapAfterRepeat (remote : IrRemote) (gap sum : Int) : Int :=
  if isConst remote then restOfGap gap sum
  else if hasRepeatGap remote then remote.repeatGap else gap

def getRepeat (remote : IrRemote) (b : Rbuf) : Bool × Rbuf :=
  match getLead remote b with
  | (false, b) => (false, b)
  | (true, b) =>
    let r :=
      if isBiphase remote then
        match expectspace remote remote.srepeat b with
        | (false, b) => (false, b)
        | (true, b) => expectpulse remote remote.prepeat b
      else
        match expectpulse remote remote.prepeat b with
        | (false, b) => (false, b)
        | (true, b) => (true, setPendingSpace remote.srepeat b)
    match r with
    | (false, b) => (false, b)
    | (true, b) =>
      match getTrail remote b with
      | (false, b) => (false, b)
      | (true, b) => getGap remote (gapAfterRepeat remote (minGap remote) b.sum) b

/-! ## 4. `get_data` -/

/-- `(ir_code) -1`. -/
def irFail : IrCode := BitVec.allOnes 64

/-- The RC-MM loop: `n` symbols of two bits are left. -/
def getRcmm (remote : IrRemote) : Nat → IrCode → Rbuf → IrCode × Rbuf
  | 0, code, b => (code, b)
  | n + 1, code, b =>
    let code := code <<< 2
    let (deltap, b) := getNextPulse (remote.pzero + remote.pone + remote.ptwo + remote.pthree) b
    let (deltas, b) := getNextSpace (remote.szero + remote.sone + remote.stwo + remote.sthree) b
    if deltap = 0 ∨ deltas = 0 then (irFail, b)
    else
      let sum := deltap + deltas
      if expect remote sum (remote.pzero + remote.szero) then getRcmm remote n (code ||| 0) b
      else if expect remote sum (remote.pone + remote.sone) then getRcmm remote n (code ||| 1) b
      else if expect remote sum (remote.ptwo + remote.stwo) then getRcmm remote n (code ||| 2) b
      else if expect remote sum (remote.pthree + remote.sthree) then
        getRcmm remote n (code ||| 3) b
      else (irFail, b)

/-- The Grundig loop: `i` bits are decoded, states are -1 to 3. -/
def getGrundig (remote : IrRemote) (bits : Int) :
    Nat → Int → Int → IrCode → Rbuf → Option (IrCode × Rbuf)
  | 0, _, _, _, _ => none
  | fuel + 1, i, laststate, code, b =>
    if i ≥ bits then some (code, b)
    else
      let (deltas, b) := getNextSpace (remote.szero + remote.sone + remote.stwo + remote.sthree) b
      let (deltap, b) := getNextPulse (remote.pzero + remote.pone + remote.ptwo + remote.pthree) b
      if deltas = 0 ∨ deltap = 0 then some (irFail, b)
      else
        let sum := deltas + deltap
        let state : Int :=
          if expect remote sum (remote.szero + remote.pzero) then 0
          else if expect remote sum (remote.sone + remote.pone) then 1
          else if expect remote sum (remote.stwo + remote.ptwo) then 2
          else if expect remote sum (remote.sthree + remote.pthree) then 3
          else -2
        if state = -2 then some (irFail, b)
        else if state = 3 then -- 6T
          getGrundig remote bits fuel (i + 2) (-1) (code <<< 2 ||| 0) b
        else if laststate = 2 ∧ state = 0 then -- 4T2T
          getGrundig remote bits fuel (i + 2) (-1) (code <<< 2 ||| 1) b
        else if laststate = 1 ∧ state = 1 then -- 3T3T
          getGrundig remote bits fuel (i + 2) (-1) (code <<< 2 ||| 2) b
        else if laststate = 0 ∧ state = 2 then -- 2T4T
          getGrundig remote bits fuel (i + 2) (-1) (code <<< 2 ||| 3) b
        else if laststate = -1 then -- 1st bit
          getGrundig remote bits fuel i state code b
        else some (irFail, b)

/-- The variables of the serial loop. -/
structure SerialState where
  code : IrCode := 0
  received : Nat := 0
  space : Bool := false
  stopBit : Bool := false
  parity : Bool := false
  delta : Int := 0
  origdelta : Int := 0
  gapDelta : Int := 0
  buf : Rbuf
  deriving DecidableEq, Repr

/-- What the serial branch computes once before its loop. -/
structure SerialConfig where
  base : Int
  stop : Int
  parityBit : Nat
  maxSpace : Int
  maxPulse : Int
  bits : Int
  deriving DecidableEq, Repr

def serialConfig (remote : IrRemote) (bits : Int) : SerialConfig :=
  let base : Int := (1000000 / remote.baud : Nat)
  let stop := base * remote.stopBits / 2
  let maxSpace := remote.sone * remote.bitsInByte + stop
  let maxPulse := remote.pzero * (1 + remote.bitsInByte)
  if remote.parity ≠ IR_PARITY_NONE then
    ⟨base, stop, 1, maxSpace + remote.sone, maxPulse + remote.pzero,
      bits + bits % 2 ^ 32 / remote.bitsInByte⟩
  else ⟨base, stop, 0, maxSpace, maxPulse, bits⟩

/-- The next merged level, read when the last one is used up. -/
def serialRead (remote : IrRemote) (cfg : SerialConfig) (s : SerialState) : SerialState :=
  if s.delta = 0 then
    let (delta, b) := if s.space then getNextSpace cfg.maxSpace s.buf
      else getNextPulse cfg.maxPulse s.buf
    let delta :=
      if delta = 0 ∧ s.space ∧ (s.received + remote.bitsInByte + cfg.parityBit : Nat) ≥ cfg.bits then
        cfg.maxSpace -- open end
      else delta
    { s with delta := delta, origdelta := delta, buf := b }
  else s

/-- A complete byte: its parity is checked, its bits are turned around. -/
def serialByte (remote : IrRemote) (cfg : SerialConfig) (s : SerialState) : Bool × SerialState :=
  if s.received % (remote.bitsInByte + cfg.parityBit) = 0 then
    if (remote.parity = IR_PARITY_EVEN ∧ s.parity) ∨ (remote.parity = IR_PARITY_ODD ∧ !s.parity) then
      (false, s)
    else
      -- parity bit is filtered out
      let temp := s.code >>> (remote.bitsInByte + cfg.parityBit)
      let code := temp <<< remote.bitsInByte |||
        reverse (s.code >>> cfg.parityBit) remote.bitsInByte
      let s := { s with parity := false, code := code }
      if s.space ∧ s.delta = 0 then (false, s)
      else (true, { s with buf := setPendingSpace cfg.stop s.buf, stopBit := true })
  else (true, s)

/-- One turn of the serial loop; `false` is `return((ir_code) -1)`. -/
def serialStep (remote : IrRemote) (cfg : SerialConfig) (s : SerialState) : Bool × SerialState :=
  let s := serialRead remote cfg s
  if s.delta = 0 then (false, s)
  else
    let pending := if s.space then s.buf.pendings else s.buf.pendingp
    let delta : Option Int :=
      if expect remote s.delta pending then some 0
      else if s.delta > pending then some (s.delta - pending)
      else none
    match delta with
    | none => (false, s)
    | some delta =>
      let s := { s with delta := delta }
      if pending > 0 then
        if s.stopBit then
          (true, { s with
            gapDelta := s.delta, delta := 0, stopBit := false, space := false
            buf := setPendingSpace 0 (setPendingPulse cfg.base s.buf) })
        else
          (true, { s with
            space := if s.delta = 0 then !s.space else s.space
            buf := setPendingSpace 0 (setPendingPulse 0 s.buf) })
      else
        let expecting := if s.space then remote.sone else remote.pzero
        let r : Bool × SerialState :=
          if s.delta > expecting ∨ expect remote s.delta expecting then
            serialByte remote cfg { s with
              delta := s.delta - (if expecting > s.delta then s.delta else expecting)
              received := s.received + 1
              code := s.code <<< 1 ||| (if s.space then 1 else 0)
              parity := s.parity ^^ s.space }
          else if s.delta = s.origdelta then (false, s)
          else (true, { s with delta := 0 })
        match r with
        | (false, s) => (false, s)
        | (true, s) => (true, { s with space := if s.delta = 0 then !s.space else s.space })

def serialLoop (remote : IrRemote) (cfg : SerialConfig) : Nat → SerialState → Option (Bool × SerialState)
  | 0, _ => none
  | fuel + 1, s =>
    if s.received < cfg.bits ∨ s.stopBit then
      match serialStep remote cfg s with
      | (false, s) => some (false, s)
      | (true, s) => serialLoop remote cfg fuel s
    else some (true, s)

def getSerial (fuel : Nat) (remote : IrRemote) (bits : Int) (b : Rbuf) : Option (IrCode × Rbuf) :=
  let cfg := serialConfig remote bits
  let b := setPendingPulse cfg.base b -- start bit
  match serialLoop remote cfg fuel { space := b.pendingp == 0, buf := b } with
  | none => none
  | some (false, s) => some (irFail, s.buf)
  | some (true, s) =>
    let b := if s.gapDelta ≠ 0 then ungetRecBufferDelta s.gapDelta s.buf else s.buf
    some (s.code, setPendingSpace 0 (setPendingPulse 0 b))

/-- The Bang & Olufsen loop: `n` bits are left. -/
def getBo (remote : IrRemote) : Nat → Bool → IrCode → Rbuf → IrCode × Rbuf
  | 0, _, code, b => (code, b)
  | n + 1, lastbit, code, b =>
    let code := code <<< 1
    let (deltap, b) := getNextPulse (remote.pzero + remote.pone + remote.ptwo + remote.pthree) b
    let (deltas, b) := getNextSpace (remote.szero + remote.sone + remote.stwo + remote.sthree) b
    if deltap = 0 ∨ deltas = 0 then (irFail, b)
    else
      let (pzero, szero, pone, sone) :=
        if lastbit then (remote.pone, remote.sone, remote.ptwo, remote.stwo)
        else (remote.ptwo, remote.stwo, remote.pthree, remote.sthree)
      if expect remote deltap pzero && expect remote deltas szero then
        getBo remote n false (code ||| 0) b
      else if expect remote deltap pone && expect remote deltas sone then
        getBo remote n true (code ||| 1) b
      else (irFail, b)

/-- The XMP loop: `n` nibbles are left. `n` of the source is an `ir_code`, so
    a negative quotient is 16 or more. -/
def getXmp (remote : IrRemote) : Nat → IrCode → Rbuf → IrCode × Rbuf
  | 0, code, b => (code, b)
  | n + 1, code, b =>
    let code := code <<< 4
    let (deltap, b) := getNextPulse remote.pzero b
    let (deltas, b) := getNextSpace (remote.szero + 16 * remote.sone) b
    if deltap = 0 ∨ deltas = 0 then (irFail, b)
    else
      let sum := deltap + deltas - (remote.pzero + remote.szero)
      let nibble : IrCode := BitVec.ofInt 64 ((sum + remote.sone.tdiv 2).tdiv remote.sone)
      if nibble ≥ 16 then (irFail, b) else getXmp remote n (code ||| nibble) b

/-- Goldstar remotes have two kinds of one, by turns. -/
def goldstarOne (remote : IrRemote) (bit : Int) : IrRemote :=
  if isGoldstar remote then
    if bit.tmod 2 ≠ 0 then { remote with pone := remote.ptwo, sone := remote.stwo }
    else { remote with pone := remote.pthree, sone := remote.sthree }
  else remote

/-- The bit loop: `n` bits are left, the next one is bit `bit` of the frame. -/
def getBits : Nat → Int → IrCode → IrRemote → Rbuf → IrCode × IrRemote × Rbuf
  | 0, _, code, remote, b => (code, remote, b)
  | n + 1, bit, code, remote, b =>
    let code := code <<< 1
    let remote := goldstarOne remote bit
    match expectone remote bit b with
    | (true, b) => getBits n (bit + 1) (code ||| 1) remote b
    | (false, b) =>
      match expectzero remote bit b with
      | (true, b) => getBits n (bit + 1) (code ||| 0) remote b
      | (false, b) => (irFail, remote, b)

def getData (fuel : Nat) (remote : IrRemote) (bits done : Int) (b : Rbuf) :
    Option (IrCode × IrRemote × Rbuf) :=
  if isRcmm remote then
    if bits.tmod 2 ≠ 0 ∨ done.tmod 2 ≠ 0 then some (irFail, remote, b)
    else
      match syncPendingSpace remote b with
      | (false, b) => some (0, remote, b)
      | (true, b) =>
        let (code, b) := getRcmm remote (bits.toNat / 2) 0 b
        some (code, remote, b)
  else if isGrundig remote then
    if bits.tmod 2 ≠ 0 ∨ done.tmod 2 ≠ 0 then some (irFail, remote, b)
    else
      match syncPendingPulse remote b with
      | (false, b) => some (irFail, remote, b)
      | (true, b) =>
        (getGrundig remote bits fuel 0 (-1) 0 b).map fun (code, b) => (code, remote, b)
  else if isSerial remote then
    (getSerial fuel remote bits b).map fun (code, b) => (code, remote, b)
  else if isBo remote then
    let (code, b) := getBo remote bits.toNat true 0 b
    some (code, remote, b)
  else if isXmp remote then
    if bits.tmod 4 ≠ 0 ∨ done.tmod 4 ≠ 0 then some (irFail, remote, b)
    else
      match syncPendingSpace remote b with
      | (false, b) => some (0, remote, b)
      | (true, b) =>
        let (code, b) := getXmp remote (bits.toNat / 4) 0 b
        some (code, remote, b)
  else some (getBits bits.toNat done 0 remote b)

def getPre (fuel : Nat) (remote : IrRemote) (b : Rbuf) : Option (IrCode × IrRemote × Rbuf) :=
  match getData fuel remote remote.preDataBits 0 b with
  | none => none
  | some (pre, remote, b) =>
    if pre = irFail then some (irFail, remote, b)
    else if remote.preP > 0 ∧ remote.preS > 0 then
      match expectpulse remote remote.preP b with
      | (false, b) => some (irFail, remote, b)
      | (true, b) => some (pre, remote, setPendingSpace remote.preS b)
    else some (pre, remote, b)

def getPost (fuel : Nat) (remote : IrRemote) (b : Rbuf) : Option (IrCode × IrRemote × Rbuf) :=
  let r :=
    if remote.postP > 0 ∧ remote.postS > 0 then
      match expectpulse remote remote.postP b with
      | (false, b) => (false, b)
      | (true, b) => (true, setPendingSpace remote.postS b)
    else (true, b)
  match r with
  | (false, b) => some (irFail, remote, b)
  | (true, b) => getData fuel remote remote.postDataBits (remote.preDataBits + remote.bits) b

/-! ## 5. `receive_decode` -/

/-- What `receive_decode` reads beside its remote and the buffer. -/
structure DecodeEnv where
  lastRemote : Option IrRemote := none -- what `last_remote` points to
  lastIsRemote : Bool := false -- `last_remote==remote`
  recMode : Nat := LIRC_MODE_MODE2
  codeLength : Nat := 0
  now : MyTimeval := ⟨0, 0⟩
  deriving DecidableEq, Repr

/-- The results of a successful `receive_decode`. -/
structure Decoded where
  pre : IrCode
  code : IrCode
  post : IrCode
  repeatFlag : Bool
  minRemainingGap : Int
  maxRemainingGap : Int
  deriving DecidableEq, Repr

def isSampleMode (recMode : Nat) : Bool :=
  recMode == LIRC_MODE_MODE2 || recMode == LIRC_MODE_PULSE || recMode == LIRC_MODE_RAW

/-- The gap a frame must be followed by. -/
def gapAfterFrame (remote : IrRemote) (sum : Int) : Int :=
  if isRcmm remote then 1000
  else if isConst remote then restOfGap (minGap remote) sum
  else minGap remote

/-- The encoded frame after its header: lead, pre data, code, post data, trail,
    foot, gap; the values are those of pre data, code and post data. -/
def decodeFrame (fuel : Nat) (header : Bool) (remote : IrRemote) (b : Rbuf) :
    Option (Option (IrCode × IrCode × IrCode) × IrRemote × Rbuf) :=
  match getLead remote b with
  | (false, b) => some (none, remote, b)
  | (true, b) =>
    match (if hasPre remote then getPre fuel remote b else some (0, remote, b)) with
    | none => none
    | some (pre, remote, b) =>
      if hasPre remote ∧ pre = irFail then some (none, remote, b)
      else
        match getData fuel remote remote.bits remote.preDataBits b with
        | none => none
        | some (code, remote, b) =>
          if code = irFail then some (none, remote, b)
          else
            match (if hasPost remote then getPost fuel remote b else some (0, remote, b)) with
            | none => none
            | some (post, remote, b) =>
              if hasPost remote ∧ post = irFail then some (none, remote, b)
              else
                match getTrail remote b with
                | (false, b) => some (none, remote, b)
                | (true, b) =>
                  match (if hasFoot remote then getFoot remote b else (true, b)) with
                  | (false, b) => some (none, remote, b)
                  | (true, b) =>
                    let b := if header && isConst remote && hasFlag remote NO_HEAD_REP then
                        { b with sum := b.sum - (remote.phead + remote.shead) }
                      else b
                    match getGap remote (gapAfterFrame remote b.sum) b with
                    | (false, b) => some (none, remote, b)
                    | (true, b) => some (some (pre, code, post), remote, b)

/-- One raw code against the samples: its signals from the `i`th on. -/
def matchSignals (remote : IrRemote) : List Int → Rbuf → Bool × Rbuf
  | [], b => (true, b)
  | [p], b => expectpulse remote p b
  | p :: s :: signals, b =>
    match expectpulse remote p b with
    | (false, b) => (false, b)
    | (true, b) =>
      match expectspace remote s b with
      | (false, b) => (false, b)
      | (true, b) => matchSignals remote signals b

/-- The raw codes from a given one on; the first that is found. -/
def decodeRaw (env : DecodeEnv) : List IrNcode → IrRemote → Rbuf → Option IrNcode × IrRemote × Rbuf
  | [], remote, b => (none, remote, b)
  | c :: codes, remote, b =>
    match matchSignals remote (c.signals.getD []) b with
    | (false, b) =>
      let (_, remote, b) := syncRecBuffer env.lastRemote remote (rewindRecBuffer b)
      decodeRaw env codes remote b
    | (true, b) =>
      let gap := if isConst remote then minGap remote - b.sum else minGap remote
      match getGap remote gap b with
      | (false, b) => decodeRaw env codes remote b
      | (true, b) => (some c, remote, b)

/-- A code the hardware has decoded (`LIRC_MODE_LIRCCODE`): its fields, the
    time since the last one, and the buffer with the length of the frame. -/
def splitDecoded (env : DecodeEnv) (remote : IrRemote) (b : Rbuf) :
    (IrCode × IrCode × IrCode) × Int × Rbuf :=
  let post := b.decoded &&& genMask remote.postDataBits
  let decoded := b.decoded >>> remote.postDataBits.toNat
  let code := decoded &&& genMask remote.bits
  let pre := decoded >>> remote.bits.toNat
  let sum := remote.phead + remote.shead +
    max (remote.pone + remote.sone) (remote.pzero + remote.szero) * bitCount remote +
    remote.plead + remote.ptrail + remote.pfoot + remote.sfoot +
    remote.preP + remote.preS + remote.postP + remote.postS
  let b := { b with sum := if sum ≥ remote.gap then remote.gap - 1 else sum }
  ((pre, code, post), (timeElapsed remote.lastSend env.now - b.sum).bmod (2 ^ 32), b)

/-- The results once a frame has been decoded; `sync` is the space before it. -/
def decodedFrame (env : DecodeEnv) (remote : IrRemote) (sync : Int) (values : IrCode × IrCode × IrCode)
    (b : Rbuf) : Decoded where
  pre := values.1
  code := values.2.1
  post := values.2.2
  repeatFlag :=
    ((!hasRepeat remote || decide (remote.reps % 2 ^ 32 < remote.minCodeRepeat)) &&
        expectAtMost remote sync remote.maxRemainingGap) ||
      (env.recMode == LIRC_MODE_LIRCCODE && decide (timeElapsed remote.lastSend env.now < 325000))
  minRemainingGap := if isConst remote then restOfGap (minGap remote) b.sum else minGap remote
  maxRemainingGap := if isConst remote then restOfGap (maxGap remote) b.sum else maxGap remote

/-- The results of a repeat frame. -/
def decodedRepeat (remote : IrRemote) (code : IrCode) (b : Rbuf) : Decoded where
  pre := remote.preData
  code := code
  post := remote.postData
  repeatFlag := true
  minRemainingGap := gapAfterRepeat remote (minGap remote) b.sum
  maxRemainingGap := gapAfterRepeat remote (maxGap remote) b.sum

/-- How the part of `receive_decode` in front of the frame ends. -/
inductive Front where
  | fail
  | repeated (d : Decoded)
  | frame (sync : Int) (header : Bool)
  deriving DecidableEq, Repr

/-- The header of a data frame. -/
def frontHeader (remote : IrRemote) (sync : Int) (b : Rbuf) : Front × Rbuf :=
  if hasHeader remote then
    match getHeader remote b with
    | (true, b) => (.frame sync true, b)
    | (false, b) =>
      if hasFlag remote NO_HEAD_REP && expectAtMost remote sync (maxGap remote) then
        (.frame sync false, b)
      else (.fail, b)
  else (.frame sync false, b)

/-- The space before the frame, a repeat frame, or the header. -/
def decodeFront (env : DecodeEnv) (remote : IrRemote) (b : Rbuf) : Front × IrRemote × Rbuf :=
  let b := { rewindRecBuffer b with isBiphase := isBiphase remote }
  let (sync, remote, b) := syncRecBuffer env.lastRemote remote b
  if sync = 0 then (.fail, remote, b)
  else if hasRepeat remote && env.lastIsRemote then
    match (if hasFlag remote REPEAT_HEADER && hasHeader remote then getHeader remote b
      else (true, b)) with
    | (false, b) => (.fail, remote, b)
    | (true, b) =>
      match getRepeat remote b with
      | (true, b) =>
        match remote.lastCode with
        | none => (.fail, remote, b)
        | some i =>
          (.repeated (decodedRepeat remote ((remote.codes[i]?.map (·.code)).getD 0) b), remote, b)
      | (false, b) =>
        let (_, remote, b) := syncRecBuffer env.lastRemote remote (rewindRecBuffer b)
        let (front, b) := frontHeader remote sync b
        (front, remote, b)
  else
    let (front, b) := frontHeader remote sync b
    (front, remote, b)

/-- What follows the front. -/
def decodeRest (fuel : Nat) (env : DecodeEnv) (sync : Int) (header : Bool) (remote : IrRemote)
    (b : Rbuf) : Option (Option Decoded × IrRemote × Rbuf) :=
  if isRaw remote then
    if env.recMode = LIRC_MODE_LIRCCODE then some (none, remote, b)
    else
      match decodeRaw env remote.codes remote b with
      | (none, remote, b) => some (none, remote, b)
      | (some c, remote, b) =>
        some (some (decodedFrame env remote sync (0, c.code, 0) b), remote, b)
  else if env.recMode = LIRC_MODE_LIRCCODE then
    if (env.codeLength : Int) ≠ bitCount remote then some (none, remote, b)
    else
      let (values, sync, b) := splitDecoded env remote b
      some (some (decodedFrame env remote sync values b), remote, b)
  else
    match decodeFrame fuel header remote b with
    | none => none
    | some (none, remote, b) => some (none, remote, b)
    | some (some values, remote, b) =>
      some (some (decodedFrame env remote sync values b), remote, b)

def receiveDecode (fuel : Nat) (env : DecodeEnv) (remote : IrRemote) (b : Rbuf) :
    Option (Option Decoded × IrRemote × Rbuf) :=
  if isSampleMode env.recMode then
    match decodeFront env remote b with
    | (.fail, remote, b) => some (none, remote, b)
    | (.repeated d, remote, b) => some (some d, remote, b)
    | (.frame sync header, remote, b) => decodeRest fuel env sync header remote b
  else decodeRest fuel env 0 false remote b

end WinLirc
