/-
  File:      WinLirc/IrRemote.lean
  Subject:   DLL/Common/IRRemote.cpp: `get_code`, `set_code`, `write_message` and
             `decodeCommand`.

  The globals of the file are the record `World`: the loaded remotes in list
  order, `last_remote` and the static `last_decoded` of `set_code` as indices
  into them, and the receive buffer. `hw.decode_func` is `receive_decode`, as
  in every plugin that receives samples.
-/
import WinLirc.Receive

namespace WinLirc

/-! ## 1. `get_code` -/

/-- The masks `pre_mask` and `post_mask` of `get_code`. -/
def preMask (remote : IrRemote) : IrCode :=
  let shift := (remote.bits + remote.postDataBits).toNat
  (if hasToggleBitMask remote then remote.toggleBitMask >>> shift else 0) |||
    (if hasIgnoreMask remote then remote.ignoreMask >>> shift else 0)

def postMask (remote : IrRemote) : IrCode :=
  let mask := genMask remote.postDataBits
  (if hasToggleBitMask remote then remote.toggleBitMask &&& mask else 0) |||
    (if hasIgnoreMask remote then remote.ignoreMask &&& mask else 0)

/-- The three received fields, and the one that is inverted bit by bit. -/
structure Fields where
  pre : IrCode
  code : IrCode
  post : IrCode
  deriving DecidableEq, Repr

/-- The field that `affected` points to. -/
inductive Affected where
  | pre | code | post
  deriving DecidableEq, Repr

/-- The loop that inverts the received fields by `toggle_mask`: `n` bits are
    left, `bit` is the next one. -/
def toggleFields (remote : IrRemote) : Nat → Int → Int → Affected → IrCode → Fields → Fields
  | 0, _, _, _, _, f => f
  | n + 1, bit, currentBit, affected, mask, f =>
    let (affected, currentBit) :=
      if bit = remote.postDataBits then (Affected.code, 0) else (affected, currentBit)
    let (affected, currentBit) :=
      if bit = remote.postDataBits + remote.bits then (Affected.pre, 0) else (affected, currentBit)
    let x : IrCode := (mask &&& 1) <<< currentBit.toNat
    let f :=
      match affected with
      | .pre => { f with pre := f.pre ^^^ x }
      | .code => { f with code := f.code ^^^ x }
      | .post => { f with post := f.post ^^^ x }
    toggleFields remote n (bit + 1) (currentBit + 1) affected (mask >>> 1) f

/-- The received fields as they are compared. -/
def receivedFields (remote : IrRemote) (f : Fields) : Fields :=
  if hasToggleMask remote && decide (remote.toggleMaskState.tmod 2 ≠ 0) then
    toggleFields remote (bitCount remote).toNat 0 0 .post remote.toggleMask f
  else f

/-- The inner loop of the search: are the parts from `prev` on those from
    `next` on up to `current`? The node after the last compared one. -/
def prefixNode (c : IrNcode) : List IrCode → List IrCode → Option (List IrCode)
  | prev, [] => some prev -- not reached: `current` lies on the chain
  | prev, n :: rest =>
    if n :: rest = c.current then some prev
    else if getIrCode c prev ≠ getIrCode c (n :: rest) then none
    else prefixNode c (getNextIrCodeNode c prev) rest

/-- Does the received word `all` match the part `node` of code `c`? -/
def matchesPart (remote : IrRemote) (all : IrCode) (c : IrNcode) (node : List IrCode) : Bool :=
  matchIrCode remote (genIrCode remote remote.preData (getIrCode c node) remote.postData) all

/-- Find the longest matching sequence: the new `current`, if there is one. -/
def searchNode (remote : IrRemote) (all : IrCode) (c : IrNcode) :
    List IrCode → Option (List IrCode)
  | [] => none
  | n :: rest =>
    if n :: rest = c.current.tail then none
    else
      match prefixNode c [] (n :: rest) with
      | none => searchNode remote all c rest
      | some prev =>
        if matchesPart remote all c prev then some (getNextIrCodeNode c prev)
        else searchNode remote all c rest

/-- The bookkeeping of the loop over the codes. -/
structure Scan where
  found : Option Nat := none
  foundCode : Bool := false
  haveCode : Bool := false
  deriving DecidableEq, Repr

/-- One code of the loop, entry `i` of the table. -/
def scanCode (remote : IrRemote) (all : IrCode) (i : Nat) (c : IrNcode) (s : Scan) : IrNcode × Scan :=
  if matchesPart remote all c c.current then
    let c :=
      if c.next ≠ [] then
        { c with current := if c.current = [] then c.next else c.current.tail }
      else c
    if s.haveCode then (c, { s with foundCode := true })
    else (c, { found := some i, foundCode := true, haveCode := c.current.isEmpty })
  else if c.next = [] ∨ c.current = [] then ({ c with current := [] }, s)
  else
    match searchNode remote all c c.next with
    | some node =>
      ({ c with current := node },
        if s.haveCode then { s with foundCode := true }
        else { s with found := some i, foundCode := true })
    | none => ({ c with current := [] }, s)

def scanCodes (remote : IrRemote) (all : IrCode) : Nat → List IrNcode → Scan → List IrNcode × Scan
  | _, [], s => ([], s)
  | i, c :: codes, s =>
    let (c, s) := scanCode remote all i c s
    let (codes, s) := scanCodes remote all (i + 1) codes s
    (c :: codes, s)

/-- `get_code`: the index of the code found with the toggle bits received, and
    the remote with its matching state. -/
def getCode (remote : IrRemote) (f : Fields) : Option (Nat × IrCode) × IrRemote :=
  let f := receivedFields remote f
  if hasPre remote && (f.pre ||| preMask remote) != (remote.preData ||| preMask remote) then
    (none, remote)
  else if hasPost remote && (f.post ||| postMask remote) != (remote.postData ||| postMask remote) then
    (none, remote)
  else
    let all := genIrCode remote f.pre f.code f.post
    let (codes, s) := scanCodes remote all 0 remote.codes {}
    let remote := { remote with codes := codes }
    match s.found with
    | none => (none, remote)
    | some i =>
      if s.foundCode && hasToggleMask remote then
        if remote.toggleMaskState.tmod 2 = 0 then
          (some (i, all &&& remote.toggleBitMask), { remote with toggleCode := some i })
        else if remote.toggleCode ≠ some i then (none, { remote with toggleCode := none })
        else (some (i, all &&& remote.toggleBitMask), { remote with toggleCode := none })
      else (some (i, all &&& remote.toggleBitMask), remote)

/-! ## 2. `set_code` -/

/-- The code word that is reported. -/
def reportedCode (remote : IrRemote) (found : IrNcode) : IrCode :=
  let code : IrCode := if hasPre remote then remote.preData <<< remote.bits.toNat else 0
  let code := code ||| found.code
  let code := if hasPost remote then code <<< remote.postDataBits.toNat ||| remote.postData else code
  if hasFlag remote COMPAT_REVERSE then reverse code (bitCount remote) else code

/-- `set_code` for entry `i`, `found`, of the code table; `sameDecoded` is
    `remote==last_decoded`. -/
def setCode (now : MyTimeval) (sameDecoded : Bool) (remote : IrRemote) (i : Nat) (found : IrNcode)
    (toggleBitMaskState : IrCode) (d : Decoded) : IrCode × IrRemote :=
  let again := sameDecoded &&
    (remote.lastCode == some i || (found.next != [] && found.current != [])) &&
    d.repeatFlag && decide (timeElapsed remote.lastSend now < 1000000) &&
    (!hasToggleBitMask remote || toggleBitMaskState == remote.toggleBitMaskState)
  let remote :=
    if again then
      if hasToggleMask remote then
        if remote.toggleMaskState + 1 = 4 then
          { remote with toggleMaskState := 2, reps := remote.reps + 1 }
        else { remote with toggleMaskState := remote.toggleMaskState + 1 }
      else if found.current = [] then { remote with reps := remote.reps + 1 }
      else remote
    else
      { remote with
        reps := if found.next ≠ [] ∧ found.current = [] then 1 else 0
        toggleMaskState := if hasToggleMask remote then 1 else remote.toggleMaskState
        toggleCode := if hasToggleMask remote then some i else remote.toggleCode
        toggleBitMaskState :=
          if hasToggleBitMask remote then toggleBitMaskState else remote.toggleBitMaskState }
  let remote :=
    { remote with
      lastCode := if found.current = [] then some i else remote.lastCode
      lastSend := now
      minRemainingGap := d.minRemainingGap
      maxRemainingGap := d.maxRemainingGap }
  (reportedCode remote found, remote)

/-! ## 3. `write_message` -/

/-- `%0<width>llx` and `%0<width>x`. -/
def hexText (width n : Nat) : List Char :=
  let digits := Nat.toDigits 16 n
  List.replicate (width - digits.length) '0' ++ digits

/-- The text of a message, without the terminating NUL. -/
def messageText (remoteName buttonName buttonSuffix : String) (code : IrCode) (reps : Int) :
    List Char :=
  hexText 16 code.toNat ++ [' '] ++ hexText 2 (reps % 2 ^ 32).toNat ++ [' '] ++
    buttonName.toList ++ buttonSuffix.toList ++ [' '] ++ remoteName.toList ++ ['\n']

/-- `_snprintf`: the length or -1, and what is written to the buffer. -/
def snprintf (size : Nat) (text : List Char) : Int × List Char :=
  if text.length < size then (text.length, text ++ ['\x00'])
  else if text.length = size then (text.length, text)
  else (-1, text.take size)

def writeMessage (size : Nat) (remoteName buttonName buttonSuffix : String) (code : IrCode)
    (reps : Int) : Int × List Char :=
  snprintf size (messageText remoteName buttonName buttonSuffix code reps)

/-! ## 4. `decodeCommand` -/

structure World where
  remotes : List IrRemote
  lastRemote : Option Nat := none
  lastDecoded : Option Nat := none
  buf : Rbuf := {}
  recMode : Nat := LIRC_MODE_MODE2
  codeLength : Nat := 0
  deriving DecidableEq, Repr

/-- What `receive_decode` sees of the world when remote `i` is tried. -/
def World.env (w : World) (now : MyTimeval) (i : Nat) : DecodeEnv where
  lastRemote := w.lastRemote.bind (fun j => w.remotes[j]?)
  lastIsRemote := w.lastRemote == some i
  recMode := w.recMode
  codeLength := w.codeLength
  now := now

def World.setRemote (w : World) (i : Nat) (remote : IrRemote) : World :=
  { w with remotes := w.remotes.set i remote }

/-- Every `current` pointer of a remote back to `NULL`. -/
def clearCurrent (remote : IrRemote) : IrRemote :=
  { remote with codes := remote.codes.map (fun c => { c with current := [] }) }

/-- An XMP remote goes on after the first part of the code last reported. -/
def xmpCurrent (remote : IrRemote) : IrRemote :=
  match remote.lastCode with
  | none => remote
  | some i => { remote with codes := remote.codes.modify i (fun c => { c with current := c.next }) }

/-- The outcome of `decodeCommand`: its return value and what it wrote to the
    message buffer, if anything. -/
structure Outcome where
  ret : Bool
  out : Option (List Char)
  deriving DecidableEq, Repr

def Outcome.nothing : Outcome := ⟨false, none⟩

/-- `code` reported by `remote` with a repeat count. -/
def reportMessage (remote : IrRemote) (buttonName : String) (code : IrCode) (reps : Int) : Outcome :=
  let (len, text) := writeMessage (PACKET_SIZE + 1) remote.name buttonName "" code reps
  ⟨!decide (len ≥ (PACKET_SIZE + 1 : Nat)), some text⟩

/-- The report of code `found`, entry `i` of remote `k`. -/
def reportCode (w : World) (k i : Nat) (found : IrNcode) (code : IrCode) (remote : IrRemote) :
    Outcome × World :=
  if (hasToggleMask remote && decide (remote.toggleMaskState.tmod 2 ≠ 0)) || found.current != [] then
    (.nothing, w.setRemote k remote)
  else
    let w := { w.setRemote k remote with
      remotes := (w.setRemote k remote).remotes.map clearCurrent }
    let remote := clearCurrent remote
    let w := if isXmp remote then w.setRemote k (xmpCurrent remote) else w
    let name := ((remote.codes[remote.lastCode.getD i]?).map (·.name)).getD ""
    (reportMessage remote name code (remote.reps - (if found.next = [] then 0 else 1)), w)

/-- The loop of `decodeCommand`: the remotes from the `k`th on, `n` of them. -/
def decodeLoop (fuel : Nat) (now : MyTimeval) : Nat → Nat → World → Option (Outcome × World)
  | 0, _, w => some (.nothing, { w with lastRemote := none })
  | n + 1, k, w =>
    match w.remotes[k]? with
    | none => some (.nothing, { w with lastRemote := none })
    | some remote =>
      match receiveDecode fuel (w.env now k) remote w.buf with
      | none => none
      | some (r, remote, b) =>
        let w := { w.setRemote k remote with buf := b }
        let g : Option (Decoded × Nat × IrCode) × IrRemote :=
          match r with
          | none => (none, remote)
          | some d =>
            match getCode remote ⟨d.pre, d.code, d.post⟩ with
            | (some (i, t), remote) => (some (d, i, t), remote)
            | (none, remote) => (none, remote)
        match g with
        | (some (d, i, t), remote) =>
          match remote.codes[i]? with
          | none => some (.nothing, w) -- not reached: `get_code` answers an entry of the table
          | some found =>
            let (code, remote) := setCode now (w.lastDecoded == some k) remote i found t d
            some (reportCode { w with lastRemote := some k, lastDecoded := some k } k i found code
              remote)
        | (none, remote) =>
          decodeLoop fuel now n (k + 1) (w.setRemote k { remote with toggleMaskState := 0 })

def decodeCommand (fuel : Nat) (now : MyTimeval) (w : World) : Option (Outcome × World) :=
  decodeLoop fuel now w.remotes.length 0 w

end WinLirc
