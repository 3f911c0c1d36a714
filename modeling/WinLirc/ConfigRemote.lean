/-
  File:      WinLirc/ConfigRemote.lean
  Subject:   winlirc/config.cpp: a remote under construction, the table of
             `defineRemote`, `sanityChecks` and what `read_config_recursive`
             does to the remotes once the file is read.

  Names, code tables and signal arrays carry the address that their allocation
  gave them; the allocator hands out each address once and never fails. A
  dereferenced null pointer is the answer `none`.
-/
import WinLirc.Numbers

namespace WinLirc

open Signal (lines rest)

/-! ## 1. Data -/

/-- A string from `strdup`. -/
structure Str where
  addr : Nat
  text : List Char
  deriving DecidableEq, Repr

/-- An entry of a code table. -/
structure ConfigCode where
  name : Str
  code : IrCode
  signals : Option (Nat × List Int) := none
  next : List IrCode := []
  deriving DecidableEq, Repr

/-- A code table up to its terminating entry. -/
structure CodeTable where
  addr : Nat
  items : List ConfigCode := []
  deriving DecidableEq, Repr

/-- A remote under construction; `ir` has its other fields. -/
structure ConfigRemote where
  name : Option Str := none
  codes : Option CodeTable := none
  ir : IrRemote := {}
  toggleBit : Int := 0
  freq : Nat := 0
  dutyCycle : Nat := 0
  deriving DecidableEq, Repr

def ConfigCode.toIrNcode (c : ConfigCode) : IrNcode where
  name := String.ofList c.name.text
  code := c.code
  signals := c.signals.map Prod.snd
  next := c.next

/-- The remote that the rest of the program sees. -/
def ConfigRemote.toIrRemote (rem : ConfigRemote) : IrRemote :=
  { rem.ir with
    name := String.ofList ((rem.name.map Str.text).getD [])
    codes := ((rem.codes.map CodeTable.items).getD []).map ConfigCode.toIrNcode }

/-- What has been allocated and freed. -/
structure Memory where
  next : Nat := 0
  freed : List Nat := []
  deriving DecidableEq, Repr

def Memory.alloc (m : Memory) : Nat × Memory := (m.next, { m with next := m.next + 1 })

def Memory.free (m : Memory) (addrs : List Nat) : Memory := { m with freed := m.freed ++ addrs }

def strdup (val : List Char) (m : Memory) : Str × Memory := (⟨m.alloc.1, val⟩, m.alloc.2)

/-! ## 2. `defineRemote` -/

def SHIFT_ENC : Flags := RC5

def allFlags : List (String × Flags) :=
  [("RAW_CODES", RAW_CODES), ("RC5", RC5), ("SHIFT_ENC", SHIFT_ENC), ("RC6", RC6), ("RCMM", RCMM),
    ("SPACE_ENC", SPACE_ENC), ("SPACE_FIRST", SPACE_FIRST), ("GOLDSTAR", GOLDSTAR),
    ("GRUNDIG", GRUNDIG), ("BO", BO), ("SERIAL", SERIAL), ("XMP", XMP), ("REVERSE", REVERSE),
    ("NO_HEAD_REP", NO_HEAD_REP), ("NO_FOOT_REP", NO_FOOT_REP), ("CONST_LENGTH", CONST_LENGTH),
    ("REPEAT_HEADER", REPEAT_HEADER)]

/-- The names of a `flags` line one after the other. -/
def parseFlagsLoop : List (List Char) → Flags → Option Flags
  | [], flags => some flags
  | name :: names, flags =>
    match allFlags.find? fun f => strcasecmp f.1.toList name with
    | none => none
    | some f =>
      if f.2 &&& IR_PROTOCOL_MASK ≠ 0 ∧ flags &&& IR_PROTOCOL_MASK ≠ 0 then none
      else parseFlagsLoop names (flags ||| f.2)

def parseFlags (val : List Char) : Option Flags :=
  parseFlagsLoop (lines '|' val ++ [rest '|' val]) 0

/-- The bits of a byte, the parity and the stop bits of a `serial_mode`. -/
def parseSerialMode (val : List Char) : Option (Nat × Nat × Nat) :=
  match val with
  | b :: p :: stop =>
    if b < '5' ∨ '9' < b then none
    else
      let parity :=
        if p.toUpper = 'N' then some IR_PARITY_NONE
        else if p.toUpper = 'E' then some IR_PARITY_EVEN
        else if p.toUpper = 'O' then some IR_PARITY_ODD
        else none
      match parity with
      | none => none
      | some parity =>
        if stop = ['1', '.', '5'] then some (b.toNat - '0'.toNat, parity, 3)
        else (sStrtoui stop).map fun n => (b.toNat - '0'.toNat, parity, n * 2 % 2 ^ 32)
  | _ => none

/-- What a line of a remote sets, by the way its values are read. -/
inductive Setting where
  | name
  | flags
  | int (set : Int → ConfigRemote → ConfigRemote)
  | uint (set : Nat → ConfigRemote → ConfigRemote)
  | duration (set : Int → ConfigRemote → ConfigRemote)
  | code (set : IrCode → ConfigRemote → ConfigRemote)
  | gap
  | repeatGap
  | serialMode
  | ignored
  | durations (set : Int → Int → ConfigRemote → ConfigRemote) -- both values are needed

/-- An update of the fields that `ConfigRemote.ir` has. -/
def onIr (f : IrRemote → IrRemote) (rem : ConfigRemote) : ConfigRemote := { rem with ir := f rem.ir }

/-- The keys of `defineRemote`. -/
def settings : List (String × Setting) :=
  [("name", .name),
    ("bits", .int fun n => onIr fun r => { r with bits := n }),
    ("flags", .flags),
    ("eps", .int fun n => onIr fun r => { r with eps := n }),
    ("aeps", .int fun n => onIr fun r => { r with aeps := n }),
    ("plead", .duration fun n => onIr fun r => { r with plead := n }),
    ("ptrail", .duration fun n => onIr fun r => { r with ptrail := n }),
    ("pre_data_bits", .int fun n => onIr fun r => { r with preDataBits := n }),
    ("pre_data", .code fun c => onIr fun r => { r with preData := c }),
    ("post_data_bits", .int fun n => onIr fun r => { r with postDataBits := n }),
    ("post_data", .code fun c => onIr fun r => { r with postData := c }),
    ("gap", .gap),
    ("repeat_gap", .repeatGap),
    ("toggle_bit", .int fun n rem => { rem with toggleBit := n }),
    ("toggle_bit_mask", .code fun c => onIr fun r => { r with toggleBitMask := c }),
    ("toggle_mask", .code fun c => onIr fun r => { r with toggleMask := c }),
    ("rc6_mask", .code fun c => onIr fun r => { r with rc6Mask := c }),
    ("ignore_mask", .code fun c => onIr fun r => { r with ignoreMask := c }),
    ("repeat_bit", .int fun n rem => { rem with toggleBit := n }),
    ("suppress_repeat", .ignored),
    ("min_repeat", .int fun n => onIr fun r => { r with minRepeat := n }),
    ("min_code_repeat",
      .int fun n => onIr fun r => { r with minCodeRepeat := (n % 2 ^ 32).toNat }),
    ("frequency", .uint fun n rem => { rem with freq := n }),
    ("duty_cycle", .uint fun n rem => { rem with dutyCycle := n }),
    ("baud", .uint fun n => onIr fun r => { r with baud := n }),
    ("serial_mode", .serialMode),
    ("header", .durations fun p s => onIr fun r => { r with phead := p, shead := s }),
    ("three", .durations fun p s => onIr fun r => { r with pthree := p, sthree := s }),
    ("two", .durations fun p s => onIr fun r => { r with ptwo := p, stwo := s }),
    ("one", .durations fun p s => onIr fun r => { r with pone := p, sone := s }),
    ("zero", .durations fun p s => onIr fun r => { r with pzero := p, szero := s }),
    ("foot", .durations fun p s => onIr fun r => { r with pfoot := p, sfoot := s }),
    ("repeat", .durations fun p s => onIr fun r => { r with prepeat := p, srepeat := s }),
    ("pre", .durations fun p s => onIr fun r => { r with preP := p, preS := s }),
    ("post", .durations fun p s => onIr fun r => { r with postP := p, postS := s })]

/-- A number as a `lirc_t`. -/
def toLircT (n : Nat) : Int := (n : Int).bmod (2 ^ 32)

/-- One setting applied, and whether it sets `parse_error`; the remote of a line
    that does is only freed. -/
def Setting.apply (val : List Char) (val2 : Option (List Char)) (rem : ConfigRemote) :
    Setting → ConfigRemote × Bool
  | .name => (rem, false) -- see `defineRemote`
  | .flags =>
    (onIr (fun r => { r with flags := r.flags ||| (parseFlags val).getD 0 }) rem,
      (parseFlags val).isNone)
  | .int set => (set ((sStrtoi val).getD 0) rem, (sStrtoi val).isNone)
  | .uint set => (set ((sStrtoui val).getD 0) rem, (sStrtoui val).isNone)
  | .duration set => (set ((sStrtolircT val).getD 0) rem, (sStrtolircT val).isNone)
  | .code set => (set ((sStrtocode val).getD 0) rem, (sStrtocode val).isNone)
  | .gap =>
    (onIr (fun r =>
      { r with
        gap := toLircT ((sStrtoul val).getD 0)
        gap2 := val2.elim r.gap2 fun v => toLircT ((sStrtoul v).getD 0) }) rem,
      (sStrtoul val).isNone || val2.any fun v => (sStrtoul v).isNone)
  | .repeatGap =>
    (onIr (fun r => { r with repeatGap := toLircT ((sStrtoul val).getD 0) }) rem,
      (sStrtoul val).isNone)
  | .serialMode =>
    match parseSerialMode val with
    | none => (rem, true)
    | some (bitsInByte, parity, stopBits) =>
      (onIr (fun r => { r with bitsInByte, parity, stopBits }) rem, false)
  | .ignored => (rem, false)
  | .durations set =>
    match val2 with
    | none => (rem, true)
    | some v =>
      (set ((sStrtolircT val).getD 0) ((sStrtolircT v).getD 0) rem,
        (sStrtolircT val).isNone || (sStrtolircT v).isNone)

/-- The setting of a key. -/
def settingOf (key : List Char) : Option Setting :=
  (settings.find? fun s => strcasecmp s.1.toList key).map Prod.snd

def defineRemote (key val : List Char) (val2 : Option (List Char)) (rem : ConfigRemote)
    (m : Memory) : ConfigRemote × Memory × Bool :=
  match settingOf key with
  | none => (rem, m, true)
  | some .name =>
    let m := m.free (rem.name.map Str.addr).toList
    let (name, m) := strdup val m
    ({ rem with name := some name }, m, false)
  | some s =>
    let (rem, error) := s.apply val val2 rem
    (rem, m, error)

/-! ## 3. `sanityChecks` -/

/-- The codes and nodes cut down to the width of a code. -/
def maskCode (bits : Int) (c : ConfigCode) : ConfigCode :=
  { c with code := c.code &&& genMask bits, next := c.next.map (· &&& genMask bits) }

/-- The answer, and the remote as it is left; `none` if the code table is a
    null pointer and is looked at. -/
def sanityChecks (rem : ConfigRemote) : Option (Bool × ConfigRemote) :=
  if rem.name = none then some (false, rem)
  else if isRaw rem.ir then some (true, rem)
  else
    match rem.codes with
    | none => none
    | some table =>
      some (true,
        { rem with
          ir := { rem.ir with
            preData := rem.ir.preData &&& genMask rem.ir.preDataBits
            postData := rem.ir.postData &&& genMask rem.ir.postDataBits }
          codes := some { table with items := table.items.map (maskCode rem.ir.bits) } })

/-! ## 4. Once the file is read -/

/-- The codes of a remote turned around; their nodes are not. -/
def reverseCodes (rem : ConfigRemote) : Option ConfigRemote :=
  if !isRaw rem.ir && hasFlag rem.ir REVERSE then
    match rem.codes with
    | none => none
    | some table =>
      let r := rem.ir
      some
        { rem with
          ir := { r with
            preData := if hasPre r then reverse r.preData r.preDataBits else r.preData
            postData := if hasPost r then reverse r.postData r.postDataBits else r.postData
            flags := r.flags &&& ~~~REVERSE ||| COMPAT_REVERSE }
          codes := some { table with
            items := table.items.map fun c => { c with code := reverse c.code r.bits } } }
  else some rem

/-- The bit that the obsolete `toggle_bit` stands for. -/
def toggleBitOf (rem : ConfigRemote) : IrCode :=
  (1 : IrCode) <<< (bitCount rem.ir - rem.toggleBit).toNat

def setRc6Mask (rem : ConfigRemote) : ConfigRemote :=
  if hasFlag rem.ir RC6 ∧ rem.ir.rc6Mask = 0 ∧ rem.toggleBit > 0 then
    onIr (fun r => { r with rc6Mask := toggleBitOf rem }) rem
  else rem

def setToggleBitMask (rem : ConfigRemote) : ConfigRemote :=
  if rem.toggleBit > 0 then
    { rem with
      ir := { rem.ir with
        toggleBitMask :=
          if hasToggleBitMask rem.ir then rem.ir.toggleBitMask else toggleBitOf rem }
      toggleBit := 0 }
  else rem

/-- The word `codes->code` of a table: that of its first entry, or 0 of the
    terminating one. -/
def CodeTable.firstCode (table : CodeTable) : IrCode := (table.items.head?.map (·.code)).getD 0

def setToggleState (rem : ConfigRemote) : ConfigRemote :=
  match rem.codes with
  | none => rem
  | some table =>
    if hasToggleBitMask rem.ir && !isRaw rem.ir then
      let state := table.firstCode &&& rem.ir.toggleBitMask
      onIr (fun r =>
        { r with
          toggleBitMaskState := if state ≠ 0 then state ^^^ rem.ir.toggleBitMask else state }) rem
    else rem

/-- The length of a bit, where the lines leave it open. -/
def setBaud (r : IrRemote) : IrRemote :=
  if r.baud > 0 then
    let base : Int := ((1000000 / r.baud : Nat) : Int)
    { r with
      pzero := if r.pzero = 0 ∧ r.szero = 0 then base else r.pzero
      sone := if r.pone = 0 ∧ r.sone = 0 then base else r.sone }
  else r

def setBitsInByte (r : IrRemote) : IrRemote := if r.bitsInByte = 0 then { r with bitsInByte := 8 } else r

def setSerial (r : IrRemote) : IrRemote := if isSerial r then setBitsInByte (setBaud r) else r

def setMinCodeRepeat (r : IrRemote) : IrRemote :=
  if r.minCodeRepeat > 0 ∧ (!hasRepeat r ∨ (r.minCodeRepeat : Int) > r.minRepeat % 2 ^ 32) then
    { r with minCodeRepeat := 0 }
  else r

/-- A turn of the loop over the remotes. -/
def postProcess (rem : ConfigRemote) : Option ConfigRemote :=
  (reverseCodes rem).map fun rem =>
    onIr (fun r => setMinCodeRepeat (setSerial r))
      (setToggleState (setToggleBitMask (setRc6Mask rem)))

/-- `sort_by_bit_count`: the next remote goes behind those that are not longer. -/
def insertByBitCount (rem : ConfigRemote) : List ConfigRemote → List ConfigRemote
  | [] => [rem]
  | scan :: top =>
    if bitCount scan.ir ≤ bitCount rem.ir then scan :: insertByBitCount rem top
    else rem :: scan :: top

def sortByBitCount (remotes : List ConfigRemote) : List ConfigRemote :=
  remotes.foldl (fun top rem => insertByBitCount rem top) []

/-- The addresses that `free_config` frees. -/
def ConfigCode.addrs (c : ConfigCode) : List Nat := c.name.addr :: (c.signals.map Prod.fst).toList

def CodeTable.addrs (table : CodeTable) : List Nat :=
  table.items.flatMap ConfigCode.addrs ++ [table.addr]

def ConfigRemote.addrs (rem : ConfigRemote) : List Nat :=
  (rem.name.map Str.addr).toList ++ (rem.codes.map CodeTable.addrs).getD []

def freeConfig (remotes : List ConfigRemote) : List Nat := remotes.flatMap ConfigRemote.addrs

end WinLirc
