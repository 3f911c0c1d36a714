/-
  File:      WinLirc/Arithmetic.lean
  Subject:   Divisions and shifts, from `read_config` to the codec.

  A division by 0 and a shift of a word by less than 0 or by more than 63 have
  no result. The functions that divide or shift by something a config file sets
  have here the list of these operations as they do them: `postProcessOps` (the
  loop of `read_config` over the remotes), `sendOps` (`send_data` in a frame) and
  `getDataOps` (`get_data`, on the samples of a buffer). Divisors and amounts
  that the source writes as constants are left out.

  `readConfig_arithmetic`: the widths, the rate and the spaces of a remote with
  which all of them have a result.
-/
import WinLirc.ConfigInvariant
import WinLirc.LevelEnds
import WinLirc.Backtrack

namespace WinLirc

/-! ## 1. Operations -/

/-- A division by `d`, or a shift of a word by `n`. -/
inductive ArithOp where
  | div (d : Int)
  | shift (n : Int)
  deriving DecidableEq, Repr

/-- The operation has a result. -/
def ArithOp.Defined : ArithOp → Prop
  | .div d => d ≠ 0
  | .shift n => 0 ≤ n ∧ n < 64

def AllDefined (ops : List ArithOp) : Prop := ∀ op ∈ ops, op.Defined

@[simp] theorem allDefined_nil : AllDefined [] := fun _ h => absurd h List.not_mem_nil

@[simp] theorem allDefined_cons {op : ArithOp} {ops : List ArithOp} :
    AllDefined (op :: ops) ↔ op.Defined ∧ AllDefined ops := List.forall_mem_cons

@[simp] theorem allDefined_append {ops ops' : List ArithOp} :
    AllDefined (ops ++ ops') ↔ AllDefined ops ∧ AllDefined ops' := List.forall_mem_append

theorem allDefined_flatMap {α : Type} {xs : List α} {f : α → List ArithOp} :
    AllDefined (xs.flatMap f) ↔ ∀ x ∈ xs, AllDefined (f x) := by
  unfold AllDefined
  constructor
  · intro h x hx op hop
    exact h op (List.mem_flatMap.mpr ⟨x, hx, hop⟩)
  · intro h op hop
    obtain ⟨x, hx, hop⟩ := List.mem_flatMap.mp hop
    exact h x hx op hop

theorem allDefined_ite {p : Prop} [Decidable p] {ops : List ArithOp} :
    AllDefined (if p then ops else []) ↔ (p → AllDefined ops) := by
  split
  · next hp => exact ⟨fun h _ => h, fun h => h hp⟩
  · next hp => exact ⟨fun _ h => absurd h hp, fun _ => allDefined_nil⟩

/-- `reverse`. -/
def reverseOps (bits : Int) : List ArithOp :=
  (List.range bits.toNat).flatMap fun i : Nat => [.shift (i : Int), .shift (bits - 1 - i)]

/-- **`reverse` has a result** for at most 64 bits. -/
theorem allDefined_reverse (bits : Int) : AllDefined (reverseOps bits) ↔ bits ≤ 64 := by
  unfold reverseOps
  rw [allDefined_flatMap]
  constructor
  · intro h
    by_contra hlt
    have hmem : 64 ∈ List.range bits.toNat := List.mem_range.mpr (by omega)
    have h64 : ArithOp.Defined (.shift ((64 : Nat) : Int)) := h 64 hmem _ List.mem_cons_self
    exact absurd h64.2 (by decide)
  · intro h i hi
    have hi := List.mem_range.mp hi
    rw [allDefined_cons, allDefined_cons]
    refine ⟨⟨by omega, by omega⟩, ⟨by omega, by omega⟩, allDefined_nil⟩

/-! ## 2. The calls of a frame -/

/-- The calls of `send_data` and of `get_data` for a frame: their `bits` and
    their `done`. -/
def frameWidths (remote : IrRemote) : List (Int × Int) :=
  (if hasPre remote then [(remote.preDataBits, 0)] else []) ++
  [(remote.bits, remote.preDataBits)] ++
  (if hasPost remote then [(remote.postDataBits, remote.preDataBits + remote.bits)] else [])

/-! ## 3. Sending -/

/-- `send_data`. -/
def sendDataOps (remote : IrRemote) (bits done : Int) : List ArithOp :=
  reverseOps bits ++
  if isRcmm remote then [.shift (bitCount remote - 1 - done)]
  else if isXmp remote then
    if bits.tmod 4 ≠ 0 ∨ done.tmod 4 ≠ 0 then []
    else (List.replicate (bits.toNat / 4) (reverseOps 4)).flatten
  else [.shift (bitCount remote - 1 - done)]

/-- `init_send` sends a code of the remote by `send_data`. -/
def sendsData (remote : IrRemote) : Bool :=
  !(isRaw remote || isGrundig remote || isGoldstar remote || isSerial remote || isBo remote)

def sendOps (remote : IrRemote) : List ArithOp :=
  if sendsData remote then
    (frameWidths remote).flatMap fun call => sendDataOps remote call.1 call.2
  else []

/-- The mask of the first bit of a call fits a word. -/
def MaskFits (remote : IrRemote) (done : Int) : Prop :=
  done < bitCount remote ∧ bitCount remote ≤ done + 64

theorem allDefined_sendData (remote : IrRemote) (bits done : Int) :
    AllDefined (sendDataOps remote bits done) ↔
      bits ≤ 64 ∧ (isXmp remote = true ∨ MaskFits remote done) := by
  have hmask : AllDefined [.shift (bitCount remote - 1 - done)] ↔ MaskFits remote done := by
    rw [allDefined_cons]
    unfold MaskFits ArithOp.Defined
    constructor
    · intro h
      omega
    · intro h
      exact ⟨by omega, allDefined_nil⟩
  unfold sendDataOps
  rw [allDefined_append, allDefined_reverse]
  refine and_congr_right fun _ => ?_
  split
  · next hr =>
    have hx : isXmp remote = false := by
      unfold isRcmm at hr
      unfold isXmp
      rw [eq_of_beq hr]
      decide
    rw [hmask, hx]
    simp
  · split
    · next hx =>
      refine iff_of_true ?_ (.inl hx)
      split
      · exact allDefined_nil
      · intro op hop
        obtain ⟨ops, hops, hop⟩ := List.mem_flatten.mp hop
        rw [(List.mem_replicate.mp hops).2] at hop
        exact (allDefined_reverse 4).mpr (by decide) op hop
    · next hx => rw [hmask, Bool.eq_false_iff.mpr hx]; simp

/-- The widths that `send_data` can send. -/
def SendWidths (remote : IrRemote) : Prop :=
  sendsData remote = true → ∀ call ∈ frameWidths remote,
    call.1 ≤ 64 ∧ (isXmp remote = true ∨ MaskFits remote call.2)

/-- **Sending**: the operations have results for these widths only. -/
theorem allDefined_send (remote : IrRemote) : AllDefined (sendOps remote) ↔ SendWidths remote := by
  unfold sendOps SendWidths
  rw [allDefined_ite, allDefined_flatMap]
  exact forall_congr' fun _ => forall₂_congr fun call _ => allDefined_sendData remote call.1 call.2

/-! ## 4. Decoding -/

/-- The XMP loop of `get_data`. -/
def getXmpOps (remote : IrRemote) : Nat → Rbuf → List ArithOp
  | 0, _ => []
  | n + 1, b =>
    let (deltap, b) := getNextPulse remote.pzero b
    let (deltas, b) := getNextSpace (remote.szero + 16 * remote.sone) b
    if deltap = 0 ∨ deltas = 0 then []
    else
      let sum := deltap + deltas - (remote.pzero + remote.szero)
      let nibble : IrCode := BitVec.ofInt 64 ((sum + remote.sone.tdiv 2).tdiv remote.sone)
      .div remote.sone :: if nibble ≥ 16 then [] else getXmpOps remote n b

/-- A bit of the serial loop, of which `s` has `received` already. -/
def serialByteOps (remote : IrRemote) (cfg : SerialConfig) (s : SerialState) : List ArithOp :=
  .div (remote.bitsInByte + cfg.parityBit : Nat) ::
  if s.received % (remote.bitsInByte + cfg.parityBit) = 0 then
    if (remote.parity = IR_PARITY_EVEN ∧ s.parity) ∨
        (remote.parity = IR_PARITY_ODD ∧ !s.parity) then
      []
    else
      [.shift (remote.bitsInByte + cfg.parityBit : Nat), .shift remote.bitsInByte,
        .shift cfg.parityBit] ++ reverseOps remote.bitsInByte
  else []

/-- A turn of the serial loop. -/
def serialStepOps (remote : IrRemote) (cfg : SerialConfig) (s : SerialState) : List ArithOp :=
  let s := serialRead remote cfg s
  if s.delta = 0 then []
  else
    let delta : Option Int :=
      if expect remote s.delta s.pending then some 0
      else if s.delta > s.pending then some (s.delta - s.pending)
      else none
    match delta with
    | none => []
    | some delta =>
      if s.pending > 0 then []
      else if delta > s.bitTime remote ∨ expect remote delta (s.bitTime remote) then
        serialByteOps remote cfg { s with
          received := s.received + 1, parity := s.parity ^^ s.space }
      else []

def serialLoopOps (remote : IrRemote) (cfg : SerialConfig) : Nat → SerialState → List ArithOp
  | 0, _ => []
  | fuel + 1, s =>
    if s.received < cfg.bits ∨ s.stopBit then
      serialStepOps remote cfg s ++
        match serialStep remote cfg s with
        | (false, _) => []
        | (true, s) => serialLoopOps remote cfg fuel s
    else []

def getSerialOps (fuel : Nat) (remote : IrRemote) (bits : Int) (b : Rbuf) : List ArithOp :=
  let cfg := serialConfig remote bits
  let b := setPendingPulse cfg.base b -- start bit
  [.div remote.baud] ++
  (if remote.parity ≠ IR_PARITY_NONE then [.div remote.bitsInByte] else []) ++
  serialLoopOps remote cfg fuel { space := b.pendingp == 0, buf := b }

/-- The masks of `expectone` and, where it fails, of `expectzero`. -/
def bitTurnOps (turn : BitTurn) : List ArithOp :=
  if isBiphase turn.remote then
    let op := .shift (bitCount turn.remote - 1 - turn.bit)
    op :: if (expectone turn.remote turn.bit turn.buf).1 then [] else [op]
  else []

/-- `get_data`. -/
def getDataOps (fuel : Nat) (remote : IrRemote) (bits done : Int) (b : Rbuf) : List ArithOp :=
  if isRcmm remote then []
  else if isGrundig remote then []
  else if isSerial remote then getSerialOps fuel remote bits b
  else if isBo remote then []
  else if isXmp remote then
    if bits.tmod 4 ≠ 0 ∨ done.tmod 4 ≠ 0 then []
    else
      match syncPendingSpace remote b with
      | (false, _) => []
      | (true, b) => getXmpOps remote (bits.toNat / 4) b
  else (bitTurns bits.toNat done remote b).flatMap bitTurnOps

/-- **What a call of `get_data` needs**: a rate for a serial remote, a space of
    a one where there are nibbles of XMP, masks that fit a word where there are
    bits of a biphase remote. -/
def DecodeWidth (remote : IrRemote) (bits done : Int) : Prop :=
  if isRcmm remote then True
  else if isGrundig remote then True
  else if isSerial remote then remote.baud ≠ 0
  else if isBo remote then True
  else if isXmp remote then
    remote.sone ≠ 0 ∨ bits ≤ 0 ∨ bits.tmod 4 ≠ 0 ∨ done.tmod 4 ≠ 0
  else if isBiphase remote then bits ≤ 0 ∨ (MaskFits remote done ∧ done + bits ≤ bitCount remote)
  else True

/-- The bits of a byte on the line are some and fit a word. -/
def ByteFits (remote : IrRemote) : Prop :=
  remote.bitsInByte ≤ 9 ∧ (isSerial remote = true → 0 < remote.bitsInByte)

section Serial

variable {remote : IrRemote} {cfg : SerialConfig}

theorem serialConfig_parityBit (remote : IrRemote) (bits : Int) :
    (serialConfig remote bits).parityBit ≤ 1 := by
  unfold serialConfig
  dsimp only
  split
  · exact Nat.le_refl _
  · exact Nat.zero_le _

theorem serialByteOps_defined (hpos : 0 < remote.bitsInByte) (hle : remote.bitsInByte ≤ 9)
    (hparity : cfg.parityBit ≤ 1) (s : SerialState) : AllDefined (serialByteOps remote cfg s) := by
  unfold serialByteOps
  rw [allDefined_cons]
  have hshift : ∀ n : Nat, n < 64 → ArithOp.Defined (.shift n) :=
    fun n hn => ⟨Int.natCast_nonneg n, by omega⟩
  refine ⟨?_, ?_⟩
  · show ((remote.bitsInByte + cfg.parityBit : Nat) : Int) ≠ 0
    omega
  · split
    · split
      · exact allDefined_nil
      · rw [allDefined_append, allDefined_reverse]
        refine ⟨?_, by omega⟩
        simp only [allDefined_cons, allDefined_nil, and_true]
        exact ⟨hshift _ (by omega), hshift _ (by omega), hshift _ (by omega)⟩
    · exact allDefined_nil

theorem serialStepOps_defined (hpos : 0 < remote.bitsInByte) (hle : remote.bitsInByte ≤ 9)
    (hparity : cfg.parityBit ≤ 1) (s : SerialState) : AllDefined (serialStepOps remote cfg s) := by
  unfold serialStepOps
  dsimp only
  split
  · exact allDefined_nil
  · split
    · exact allDefined_nil
    · split
      · exact allDefined_nil
      · split
        · exact serialByteOps_defined hpos hle hparity _
        · exact allDefined_nil

theorem serialLoopOps_defined (hpos : 0 < remote.bitsInByte) (hle : remote.bitsInByte ≤ 9)
    (hparity : cfg.parityBit ≤ 1) (fuel : Nat) (s : SerialState) :
    AllDefined (serialLoopOps remote cfg fuel s) := by
  induction fuel generalizing s with
  | zero => exact allDefined_nil
  | succ fuel ih =>
    rw [serialLoopOps]
    split
    · rw [allDefined_append]
      refine ⟨serialStepOps_defined hpos hle hparity s, ?_⟩
      split
      · exact allDefined_nil
      · exact ih _
    · exact allDefined_nil

/-- **The serial loop** needs a rate. -/
theorem getSerialOps_iff (hpos : 0 < remote.bitsInByte) (hle : remote.bitsInByte ≤ 9) (fuel : Nat)
    (bits : Int) (b : Rbuf) : AllDefined (getSerialOps fuel remote bits b) ↔ remote.baud ≠ 0 := by
  unfold getSerialOps
  dsimp only
  rw [allDefined_append, allDefined_append, allDefined_cons, allDefined_ite, allDefined_cons]
  constructor
  · intro h hb
    exact h.1.1.1 (by rw [hb]; rfl)
  · intro h
    have hbits : ((remote.bitsInByte : Nat) : Int) ≠ 0 := by omega
    refine ⟨⟨⟨?_, allDefined_nil⟩, fun _ => ⟨hbits, allDefined_nil⟩⟩, ?_⟩
    · show ((remote.baud : Nat) : Int) ≠ 0
      omega
    · exact serialLoopOps_defined hpos hle (serialConfig_parityBit remote bits) fuel _

end Serial

theorem getXmpOps_defined {remote : IrRemote} (h : remote.sone ≠ 0) (n : Nat) (b : Rbuf) :
    AllDefined (getXmpOps remote n b) := by
  induction n generalizing b with
  | zero => exact allDefined_nil
  | succ n ih =>
    rw [getXmpOps]
    dsimp only
    split
    · exact allDefined_nil
    · rw [allDefined_cons]
      refine ⟨h, ?_⟩
      split
      · exact allDefined_nil
      · exact ih _

/-- The widths of a remote are those of the remote in every turn of its loop. -/
theorem bitTurns_bounds {n : Nat} {bit : Int} {remote : IrRemote} {b : Rbuf} {turn : BitTurn}
    (h : turn ∈ bitTurns n bit remote b) :
    isBiphase turn.remote = isBiphase remote ∧ bitCount turn.remote = bitCount remote ∧
      bit ≤ turn.bit ∧ turn.bit < bit + n := by
  induction n generalizing bit remote b with
  | zero => exact absurd h List.not_mem_nil
  | succ n ih =>
    have hgold : isBiphase (goldstarOne remote bit) = isBiphase remote ∧
        bitCount (goldstarOne remote bit) = bitCount remote := by
      unfold goldstarOne
      split
      · split
        · exact ⟨rfl, rfl⟩
        · exact ⟨rfl, rfl⟩
      · exact ⟨rfl, rfl⟩
    have hrest : ∀ b, turn ∈ bitTurns n (bit + 1) (goldstarOne remote bit) b →
        isBiphase turn.remote = isBiphase remote ∧ bitCount turn.remote = bitCount remote ∧
          bit ≤ turn.bit ∧ turn.bit < bit + (n + 1 : Nat) := by
      intro b hb
      obtain ⟨h1, h2, h3, h4⟩ := ih hb
      exact ⟨h1.trans hgold.1, h2.trans hgold.2, by omega, by omega⟩
    rw [bitTurns] at h
    rcases List.mem_cons.mp h with rfl | h
    · exact ⟨hgold.1, hgold.2, Int.le_refl _, by dsimp only; omega⟩
    · split at h
      · exact hrest _ h
      · split at h
        · exact hrest _ h
        · exact absurd h List.not_mem_nil

section Decode

variable {remote : IrRemote} {bits done : Int}

theorem defined_of_ite {p A B : Prop} [Decidable p] {x y : List ArithOp}
    (hx : p → A → AllDefined x) (hy : ¬ p → B → AllDefined y) (h : if p then A else B) :
    AllDefined (if p then x else y) := by
  split
  · next hp => exact hx hp (by rwa [if_pos hp] at h)
  · next hp => exact hy hp (by rwa [if_neg hp] at h)

theorem ite_of_defined {p A B : Prop} [Decidable p] {x y : List ArithOp}
    (hx : p → AllDefined x → A) (hy : ¬ p → AllDefined y → B)
    (h : AllDefined (if p then x else y)) : if p then A else B := by
  split
  · next hp => exact hx hp (by rwa [if_pos hp] at h)
  · next hp => exact hy hp (by rwa [if_neg hp] at h)

theorem shift_defined (all n : Int) :
    ArithOp.Defined (.shift (all - 1 - n)) ↔ n < all ∧ all ≤ n + 64 := by
  unfold ArithOp.Defined
  omega

/-- **Decoding**: with these widths every operation has a result, whatever the
    samples. -/
theorem getDataOps_defined (hbyte : ByteFits remote) (fuel : Nat) (b : Rbuf)
    (h : DecodeWidth remote bits done) : AllDefined (getDataOps fuel remote bits done b) := by
  have hnil : ∀ p : Prop, p → True → AllDefined [] := fun _ _ _ => allDefined_nil
  refine defined_of_ite (hnil _) (fun _ => defined_of_ite (hnil _) fun _ => defined_of_ite ?_
    fun _ => defined_of_ite (hnil _) fun _ => defined_of_ite ?_ ?_) h
  · intro hserial hbaud
    exact (getSerialOps_iff (hbyte.2 hserial) hbyte.1 fuel bits b).mpr hbaud
  · intro _ hxmp
    split
    · exact allDefined_nil
    · next hmod =>
      obtain ⟨hbits, hdone⟩ := not_or.mp hmod
      split
      · exact allDefined_nil
      · rcases hxmp with hsone | hnone | hm | hm
        · exact getXmpOps_defined hsone _ _
        · rw [Int.toNat_of_nonpos hnone]
          exact allDefined_nil
        · exact absurd hm hbits
        · exact absurd hm hdone
  · intro _ hbits
    rw [allDefined_flatMap]
    intro turn hturn
    obtain ⟨hbi, hcount, hlo, hhi⟩ := bitTurns_bounds hturn
    unfold bitTurnOps
    rw [hbi, hcount]
    refine (allDefined_ite).mpr fun hb => ?_
    rw [if_pos hb] at hbits
    unfold MaskFits at hbits
    have hop : ArithOp.Defined (.shift (bitCount remote - 1 - turn.bit)) :=
      (shift_defined _ _).mpr (by omega)
    rw [allDefined_cons]
    refine ⟨hop, ?_⟩
    split
    · exact allDefined_nil
    · exact allDefined_cons.mpr ⟨hop, allDefined_nil⟩

/-- A pulse and a space of a microsecond. -/
def twoSamples : Rbuf := { input := [PULSE_BIT + 1, 1] }

/-- **The first nibble and the first mask** of a call are reached on
    `twoSamples`. -/
theorem decodeWidth_of_defined (hbyte : ByteFits remote) (hdone : done + bits ≤ bitCount remote)
    (h : AllDefined (getDataOps 0 remote bits done twoSamples)) : DecodeWidth remote bits done := by
  refine ite_of_defined (fun _ _ => trivial) (fun _ => ite_of_defined (fun _ _ => trivial) fun _ =>
    ite_of_defined ?_ fun _ => ite_of_defined (fun _ _ => trivial) fun _ => ite_of_defined ?_ ?_) h
  · intro hserial hops
    exact (getSerialOps_iff (hbyte.2 hserial) hbyte.1 0 bits twoSamples).mp hops
  · intro _ hops
    by_contra hnone
    obtain ⟨hsone, hbits, hm, hd⟩ :
        remote.sone = 0 ∧ 0 < bits ∧ bits.tmod 4 = 0 ∧ done.tmod 4 = 0 := by
      omega
    rw [if_neg (by omega)] at hops
    rw [Int.tmod_eq_emod_of_nonneg (Int.le_of_lt hbits)] at hm
    obtain ⟨n, hn⟩ : ∃ n, bits.toNat / 4 = n + 1 := ⟨bits.toNat / 4 - 1, by omega⟩
    rw [hn] at hops
    have hfirst : ArithOp.Defined (.div remote.sone) := hops _ List.mem_cons_self
    exact hfirst hsone
  · intro _ hops
    split
    · next hb =>
      by_cases hbits : bits ≤ 0
      · exact .inl hbits
      · obtain ⟨n, hn⟩ : ∃ n, bits.toNat = n + 1 := ⟨bits.toNat - 1, by omega⟩
        have hfirst : (⟨goldstarOne remote done, done, twoSamples⟩ : BitTurn) ∈
            bitTurns bits.toNat done remote twoSamples := by
          rw [hn]
          exact List.mem_cons_self
        obtain ⟨hbi, hcount, -⟩ := bitTurns_bounds hfirst
        have hop := allDefined_flatMap.mp hops _ hfirst
        unfold bitTurnOps at hop
        rw [hbi, hcount, if_pos hb, allDefined_cons] at hop
        exact .inr ⟨(shift_defined _ _).mp hop.1, hdone⟩
    · trivial

end Decode

/-! ## 5. The loop of `read_config` over the remotes -/

/-- The codes of a remote turned around. -/
def reverseCodesOps (rem : ConfigRemote) : List ArithOp :=
  if !isRaw rem.ir && hasFlag rem.ir REVERSE then
    (if hasPre rem.ir then reverseOps rem.ir.preDataBits else []) ++
    (if hasPost rem.ir then reverseOps rem.ir.postDataBits else []) ++
    ((rem.codes.map CodeTable.items).getD []).flatMap fun _ => reverseOps rem.ir.bits
  else []

/-- The masks for `toggle_bit`. -/
def toggleBitOps (rem : ConfigRemote) : List ArithOp :=
  (if hasFlag rem.ir RC6 ∧ rem.ir.rc6Mask = 0 ∧ rem.toggleBit > 0 then
    [.shift (bitCount rem.ir - rem.toggleBit)] else []) ++
  (if rem.toggleBit > 0 ∧ hasToggleBitMask rem.ir = false then
    [.shift (bitCount rem.ir - rem.toggleBit)] else [])

/-- The length of a bit of a serial remote. -/
def setBaudOps (rem : ConfigRemote) : List ArithOp :=
  if isSerial rem.ir ∧ rem.ir.baud > 0 then [.div rem.ir.baud] else []

/-- A turn of the loop. -/
def postProcessOps (rem : ConfigRemote) : List ArithOp :=
  reverseCodesOps rem ++
    match reverseCodes rem with
    | none => []
    | some rem => toggleBitOps rem ++ setBaudOps rem

/-- The words that are turned around fit 64 bits. -/
def ReverseFits (rem : ConfigRemote) : Prop :=
  isRaw rem.ir = false → hasFlag rem.ir REVERSE = true →
    (hasPre rem.ir = true → rem.ir.preDataBits ≤ 64) ∧
    (hasPost rem.ir = true → rem.ir.postDataBits ≤ 64) ∧
    ((rem.codes.map CodeTable.items).getD [] ≠ [] → rem.ir.bits ≤ 64)

/-- The bit that `toggle_bit` counts lies in a word. -/
def ToggleFits (rem : ConfigRemote) : Prop :=
  rem.toggleBit > 0 → (hasFlag rem.ir RC6 = true ∧ rem.ir.rc6Mask = 0) ∨
      hasToggleBitMask rem.ir = false →
    0 ≤ bitCount rem.ir - rem.toggleBit ∧ bitCount rem.ir - rem.toggleBit < 64

theorem allDefined_reverseCodes (rem : ConfigRemote) :
    AllDefined (reverseCodesOps rem) ↔ ReverseFits rem := by
  have hcodes :
      (∀ c ∈ (rem.codes.map CodeTable.items).getD [], AllDefined (reverseOps rem.ir.bits)) ↔
        ((rem.codes.map CodeTable.items).getD [] ≠ [] → rem.ir.bits ≤ 64) := by
    rw [allDefined_reverse]
    cases (rem.codes.map CodeTable.items).getD [] with
    | nil => exact ⟨fun _ h => absurd rfl h, fun _ _ hc => absurd hc List.not_mem_nil⟩
    | cons c items =>
      exact ⟨fun h _ => h c List.mem_cons_self, fun h _ _ => h (List.cons_ne_nil _ _)⟩
  unfold reverseCodesOps ReverseFits
  rw [allDefined_ite, allDefined_append, allDefined_append, allDefined_ite, allDefined_ite,
    allDefined_flatMap, hcodes, allDefined_reverse, allDefined_reverse, and_assoc, Bool.and_eq_true,
    Bool.not_eq_true', and_imp]

theorem allDefined_toggleBit (rem : ConfigRemote) :
    AllDefined (toggleBitOps rem) ↔ ToggleFits rem := by
  have hshift : AllDefined [.shift (bitCount rem.ir - rem.toggleBit)] ↔
      0 ≤ bitCount rem.ir - rem.toggleBit ∧ bitCount rem.ir - rem.toggleBit < 64 := by
    rw [allDefined_cons]
    exact ⟨fun h => h.1, fun h => ⟨h, allDefined_nil⟩⟩
  unfold toggleBitOps ToggleFits
  rw [allDefined_append, allDefined_ite, allDefined_ite, hshift]
  constructor
  · intro h hpos hmask
    rcases hmask with ⟨hrc6, hzero⟩ | hnone
    · exact h.1 ⟨hrc6, hzero, hpos⟩
    · exact h.2 ⟨hpos, hnone⟩
  · intro h
    exact ⟨fun hm => h hm.2.2 (.inl ⟨hm.1, hm.2.1⟩), fun hm => h hm.1 (.inr hm.2)⟩

theorem allDefined_setBaud (rem : ConfigRemote) : AllDefined (setBaudOps rem) := by
  unfold setBaudOps
  rw [allDefined_ite, allDefined_cons]
  intro h
  refine ⟨?_, allDefined_nil⟩
  show ((rem.ir.baud : Nat) : Int) ≠ 0
  omega

theorem reversed_rc6 (flags : Flags) :
    (flags &&& ~~~REVERSE ||| COMPAT_REVERSE) &&& RC6 = flags &&& RC6 := by
  have h0 : ~~~REVERSE &&& RC6 = RC6 := by decide
  have h1 : COMPAT_REVERSE &&& RC6 = 0 := by decide
  rw [BitVec.and_or_distrib_right, BitVec.and_assoc, h0, h1]
  simp

/-- Turning the codes around leaves alone what the masks are made from. -/
theorem toggleFits_reverseCodes {rem rem₁ : ConfigRemote} (h : reverseCodes rem = some rem₁) :
    ToggleFits rem₁ ↔ ToggleFits rem := by
  unfold reverseCodes at h
  split at h
  · split at h
    · exact nomatch h
    · rw [← Option.some.inj h]
      unfold ToggleFits hasFlag
      dsimp only
      rw [reversed_rc6]
      exact Iff.rfl
  · rw [Option.some.inj h]

/-- **The loop over the remotes** has results for these widths only. -/
theorem allDefined_postProcess {rem rem' : ConfigRemote} (h : postProcess rem = some rem') :
    AllDefined (postProcessOps rem) ↔ ReverseFits rem ∧ ToggleFits rem := by
  obtain ⟨rem₁, h₁, -⟩ := Option.map_eq_some_iff.mp h
  unfold postProcessOps
  rw [allDefined_append, allDefined_reverseCodes, h₁, allDefined_append, allDefined_toggleBit,
    toggleFits_reverseCodes h₁, and_iff_left (allDefined_setBaud rem₁)]

/-! ## 6. From the file to the codec -/

/-- The operations of a remote `rem`, which the loop over the remotes makes from
    `rem₀`, all have a result: in this loop, in sending any code and in decoding
    any samples. -/
structure ArithSafe (rem₀ rem : ConfigRemote) : Prop where
  read : AllDefined (postProcessOps rem₀)
  send : AllDefined (sendOps rem.ir)
  decode : isRaw rem.ir = false → ∀ call ∈ frameWidths rem.ir, ∀ fuel b,
    AllDefined (getDataOps fuel rem.ir call.1 call.2 b)

/-- What the config file has to set for that. -/
structure ArithWidths (rem₀ rem : ConfigRemote) : Prop where
  reversed : ReverseFits rem₀
  toggle : ToggleFits rem₀
  send : SendWidths rem.ir
  decode : isRaw rem.ir = false → ∀ call ∈ frameWidths rem.ir, DecodeWidth rem.ir call.1 call.2

/-- The calls of a frame end within its bits. -/
theorem frameWidths_within {remote : IrRemote} (hbits : 0 ≤ remote.bits)
    (hpost : 0 ≤ remote.postDataBits) {call : Int × Int} (h : call ∈ frameWidths remote) :
    call.2 + call.1 ≤ bitCount remote := by
  unfold frameWidths at h
  unfold bitCount
  rcases List.mem_append.mp h with h | h
  · rcases List.mem_append.mp h with h | h
    · split at h
      · rw [List.mem_singleton.mp h]
        dsimp only
        omega
      · exact absurd h List.not_mem_nil
    · rw [List.mem_singleton.mp h]
      dsimp only
      omega
  · split at h
    · rw [List.mem_singleton.mp h]
    · exact absurd h List.not_mem_nil

/-- **Arithmetic safety of every remote that is read**: the widths are enough
    for all operations to have a result, and where no width is negative each of
    them is needed. -/
theorem readConfig_arithmetic (fs : FileSystem) (levels : Nat) (name : Option (List Char))
    (bufs : List (List Char)) (m : Memory) (r : ReadResult)
    (hr : readConfigRecursive fs levels name bufs m = some r) (rem : ConfigRemote)
    (hrem : rem ∈ r.remotes) (rem₀ : ConfigRemote) (hpost : postProcess rem₀ = some rem) :
    (ArithWidths rem₀ rem → ArithSafe rem₀ rem) ∧
      (0 ≤ rem.ir.bits → 0 ≤ rem.ir.postDataBits → ArithSafe rem₀ rem → ArithWidths rem₀ rem) := by
  have hbyte : ByteFits rem.ir := readConfig_byteBits hr hrem
  refine ⟨fun h => ?_, fun hbits hpostBits h => ?_⟩
  · exact ⟨(allDefined_postProcess hpost).mpr ⟨h.reversed, h.toggle⟩,
      (allDefined_send rem.ir).mpr h.send,
      fun hraw call hcall fuel b => getDataOps_defined hbyte fuel b (h.decode hraw call hcall)⟩
  · obtain ⟨hrev, htoggle⟩ := (allDefined_postProcess hpost).mp h.read
    exact ⟨hrev, htoggle, (allDefined_send rem.ir).mp h.send, fun hraw call hcall =>
      decodeWidth_of_defined hbyte (frameWidths_within hbits hpostBits hcall)
        (h.decode hraw call hcall 0 twoSamples)⟩

/-- The remote of `tvFile` before and after the loop over the remotes. -/
def fileRemote (flags : Flags) (code : IrCode) : ConfigRemote where
  name := some ⟨0, ['T', 'V']⟩
  codes := some ⟨1, [{ name := ⟨2, ['U', 'P']⟩, code := code }]⟩
  ir := { bits := 8, flags := flags }

theorem readConfig_arithmetic_tvFile :
    ArithSafe (fileRemote (SPACE_ENC ||| REVERSE) 1)
      (fileRemote (SPACE_ENC ||| COMPAT_REVERSE) 0x80) := by
  have hread : readConfig (fun _ => none) none tvFile =
      some ⟨[fileRemote (SPACE_ENC ||| COMPAT_REVERSE) 0x80], false, { next := 3 }⟩ := by
    decide +kernel
  have hsend : ∀ call ∈ frameWidths (fileRemote (SPACE_ENC ||| COMPAT_REVERSE) 0x80).ir,
      call.1 ≤ 64 ∧ (isXmp (fileRemote (SPACE_ENC ||| COMPAT_REVERSE) 0x80).ir = true ∨
        (call.2 < 8 ∧ 8 ≤ call.2 + 64)) := by decide
  have hdecode : ∀ call ∈ frameWidths (fileRemote (SPACE_ENC ||| COMPAT_REVERSE) 0x80).ir,
      DecodeWidth (fileRemote (SPACE_ENC ||| COMPAT_REVERSE) 0x80).ir call.1 call.2 :=
    fun _ _ => trivial
  exact (readConfig_arithmetic _ _ _ _ _ _ hread _ List.mem_cons_self
    (fileRemote (SPACE_ENC ||| REVERSE) 1) (by decide +kernel)).1
    ⟨fun _ _ => by decide, fun h => absurd h (by decide), fun _ => hsend, fun _ => hdecode⟩

/-- A serial remote without a rate. -/
def serialFile : List (List Char) :=
  fgetsAll [] ("begin remote\nname TV\nbits 8\nflags SERIAL\nbegin codes\n".toList ++
    "UP 0x01\nend codes\nend remote\n".toList)

def noBaudRemote : ConfigRemote :=
  onIr (fun r => { r with bitsInByte := 8 }) (fileRemote SERIAL 1)

/-- The first call of `get_data` divides by 0. -/
theorem readConfig_arithmetic_serialFile :
    readConfig (fun _ => none) none serialFile = some ⟨[noBaudRemote], false, { next := 3 }⟩ ∧
      ∀ rem₀, ¬ ArithSafe rem₀ noBaudRemote := by
  refine ⟨by decide +kernel, fun rem₀ h => ?_⟩
  have hops := h.decode (by decide) (8, 0) (by decide) 0 {}
  have hdiv : ArithOp.Defined (.div 0) := hops _ List.mem_cons_self
  exact hdiv rfl

end WinLirc
