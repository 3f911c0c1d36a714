/-
  File:      WinLirc/Serial.lean
  Subject:   Serial frames: the UART waveform is decoded byte by byte.

  On the line a byte is a start pulse, its data bits (the least significant
  first, a space is 1), a parity bit if the remote has one, and the stop time
  as a space; equal levels merge. The serial loop reads a merged level once
  and slices it: `delta` is what is left of it (`Cut`).

  One turn takes one piece of the waveform off (`Cut.start`, `Cut.bit`,
  `Cut.stop`), a byte is n + 2 turns (`serial_byte`), the frame is its bytes.

  `serial_decoded`: the bytes are decoded in order; a wrong parity bit is
  rejected.
-/
import WinLirc.Decode

namespace WinLirc

open Signal

/-! ## 1. The waveform -/

def serialBase (remote : IrRemote) : Int := (1000000 / remote.baud : Nat)

/-- The stop time; `stop_bits` counts half bits. -/
def serialStop (remote : IrRemote) : Int := serialBase remote * remote.stopBits / 2

/-- The bits of a byte with its parity. -/
def serialBits (remote : IrRemote) : Nat :=
  remote.bitsInByte + if remote.parity ≠ IR_PARITY_NONE then 1 else 0

/-- What the parity of all bits of a byte must be. -/
def parityGoal (remote : IrRemote) : Bool := remote.parity == IR_PARITY_ODD

def parityOf (bs : List Bool) : Bool := bs.foldl xor false

/-- A byte to be sent, its parity bit inverted if `wrong`. -/
structure UartByte where
  value : IrCode
  wrong : Bool := false
  deriving DecidableEq, Repr

def uartBits (remote : IrRemote) (f : UartByte) : List Bool :=
  let data := lsbBits remote.bitsInByte f.value
  data ++ if remote.parity ≠ IR_PARITY_NONE then
    [parityGoal remote ^^ parityOf data ^^ f.wrong] else []

/-- The level of the line while `space` is expected. -/
def lineLevel (space : Bool) : Level := if space then .space else .pulse

def uartBit (remote : IrRemote) (one : Bool) : Emission := (lineLevel one, serialBase remote)

def uartByte (remote : IrRemote) (f : UartByte) : List Emission :=
  (.pulse, serialBase remote) :: ((uartBits remote f).map (uartBit remote) ++
    [(.space, serialStop remote)])

/-- **The waveform** of bytes sent back to back. -/
def uart (remote : IrRemote) (fs : List UartByte) : List Emission := fs.flatMap (uartByte remote)

theorem uart_cons (remote : IrRemote) (f : UartByte) (fs : List UartByte) :
    uart remote (f :: fs) = uartByte remote f ++ uart remote fs := rfl

theorem length_uartBits (remote : IrRemote) (f : UartByte) :
    (uartBits remote f).length = serialBits remote := by
  unfold uartBits serialBits
  split <;> simp

/-- A serial remote. -/
structure UartRemote (remote : IrRemote) : Prop where
  protocol : isSerial remote = true
  base : 0 < serialBase remote
  pzero : remote.pzero = serialBase remote
  sone : remote.sone = serialBase remote
  byte : 5 ≤ remote.bitsInByte ∧ remote.bitsInByte ≤ 9
  parity : remote.parity = IR_PARITY_NONE ∨ remote.parity = IR_PARITY_EVEN ∨
    remote.parity = IR_PARITY_ODD
  stop : remote.stopBits = 2 ∨ remote.stopBits = 3 ∨ remote.stopBits = 4
  header : hasHeader remote = false
  lead : remote.plead = 0
  pre : hasPre remote = false
  post : hasPost remote = false
  trail : remote.ptrail = 0
  foot : hasFoot remote = false
  const : isConst remote = false
  width : remote.bits ≤ 54
  eps : remote.eps < 100
  aeps : remote.aeps < serialBase remote

/-- A serial remote that accepts a length for itself. -/
structure Uart (remote : IrRemote) : Prop extends UartRemote remote where
  tolerant : Tolerant remote

section Lengths

variable {remote : IrRemote}

/-- **Less than one bit is tolerated.** -/
theorem Uart.tolerance (hU : Uart remote) :
    (serialBase remote * remote.eps).tdiv 100 < serialBase remote := by
  have hb := hU.base
  have he := hU.eps
  by_cases h0 : 0 ≤ remote.eps
  · have h1 : serialBase remote * remote.eps ≤ serialBase remote * 99 :=
      Int.mul_le_mul_of_nonneg_left (by omega) (Int.le_of_lt hb)
    have h2 : 0 ≤ serialBase remote * remote.eps := Int.mul_nonneg (Int.le_of_lt hb) h0
    rw [Int.tdiv_eq_ediv_of_nonneg h2]
    omega
  · have h1 : serialBase remote * remote.eps ≤ 0 :=
      Int.mul_nonpos_of_nonneg_of_nonpos (Int.le_of_lt hb) (by omega)
    have h2 : (serialBase remote * remote.eps).tdiv 100 ≤ 0 := by
      have h3 := Int.tdiv_nonneg (a := -(serialBase remote * remote.eps)) (b := 100) (by omega)
        (by decide)
      rw [Int.neg_tdiv] at h3
      omega
    omega

/-- A bit or more is no tolerance. -/
theorem Uart.not_nothing (hU : Uart remote) {d : Int} (hd : serialBase remote ≤ d) :
    expect remote d 0 = false := by
  have hb := hU.base
  have ha := hU.aeps
  simp only [expect, Int.zero_mul, Int.zero_tdiv, Bool.or_eq_false_iff, decide_eq_false_iff_not]
  omega

theorem Uart.not_one (hU : Uart remote) {y : Int} (hy : serialBase remote ≤ y) :
    expect remote (serialBase remote + y) (serialBase remote) = false := by
  have hb := hU.base
  have ha := hU.aeps
  have ht := hU.tolerance
  simp only [expect, Bool.or_eq_false_iff, decide_eq_false_iff_not]
  omega

theorem Uart.stop_pos (hU : Uart remote) : serialBase remote ≤ serialStop remote := by
  have hb := hU.base
  unfold serialStop
  rcases hU.stop with h | h | h
  · rw [h]
    omega
  · rw [h]
    omega
  · rw [h]
    omega

theorem Uart.positive (hU : Uart remote) (fs : List UartByte) : Positive (uart remote fs) := by
  have hb := hU.base
  have hs := hU.stop_pos
  intro e he
  unfold uart at he
  obtain ⟨f, -, hf⟩ := List.mem_flatMap.mp he
  rcases List.mem_cons.mp hf with rfl | hf
  · exact hb
  · rcases List.mem_append.mp hf with hf | hf
    · obtain ⟨one, -, rfl⟩ := List.mem_map.mp hf
      exact hb
    · rw [List.mem_singleton.mp hf]
      show 0 < serialStop remote
      omega

end Lengths

/-! ## 2. Slicing merged levels -/

/-- **What the loop has still to take**: the emissions `ops`, the first of them
    at the level it expects, `delta` already read of it. -/
structure Cut (w : Wire) (pp ps : Int) (ops : List Emission) (space : Bool) (delta : Int)
    (b : Rbuf) : Prop where
  first : ops.head?.map Prod.fst = some (lineLevel space)
  nonneg : 0 ≤ delta
  heard : ∃ h, View w h pp ps b ∧
    coalesce ops = if delta = 0 then h else (lineLevel space, delta) :: h

section Turns

variable {remote : IrRemote} {w : Wire} {s : SerialState} {pp ps x : Int}
  {ops : List Emission}

/-- The level is read where nothing of it is left. -/
theorem Cut.read (hc : Cut w pp ps ((lineLevel s.space, x) :: ops) s.space s.delta s.buf)
    (remote : IrRemote) (cfg : SerialConfig) :
    ∃ d o b' h, serialRead remote cfg s = { s with delta := d, origdelta := o, buf := b' } ∧
      0 < d ∧ coalesce ((lineLevel s.space, x) :: ops) = (lineLevel s.space, d) :: h ∧
      View w h pp ps b' := by
  obtain ⟨-, hnonneg, h, hv, hh⟩ := hc
  unfold serialRead
  by_cases h0 : s.delta = 0
  · rw [if_pos h0] at hh ⊢
    obtain ⟨d, t, ht⟩ := merge_head (lineLevel s.space, x) (coalesce ops)
    rw [coalesce_cons, ht] at hh
    subst hh
    have hd : 0 < d := (hv.sound _ List.mem_cons_self).1
    have hd0 : d ≠ 0 := Int.ne_of_gt hd
    have hread : ∃ b', (if s.space then getNextSpace cfg.maxSpace s.buf
        else getNextPulse cfg.maxPulse s.buf) = (d, b') ∧ View w t pp ps b' := by
      cases hs : s.space with
      | true =>
        rw [hs] at hv
        obtain ⟨b', e, hv'⟩ := hv.nextSpace
        exact ⟨b', e cfg.maxSpace, hv'⟩
      | false =>
        rw [hs] at hv
        obtain ⟨b', e, hv'⟩ := hv.nextPulse
        exact ⟨b', e cfg.maxPulse, hv'⟩
    obtain ⟨b', e, hv'⟩ := hread
    refine ⟨d, d, b', t, ?_, hd, ht, hv'⟩
    rw [e]
    simp [hd0]
  · rw [if_neg h0] at hh ⊢
    exact ⟨s.delta, s.origdelta, s.buf, h, rfl, by omega, hh, hv⟩

/-- **One piece is taken off**: `y` is left of the level; if nothing is, the
    line changes its level. -/
theorem Cut.take (hc : Cut w pp ps ((lineLevel s.space, x) :: ops) s.space s.delta s.buf)
    (hpos : Positive ops) (remote : IrRemote) (cfg : SerialConfig) :
    ∃ y o b' h, serialRead remote cfg s = { s with delta := x + y, origdelta := o, buf := b' } ∧
      0 < x + y ∧ 0 ≤ y ∧ View w h pp ps b' ∧
      (y = 0 → ops.head?.map Prod.fst ≠ some (lineLevel s.space)) ∧
      coalesce ops = if y = 0 then h else (lineLevel s.space, y) :: h := by
  obtain ⟨d, o, b', h, hread, hd, e, hv⟩ := hc.read remote cfg
  rcases coalesce_cons_cases e with ⟨rfl, rfl, hne⟩ | ⟨y, rfl, hy⟩
  · exact ⟨0, o, b', _, by rw [hread, Int.add_zero], by omega, Int.le_refl 0, hv, fun _ => hne, rfl⟩
  · have hy0 : 0 < y := coalesce_pos hpos (_, y) (hy ▸ List.mem_cons_self)
    have hne : y ≠ 0 := Int.ne_of_gt hy0
    exact ⟨y, o, b', h, hread, hd, Int.le_of_lt hy0, hv, fun h => absurd h hne,
      by rw [if_neg hne, hy]⟩

/-- The loop goes on with the level of what follows. -/
theorem View.turn {y : Int} {h : List Emission} {b : Rbuf} {space : Bool} (hv : View w h pp ps b)
    (hy : 0 ≤ y) (hne : ops ≠ [])
    (hfirst : y = 0 → ops.head?.map Prod.fst ≠ some (lineLevel space))
    (hrest : coalesce ops = if y = 0 then h else (lineLevel space, y) :: h) :
    Cut w pp ps ops (if y = 0 then !space else space) y b := by
  by_cases h0 : y = 0
  · rw [if_pos h0]
    refine ⟨?_, hy, h, hv, by rw [hrest, if_pos h0, if_pos h0]⟩
    have hf := hfirst h0
    cases ops with
    | nil => exact absurd rfl hne
    | cons e ops =>
      obtain ⟨l, d⟩ := e
      cases space <;> cases l <;> first | rfl | exact absurd rfl hf
  · rw [if_neg h0]
    refine ⟨?_, hy, h, hv, hrest⟩
    rw [← coalesce_head_level, hrest, if_neg h0]
    rfl

/-- The first emission is not longer than the first merged level. -/
theorem le_of_coalesce {l l' : Level} {d : Int} {h : List Emission} (hpos : Positive ops)
    (e : coalesce ((l, x) :: ops) = (l', d) :: h) : x ≤ d := by
  have hl := coalesce_head_level ((l, x) :: ops)
  rw [e] at hl
  obtain rfl : l' = l := by simpa using hl
  rcases coalesce_cons_cases e with ⟨rfl, -⟩ | ⟨y, rfl, hy⟩
  · exact Int.le_refl d
  · have hy0 : 0 < y := coalesce_pos hpos (_, y) (hy ▸ List.mem_cons_self)
    omega

/-- **The start pulse** is pending; the turn takes it off. -/
theorem Cut.start (cfg : SerialConfig) (hU : Uart remote) {l : Level}
    (hc : Cut w (serialBase remote) 0 ((.pulse, serialBase remote) :: (l, x) :: ops) s.space s.delta
      s.buf) (hx : serialBase remote ≤ x) (hpos : Positive ((l, x) :: ops))
    (hspace : s.space = false) (hstop : s.stopBit = false) :
    ∃ y o b' space', serialStep remote cfg s =
        (true, { s with delta := y, origdelta := o, buf := b', space := space' }) ∧
      Cut w 0 0 ((l, x) :: ops) space' y b' := by
  have hb := hU.base
  have hc' : Cut w (serialBase remote) 0 ((lineLevel s.space, serialBase remote) :: (l, x) :: ops)
      s.space s.delta s.buf := by
    rw [hspace] at hc ⊢
    exact hc
  obtain ⟨y, o, b', h, hread, hd, hy, hv, hfirst, hrest⟩ := hc'.take hpos remote cfg
  refine ⟨y, o, setPendingSpace 0 (setPendingPulse 0 b'), if y = 0 then !s.space else s.space, ?_,
    View.turn ((hv.deferPulse 0).deferSpace 0) hy (by simp) hfirst hrest⟩
  have hdelta : (if expect remote (serialBase remote + y) (serialBase remote) = true then some 0
      else if serialBase remote + y > serialBase remote then
        some (serialBase remote + y - serialBase remote) else none) = some y := by
    by_cases h0 : y = 0
    · rw [h0, Int.add_zero, if_pos (expect_self hU.tolerant (Int.le_of_lt hb))]
    · rw [if_neg h0] at hrest
      have hle := le_of_coalesce (fun e he => hpos e (List.mem_cons_of_mem _ he)) hrest
      rw [if_neg (by simp [hU.not_one (Int.le_trans hx hle)]), if_pos (by omega)]
      congr 1
      omega
  have hd0 : serialBase remote + y ≠ 0 := by omega
  unfold serialStep
  rw [hread]
  simp only [hd0, if_false, hspace, Bool.false_eq_true, hv.pendingp, hdelta, hstop,
    gt_iff_lt, hb, if_true]

/-- What a turn does with a bit, up to the end of a byte. -/
def bitTaken (s : SerialState) (y o : Int) (b : Rbuf) : SerialState :=
  { s with
    delta := y, origdelta := o, buf := b, received := s.received + 1
    code := shiftInBit s.code s.space, parity := s.parity ^^ s.space }

/-- **A bit**: the level it is at is its value. -/
theorem Cut.bit (cfg : SerialConfig) (hU : Uart remote)
    (hc : Cut w 0 0 ((lineLevel s.space, serialBase remote) :: ops) s.space s.delta s.buf)
    (hpos : Positive ops) :
    ∃ y o b' h, serialStep remote cfg s =
        (match serialByte remote cfg (bitTaken s y o b') with
        | (false, s) => (false, s)
        | (true, s) => (true, { s with space := if s.delta = 0 then !s.space else s.space })) ∧
      0 ≤ y ∧ View w h 0 0 b' ∧ (y = 0 → ops.head?.map Prod.fst ≠ some (lineLevel s.space)) ∧
      coalesce ops = if y = 0 then h else (lineLevel s.space, y) :: h := by
  have hb := hU.base
  obtain ⟨y, o, b', h, hread, hd, hy, hv, hfirst, hrest⟩ := hc.take hpos remote cfg
  refine ⟨y, o, b', h, ?_, hy, hv, hfirst, hrest⟩
  have hd0 : serialBase remote + y ≠ 0 := by omega
  have hpending : (if s.space then b'.pendings else b'.pendingp) = 0 := by
    rw [hv.pendings, hv.pendingp, ite_self]
  have hexpecting : (if s.space then remote.sone else remote.pzero) = serialBase remote := by
    rw [hU.sone, hU.pzero, ite_self]
  have hnothing : expect remote (serialBase remote + y) 0 = false := hU.not_nothing (by omega)
  have hone : serialBase remote < serialBase remote + y ∨
      expect remote (serialBase remote + y) (serialBase remote) = true := by
    by_cases h0 : y = 0
    · rw [h0, Int.add_zero]
      exact .inr (expect_self hU.tolerant (Int.le_of_lt hb))
    · exact .inl (by omega)
  have hleft : serialBase remote + y - (if serialBase remote + y < serialBase remote then
      serialBase remote + y else serialBase remote) = y := by
    rw [if_neg (by omega)]
    omega
  unfold serialStep
  rw [hread]
  simp only [hd0, if_false, hpending, hnothing, Bool.false_eq_true, gt_iff_lt, hd, if_true,
    Int.sub_zero, Int.lt_irrefl, hexpecting, hone, hleft]
  rfl

/-- **The stop time** is pending; the turn takes it off, what is left of the
    space is the gap. -/
theorem Cut.stop (cfg : SerialConfig) (hU : Uart remote)
    (hc : Cut w 0 (serialStop remote) ((.space, serialStop remote) :: ops) s.space s.delta s.buf)
    (hbase : cfg.base = serialBase remote) (hpos : Positive ops) (hstop : s.stopBit = true) :
    ∃ y o b' h, serialStep remote cfg s =
        (true, { s with
          delta := 0, origdelta := o, stopBit := false, space := false, buf := b'
          gapDelta :=
            if expect remote (serialStop remote + y) (serialStop remote) then 0 else y }) ∧
      0 ≤ y ∧ View w h (serialBase remote) 0 b' ∧
      (y = 0 → ops.head?.map Prod.fst ≠ some .space) ∧
      coalesce ops = if y = 0 then h else (.space, y) :: h := by
  have hs := hU.stop_pos
  have hb := hU.base
  have hspace : s.space = true := by
    have hf := hc.first
    cases hsp : s.space with
    | true => rfl
    | false =>
      rw [hsp] at hf
      exact absurd hf (by simp [lineLevel])
  have hc' : Cut w 0 (serialStop remote) ((lineLevel s.space, serialStop remote) :: ops)
      s.space s.delta s.buf := by
    rw [hspace] at hc ⊢
    exact hc
  obtain ⟨y, o, b', h, hread, hd, hy, hv, hfirst, hrest⟩ := hc'.take hpos remote cfg
  rw [hspace] at hfirst hrest
  refine ⟨y, o, setPendingSpace 0 (setPendingPulse (serialBase remote) b'), h, ?_, hy,
    (hv.deferPulse _).deferSpace 0, hfirst, hrest⟩
  have hd0 : serialStop remote + y ≠ 0 := by omega
  have hs0 : 0 < serialStop remote := by omega
  have hdelta : (if expect remote (serialStop remote + y) (serialStop remote) = true then some 0
      else if serialStop remote + y > serialStop remote then
        some (serialStop remote + y - serialStop remote) else none) =
      some (if expect remote (serialStop remote + y) (serialStop remote) = true then 0 else y) := by
    by_cases he : expect remote (serialStop remote + y) (serialStop remote) = true
    · rw [if_pos he, if_pos he]
    · have h0 : y ≠ 0 := by
        rintro rfl
        rw [Int.add_zero] at he
        exact he (expect_self hU.tolerant (by omega))
      rw [if_neg he, if_neg he, if_pos (by omega)]
      congr 1
      omega
  unfold serialStep
  rw [hread]
  simp only [hd0, if_false, hspace, hv.pendings, hdelta, hstop, gt_iff_lt, hs0, if_true, hbase]

end Turns

/-! ## 3. Bytes -/

/-- **The bits of a byte, turned around**, behind the bytes before it; the
    parity bit is filtered out. -/
theorem byte_filtered {k n : Nat} {c v : IrCode} {tail : List Bool} (ht : k + tail.length = n)
    (hn : n ≤ 64) (hv : v.toNat < 2 ^ k) (hc : c.toNat < 2 ^ (64 - n)) :
    (((lsbBits k v ++ tail).foldl shiftInBit c >>> n) <<< k |||
      reverse ((lsbBits k v ++ tail).foldl shiftInBit c >>> tail.length) k) = shiftIn k c v := by
  have hlen : (lsbBits k v ++ tail).length = n := by simp [ht]
  generalize hbs : lsbBits k v ++ tail = bs at *
  apply BitVec.eq_of_getLsbD_eq
  intro j hj
  rw [shiftIn, BitVec.getLsbD_or, BitVec.getLsbD_or, BitVec.getLsbD_shiftLeft,
    BitVec.getLsbD_shiftLeft, BitVec.getLsbD_ushiftRight, getLsbD_reverse _ _ (by omega),
    BitVec.getLsbD_ushiftRight]
  by_cases hjk : j < k
  · -- a bit of this byte
    have h1 : tail.length + (k - 1 - j) < 64 := by omega
    have h2 : tail.length + (k - 1 - j) < n := by omega
    have h3 : n - 1 - (tail.length + (k - 1 - j)) = j := by omega
    have h4 : j < (lsbBits k v).length := by simpa using hjk
    have hb : bs.getD j false = v.getLsbD j := by
      rw [← hbs, List.getD_append _ _ _ _ h4, List.getD_eq_getElem _ _ h4, getElem_lsbBits]
    rw [getLsbD_foldl_shiftInBit bs c _ h1, hlen, if_pos h2, h3, hb]
    simp [hj, hjk]
  · -- a bit of the bytes before
    have hvj : v.getLsbD j = false := getLsbD_of_lt hv (by omega)
    by_cases h1 : n + (j - k) < 64
    · have h2 : ¬ n + (j - k) < n := by omega
      have h3 : n + (j - k) - n = j - k := by omega
      rw [getLsbD_foldl_shiftInBit bs c _ h1, hlen, if_neg h2, h3, hvj]
      simp only [hj, hjk, decide_true, decide_false, Bool.not_false, Bool.true_and,
        Bool.false_and, Bool.or_false]
    · have h2 : ((bs.foldl shiftInBit c).getLsbD (n + (j - k))) = false :=
        BitVec.getLsbD_of_ge _ _ (by omega)
      have h3 : c.getLsbD (j - k) = false := getLsbD_of_lt hc (by omega)
      rw [h2, h3, hvj]
      simp only [hjk, decide_false, Bool.and_false, Bool.false_and]

theorem foldl_xor (bs : List Bool) (p : Bool) : bs.foldl xor p = (p ^^ parityOf bs) := by
  unfold parityOf
  induction bs generalizing p with
  | nil => simp
  | cons b bs ih => rw [List.foldl_cons, List.foldl_cons, ih, ih (false ^^ b)]; simp

section Bytes

variable {remote : IrRemote} {cfg : SerialConfig} {w : Wire}

/-- The parity of all bits of a byte. -/
theorem parity_uartBits (f : UartByte) (h : remote.parity ≠ IR_PARITY_NONE) :
    (uartBits remote f).foldl xor false = (parityGoal remote ^^ f.wrong) := by
  simp only [uartBits, ne_eq, h, not_false_eq_true, if_true, List.foldl_append, List.foldl_cons,
    List.foldl_nil, foldl_xor (lsbBits remote.bitsInByte f.value)]
  cases parityOf (lsbBits remote.bitsInByte f.value) <;> cases parityGoal remote <;> simp

/-- What the loop's constants must be. -/
structure Configured (remote : IrRemote) (cfg : SerialConfig) : Prop where
  base : cfg.base = serialBase remote
  stop : cfg.stop = serialStop remote
  bits : remote.bitsInByte + cfg.parityBit = serialBits remote

theorem serialConfig_configured (remote : IrRemote) (bits : Int) :
    Configured remote (serialConfig remote bits) := by
  unfold serialConfig
  by_cases h : remote.parity ≠ IR_PARITY_NONE
  · exact ⟨by simp only [if_pos h, serialBase], by simp only [if_pos h, serialStop, serialBase],
      by simp only [if_pos h, serialBits]⟩
  · exact ⟨by simp only [if_neg h, serialBase], by simp only [if_neg h, serialStop, serialBase],
      by simp only [if_neg h, serialBits]⟩

theorem serialLoop_turn {s s' : SerialState} (hs : serialStep remote cfg s = (true, s'))
    (hc : (s.received : Int) < cfg.bits ∨ s.stopBit) (fuel : Nat) :
    serialLoop remote cfg (fuel + 1) s = serialLoop remote cfg fuel s' := by
  rw [serialLoop, if_pos hc, hs]

/-- **Bits in front of the last of a byte**, by induction on them. -/
theorem serial_bits (hU : Uart remote) (hcfg : Configured remote cfg) {ops : List Emission}
    (hops : ops ≠ []) (hpos : Positive ops) (bs : List Bool) {s : SerialState}
    (hin : s.received % serialBits remote + bs.length < serialBits remote)
    (hbits : (s.received + bs.length : Int) < cfg.bits) (hstop : s.stopBit = false)
    (hc : Cut w 0 0 (bs.map (uartBit remote) ++ ops) s.space s.delta s.buf) :
    ∃ y o b' space', (∀ fuel, serialLoop remote cfg (fuel + bs.length) s =
        serialLoop remote cfg fuel { s with
          code := bs.foldl shiftInBit s.code, received := s.received + bs.length,
          parity := bs.foldl xor s.parity, delta := y, origdelta := o, buf := b',
          space := space' }) ∧
      Cut w 0 0 ops space' y b' := by
  induction bs generalizing s with
  | nil => exact ⟨s.delta, s.origdelta, s.buf, s.space, fun _ => rfl, hc⟩
  | cons one bs ih =>
    rw [List.length_cons] at hin hbits
    have hb := hU.base
    have hpos' : Positive (bs.map (uartBit remote) ++ ops) := by
      refine Positive.append (fun e he => ?_) hpos
      obtain ⟨b, -, rfl⟩ := List.mem_map.mp he
      exact hb
    have hlevel : lineLevel one = lineLevel s.space := by simpa [uartBit] using hc.first
    have hone : one = s.space := by
      cases one <;> cases hs : s.space <;> simp [lineLevel, hs] at hlevel <;> rfl
    have hc' : Cut w 0 0 ((lineLevel s.space, serialBase remote) ::
        (bs.map (uartBit remote) ++ ops)) s.space s.delta s.buf := by
      rw [← hlevel]
      exact hc
    obtain ⟨y, o, b', h, hstep, hy, hv, hfirst, hrest⟩ := hc'.bit cfg hU hpos'
    have hnot : ¬ (bitTaken s y o b').received % (remote.bitsInByte + cfg.parityBit) = 0 := by
      show ¬ (s.received + 1) % _ = 0
      rw [hcfg.bits, Nat.add_mod, Nat.mod_eq_of_lt (by omega : 1 < serialBits remote),
        Nat.mod_eq_of_lt (by omega : s.received % serialBits remote + 1 < serialBits remote)]
      omega
    have hbyte : serialByte remote cfg (bitTaken s y o b') = (true, bitTaken s y o b') := by
      unfold serialByte
      rw [if_neg hnot]
    rw [hbyte] at hstep
    have hmod : (s.received + 1) % serialBits remote = s.received % serialBits remote + 1 := by
      rw [Nat.add_mod, Nat.mod_eq_of_lt (by omega : 1 < serialBits remote),
        Nat.mod_eq_of_lt (by omega)]
    obtain ⟨y₂, o₂, b₂, space₂, hrun, hcut⟩ := ih
      (s := { bitTaken s y o b' with space := if y = 0 then !s.space else s.space })
      (by show (s.received + 1) % _ + bs.length < _; omega)
      (by show ((s.received + 1 : Nat) : Int) + bs.length < cfg.bits; push_cast at hbits ⊢; omega)
      hstop (hv.turn hy (by simp [hops]) hfirst hrest)
    refine ⟨y₂, o₂, b₂, space₂, fun fuel => ?_, hcut⟩
    rw [List.length_cons, ← Nat.add_assoc, serialLoop_turn hstep (.inl (by omega))]
    refine (hrun fuel).trans ?_
    simp only [bitTaken, hone, List.foldl_cons]
    congr 2
    omega

/-- The check of a complete byte. -/
theorem Uart.parity_check (hU : Uart remote) (p : Bool) :
    ((remote.parity = IR_PARITY_EVEN ∧ p = true) ∨ (remote.parity = IR_PARITY_ODD ∧ (!p) = true)) ↔
      remote.parity ≠ IR_PARITY_NONE ∧ p ≠ parityGoal remote := by
  unfold parityGoal
  rcases hU.parity with h | h | h
  · rw [h]
    simp [IR_PARITY_NONE, IR_PARITY_EVEN, IR_PARITY_ODD]
  · rw [h]
    simp [IR_PARITY_NONE, IR_PARITY_EVEN, IR_PARITY_ODD]
  · rw [h]
    simp [IR_PARITY_NONE, IR_PARITY_EVEN, IR_PARITY_ODD]

/-- The code once a byte is complete. -/
def byteCode (remote : IrRemote) (cfg : SerialConfig) (code : IrCode) : IrCode :=
  (code >>> (remote.bitsInByte + cfg.parityBit)) <<< remote.bitsInByte |||
    reverse (code >>> cfg.parityBit) remote.bitsInByte

/-- **The last bit of a byte**: its parity is checked, the stop time is
    pending. -/
theorem serial_lastBit (hU : Uart remote) (hcfg : Configured remote cfg) {ops : List Emission}
    (hpos : Positive ops) {one : Bool} {s : SerialState}
    (hlast : (s.received + 1) % serialBits remote = 0)
    (hc : Cut w 0 0 (uartBit remote one :: (.space, serialStop remote) :: ops) s.space s.delta
      s.buf) :
    (remote.parity ≠ IR_PARITY_NONE ∧ (s.parity ^^ one) ≠ parityGoal remote →
      ∃ s', serialStep remote cfg s = (false, s')) ∧
    (¬ (remote.parity ≠ IR_PARITY_NONE ∧ (s.parity ^^ one) ≠ parityGoal remote) →
      ∃ y o b' space', serialStep remote cfg s = (true, { s with
          code := byteCode remote cfg (shiftInBit s.code one), received := s.received + 1,
          parity := false, stopBit := true, delta := y, origdelta := o, buf := b',
          space := space' }) ∧
        Cut w 0 (serialStop remote) ((.space, serialStop remote) :: ops) space' y b') := by
  have hs := hU.stop_pos
  have hb := hU.base
  have hlevel : lineLevel one = lineLevel s.space := by simpa [uartBit] using hc.first
  obtain rfl : one = s.space := by
    cases one <;> cases hs : s.space <;> simp [lineLevel, hs] at hlevel <;> rfl
  have hpos' : Positive ((.space, serialStop remote) :: ops) := positive_cons (by omega) hpos
  obtain ⟨y, o, b', h, hstep, hy, hv, hfirst, hrest⟩ := hc.bit cfg hU hpos'
  have hend : (bitTaken s y o b').received % (remote.bitsInByte + cfg.parityBit) = 0 := by
    rw [hcfg.bits]
    exact hlast
  have hcheck := hU.parity_check (bitTaken s y o b').parity
  constructor
  · intro hbad
    have hbyte : serialByte remote cfg (bitTaken s y o b') = (false, bitTaken s y o b') := by
      unfold serialByte
      rw [if_pos hend, if_pos (hcheck.mpr hbad)]
    rw [hbyte] at hstep
    exact ⟨_, hstep⟩
  · intro hgood
    -- a space merges with the stop time
    have hmerged : ¬ ((bitTaken s y o b').space = true ∧ (bitTaken s y o b').delta = 0) := by
      rintro ⟨h1, h2⟩
      have hf := hfirst h2
      rw [show s.space = true from h1] at hf
      exact hf rfl
    have hbyte : serialByte remote cfg (bitTaken s y o b') = (true, { bitTaken s y o b' with
        code := byteCode remote cfg (bitTaken s y o b').code, parity := false, stopBit := true,
        buf := setPendingSpace (serialStop remote) b' }) := by
      unfold serialByte
      rw [if_pos hend, if_neg (fun h => hgood (hcheck.mp h))]
      dsimp only
      rw [if_neg hmerged, hcfg.stop]
      rfl
    rw [hbyte] at hstep
    exact ⟨y, o, _, _, hstep, (hv.deferSpace _).turn hy (by simp) hfirst hrest⟩

/-- **In front of a byte**: its start pulse is pending, `q` bytes are decoded. -/
structure AtByte (remote : IrRemote) (w : Wire) (ops : List Emission) (q : Nat)
    (s : SerialState) : Prop where
  code : s.code.toNat < 2 ^ (q * remote.bitsInByte)
  received : s.received = q * serialBits remote
  space : s.space = false
  stopBit : s.stopBit = false
  parity : s.parity = false
  delta : s.delta = 0
  view : View w (coalesce ops) (serialBase remote) 0 s.buf

/-- **Behind a byte**: `y` is left of the space that its stop time began. -/
structure Behind (remote : IrRemote) (w : Wire) (ops : List Emission) (y : Int)
    (s : SerialState) : Prop where
  space : s.space = false
  stopBit : s.stopBit = false
  parity : s.parity = false
  delta : s.delta = 0
  gapDelta : s.gapDelta =
    if expect remote (serialStop remote + y) (serialStop remote) then 0 else y
  nonneg : 0 ≤ y
  heard : ∃ h, View w h (serialBase remote) 0 s.buf ∧
    (y = 0 → ops.head?.map Prod.fst ≠ some .space) ∧
    coalesce ops = if y = 0 then h else (.space, y) :: h

/-- A wrong parity bit that the remote looks at. -/
def Bad (remote : IrRemote) (f : UartByte) : Prop :=
  remote.parity ≠ IR_PARITY_NONE ∧ f.wrong = true

/-- **One byte** takes n + 2 turns: the start pulse, its bits, the stop time. -/
theorem serial_byte (hU : Uart remote) (hcfg : Configured remote cfg) {f : UartByte}
    {rest : List Emission} {s : SerialState} {q : Nat} (hpos : Positive rest)
    (hv : f.value.toNat < 2 ^ remote.bitsInByte)
    (hroom : q * remote.bitsInByte + serialBits remote ≤ 64)
    (hbits : ((q * serialBits remote + serialBits remote : Nat) : Int) ≤ cfg.bits)
    (hs : AtByte remote w (uartByte remote f ++ rest) q s) :
    (Bad remote f → ∃ s', ∀ fuel,
      serialLoop remote cfg (fuel + (serialBits remote + 2)) s = some (false, s')) ∧
    (¬ Bad remote f → ∃ s' y, (∀ fuel, serialLoop remote cfg (fuel + (serialBits remote + 2)) s =
        serialLoop remote cfg fuel s') ∧
      s'.code = shiftIn remote.bitsInByte s.code f.value ∧
      s'.received = q * serialBits remote + serialBits remote ∧ Behind remote w rest y s') := by
  have hb := hU.base
  have hst := hU.stop_pos
  have hn5 := hU.byte
  obtain ⟨hcode, hrec, hspace, hstop, hparity, hdelta, hview⟩ := hs
  have hn : 0 < serialBits remote := by
    unfold serialBits
    omega
  have hlen := length_uartBits remote f
  have hpos₁ : Positive ((.space, serialStop remote) :: rest) := positive_cons (by omega) hpos
  obtain ⟨init, last, hbs⟩ : ∃ init last, uartBits remote f = init ++ [last] := by
    rcases List.eq_nil_or_concat (uartBits remote f) with h | ⟨init, last, h⟩
    · rw [h, List.length_nil] at hlen
      omega
    · exact ⟨init, last, by rw [h, List.concat_eq_append]⟩
  have hinit : init.length + 1 = serialBits remote := by
    rw [← hlen, hbs]
    simp
  have hops : uartByte remote f ++ rest = (.pulse, serialBase remote) ::
      ((uartBits remote f).map (uartBit remote) ++ (.space, serialStop remote) :: rest) := by
    simp [uartByte]
  -- the start pulse
  obtain ⟨one, bs, hone⟩ : ∃ one bs, uartBits remote f = one :: bs := by
    cases h : uartBits remote f with
    | nil =>
      rw [h, List.length_nil] at hlen
      omega
    | cons one bs => exact ⟨one, bs, rfl⟩
  have hposbits : Positive ((uartBits remote f).map (uartBit remote) ++
      (.space, serialStop remote) :: rest) := by
    refine Positive.append (fun e he => ?_) hpos₁
    obtain ⟨b, -, rfl⟩ := List.mem_map.mp he
    exact hb
  have hcut : Cut w (serialBase remote) 0 ((.pulse, serialBase remote) ::
      ((uartBits remote f).map (uartBit remote) ++ (.space, serialStop remote) :: rest))
      s.space s.delta s.buf := by
    refine ⟨by rw [hspace]; rfl, by rw [hdelta], _, hview, ?_⟩
    rw [hdelta, if_pos rfl, hops]
  rw [hone, List.map_cons, List.cons_append] at hcut hposbits
  obtain ⟨y₁, o₁, b₁, space₁, hstep₁, hcut₁⟩ := hcut.start cfg hU (Int.le_refl _) hposbits
    hspace hstop
  have hturn₁ := serialLoop_turn hstep₁ (.inl (by rw [hrec]; omega))
  -- the bits in front of the last
  have hlist :
      uartBit remote one :: (bs.map (uartBit remote) ++ (.space, serialStop remote) :: rest) =
        init.map (uartBit remote) ++
          (uartBit remote last :: (.space, serialStop remote) :: rest) := by
    rw [← List.cons_append, ← List.map_cons, ← hone, hbs]
    simp
  change Cut w 0 0 (uartBit remote one :: _) _ _ _ at hcut₁
  rw [hlist] at hcut₁
  generalize hs₁ : ({ s with delta := y₁, origdelta := o₁, buf := b₁, space := space₁ } :
    SerialState) = s₁ at *
  have hrec₁ : s₁.received = q * serialBits remote := by rw [← hs₁]; exact hrec
  have hcode₁ : s₁.code = s.code := by rw [← hs₁]
  have hparity₁ : s₁.parity = false := by rw [← hs₁]; exact hparity
  have hstop₁ : s₁.stopBit = false := by rw [← hs₁]; exact hstop
  have hmod : s₁.received % serialBits remote = 0 := by rw [hrec₁, Nat.mul_mod_left]
  obtain ⟨y₂, o₂, b₂, space₂, hrun₂, hcut₂⟩ := serial_bits hU hcfg (by simp)
    (positive_cons hb hpos₁) init (s := s₁) (by omega) (by rw [hrec₁]; omega) hstop₁
    (by rw [← hs₁]; exact hcut₁)
  generalize hs₂ : ({ s₁ with
    code := init.foldl shiftInBit s₁.code, received := s₁.received + init.length,
    parity := init.foldl xor s₁.parity, delta := y₂, origdelta := o₂, buf := b₂,
    space := space₂ } : SerialState) = s₂ at *
  have hrec₂ : s₂.received = q * serialBits remote + init.length := by rw [← hs₂, ← hrec₁]
  have hcode₂ : s₂.code = init.foldl shiftInBit s.code := by rw [← hs₂, ← hcode₁]
  have hparity₂ : (s₂.parity ^^ last) = (uartBits remote f).foldl xor false := by
    rw [← hs₂, hbs, List.foldl_append, ← hparity₁]
    rfl
  have hstop₂ : s₂.stopBit = false := by rw [← hs₂]; exact hstop₁
  -- the last bit
  have hlast : (s₂.received + 1) % serialBits remote = 0 := by
    rw [hrec₂, Nat.add_assoc, hinit, Nat.add_mod_right, Nat.mul_mod_left]
  have hcut₂' : Cut w 0 0 (uartBit remote last :: (.space, serialStop remote) :: rest) s₂.space
      s₂.delta s₂.buf := by
    rw [← hs₂]
    exact hcut₂
  obtain ⟨hbad, hgood⟩ := serial_lastBit hU hcfg hpos hlast hcut₂'
  have hcond₂ : (s₂.received : Int) < cfg.bits := by rw [hrec₂]; omega
  have hparity : remote.parity ≠ IR_PARITY_NONE ∧ (s₂.parity ^^ last) ≠ parityGoal remote ↔
      Bad remote f := by
    unfold Bad
    refine and_congr_right fun hp => ?_
    rw [hparity₂, parity_uartBits f hp]
    cases f.wrong <;> cases parityGoal remote <;> simp
  rw [hparity] at hbad hgood
  have hfuel (fuel : Nat) : fuel + (serialBits remote + 2) = fuel + 1 + 1 + init.length + 1 := by
    omega
  constructor
  · intro h
    obtain ⟨s₃, hstep₃⟩ := hbad h
    refine ⟨s₃, fun fuel => ?_⟩
    rw [hfuel, hturn₁, hrun₂, serialLoop, if_pos (.inl hcond₂), hstep₃]
  · intro h
    obtain ⟨y₃, o₃, b₃, space₃, hstep₃, hcut₃⟩ := hgood h
    have hturn₃ := serialLoop_turn hstep₃ (.inl hcond₂)
    generalize hs₃ : ({ s₂ with
      code := byteCode remote cfg (shiftInBit s₂.code last), received := s₂.received + 1,
      parity := false, stopBit := true, delta := y₃, origdelta := o₃, buf := b₃,
      space := space₃ } : SerialState) = s₃ at *
    have hstop₃ : s₃.stopBit = true := by rw [← hs₃]
    have hcut₃' : Cut w 0 (serialStop remote) ((.space, serialStop remote) :: rest) s₃.space
        s₃.delta s₃.buf := by
      rw [← hs₃]
      exact hcut₃
    obtain ⟨y, o, b', h', hstep₄, hy, hview', hfirst, hrest⟩ := Cut.stop cfg hU hcut₃'
      hcfg.base hpos hstop₃
    refine ⟨{ s₃ with
      delta := 0, origdelta := o, stopBit := false, space := false, buf := b'
      gapDelta := if expect remote (serialStop remote + y) (serialStop remote) then 0 else y },
      y, fun fuel => ?_, ?_, ?_, ⟨rfl, rfl, ?_, rfl, rfl, hy, h', hview', hfirst, hrest⟩⟩
    · rw [hfuel, hturn₁, hrun₂, hturn₃, serialLoop_turn hstep₄ (.inr hstop₃)]
    · -- the data bits of this byte
      show s₃.code = _
      have hall : shiftInBit s₂.code last = (uartBits remote f).foldl shiftInBit s.code := by
        rw [hcode₂, hbs, List.foldl_append]
        rfl
      have htail : ∃ tail, uartBits remote f = lsbBits remote.bitsInByte f.value ++ tail :=
        ⟨_, rfl⟩
      obtain ⟨tail, htail⟩ := htail
      have htl : remote.bitsInByte + tail.length = serialBits remote := by
        rw [← hlen, htail]
        simp
      have hpb : cfg.parityBit = tail.length := by
        have := hcfg.bits
        omega
      have hlt : s.code.toNat < 2 ^ (64 - serialBits remote) :=
        Nat.lt_of_lt_of_le hcode (Nat.pow_le_pow_right (by decide) (by omega))
      rw [← hs₃]
      show byteCode remote cfg (shiftInBit s₂.code last) = _
      rw [hall, htail, byteCode, hcfg.bits, hpb]
      exact byte_filtered htl (by omega) hv hlt
    · rw [← hs₃]
      show s₂.received + 1 = _
      omega
    · show s₃.parity = false
      rw [← hs₃]

/-- Behind a byte the next one stands at its start pulse. -/
theorem Behind.atByte {f : UartByte} {rest : List Emission} {y : Int} {q : Nat} {s : SerialState}
    (hs : Behind remote w (uartByte remote f ++ rest) y s)
    (hcode : s.code.toNat < 2 ^ (q * remote.bitsInByte))
    (hrec : s.received = q * serialBits remote) :
    AtByte remote w (uartByte remote f ++ rest) q s := by
  obtain ⟨h1, h2, h3, h4, -, -, h, hv, -, hrest⟩ := hs
  have hy : y = 0 := by
    by_contra hy
    have hl := coalesce_head_level (uartByte remote f ++ rest)
    rw [hrest, if_neg hy] at hl
    simp [uartByte] at hl
  rw [if_pos hy] at hrest
  exact ⟨hcode, hrec, h1, h2, h3, h4, by rw [hrest]; exact hv⟩

/-- **All bytes**, by induction on them: the first wrong parity bit ends the
    loop; without one, every byte is shifted in. -/
theorem serial_bytes (hU : Uart remote) (hcfg : Configured remote cfg) {idle : Int}
    (hidle : 0 < idle) (f : UartByte) (fs : List UartByte) {s : SerialState} {q : Nat}
    (hv : ∀ g ∈ f :: fs, g.value.toNat < 2 ^ remote.bitsInByte)
    (hroom : (q + fs.length) * remote.bitsInByte + serialBits remote ≤ 64)
    (hbits : (((q + fs.length) * serialBits remote + serialBits remote : Nat) : Int) ≤ cfg.bits)
    (hs : AtByte remote w (uart remote (f :: fs) ++ [(.space, idle)]) q s) :
    ((∃ g ∈ f :: fs, Bad remote g) → ∃ s', ∀ fuel,
      serialLoop remote cfg (fuel + (fs.length + 1) * (serialBits remote + 2)) s =
        some (false, s')) ∧
    ((∀ g ∈ f :: fs, ¬ Bad remote g) → ∃ s', (∀ fuel,
        serialLoop remote cfg (fuel + (fs.length + 1) * (serialBits remote + 2)) s =
          serialLoop remote cfg fuel s') ∧
      s'.code = (f :: fs).foldl (fun c g => shiftIn remote.bitsInByte c g.value) s.code ∧
      s'.received = (q + fs.length) * serialBits remote + serialBits remote ∧
      s'.stopBit = false ∧ View w [] (serialBase remote) 0 s'.buf ∧
      s'.gapDelta = if expect remote (serialStop remote + idle) (serialStop remote) then 0
        else idle) := by
  induction fs generalizing f s q with
  | nil =>
    have hops : uart remote [f] ++ [(.space, idle)] = uartByte remote f ++ [(.space, idle)] := by
      simp [uart]
    rw [hops] at hs
    obtain ⟨hbad, hgood⟩ := serial_byte hU hcfg (positive_cons hidle positive_nil)
      (hv f List.mem_cons_self) hroom hbits hs
    have hone (fuel : Nat) : fuel + (0 + 1) * (serialBits remote + 2) =
        fuel + (serialBits remote + 2) := by omega
    constructor
    · rintro ⟨g, hg, hb⟩
      rw [List.mem_singleton.mp hg] at hb
      obtain ⟨s', hloop⟩ := hbad hb
      refine ⟨s', fun fuel => ?_⟩
      rw [List.length_nil, hone, hloop]
    · intro hall
      obtain ⟨s', y, hloop, hcode, hrec, hbehind⟩ := hgood (hall f List.mem_cons_self)
      obtain ⟨-, hstop, -, -, hgap, -, h, hview, hfirst, hrest⟩ := hbehind
      -- the idle space is all that is left
      have hy : y ≠ 0 := fun h0 => hfirst h0 rfl
      rw [if_neg hy] at hrest
      obtain ⟨rfl, rfl⟩ : idle = y ∧ [] = h := by simpa using hrest
      refine ⟨s', fun fuel => ?_, hcode, hrec, hstop, hview, hgap⟩
      rw [List.length_nil, hone, hloop]
  | cons g fs ih =>
    rw [List.length_cons] at hroom hbits
    have hops : uart remote (f :: g :: fs) ++ [(.space, idle)] =
        uartByte remote f ++ (uart remote (g :: fs) ++ [(.space, idle)]) := by
      rw [uart_cons, List.append_assoc]
    rw [hops] at hs
    have hposrest : Positive (uart remote (g :: fs) ++ [(.space, idle)]) :=
      (hU.positive _).append (positive_cons hidle positive_nil)
    have h1 : q * remote.bitsInByte ≤ (q + (fs.length + 1)) * remote.bitsInByte :=
      Nat.mul_le_mul_right _ (Nat.le_add_right _ _)
    have h2 : q * serialBits remote ≤ (q + (fs.length + 1)) * serialBits remote :=
      Nat.mul_le_mul_right _ (Nat.le_add_right _ _)
    obtain ⟨hbad, hgood⟩ := serial_byte hU hcfg hposrest (hv f List.mem_cons_self)
      (Nat.le_trans (Nat.add_le_add_right h1 _) hroom) (by omega) hs
    have hfuel (fuel : Nat) : fuel + (fs.length + 1 + 1) * (serialBits remote + 2) =
        fuel + (fs.length + 1) * (serialBits remote + 2) + (serialBits remote + 2) := by
      rw [Nat.succ_mul (fs.length + 1)]
      omega
    by_cases hf : Bad remote f
    · constructor
      · rintro -
        obtain ⟨s', hloop⟩ := hbad hf
        refine ⟨s', fun fuel => ?_⟩
        rw [List.length_cons, hfuel, hloop]
      · exact fun hall => absurd hf (hall f List.mem_cons_self)
    · obtain ⟨s₁, y, hloop, hcode, hrec, hbehind⟩ := hgood hf
      have hq : (q + 1) * serialBits remote = q * serialBits remote + serialBits remote :=
        Nat.succ_mul _ _
      have hlt : s₁.code.toNat < 2 ^ ((q + 1) * remote.bitsInByte) := by
        rw [hcode, Nat.succ_mul]
        exact shiftIn_lt hs.code (hv f List.mem_cons_self)
      have hcount : q + 1 + fs.length = q + (fs.length + 1) := by omega
      have hat : AtByte remote w (uart remote (g :: fs) ++ [(.space, idle)]) (q + 1) s₁ := by
        rw [uart_cons, List.append_assoc] at hbehind ⊢
        exact hbehind.atByte hlt (hrec.trans hq.symm)
      obtain ⟨hbad', hgood'⟩ := ih g (fun g' hg' => hv g' (List.mem_cons_of_mem f hg'))
        (by rw [hcount]; exact hroom) (by rw [hcount]; exact hbits) hat
      constructor
      · rintro ⟨g', hg', hb⟩
        have hmem : g' ∈ g :: fs := by
          rcases List.mem_cons.mp hg' with rfl | hmem
          · exact absurd hb hf
          · exact hmem
        obtain ⟨s', hloop'⟩ := hbad' ⟨g', hmem, hb⟩
        refine ⟨s', fun fuel => ?_⟩
        rw [List.length_cons, hfuel, hloop, hloop']
      · intro hall
        obtain ⟨s', hloop', hcode', hrec', hrest'⟩ := hgood' fun g' hg' =>
          hall g' (List.mem_cons_of_mem f hg')
        refine ⟨s', fun fuel => ?_, ?_, ?_, hrest'⟩
        · rw [List.length_cons, hfuel, hloop, hloop']
        · rw [hcode', hcode, List.foldl_cons (l := g :: fs)]
        · rw [hrec', hcount, List.length_cons]

end Bytes

/-! ## 4. The frame -/

section Frame

variable {remote : IrRemote} {w : Wire} {b : Rbuf} {pp ps gap : Int}

/-- Everything was read: the read position is behind the last sample. -/
theorem View.at_end (hv : View w [] pp ps b) :
    b.rptr = w.tape.length ∧ w.tape.length ≤ b.data.length := by
  obtain ⟨past, ht, hr, hle⟩ := hv.suffix
  rw [List.map_nil, List.append_nil] at ht
  rw [ht]
  exact ⟨hr, hle⟩

/-- **Where nothing is left**, the gap has already been heard. -/
theorem View.getGap_open (hv : View w [] pp ps b) (hextra : w.extra = []) :
    ∃ b', getGap remote gap b = (true, b') := by
  obtain ⟨hr, hle⟩ := hv.at_end
  have htape := congrArg List.length hv.tape
  rw [hextra, List.length_append, List.append_nil] at htape
  have hin : b.input = [] := List.eq_nil_of_length_eq_zero (by omega)
  have hread : ∃ b', ∀ m, getNextRecBuffer m b = (0, b') := by
    by_cases hw : b.wptr < RBUF_SIZE
    · refine ⟨b, fun m => ?_⟩
      unfold getNextRecBuffer
      rw [if_neg (by rw [Rbuf.wptr]; omega), if_pos hw, hin]
    · refine ⟨{ b with tooLong := true }, fun m => ?_⟩
      unfold getNextRecBuffer
      rw [if_neg (by rw [Rbuf.wptr]; omega), if_neg hw]
  obtain ⟨b', hread⟩ := hread
  refine ⟨b', ?_⟩
  unfold getGap
  rw [hread]
  rfl

/-- **The rest of the last space**, pushed back, is the gap. -/
theorem View.getGap_pushed (hv : View w [] pp ps b) (htape : w.tape ≠ []) {d : Int}
    (hd : 0 < d ∧ d ≤ PULSE_MASK) (hgap : expectAtLeast remote d gap = true) :
    ∃ b', getGap remote gap (setPendingSpace 0 (setPendingPulse 0 (ungetRecBufferDelta d b))) =
      (true, b') := by
  obtain ⟨hr, hle⟩ := hv.at_end
  have hlen := List.length_pos_of_ne_nil htape
  generalize hb₁ : setPendingSpace 0 (setPendingPulse 0 (ungetRecBufferDelta d b)) = b₁
  have hrptr : b₁.rptr = b.rptr - 1 := by rw [← hb₁]; rfl
  have hdata : b₁.data = b.data.set (b.rptr - 1).toNat d := by rw [← hb₁]; rfl
  have hsample : b₁.sample b₁.rptr = d := by
    have hlt : (b.rptr - 1).toNat < (b.data.set (b.rptr - 1).toNat d).length := by
      rw [List.length_set]
      omega
    rw [Rbuf.sample, if_pos (by omega), hrptr, hdata, List.getD_eq_getElem _ _ hlt,
      List.getElem_set_self]
  have hread (m : Int) : ∃ b', getNextRecBuffer m b₁ = (d, b') := by
    unfold getNextRecBuffer
    rw [if_pos (by rw [Rbuf.wptr, hdata, List.length_set, hrptr]; omega), hsample]
    exact ⟨_, rfl⟩
  obtain ⟨b', hread⟩ := hread (gap - (gap * remote.eps).tdiv 100)
  refine ⟨ungetRecBuffer 1 b', ?_⟩
  have hd0 : d ≠ 0 := by omega
  unfold getGap
  rw [hread]
  simp only [if_neg hd0, isSpace, isPulse_of_le (Int.le_of_lt hd.1) hd.2, Bool.not_false,
    Bool.not_true, Bool.false_eq_true, if_false, hgap]

/-- The bits that the loop waits for, parity bits included. -/
theorem serialConfig_bits (hU : Uart remote) {m : Nat}
    (hbits : remote.bits = (m * remote.bitsInByte : Nat)) :
    (serialConfig remote remote.bits).bits = (m * serialBits remote : Nat) := by
  have hw := hU.width
  obtain ⟨h5, -⟩ := hU.byte
  unfold serialConfig serialBits
  by_cases h : remote.parity ≠ IR_PARITY_NONE
  · have hmod : remote.bits % 2 ^ 32 = remote.bits := Int.emod_eq_of_lt (by omega) (by omega)
    have hdiv : remote.bits / remote.bitsInByte = (m : Int) := by
      rw [hbits, Int.natCast_mul]
      exact Int.mul_ediv_cancel _ (by omega)
    simp only [if_pos h, hmod, hdiv]
    rw [hbits, Nat.mul_add, Nat.mul_one, Int.natCast_add]
  · simp only [if_neg h, hbits, Nat.add_zero]

/-- No merged level is shorter than the last emission. -/
theorem exists_ge_coalesce {l : Level} {d : Int} {s : List Emission} (hs : Positive s) :
    ∃ e ∈ coalesce (s ++ [(l, d)]), d ≤ e.2 := by
  induction s with
  | nil => exact ⟨(l, d), by simp, Int.le_refl d⟩
  | cons f s ih =>
    obtain ⟨e, he, hd⟩ := ih fun g hg => hs g (List.mem_cons_of_mem f hg)
    have hf := hs f List.mem_cons_self
    rw [List.cons_append, coalesce_cons]
    cases hc : coalesce (s ++ [(l, d)]) with
    | nil =>
      rw [hc] at he
      simp at he
    | cons g t =>
      obtain ⟨l', x⟩ := g
      rw [hc] at he
      by_cases hl : f.1 = l'
      · simp only [merge, hl, if_true]
        rcases List.mem_cons.mp he with rfl | he
        · exact ⟨(l', f.2 + x), List.mem_cons_self, by show d ≤ f.2 + x; omega⟩
        · exact ⟨e, List.mem_cons_of_mem _ he, hd⟩
      · simp only [merge, hl, if_false]
        exact ⟨e, List.mem_cons_of_mem _ he, hd⟩

/-- **The serial branch of `get_data`**: the bytes in order, or the failure
    value; what is left of the last space is pushed back. -/
theorem getSerial_bytes (hU : Uart remote) {fs : List UartByte} {idle : Int}
    (hbits : remote.bits = (fs.length * remote.bitsInByte : Nat))
    (hv : ∀ f ∈ fs, f.value.toNat < 2 ^ remote.bitsInByte) (hidle : 0 < idle ∧ idle ≤ PULSE_MASK)
    (hgap : expectAtLeast remote idle gap = true) (hextra : w.extra = [])
    (hb : View w (coalesce (uart remote fs ++ [(.space, idle)])) 0 0 b) {fuel : Nat}
    (hfuel : fs.length * (serialBits remote + 2) < fuel) :
    ((∃ f ∈ fs, Bad remote f) → ∃ b', getSerial fuel remote remote.bits b = some (irFail, b')) ∧
    ((∀ f ∈ fs, ¬ Bad remote f) → ∃ b' b'', getSerial fuel remote remote.bits b =
        some (fs.foldl (fun c f => shiftIn remote.bitsInByte c f.value) 0, b') ∧
      b'.pendingp = 0 ∧ getGap remote gap b' = (true, b'')) := by
  have hbase := hU.base
  have hwidth := hU.width
  obtain ⟨h5, h9⟩ := hU.byte
  have hcfg := serialConfig_configured remote remote.bits
  have hcount := serialConfig_bits hU hbits
  have hv₀ := hb.deferPulse (serialBase remote)
  have hspace : ((setPendingPulse (serialBase remote) b).pendingp == 0) = false := by
    rw [hv₀.pendingp]
    simpa using Int.ne_of_gt hbase
  unfold getSerial
  dsimp only
  rw [hcfg.base, hspace]
  cases fs with
  | nil =>
    refine ⟨fun ⟨f, hf, _⟩ => by simp at hf, fun _ => ?_⟩
    obtain ⟨n, rfl⟩ : ∃ n, fuel = n + 1 := ⟨fuel - 1, by omega⟩
    have hdone : ¬ ((0 : Nat) : Int) < (serialConfig remote remote.bits).bits := by
      rw [hcount]
      simp
    rw [serialLoop, if_neg (by simpa using hdone)]
    have hL : Listen (· = ·) w [(.space, idle)] [] 0 0 [(.space, idle)]
        (setPendingSpace 0 (setPendingPulse 0 (setPendingPulse (serialBase remote) b))) :=
      ⟨(hv₀.deferPulse 0).deferSpace 0, .nil⟩
    obtain ⟨b'', hget, -⟩ := hL.getGap (Int.le_refl 0) (by rw [Int.zero_add]; exact hgap)
    exact ⟨_, b'', rfl, rfl, hget⟩
  | cons f fs =>
    have hroom : (0 + fs.length) * remote.bitsInByte + serialBits remote ≤ 64 := by
      have hs : serialBits remote ≤ remote.bitsInByte + 1 := by
        unfold serialBits
        split <;> omega
      have hm : (f :: fs).length * remote.bitsInByte =
          fs.length * remote.bitsInByte + remote.bitsInByte := by
        rw [List.length_cons, Nat.succ_mul]
      rw [Nat.zero_add]
      omega
    have hall : (((0 + fs.length) * serialBits remote + serialBits remote : Nat) : Int) ≤
        (serialConfig remote remote.bits).bits := by
      rw [hcount, List.length_cons, Nat.succ_mul, Nat.zero_add]
    obtain ⟨hbad, hgood⟩ := serial_bytes hU hcfg hidle.1 f fs hv hroom hall
      (s := { buf := setPendingPulse (serialBase remote) b }) (q := 0)
      ⟨by simp, by simp, rfl, rfl, rfl, rfl, hv₀⟩
    rw [List.length_cons] at hfuel
    obtain ⟨n, rfl⟩ : ∃ n, fuel = n + 1 + (fs.length + 1) * (serialBits remote + 2) :=
      ⟨fuel - (fs.length + 1) * (serialBits remote + 2) - 1, by omega⟩
    constructor
    · intro h
      obtain ⟨s', hloop⟩ := hbad h
      rw [hloop]
      exact ⟨_, rfl⟩
    · intro h
      obtain ⟨s', hloop, hcode, hrec, hstop, hview, hgapd⟩ := hgood h
      have hdone : ¬ ((s'.received : Int) < (serialConfig remote remote.bits).bits ∨
          s'.stopBit = true) := by
        rw [hstop, hcount, hrec, List.length_cons, Nat.succ_mul, Nat.zero_add]
        simp
      rw [hloop, serialLoop, if_neg hdone]
      dsimp only
      rw [hcode]
      have htape : w.tape ≠ [] := by
        obtain ⟨past, ht, -⟩ := hb.suffix
        rw [ht]
        intro hnil
        have hc := (List.append_eq_nil_iff.mp hnil).2
        rw [List.map_eq_nil_iff, coalesce_eq_nil] at hc
        simp at hc
      by_cases he : expect remote (serialStop remote + idle) (serialStop remote) = true
      · rw [if_pos he] at hgapd
        rw [hgapd, if_neg (by simp)]
        obtain ⟨b'', hget⟩ := ((hview.deferPulse 0).deferSpace 0).getGap_open hextra
        exact ⟨_, b'', rfl, rfl, hget⟩
      · rw [if_neg he] at hgapd
        have hne : idle ≠ 0 := Int.ne_of_gt hidle.1
        rw [hgapd, if_pos hne]
        obtain ⟨b'', hget⟩ := hview.getGap_pushed htape hidle hgap
        exact ⟨_, b'', rfl, rfl, hget⟩

end Frame

/-- A receiver of samples that expects a data frame behind a space of `g`. -/
structure Awaiting (env : DecodeEnv) (remote : IrRemote) (g : Int) : Prop where
  mode : isSampleMode env.recMode = true
  synced : Synced env.lastRemote g
  noRepeat : (hasRepeat remote && env.lastIsRemote) = false
  toggle : env.lastRemote = none ∨ remote.toggleMask = 0

theorem Fresh.awaiting {env : DecodeEnv} (h : Fresh env) (remote : IrRemote) (g : Int) :
    Awaiting env remote g :=
  ⟨h.mode, h.synced g, by rw [h.lastIsRemote, Bool.and_false], .inl h.lastRemote⟩

section Decode

variable {remote : IrRemote}

theorem length_uart (remote : IrRemote) (fs : List UartByte) :
    (uart remote fs).length = fs.length * (serialBits remote + 2) := by
  induction fs with
  | nil => simp [uart]
  | cons f fs ih =>
    rw [uart_cons, List.length_append, ih, List.length_cons, Nat.succ_mul, uartByte]
    simp [length_uartBits]
    omega

/-- A serial remote has no other protocol. -/
theorem Uart.others (hU : Uart remote) :
    ¬ isRaw remote = true ∧ ¬ isRcmm remote = true ∧ ¬ isGrundig remote = true := by
  have hp : WinLirc.protocol remote = SERIAL := by simpa [isSerial] using hU.protocol
  obtain ⟨h1, -, h2, -, h3, -⟩ := protocol_cases remote SERIAL hp
  rw [h1, h2, h3]
  decide

/-- The values of a serial frame: its code is all it has. -/
theorem Uart.frame_decoded (hU : Uart remote) {fuel : Nat} {b b₁ b₂ : Rbuf} {code : IrCode}
    (hget : getSerial fuel remote remote.bits b = some (code, b₁)) (hne : code ≠ irFail)
    (hpp : b₁.pendingp = 0) (hgap : getGap remote (minGap remote) b₁ = (true, b₂)) :
    decodeFrame fuel false remote b = some (some (0, code, 0), remote, b₂) := by
  obtain ⟨-, hrcmm, hgrundig⟩ := hU.others
  have hdata : getData fuel remote remote.bits remote.preDataBits b =
      some (code, remote, b₁) := by
    rw [getData, if_neg hrcmm, if_neg hgrundig, if_pos hU.protocol, hget]
    rfl
  have hlead : getLead remote b = (true, b) := by rw [getLead, if_pos hU.lead]
  have htrail : getTrail remote b₁ = (true, b₁) := by
    unfold getTrail
    simp [hU.trail, hpp]
  have hafter : gapAfterFrame remote b₁.sum = minGap remote := by
    rw [gapAfterFrame, if_neg hrcmm, if_neg (by rw [hU.const]; simp)]
  unfold decodeFrame
  rw [hlead]
  simp only [hU.pre, hdata, hU.post, hU.foot, Bool.false_eq_true, if_false, false_and, hne, htrail,
    Bool.false_and, hafter, hgap]

theorem Uart.frame_rejected (hU : Uart remote) {fuel : Nat} {b b₁ : Rbuf}
    (hget : getSerial fuel remote remote.bits b = some (irFail, b₁)) :
    decodeFrame fuel false remote b = some (none, remote, b₁) := by
  obtain ⟨-, hrcmm, hgrundig⟩ := hU.others
  have hdata : getData fuel remote remote.bits remote.preDataBits b =
      some (irFail, remote, b₁) := by
    rw [getData, if_neg hrcmm, if_neg hgrundig, if_pos hU.protocol, hget]
    rfl
  have hlead : getLead remote b = (true, b) := by rw [getLead, if_pos hU.lead]
  unfold decodeFrame
  rw [hlead]
  simp only [hU.pre, hdata, Bool.false_eq_true, if_false, false_and, if_true]

theorem foldl_shiftIn_lt {k : Nat} (fs : List UartByte) {c : IrCode} {a : Nat}
    (hc : c.toNat < 2 ^ a) (hv : ∀ f ∈ fs, f.value.toNat < 2 ^ k) :
    (fs.foldl (fun c f => shiftIn k c f.value) c).toNat < 2 ^ (a + fs.length * k) := by
  induction fs generalizing c a with
  | nil => simpa using hc
  | cons f fs ih =>
    have h := ih (shiftIn_lt hc (hv f List.mem_cons_self)) fun g hg => hv g (List.mem_cons_of_mem f hg)
    rw [List.length_cons, Nat.succ_mul, List.foldl_cons, Nat.add_comm (fs.length * k), ← Nat.add_assoc]
    exact h

end Decode

/-- **Serial frames are decoded**: the bytes in order; and rejected if a parity
    bit is wrong that the remote looks at. -/
theorem serial_decoded (fuel : Nat) (remote : IrRemote) (fs : List UartByte) (env : DecodeEnv)
    (b : Rbuf) (g₀ idle : Int) (hU : Uart remote)
    (hbits : remote.bits = (fs.length * remote.bitsInByte : Nat))
    (hv : ∀ f ∈ fs, f.value.toNat < 2 ^ remote.bitsInByte) (hidle : 0 < idle)
    (hgap : expectAtLeast remote idle (minGap remote) = true) (hg₀ : 0 < g₀ ∧ g₀ ≤ PULSE_MASK)
    (hmask : ∀ e ∈ coalesce (uart remote fs ++ [(.space, idle)]), e.2 ≤ PULSE_MASK)
    (henv : Awaiting env remote g₀)
    (hb : b.data ++ b.input =
      g₀ :: (coalesce (uart remote fs ++ [(.space, idle)])).map sample)
    (hcap : b.data.length ≤ RBUF_SIZE) (hfuel : fs.length * (serialBits remote + 2) < fuel) :
    ((∀ f ∈ fs, f.wrong = false) → ∃ d b', receiveDecode fuel env remote b =
        some (some d, remote, b') ∧ d.pre = 0 ∧ d.post = 0 ∧
      d.code = fs.foldl (fun c f => shiftIn remote.bitsInByte c f.value) 0) ∧
    (remote.parity ≠ IR_PARITY_NONE → (∃ f ∈ fs, f.wrong = true) →
      ∃ b', receiveDecode fuel env remote b = some (none, remote, b')) := by
  obtain ⟨hraw, -⟩ := hU.others
  have hpos : Positive (uart remote fs ++ [(.space, idle)]) :=
    (hU.positive fs).append (positive_cons hidle positive_nil)
  have hsound : Sound ((.space, g₀) :: coalesce (uart remote fs ++ [(.space, idle)])) := by
    intro e he
    rcases List.mem_cons.mp he with rfl | he
    · exact hg₀
    · exact ⟨coalesce_pos hpos e he, hmask e he⟩
  have hroom : (coalesce (uart remote fs ++ [(.space, idle)])).length + 1 ≤ RBUF_SIZE := by
    have h1 := length_coalesce_le (uart remote fs ++ [(Level.space, idle)])
    have h2 := hU.width
    obtain ⟨h5, h9⟩ := hU.byte
    have h3 : fs.length * 5 ≤ fs.length * remote.bitsInByte := Nat.mul_le_mul_left _ h5
    have h4 : serialBits remote ≤ 10 := by
      unfold serialBits
      split <;> omega
    have h5 : fs.length * (serialBits remote + 2) ≤ fs.length * 12 :=
      Nat.mul_le_mul_left _ (by omega)
    rw [List.length_append, length_uart] at h1
    simp only [List.length_cons, List.length_nil] at h1
    unfold RBUF_SIZE
    omega
  have hmaskIdle : idle ≤ PULSE_MASK := by
    obtain ⟨e, he, hle⟩ := exists_ge_coalesce (l := .space) (d := idle) (hU.positive fs)
    exact Int.le_trans hle (hmask e he)
  -- the space in front
  obtain ⟨b₁, e₁, hv₁⟩ := (View.start (isBiphase remote)
    (by rw [hb, List.append_nil]; rfl) hroom hcap hsound).sync henv.synced henv.toggle
  generalize hb₂ : ({ b₁ with sum := 0 } : Rbuf) = b₂ at *
  have hfront : decodeFront env remote b = (.frame g₀ false, remote, b₂) := by
    unfold decodeFront
    simp only [e₁, if_neg (Int.ne_of_gt hg₀.1), henv.noRepeat, Bool.false_eq_true, if_false,
      frontHeader, hU.header]
  have hcode : env.recMode ≠ LIRC_MODE_LIRCCODE := by
    intro h
    have hmode := henv.mode
    rw [h] at hmode
    simp [isSampleMode, LIRC_MODE_LIRCCODE, LIRC_MODE_MODE2, LIRC_MODE_PULSE, LIRC_MODE_RAW] at hmode
  obtain ⟨hbad, hgood⟩ := getSerial_bytes hU hbits hv ⟨hidle, hmaskIdle⟩ hgap rfl hv₁ hfuel
  unfold receiveDecode
  rw [if_pos henv.mode, hfront]
  dsimp only
  unfold decodeRest
  rw [if_neg hraw, if_neg hcode]
  constructor
  · intro hall
    obtain ⟨b₃, b₄, hget, hpp, hgap'⟩ := hgood fun f hf hbadf => by
      have hw := hbadf.2
      rw [hall f hf] at hw
      exact Bool.false_ne_true hw
    have hlt := foldl_shiftIn_lt (a := 0) (c := 0) fs (by simp) hv
    have hw := hU.width
    rw [hU.frame_decoded hget (ne_allOnes_of_lt hlt (by omega)) hpp hgap']
    exact ⟨_, b₄, rfl, rfl, rfl, rfl⟩
  · rintro hp ⟨f, hf, hw⟩
    obtain ⟨b₃, hget⟩ := hbad ⟨f, hf, hp, hw⟩
    rw [hU.frame_rejected hget]
    exact ⟨b₃, rfl⟩

/-- A serial remote of 1200 baud, eight data bits and even parity. -/
def serialRemote : IrRemote :=
  { name := "serial", flags := SERIAL, bits := 8, eps := 10, aeps := 100, pzero := 833,
    sone := 833, gap := 20000, baud := 1200, bitsInByte := 8, parity := IR_PARITY_EVEN,
    stopBits := 2 }

theorem uartRemote_serialRemote : UartRemote serialRemote :=
  ⟨by decide, by decide, by decide, by decide, by decide, .inr (.inl rfl), .inl rfl, by decide,
    rfl, by decide, by decide, rfl, by decide, by decide, by decide, by decide, by decide⟩

/-- One byte is decoded. -/
theorem serial_decoded_serialRemote :
    ∃ d b', receiveDecode 12 {} serialRemote { input := 20000 ::
        (coalesce (uart serialRemote [⟨0x41, false⟩] ++ [(.space, 30000)])).map sample } =
        some (some d, serialRemote, b') ∧ d.pre = 0 ∧ d.post = 0 ∧ d.code = 0x41 :=
  (serial_decoded 12 serialRemote [⟨0x41, false⟩] {} _ 20000 30000
    ⟨uartRemote_serialRemote, .inl (by decide)⟩ rfl (by decide) (by decide) (by decide)
    ⟨by decide, by decide⟩ (by decide)
    (Fresh.awaiting ⟨by decide, rfl, rfl⟩ serialRemote 20000) rfl (by decide) (by decide)).1
    (by decide)

/-- The byte is sent with its parity bit and the idle space behind it is long
    enough, yet it is not decoded. -/
def Undecoded (remote : IrRemote) (idle : Int) : Prop :=
  UartRemote remote ∧ remote.bits = remote.bitsInByte ∧ minGap remote ≤ idle ∧ Fresh {} ∧
  ∃ b', receiveDecode 100 {} remote { input := 20000 ::
    (coalesce (uart remote [⟨0x41, false⟩] ++ [(.space, idle)])).map sample } =
    some (none, remote, b')

/-- **Two waveforms that are not decoded**: one under tolerances below 0, which
    accept no bit for itself; and one whose idle space does not fit a sample. -/
theorem serial_decoded_limits :
    Undecoded { serialRemote with eps := -1, aeps := -1 } 30000 ∧
    Undecoded serialRemote 0x01000000 := by
  constructor
  · exact ⟨⟨by decide, by decide, by decide, by decide, by decide, .inr (.inl rfl), .inl rfl,
        by decide, rfl, by decide, by decide, rfl, by decide, by decide, by decide, by decide,
        by decide⟩, rfl, by decide, ⟨by decide, rfl, rfl⟩, _, rfl⟩
  · exact ⟨uartRemote_serialRemote, rfl, by decide, ⟨by decide, rfl, rfl⟩, _, rfl⟩

end WinLirc
