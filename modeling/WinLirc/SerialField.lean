/-
  File:      WinLirc/SerialField.lean
  Subject:   A serial field on the recorded line, and what is left of the space
             behind its last stop time.

  `Spells` says of the samples alone that they spell a field: a start pulse in
  front of the bits of each byte, the levels cut into bits by the bit times and
  the tolerances of the remote, the parity, and the stop time at the next
  space. It knows of no code, of no buffer and of nothing pushed back.

  * `LeavesIdle`: the field is spelled, and behind the last stop time the space
    goes on, other than it is recorded.
  * `leavesIdle_of_rewrites`, `rewrites_of_leavesIdle`: a call of `get_data` that
    ends changes the recorded samples exactly then. A turn of the loop is a piece
    of the line (`OnLine.step`), and each piece a turn (`Spells.loop`).
-/
import WinLirc.Termination

namespace WinLirc

/-! ## 1. The line -/

/-- What the line owes the receiver: a time in front of the bits; bits; or,
    behind a byte, the stop time, which begins with the next space. -/
inductive Due where
  | lead (time : Int)
  | bits
  | stop
  deriving DecidableEq, Repr

/-- A place on the line: the level expected there, the length of the level that
    is being cut and what is left of it, the sample behind it; the bytes before
    it and the bits of the next one; and what was left behind the last stop
    time. -/
structure LinePlace where
  due : Due
  space : Bool
  length : Int := 0
  left : Int := 0
  next : Int
  bytes : Nat := 0
  byte : List Bool := []
  idle : Int := 0
  deriving DecidableEq, Repr

/-- The level recorded at `next`, 0 where there is another or none. -/
def levelAt (frame : List Int) (space : Bool) (next : Int) : Int :=
  let sample := if 0 ≤ next then frame.getD next.toNat 0 else 0
  if next < frame.length then
    if space then if isSpace sample then sample else 0
    else if isPulse sample then maskPulse sample else 0
  else 0

/-- What is left of a level when a time is taken off. -/
def slice (remote : IrRemote) (left time : Int) : Option Int :=
  if expect remote left time then some 0 else if left > time then some (left - time) else none

/-- The time of a bit at a level. -/
def bitTime (remote : IrRemote) (space : Bool) : Int := if space then remote.sone else remote.pzero

/-- A level is long enough for a bit. -/
def holdsBit (remote : IrRemote) (space : Bool) (left : Int) : Prop :=
  left > bitTime remote space ∨ expect remote left (bitTime remote space) = true

/-- What a bit leaves of its level. -/
def behindBit (remote : IrRemote) (space : Bool) (left : Int) : Int :=
  left - (if bitTime remote space > left then left else bitTime remote space)

def leadDue (time : Int) : Due := if 0 < time then .lead time else .bits

namespace LinePlace

variable (remote : IrRemote) (cfg : SerialConfig) (frame : List Int)

/-- The bits up to this place. -/
def received (p : LinePlace) : Nat :=
  p.bytes * lineBits remote cfg + p.byte.length

/-- The field goes on. -/
def Open (p : LinePlace) : Prop := (p.received remote cfg : Int) < cfg.bits ∨ p.due = .stop

/-- Where nothing is left of a level the next one is cut. Behind the last
    sample, the space of the last byte is as long as it can be. -/
def reach (p : LinePlace) : LinePlace :=
  if p.left = 0 then
    let level := levelAt frame p.space p.next
    let length :=
      if level = 0 ∧ p.space ∧
          (p.received remote cfg + lineBits remote cfg : Nat) ≥ cfg.bits then
        cfg.maxSpace
      else level
    { p with
      length := length, left := length,
      next := if p.next < frame.length then p.next + 1 else p.next }
  else p

/-- `left` is left of the level; where it is used up, the other one follows. -/
def turn (left : Int) (p : LinePlace) : LinePlace :=
  { p with left := left, space := if left = 0 then !p.space else p.space }

/-- The field goes on at `q`, where something is left of a level. -/
structure Reaches (p q : LinePlace) : Prop where
  goesOn : p.Open remote cfg
  eq : q = p.reach remote cfg frame
  some : q.left ≠ 0

/-- Bits are due: none in front of the first, nor the stop time at a space. -/
def BitsDue (p : LinePlace) : Prop :=
  p.due = .bits ∨ (p.due = .stop ∧ (p.space = true → cfg.stop = 0))

end LinePlace

open LinePlace

/-- **The line spells a serial field** from a place on; at its end `idle` is
    left behind the last stop time, and `next` is the sample behind it. -/
inductive Spells (remote : IrRemote) (cfg : SerialConfig) (frame : List Int) :
    LinePlace → Int → Int → Prop where
  | field {p : LinePlace} (done : ¬ p.Open remote cfg) : Spells remote cfg frame p p.idle p.next
  | lead {p q : LinePlace} {time left idle next : Int} (reached : p.Reaches remote cfg frame q)
      (due : p.due = .lead time) (cut : slice remote q.left time = some left)
      (rest : Spells remote cfg frame ({ q with due := .bits }.turn left) idle next) :
      Spells remote cfg frame p idle next
  | stop {p q : LinePlace} {left idle next : Int} (reached : p.Reaches remote cfg frame q)
      (due : p.due = .stop) (space : q.space = true) (pos : 0 < cfg.stop)
      (cut : slice remote q.left cfg.stop = some left)
      (rest : Spells remote cfg frame
        { q with due := leadDue cfg.base, space := false, left := 0, idle := left } idle next) :
      Spells remote cfg frame p idle next
  /-- a bit in front of the last of its byte -/
  | bit {p q : LinePlace} {left idle next : Int} (reached : p.Reaches remote cfg frame q)
      (due : q.BitsDue cfg) (cut : slice remote q.left 0 = some left)
      (holds : holdsBit remote q.space left)
      (inside : q.byte.length + 1 ≠ lineBits remote cfg)
      (rest : Spells remote cfg frame ({ q with byte := q.byte ++ [q.space] }.turn
        (behindBit remote q.space left)) idle next) :
      Spells remote cfg frame p idle next
  /-- the last bit of a byte -/
  | byte {p q : LinePlace} {left idle next : Int} (reached : p.Reaches remote cfg frame q)
      (due : q.BitsDue cfg) (cut : slice remote q.left 0 = some left)
      (holds : holdsBit remote q.space left)
      (last : q.byte.length + 1 = lineBits remote cfg)
      (parity : parityPasses remote (parityOf (q.byte ++ [q.space])))
      (more : ¬ (q.space = true ∧ behindBit remote q.space left = 0))
      (rest : Spells remote cfg frame
        ({ q with due := .stop, bytes := q.bytes + 1, byte := [] }.turn
          (behindBit remote q.space left)) idle next) :
      Spells remote cfg frame p idle next
  /-- what is left of a level is too short for a bit -/
  | short {p q : LinePlace} {left idle next : Int} (reached : p.Reaches remote cfg frame q)
      (due : q.BitsDue cfg) (cut : slice remote q.left 0 = some left)
      (holds : ¬ holdsBit remote q.space left) (cutBefore : left ≠ q.length)
      (rest : Spells remote cfg frame (q.turn 0) idle next) :
      Spells remote cfg frame p idle next

/-! ## 2. The loop on the line -/

/-- The pending parts of the buffer are what the line owes. -/
def Owes (cfg : SerialConfig) (space : Bool) (b : Rbuf) : Due → Prop
  | .lead time => 0 < time ∧ (if space then b.pendings else b.pendingp) = time
  | .bits => b.pendingp = 0 ∧ b.pendings = 0
  | .stop => b.pendingp = 0 ∧ b.pendings = cfg.stop

/-- **The loop stands at a place of the line**, whatever code it has made of
    the bits. -/
structure OnLine (remote : IrRemote) (cfg : SerialConfig) (frame : List Int) (s : SerialState)
    (p : LinePlace) : Prop where
  data : s.buf.data = frame
  input : s.buf.input = []
  space : s.space = p.space
  delta : s.delta = p.left
  origdelta : s.origdelta = p.length
  rptr : s.buf.rptr = p.next
  received : s.received = p.received remote cfg
  parity : s.parity = parityOf p.byte
  inside : p.byte.length < lineBits remote cfg ∨ lineBits remote cfg = 0
  gapDelta : s.gapDelta = p.idle
  stopBit : s.stopBit = true ↔ p.due = .stop
  owes : Owes cfg s.space s.buf p.due

section Turns

variable {remote : IrRemote} {cfg : SerialConfig} {frame : List Int} {s : SerialState}
  {p q : LinePlace}

/-- A level is read from the recorded samples. -/
theorem getNext_levelAt {b : Rbuf} (hin : b.input = []) (m : Int) (space : Bool) :
    ∃ b', (if space then getNextSpace m b else getNextPulse m b) = (levelAt b.data space b.rptr, b') ∧
      b'.data = b.data ∧ b'.input = [] ∧
      b'.rptr = (if b.rptr < b.data.length then b.rptr + 1 else b.rptr) ∧
      b'.pendingp = b.pendingp ∧ b'.pendings = b.pendings := by
  have hread : ∃ b', getNextRecBuffer m b =
      (if b.rptr < b.data.length then b.sample b.rptr else 0, b') ∧
      b'.data = b.data ∧ b'.input = [] ∧
      b'.rptr = (if b.rptr < b.data.length then b.rptr + 1 else b.rptr) ∧
      b'.pendingp = b.pendingp ∧ b'.pendings = b.pendings := by
    unfold getNextRecBuffer Rbuf.wptr
    by_cases hlt : b.rptr < b.data.length
    · rw [if_pos hlt, if_pos hlt, if_pos hlt]
      exact ⟨_, rfl, rfl, hin, rfl, rfl, rfl⟩
    · rw [if_neg hlt, if_neg hlt, if_neg hlt, hin]
      split
      · exact ⟨_, rfl, rfl, hin, rfl, rfl, rfl⟩
      · exact ⟨_, rfl, rfl, rfl, rfl, rfl, rfl⟩
  obtain ⟨b', hread, hrest⟩ := hread
  refine ⟨b', ?_, hrest⟩
  unfold getNextSpace getNextPulse levelAt
  rw [hread]
  by_cases hlt : b.rptr < b.data.length
  · simp only [if_pos hlt]
    have hsample : b.sample b.rptr = if 0 ≤ b.rptr then b.data.getD b.rptr.toNat 0 else 0 := rfl
    rw [← hsample]
    generalize b.sample b.rptr = x
    by_cases hx : x = 0
    · subst hx
      cases space <;> rfl
    · simp only [if_neg hx]
      cases space
      · cases hp : isPulse x <;> simp
      · cases hp : isSpace x <;> simp
  · simp only [if_neg hlt, if_pos]
    cases space <;> rfl

/-- **Reading** comes to the same level. -/
theorem OnLine.read (h : OnLine remote cfg frame s p) :
    OnLine remote cfg frame (serialRead remote cfg s) (p.reach remote cfg frame) := by
  unfold serialRead LinePlace.reach
  rw [h.delta]
  split
  · obtain ⟨b', hread, hdata, hinput, hrptr, hpp, hps⟩ :=
      getNext_levelAt h.input (if s.space then cfg.maxSpace else cfg.maxPulse) s.space
    have hread' : (if s.space then getNextSpace cfg.maxSpace s.buf
        else getNextPulse cfg.maxPulse s.buf) = (levelAt frame p.space p.next, b') := by
      rw [← h.data, ← h.rptr, ← h.space, ← hread]
      cases s.space <;> rfl
    rw [hread']
    dsimp only
    rw [h.space, h.received, Nat.add_assoc]
    exact {
      data := hdata.trans h.data
      input := hinput
      space := rfl
      delta := rfl
      origdelta := rfl
      rptr := by rw [hrptr, h.data, h.rptr]
      received := rfl
      parity := h.parity
      inside := h.inside
      gapDelta := h.gapDelta
      stopBit := h.stopBit
      owes := by
        have howes := h.owes
        rw [h.space] at howes
        revert howes
        unfold Owes
        dsimp only
        cases p.due with
        | lead time => rw [hpp, hps]; exact id
        | bits => rw [hpp, hps]; exact id
        | stop => rw [hpp, hps]; exact id }
  · exact h

/-- The part of a turn that takes a bit. -/
def serialBit (remote : IrRemote) (cfg : SerialConfig) (s : SerialState) : Bool × SerialState :=
  let expecting := bitTime remote s.space
  match (if s.delta > expecting ∨ expect remote s.delta expecting then
      serialByte remote cfg { s with
        delta := s.delta - (if expecting > s.delta then s.delta else expecting)
        received := s.received + 1
        code := s.code <<< 1 ||| (if s.space then 1 else 0)
        parity := s.parity ^^ s.space }
    else if s.delta = s.origdelta then (false, s)
    else (true, { s with delta := 0 }) : Bool × SerialState) with
  | (false, s) => (false, s)
  | (true, s) => (true, s.turned)

/-- **A turn** behind its read: a slice of the level, then what is due. -/
theorem serialStep_read {s1 : SerialState} (h : serialRead remote cfg s = s1) (h0 : s1.delta ≠ 0) :
    serialStep remote cfg s =
      match slice remote s1.delta s1.pending with
      | none => (false, s1)
      | some left =>
        if s1.pending > 0 then
          if s1.stopBit then
            (true, { s1 with
              gapDelta := left, delta := 0, stopBit := false, space := false
              buf := setPendingSpace 0 (setPendingPulse cfg.base s1.buf) })
          else
            (true, SerialState.turned { s1 with
              delta := left, buf := setPendingSpace 0 (setPendingPulse 0 s1.buf) })
        else serialBit remote cfg { s1 with delta := left } := by
  unfold serialStep
  rw [h]
  dsimp only
  rw [if_neg h0]
  rfl

/-- Without a level there is no turn. -/
theorem serialStep_none (h : (serialRead remote cfg s).delta = 0) :
    serialStep remote cfg s = (false, serialRead remote cfg s) := by
  unfold serialStep
  dsimp only
  rw [if_pos h]

theorem OnLine.pending_lead (h : OnLine remote cfg frame s p) {time : Int} (hdue : p.due = .lead time) :
    0 < time ∧ s.pending = time ∧ ¬ s.stopBit = true := by
  have howes := h.owes
  rw [hdue] at howes
  refine ⟨howes.1, howes.2, fun hstop => ?_⟩
  have hstop := h.stopBit.mp hstop
  rw [hdue] at hstop
  exact Due.noConfusion hstop

theorem OnLine.pending_stop (h : OnLine remote cfg frame s p) (hdue : p.due = .stop)
    (hspace : p.space = true) : s.pending = cfg.stop ∧ s.stopBit = true := by
  have howes := h.owes
  rw [hdue] at howes
  refine ⟨?_, h.stopBit.mpr hdue⟩
  unfold SerialState.pending
  rw [h.space, if_pos hspace]
  exact howes.2

theorem OnLine.pending_bits (h : OnLine remote cfg frame s p) (hdue : p.BitsDue cfg) :
    s.pending = 0 := by
  have howes := h.owes
  unfold SerialState.pending
  rcases hdue with hdue | ⟨hdue, hstop⟩
  · rw [hdue] at howes
    rw [howes.1, howes.2, ite_self]
  · rw [hdue] at howes
    rw [h.space]
    split
    · next hspace => exact howes.2.trans (hstop hspace)
    · exact howes.1

theorem reach_due (p : LinePlace) : (p.reach remote cfg frame).due = p.due := by
  unfold LinePlace.reach
  split <;> rfl

/-- The time in front of the bits is taken off. -/
theorem OnLine.lead (h : OnLine remote cfg frame s p) (hq : p.Reaches remote cfg frame q)
    {time left : Int} (hdue : p.due = .lead time) (hcut : slice remote q.left time = some left) :
    ∃ s', serialStep remote cfg s = (true, s') ∧
      OnLine remote cfg frame s' ({ q with due := .bits }.turn left) := by
  have h1 := h.read
  obtain ⟨-, rfl, hsome⟩ := hq
  obtain ⟨hpos, hpending, hstop⟩ := h1.pending_lead ((reach_due p).trans hdue)
  rw [serialStep_read rfl (by rw [h1.delta]; exact hsome), h1.delta, hpending, hcut]
  dsimp only
  rw [if_pos hpos, if_neg hstop]
  refine ⟨_, rfl, ?_⟩
  exact {
    data := h1.data
    input := h1.input
    space := by rw [← h1.space]; rfl
    delta := rfl
    origdelta := h1.origdelta
    rptr := h1.rptr
    received := h1.received
    parity := h1.parity
    inside := h1.inside
    gapDelta := h1.gapDelta
    stopBit := ⟨fun h => absurd h hstop, fun h => Due.noConfusion h⟩
    owes := ⟨rfl, rfl⟩ }

/-- The stop time is taken off; what is left of the space is pushed aside. -/
theorem OnLine.stop (h : OnLine remote cfg frame s p) (hq : p.Reaches remote cfg frame q)
    (hbase : 0 ≤ cfg.base) {left : Int} (hdue : p.due = .stop) (hspace : q.space = true)
    (hpos : 0 < cfg.stop) (hcut : slice remote q.left cfg.stop = some left) :
    ∃ s', serialStep remote cfg s = (true, s') ∧
      OnLine remote cfg frame s'
        { q with due := leadDue cfg.base, space := false, left := 0, idle := left } := by
  have h1 := h.read
  obtain ⟨-, rfl, hsome⟩ := hq
  obtain ⟨hpending, hstop⟩ := h1.pending_stop ((reach_due p).trans hdue) hspace
  rw [serialStep_read rfl (by rw [h1.delta]; exact hsome), h1.delta, hpending, hcut]
  dsimp only
  rw [if_pos hpos, if_pos hstop]
  refine ⟨_, rfl, ?_⟩
  exact {
    data := h1.data
    input := h1.input
    space := rfl
    delta := rfl
    origdelta := h1.origdelta
    rptr := h1.rptr
    received := h1.received
    parity := h1.parity
    inside := h1.inside
    gapDelta := rfl
    stopBit := by
      refine ⟨fun h => absurd h Bool.false_ne_true, fun h => ?_⟩
      unfold leadDue at h
      split at h
      · exact Due.noConfusion h
      · exact Due.noConfusion h
    owes := by
      show Owes cfg false _ (leadDue cfg.base)
      unfold leadDue
      split
      · next hlead => exact ⟨hlead, rfl⟩
      · next hno => exact ⟨Int.le_antisymm (Int.not_lt.mp hno) hbase, rfl⟩ }

/-- Bits are taken where no other time is due. -/
theorem OnLine.bits (h : OnLine remote cfg frame s p) (hq : p.Reaches remote cfg frame q)
    (hdue : q.BitsDue cfg) : serialStep remote cfg s =
      match slice remote q.left 0 with
      | none => (false, serialRead remote cfg s)
      | some left => serialBit remote cfg { serialRead remote cfg s with delta := left } := by
  have h1 := h.read
  obtain ⟨-, rfl, hsome⟩ := hq
  rw [serialStep_read rfl (by rw [h1.delta]; exact hsome), h1.delta, h1.pending_bits hdue]
  rfl

/-- Where bits are due, what the line owes is the same at both levels. -/
theorem Owes.level {space : Bool} {b : Rbuf} (h : Owes cfg space b q.due) (hdue : q.BitsDue cfg)
    (space' : Bool) : Owes cfg space' b q.due := by
  rcases hdue with hdue | ⟨hdue, -⟩
  · rw [hdue] at h ⊢
    exact h
  · rw [hdue] at h ⊢
    exact h

/-- The last bit of a byte, by the number of bits received. -/
theorem OnLine.lastBit (h : OnLine remote cfg frame s p) :
    (s.received + 1) % lineBits remote cfg = 0 ↔ p.byte.length + 1 = lineBits remote cfg := by
  rw [h.received]
  unfold LinePlace.received
  rw [Nat.add_assoc, Nat.mul_comm, Nat.mul_add_mod]
  rcases h.inside with hlt | hzero
  · by_cases hlast : p.byte.length + 1 = lineBits remote cfg
    · rw [hlast, Nat.mod_self]
      exact iff_of_true rfl rfl
    · rw [Nat.mod_eq_of_lt (by omega)]
      exact iff_of_false (by omega) hlast
  · rw [hzero, Nat.mod_zero]

theorem parityOf_append (byte : List Bool) (one : Bool) :
    parityOf (byte ++ [one]) = (parityOf byte ^^ one) := by
  unfold parityOf
  rw [List.foldl_append]
  rfl

/-- The state of the loop behind a bit. -/
def takenBit (remote : IrRemote) (s : SerialState) (left : Int) : SerialState :=
  { s with
    delta := behindBit remote s.space left
    received := s.received + 1
    code := s.code <<< 1 ||| (if s.space then 1 else 0)
    parity := s.parity ^^ s.space }

theorem serialBit_holds {left : Int} (h : holdsBit remote s.space left) :
    serialBit remote cfg { s with delta := left } =
      match serialByte remote cfg (takenBit remote s left) with
      | (false, s) => (false, s)
      | (true, s) => (true, s.turned) := by
  unfold holdsBit at h
  unfold serialBit
  dsimp only
  rw [if_pos h]
  rfl

theorem serialBit_short {left : Int} (h : ¬ holdsBit remote s.space left) :
    serialBit remote cfg { s with delta := left } =
      if left = s.origdelta then (false, { s with delta := left })
      else (true, SerialState.turned { s with delta := 0 }) := by
  unfold holdsBit at h
  unfold serialBit
  dsimp only
  rw [if_neg h]
  by_cases hwhole : left = s.origdelta
  · rw [if_pos hwhole, if_pos hwhole]
  · rw [if_neg hwhole, if_neg hwhole]

/-- The check at the end of a byte. -/
theorem serialByte_inside (h : s.received % lineBits remote cfg ≠ 0) :
    serialByte remote cfg s = (true, s) := by
  unfold lineBits at h
  unfold serialByte
  rw [if_neg h]

theorem serialByte_end (h : s.received % lineBits remote cfg = 0) :
    (parityPasses remote s.parity ∧ ¬ (s.space = true ∧ s.delta = 0) →
      ∃ code : IrCode, serialByte remote cfg s = (true, { s with
        parity := false, code := code, buf := setPendingSpace cfg.stop s.buf, stopBit := true })) ∧
    (¬ (parityPasses remote s.parity ∧ ¬ (s.space = true ∧ s.delta = 0)) →
      (serialByte remote cfg s).1 = false) := by
  unfold lineBits at h
  unfold serialByte
  rw [if_pos h]
  have hparity : ((remote.parity = IR_PARITY_EVEN ∧ s.parity = true) ∨
      (remote.parity = IR_PARITY_ODD ∧ (!s.parity) = true)) ↔ ¬ parityPasses remote s.parity := by
    unfold parityPasses
    cases s.parity <;> simp
  by_cases hpass : parityPasses remote s.parity
  · rw [if_neg (fun hfail => hparity.mp hfail hpass)]
    dsimp only
    by_cases hend : s.space = true ∧ s.delta = 0
    · rw [if_pos hend]
      exact ⟨fun hgood => absurd hend hgood.2, fun _ => rfl⟩
    · rw [if_neg hend]
      exact ⟨fun _ => ⟨_, rfl⟩, fun hbad => absurd ⟨hpass, hend⟩ hbad⟩
  · rw [if_pos (hparity.mpr hpass)]
    exact ⟨fun hgood => absurd hgood.1 hpass, fun _ => rfl⟩

/-- **A bit** in front of the last of its byte. -/
theorem OnLine.bit (h : OnLine remote cfg frame s p) (hq : p.Reaches remote cfg frame q) {left : Int}
    (hdue : q.BitsDue cfg) (hcut : slice remote q.left 0 = some left)
    (hholds : holdsBit remote q.space left) (hinside : q.byte.length + 1 ≠ lineBits remote cfg) :
    ∃ s', serialStep remote cfg s = (true, s') ∧
      OnLine remote cfg frame s' ({ q with byte := q.byte ++ [q.space] }.turn
        (behindBit remote q.space left)) := by
  have h1 := h.read
  have hbits := h.bits hq hdue
  obtain ⟨-, rfl, hsome⟩ := hq
  rw [← h1.space] at hholds
  rw [hbits, hcut]
  dsimp only
  rw [serialBit_holds hholds, serialByte_inside (fun hz => hinside (h1.lastBit.mp hz))]
  refine ⟨_, rfl, ?_⟩
  exact {
    data := h1.data
    input := h1.input
    space := by rw [← h1.space]; rfl
    delta := by rw [← h1.space]; rfl
    origdelta := h1.origdelta
    rptr := h1.rptr
    received := by
      show (serialRead remote cfg s).received + 1 = _
      rw [h1.received]
      unfold LinePlace.received LinePlace.turn
      rw [List.length_append, List.length_singleton, Nat.add_assoc]
    parity := by
      show ((serialRead remote cfg s).parity ^^ (serialRead remote cfg s).space) = _
      rw [h1.parity, h1.space, ← parityOf_append]
      rfl
    inside := by
      rcases h1.inside with hlt | hzero
      · refine .inl ?_
        unfold LinePlace.turn
        rw [List.length_append, List.length_singleton]
        omega
      · exact .inr hzero
    gapDelta := h1.gapDelta
    stopBit := h1.stopBit
    owes := h1.owes.level hdue _ }

/-- **The last bit of a byte.** -/
theorem OnLine.byte (h : OnLine remote cfg frame s p) (hq : p.Reaches remote cfg frame q) {left : Int}
    (hdue : q.BitsDue cfg) (hcut : slice remote q.left 0 = some left)
    (hholds : holdsBit remote q.space left) (hlast : q.byte.length + 1 = lineBits remote cfg)
    (hparity : parityPasses remote (parityOf (q.byte ++ [q.space])))
    (hmore : ¬ (q.space = true ∧ behindBit remote q.space left = 0)) :
    ∃ s', serialStep remote cfg s = (true, s') ∧
      OnLine remote cfg frame s' ({ q with due := .stop, bytes := q.bytes + 1, byte := [] }.turn
        (behindBit remote q.space left)) := by
  have h1 := h.read
  have hbits := h.bits hq hdue
  obtain ⟨-, rfl, hsome⟩ := hq
  rw [← h1.space] at hholds
  rw [hbits, hcut]
  dsimp only
  obtain ⟨hgood, -⟩ := serialByte_end (s := takenBit remote (serialRead remote cfg s) left)
    (h1.lastBit.mpr hlast)
  obtain ⟨code, hbyte⟩ := hgood (by
    show parityPasses remote ((serialRead remote cfg s).parity ^^ (serialRead remote cfg s).space) ∧
      ¬ ((serialRead remote cfg s).space = true ∧
        behindBit remote (serialRead remote cfg s).space left = 0)
    rw [h1.parity, h1.space, ← parityOf_append]
    exact ⟨hparity, hmore⟩)
  rw [serialBit_holds hholds, hbyte]
  refine ⟨_, rfl, ?_⟩
  exact {
    data := h1.data
    input := h1.input
    space := by rw [← h1.space]; rfl
    delta := by rw [← h1.space]; rfl
    origdelta := h1.origdelta
    rptr := h1.rptr
    received := by
      show (serialRead remote cfg s).received + 1 = _
      rw [h1.received]
      unfold LinePlace.received LinePlace.turn
      dsimp only
      rw [Nat.add_assoc, hlast, Nat.succ_mul]
      rfl
    parity := rfl
    inside := .inl (by rw [← hlast]; exact Nat.succ_pos _)
    gapDelta := h1.gapDelta
    stopBit := ⟨fun _ => rfl, fun _ => rfl⟩
    owes := by
      have howes := h1.owes
      refine ⟨?_, rfl⟩
      rcases hdue with hdue | ⟨hdue, -⟩
      · rw [hdue] at howes
        exact howes.1
      · rw [hdue] at howes
        exact howes.1 }

/-- What is too short for a bit is passed over. -/
theorem OnLine.short (h : OnLine remote cfg frame s p) (hq : p.Reaches remote cfg frame q)
    {left : Int} (hdue : q.BitsDue cfg) (hcut : slice remote q.left 0 = some left)
    (hholds : ¬ holdsBit remote q.space left) (hrest : left ≠ q.length) :
    ∃ s', serialStep remote cfg s = (true, s') ∧ OnLine remote cfg frame s' (q.turn 0) := by
  have h1 := h.read
  have hbits := h.bits hq hdue
  obtain ⟨-, rfl, hsome⟩ := hq
  rw [← h1.space] at hholds
  rw [hbits, hcut]
  dsimp only
  rw [serialBit_short hholds, if_neg (by rw [h1.origdelta]; exact hrest)]
  refine ⟨_, rfl, ?_⟩
  exact {
    data := h1.data
    input := h1.input
    space := by
      unfold SerialState.turned LinePlace.turn
      dsimp only
      rw [h1.space]
    delta := rfl
    origdelta := h1.origdelta
    rptr := h1.rptr
    received := h1.received
    parity := h1.parity
    inside := h1.inside
    gapDelta := h1.gapDelta
    stopBit := h1.stopBit
    owes := h1.owes.level hdue _ }

/-- A turn that fails is none. -/
theorem turn_failed {r : Bool × SerialState} {s' : SerialState} (h : r = (true, s')) :
    ¬ r.1 = false := by
  rw [h]
  exact Bool.false_ne_true ∘ Eq.symm

/-- A turn where bits are due. -/
theorem OnLine.bitsStep (h : OnLine remote cfg frame s p) (hq : p.Reaches remote cfg frame q)
    (hdue : q.BitsDue cfg) {s' : SerialState} (hs : serialStep remote cfg s = (true, s')) :
    ∃ p', OnLine remote cfg frame s' p' ∧
      ∀ idle next, Spells remote cfg frame p' idle next → Spells remote cfg frame p idle next := by
  have h1 := h.read
  have hq' : q = p.reach remote cfg frame := hq.eq
  have hturn := h.bits hq hdue
  rw [hs] at hturn
  have hfail := turn_failed hturn.symm
  cases hcut : slice remote q.left 0 with
  | none =>
    rw [hcut] at hfail
    exact absurd rfl hfail
  | some left =>
    rw [hcut] at hfail
    dsimp only at hfail
    have hspace : (serialRead remote cfg s).space = q.space := by rw [hq', h1.space]
    by_cases hholds : holdsBit remote q.space left
    · by_cases hlast : q.byte.length + 1 = lineBits remote cfg
      · by_cases hgood : parityPasses remote (parityOf (q.byte ++ [q.space])) ∧
            ¬ (q.space = true ∧ behindBit remote q.space left = 0)
        · obtain ⟨s'', he, hon⟩ := h.byte hq hdue hcut hholds hlast hgood.1 hgood.2
          obtain rfl : s'' = s' := congrArg Prod.snd (he.symm.trans hs)
          exact ⟨_, hon, fun _ _ => .byte hq hdue hcut hholds hlast hgood.1 hgood.2⟩
        · obtain ⟨-, hbad⟩ := serialByte_end (s := takenBit remote (serialRead remote cfg s) left)
            (h1.lastBit.mpr (hq' ▸ hlast))
          refine absurd ?_ hfail
          rw [serialBit_holds (hspace ▸ hholds)]
          have hfalse := hbad (by
            show ¬ (parityPasses remote
                ((serialRead remote cfg s).parity ^^ (serialRead remote cfg s).space) ∧
              ¬ ((serialRead remote cfg s).space = true ∧
                behindBit remote (serialRead remote cfg s).space left = 0))
            rw [h1.parity, h1.space, ← parityOf_append, ← hq']
            exact hgood)
          generalize serialByte remote cfg (takenBit remote (serialRead remote cfg s) left) = r
            at hfalse
          obtain ⟨ok, s1⟩ := r
          dsimp only at hfalse
          rw [hfalse]
      · obtain ⟨s'', he, hon⟩ := h.bit hq hdue hcut hholds hlast
        obtain rfl : s'' = s' := congrArg Prod.snd (he.symm.trans hs)
        exact ⟨_, hon, fun _ _ => .bit hq hdue hcut hholds hlast⟩
    · by_cases hrest : left = q.length
      · refine absurd ?_ hfail
        rw [serialBit_short (by rw [hspace]; exact hholds),
          if_pos (by rw [h1.origdelta, ← hq']; exact hrest)]
      · obtain ⟨s'', he, hon⟩ := h.short hq hdue hcut hholds hrest
        obtain rfl : s'' = s' := congrArg Prod.snd (he.symm.trans hs)
        exact ⟨_, hon, fun _ _ => .short hq hdue hcut hholds hrest⟩

/-- **A turn of the loop** is one piece of the line. -/
theorem OnLine.step (h : OnLine remote cfg frame s p) (hbase : 0 ≤ cfg.base) (hstop : 0 ≤ cfg.stop)
    (hopen : p.Open remote cfg) {s' : SerialState} (hs : serialStep remote cfg s = (true, s')) :
    ∃ p', OnLine remote cfg frame s' p' ∧
      ∀ idle next, Spells remote cfg frame p' idle next → Spells remote cfg frame p idle next := by
  have h1 := h.read
  obtain ⟨q, hq'⟩ : ∃ q, q = p.reach remote cfg frame := ⟨_, rfl⟩
  have hsome : q.left ≠ 0 := by
    intro hzero
    refine turn_failed hs ?_
    rw [serialStep_none (by rw [h1.delta, ← hq', hzero])]
  have hq : p.Reaches remote cfg frame q := ⟨hopen, hq', hsome⟩
  have hqdue : q.due = p.due := by rw [hq', reach_due]
  have hread := @serialStep_read remote cfg s _ rfl (by rw [h1.delta, ← hq']; exact hsome)
  rw [hs, h1.delta, ← hq'] at hread
  have hfail := turn_failed hread.symm
  cases hdue : p.due with
  | lead time =>
    obtain ⟨-, hpending, -⟩ := h1.pending_lead ((reach_due p).trans hdue)
    rw [hpending] at hfail
    cases hcut : slice remote q.left time with
    | none =>
      rw [hcut] at hfail
      exact absurd rfl hfail
    | some left =>
      obtain ⟨s'', he, hon⟩ := h.lead hq hdue hcut
      obtain rfl : s'' = s' := congrArg Prod.snd (he.symm.trans hs)
      exact ⟨_, hon, fun _ _ => .lead hq hdue hcut⟩
  | bits => exact h.bitsStep hq (.inl (hqdue.trans hdue)) hs
  | stop =>
    by_cases hspace : q.space = true ∧ 0 < cfg.stop
    · obtain ⟨hpending, -⟩ := h1.pending_stop ((reach_due p).trans hdue) (hq' ▸ hspace.1)
      rw [hpending] at hfail
      cases hcut : slice remote q.left cfg.stop with
      | none =>
        rw [hcut] at hfail
        exact absurd rfl hfail
      | some left =>
        obtain ⟨s'', he, hon⟩ := h.stop hq hbase hdue hspace.1 hspace.2 hcut
        obtain rfl : s'' = s' := congrArg Prod.snd (he.symm.trans hs)
        exact ⟨_, hon, fun _ _ => .stop hq hdue hspace.1 hspace.2 hcut⟩
    · refine h.bitsStep hq (.inr ⟨hqdue.trans hdue, fun htrue => ?_⟩) hs
      have hno : ¬ 0 < cfg.stop := fun hpos => hspace ⟨htrue, hpos⟩
      omega

/-- The field goes on as long as the loop does. -/
theorem OnLine.open_iff (h : OnLine remote cfg frame s p) :
    ((s.received : Int) < cfg.bits ∨ s.stopBit = true) ↔ p.Open remote cfg := by
  unfold LinePlace.Open
  rw [h.received, h.stopBit]

/-- **A run of the loop** spells the field. -/
theorem OnLine.loop (hbase : 0 ≤ cfg.base) (hstop : 0 ≤ cfg.stop) {fuel : Nat} {s' : SerialState}
    (h : OnLine remote cfg frame s p) (hrun : serialLoop remote cfg fuel s = some (true, s')) :
    Spells remote cfg frame p s'.gapDelta s'.buf.rptr ∧ s'.buf.data = frame := by
  induction fuel generalizing s p with
  | zero =>
    rw [serialLoop] at hrun
    exact absurd hrun.symm (Option.some_ne_none _)
  | succ fuel ih =>
    rw [serialLoop] at hrun
    split at hrun
    · next hc =>
      have hopen := h.open_iff.mp hc
      split at hrun
      · exact absurd (congrArg Prod.fst (Option.some.inj hrun)) Bool.false_ne_true
      · next s1 he =>
        obtain ⟨p1, hon, hspells⟩ := h.step hbase hstop hopen he
        obtain ⟨hrest, hdata⟩ := ih hon hrun
        exact ⟨hspells _ _ hrest, hdata⟩
    · next hc =>
      obtain rfl := congrArg Prod.snd (Option.some.inj hrun)
      rw [h.gapDelta, h.rptr]
      exact ⟨.field (fun hopen => hc (h.open_iff.mpr hopen)), h.data⟩

/-- One turn more. -/
theorem loop_turn {s' : SerialState} (h : OnLine remote cfg frame s p)
    (hq : p.Reaches remote cfg frame q) (hs : serialStep remote cfg s = (true, s'))
    {y : Bool × SerialState} (hrun : ∃ fuel, serialLoop remote cfg fuel s' = some y) :
    ∃ fuel, serialLoop remote cfg fuel s = some y := by
  obtain ⟨fuel, hfuel⟩ := hrun
  refine ⟨fuel + 1, ?_⟩
  rw [serialLoop, if_pos (h.open_iff.mpr hq.goesOn), hs]
  exact hfuel

/-- **A spelled field** is run through, by induction on its pieces. -/
theorem Spells.loop (hbase : 0 ≤ cfg.base) {idle next : Int}
    (hspells : Spells remote cfg frame p idle next) (h : OnLine remote cfg frame s p) :
    ∃ s', (∃ fuel, serialLoop remote cfg fuel s = some (true, s')) ∧ s'.gapDelta = idle ∧
      s'.buf.rptr = next ∧ s'.buf.data = frame := by
  induction hspells generalizing s with
  | field done =>
    refine ⟨s, ⟨1, ?_⟩, h.gapDelta, h.rptr, h.data⟩
    rw [serialLoop, if_neg (fun hc => done (h.open_iff.mp hc))]
  | lead reached due cut _ ih =>
    obtain ⟨s1, hs, hon⟩ := h.lead reached due cut
    obtain ⟨s', hrun, hend⟩ := ih hon
    exact ⟨s', loop_turn h reached hs hrun, hend⟩
  | stop reached due space pos cut _ ih =>
    obtain ⟨s1, hs, hon⟩ := h.stop reached hbase due space pos cut
    obtain ⟨s', hrun, hend⟩ := ih hon
    exact ⟨s', loop_turn h reached hs hrun, hend⟩
  | bit reached due cut holds inside _ ih =>
    obtain ⟨s1, hs, hon⟩ := h.bit reached due cut holds inside
    obtain ⟨s', hrun, hend⟩ := ih hon
    exact ⟨s', loop_turn h reached hs hrun, hend⟩
  | byte reached due cut holds last parity more _ ih =>
    obtain ⟨s1, hs, hon⟩ := h.byte reached due cut holds last parity more
    obtain ⟨s', hrun, hend⟩ := ih hon
    exact ⟨s', loop_turn h reached hs hrun, hend⟩
  | short reached due cut holds cutBefore _ ih =>
    obtain ⟨s1, hs, hon⟩ := h.short reached due cut holds cutBefore
    obtain ⟨s', hrun, hend⟩ := ih hon
    exact ⟨s', loop_turn h reached hs hrun, hend⟩

end Turns

/-! ## 3. A call of `get_data` -/

/-- Where a field begins: the start pulse is due, or, where it has no length, the
    bits from the next space on, of which `owed` is deferred. -/
def fieldStart (cfg : SerialConfig) (owed place : Int) : LinePlace where
  due := if cfg.base = 0 then leadDue owed else leadDue cfg.base
  space := cfg.base == 0
  next := place

/-- **A field of `bits` bits is spelled from `place` on**, and behind its last
    stop time there is a rest of the space other than the sample it is the rest
    of. -/
def LeavesIdle (remote : IrRemote) (bits owed : Int) (frame : List Int) (place : Int) : Prop :=
  ∃ idle next, Spells remote (serialConfig remote bits) frame
      (fieldStart (serialConfig remote bits) owed place) idle next ∧
    idle ≠ 0 ∧ ∃ sample, frame[(next - 1).toNat]? = some sample ∧ sample ≠ idle

/-- That of the field of a call, on a recorded frame. -/
def DataCall.LeavesIdle (c : DataCall) (frame : List Int) : Prop :=
  isSerial c.remote = true ∧ WinLirc.LeavesIdle c.remote c.bits c.buf.pendings frame c.buf.rptr

/-- The state in which the loop of a call begins. -/
def startState (cfg : SerialConfig) (b : Rbuf) : SerialState :=
  { space := (setPendingPulse cfg.base b).pendingp == 0, buf := setPendingPulse cfg.base b }

/-- The loop starts where the field does. -/
theorem onLine_start {remote : IrRemote} {cfg : SerialConfig} (hbase : 0 ≤ cfg.base) {b : Rbuf}
    (hin : b.input = []) (howed : 0 ≤ b.pendings) :
    OnLine remote cfg b.data (startState cfg b) (fieldStart cfg b.pendings b.rptr) where
  data := rfl
  input := hin
  space := rfl
  delta := rfl
  origdelta := rfl
  rptr := rfl
  received := by
    unfold LinePlace.received fieldStart
    rw [Nat.zero_mul]
    rfl
  parity := rfl
  inside := (Nat.eq_zero_or_pos (lineBits remote cfg)).symm
  gapDelta := rfl
  stopBit := by
    refine ⟨fun h => absurd h Bool.false_ne_true, fun h => ?_⟩
    unfold fieldStart leadDue at h
    dsimp only at h
    split at h
    · split at h
      · exact Due.noConfusion h
      · exact Due.noConfusion h
    · split at h
      · exact Due.noConfusion h
      · exact Due.noConfusion h
  owes := by
    unfold fieldStart leadDue
    dsimp only
    by_cases hzero : cfg.base = 0
    · rw [if_pos hzero]
      have hspace : (startState cfg b).space = true := beq_iff_eq.mpr hzero
      rw [hspace]
      split
      · next hpos => exact ⟨hpos, rfl⟩
      · next hno => exact ⟨hzero, Int.le_antisymm (Int.not_lt.mp hno) howed⟩
    · rw [if_neg hzero, if_pos (by omega)]
      have hspace : (startState cfg b).space = false := beq_eq_false_iff_ne.mpr hzero
      rw [hspace]
      exact ⟨by omega, rfl⟩

/-- A sample that is written over. -/
theorem set_ne_iff (frame : List Int) (i : Nat) (x : Int) :
    frame.set i x ≠ frame ↔ ∃ sample, frame[i]? = some sample ∧ sample ≠ x := by
  constructor
  · intro hne
    cases hi : frame[i]? with
    | none => exact absurd (List.set_eq_of_length_le (List.getElem?_eq_none_iff.mp hi)) hne
    | some sample =>
      refine ⟨sample, rfl, fun hx => hne ?_⟩
      obtain ⟨hlt, hget⟩ := List.getElem?_eq_some_iff.mp hi
      rw [← hx, ← hget, List.set_getElem_self]
  · rintro ⟨sample, hi, hne⟩ he
    obtain ⟨hlt, hget⟩ := List.getElem?_eq_some_iff.mp hi
    refine hne ?_
    have hset := List.getElem_set_self (l := frame) (i := i) (a := x) (by rw [List.length_set]; exact hlt)
    rw [← hset, ← hget]
    congr 1
    exact he.symm

/-- **A call that changes a recorded sample** has a field spelled before it. -/
theorem leavesIdle_of_rewrites {fuel : Nat} {c : DataCall} (hin : c.buf.input = [])
    (howed : 0 ≤ c.buf.pendings) (h : c.rewrites fuel = true) : c.LeavesIdle c.buf.data := by
  obtain ⟨hbase, hstop⟩ := serialConfig_nonneg c.remote c.bits
  unfold DataCall.rewrites at h
  obtain ⟨hserial, hpush⟩ := Bool.and_eq_true_iff.mp h
  refine ⟨(serialBranch_iff _).mp hserial, ?_⟩
  unfold pushesBack at hpush
  dsimp only at hpush
  split at hpush
  · next s hrun =>
    obtain ⟨hgap, hdata⟩ := Bool.and_eq_true_iff.mp hpush
    obtain ⟨hspells, hframe⟩ := (onLine_start hbase hin howed).loop hbase hstop hrun
    refine ⟨_, _, hspells, bne_iff_ne.mp hgap, ?_⟩
    have hset : c.buf.data.set (s.buf.rptr - 1).toNat s.gapDelta ≠ c.buf.data := by
      have hne := bne_iff_ne.mp hdata
      unfold ungetRecBufferDelta at hne
      rw [hframe] at hne
      exact hne
    exact (set_ne_iff _ _ _).mp hset
  · exact absurd hpush Bool.false_ne_true

/-- **A call before a spelled field**, if it ends, changes a recorded sample. -/
theorem rewrites_of_leavesIdle {fuel : Nat} {c : DataCall} (hin : c.buf.input = [])
    (howed : 0 ≤ c.buf.pendings) (h : c.LeavesIdle c.buf.data) {y : IrCode × IrRemote × Rbuf}
    (hrun : c.run fuel = some y) : c.rewrites fuel = true := by
  obtain ⟨hserial, idle, next, hspells, hidle, hsample⟩ := h
  obtain ⟨hbase, -⟩ := serialConfig_nonneg c.remote c.bits
  obtain ⟨s', ⟨fuel', hloop⟩, hgap, hrptr, hdata⟩ :=
    hspells.loop hbase (onLine_start hbase hin howed)
  have hbranch := (serialBranch_iff _).mpr hserial
  unfold DataCall.rewrites
  rw [hbranch, Bool.true_and]
  -- the call ends with its fuel, and so as the loop does
  have hsame : serialLoop c.remote (serialConfig c.remote c.bits) fuel
      (startState (serialConfig c.remote c.bits) c.buf) = some (true, s') := by
    unfold serialBranch at hbranch
    rw [Bool.and_eq_true, Bool.and_eq_true, Bool.not_eq_true', Bool.not_eq_true'] at hbranch
    obtain ⟨⟨hrcmm, hgrundig⟩, -⟩ := hbranch
    unfold DataCall.run getData at hrun
    rw [hrcmm, hgrundig, if_neg Bool.false_ne_true, if_neg Bool.false_ne_true, if_pos hserial] at hrun
    obtain ⟨x, hget, -⟩ := Option.map_eq_some_iff.mp hrun
    unfold getSerial at hget
    have hmono := serialLoop_fuelLoop c.remote (serialConfig c.remote c.bits)
    cases he : serialLoop c.remote (serialConfig c.remote c.bits) fuel
        (startState (serialConfig c.remote c.bits) c.buf) with
    | none =>
      unfold startState at he
      dsimp only at hget
      rw [he] at hget
      exact absurd hget.symm (Option.some_ne_none _)
    | some z =>
      have h1 := hmono.mono (Nat.le_max_left fuel fuel') he
      have h2 := hmono.mono (Nat.le_max_right fuel fuel') hloop
      exact h1.symm.trans h2
  unfold startState at hsame
  unfold pushesBack
  dsimp only
  rw [hsame]
  dsimp only
  rw [hgap, bne_iff_ne.mpr hidle, Bool.true_and, bne_iff_ne]
  unfold ungetRecBufferDelta
  rw [hdata, hrptr]
  exact (set_ne_iff _ _ _).mpr hsample

/-- What the decoder changes in a remote is not read of the line. -/
theorem Spells.toggled {remote : IrRemote} {cfg : SerialConfig} {frame : List Int} {state : Int}
    {code : Option Nat} {p : LinePlace} {idle next : Int}
    (h : Spells { remote with toggleMaskState := state, toggleCode := code } cfg frame p idle next) :
    Spells remote cfg frame p idle next := by
  induction h with
  | field done => exact .field done
  | lead reached due cut _ ih => exact .lead ⟨reached.1, reached.2, reached.3⟩ due cut ih
  | stop reached due space pos cut _ ih =>
    exact .stop ⟨reached.1, reached.2, reached.3⟩ due space pos cut ih
  | bit reached due cut holds inside _ ih =>
    exact .bit ⟨reached.1, reached.2, reached.3⟩ due cut holds inside ih
  | byte reached due cut holds last parity more _ ih =>
    exact .byte ⟨reached.1, reached.2, reached.3⟩ due cut holds last parity more ih
  | short reached due cut holds cutBefore _ ih =>
    exact .short ⟨reached.1, reached.2, reached.3⟩ due cut holds cutBefore ih

theorem LeavesIdle.toggled {remote : IrRemote} {state : Int} {code : Option Nat} {bits owed : Int}
    {frame : List Int} {place : Int}
    (h : LeavesIdle { remote with toggleMaskState := state, toggleCode := code } bits owed frame place) :
    LeavesIdle remote bits owed frame place := by
  obtain ⟨idle, next, hspells, hrest⟩ := h
  exact ⟨idle, next, hspells.toggled, hrest⟩

end WinLirc
