/-
  File:      WinLirc/Streamzap.lean
  Subject:   DLL/Streamzap/StreamzapAPI.cpp: the bytes of the device.

  A byte arrives with the value of the performance counter. `Protocol` is the
  decoder with three states: nothing pending, a full pulse pending, a full
  space pending. `decode_protocol`: `decode` answers each byte as it does
  exactly if no byte behind a marker looks like a marker itself.
-/
import WinLirc.Driver
import WinLirc.LircDefines
import WinLirc.Signal.Machine

namespace WinLirc.Streamzap

open Signal (answers Meets)

/-! ## 1. `decode` -/

def STREAMZAP_PULSE_MASK : UCHAR := 0xf0
def STREAMZAP_SPACE_MASK : UCHAR := 0x0f
def STREAMZAP_TIMEOUT : UCHAR := 0xff
def STREAMZAP_RESOLUTION : Int := 256

/-- A byte, and what `QueryPerformanceCounter` answers when it is decoded. -/
structure Received where
  data : UCHAR
  time : Int
  deriving DecidableEq, Repr

/-- A duration in units of the device, as a sample without the pulse bit. -/
def duration (units : UCHAR) : Int := units.toNat * STREAMZAP_RESOLUTION + STREAMZAP_RESOLUTION / 2

def pulseNibble (data : UCHAR) : Int := PULSE_BIT + duration ((data &&& STREAMZAP_PULSE_MASK) >>> 4)

def spaceNibble (data : UCHAR) : Int := duration (data &&& STREAMZAP_SPACE_MASK)

/-- The gap in front of a signal. -/
def gapBefore (frequency lastTime time : Int) : Int :=
  let temp := (((time - lastTime) * 1000000).tdiv frequency).bmod (2 ^ 32)
  let temp := (temp + 255 * STREAMZAP_RESOLUTION).bmod (2 ^ 32)
  if temp > PULSE_MASK then PULSE_MASK else temp

structure StreamzapAPI where
  nextByteFull : Bool := false
  pulse : Bool := true
  newSignal : Bool := true
  lastTime : Int
  deriving DecidableEq, Repr

/-- What `setData` is given for a byte. -/
def decode (frequency : Int) (s : StreamzapAPI) (x : Received) : List Int × StreamzapAPI :=
  let data := x.data
  if data = STREAMZAP_TIMEOUT then
    ([], { nextByteFull := false, pulse := true, newSignal := true, lastTime := x.time })
  else if data &&& STREAMZAP_SPACE_MASK = STREAMZAP_SPACE_MASK then
    (if data &&& STREAMZAP_PULSE_MASK ≠ 0 then [pulseNibble data] else [],
      { s with nextByteFull := true, pulse := false })
  else if data &&& STREAMZAP_PULSE_MASK = STREAMZAP_PULSE_MASK then
    ([], if data &&& STREAMZAP_PULSE_MASK ≠ 0 then { s with nextByteFull := true, pulse := true } else s)
  else
    let gap := if s.newSignal then [gapBefore frequency s.lastTime x.time] else []
    let s := if s.newSignal then { s with newSignal := false, lastTime := x.time } else s
    if s.nextByteFull then
      (gap ++ [if s.pulse then PULSE_BIT + duration data else duration data],
        { s with nextByteFull := false })
    else
      (gap ++ (if data &&& STREAMZAP_PULSE_MASK ≠ 0 then [pulseNibble data] else []) ++
        [spaceNibble data], s)

/-! ## 2. The protocol -/

/-- What the decoder waits for: a marker or two nibbles, or a byte with one
    duration. -/
inductive Expects where
  | nibbles
  | fullPulse
  | fullSpace
  deriving DecidableEq, Repr

structure Protocol where
  expects : Expects := .nibbles
  newSignal : Bool := true
  lastTime : Int
  deriving DecidableEq, Repr

def isSpaceMarker (data : UCHAR) : Bool := data &&& STREAMZAP_SPACE_MASK == STREAMZAP_SPACE_MASK

def isPulseMarker (data : UCHAR) : Bool := data &&& STREAMZAP_PULSE_MASK == STREAMZAP_PULSE_MASK

/-- The pulse in the upper nibble, if there is one. -/
def upperPulse (data : UCHAR) : List Int :=
  if data &&& STREAMZAP_PULSE_MASK ≠ 0 then [pulseNibble data] else []

/-- The gap in front of a signal. A pulse in the byte of a space marker does not begin
    a signal, here as in the driver. -/
def Protocol.gap (frequency : Int) (p : Protocol) (time : Int) : List Int :=
  if p.newSignal then [gapBefore frequency p.lastTime time] else []

/-- Durations were read. -/
def Protocol.durations (p : Protocol) (time : Int) : Protocol where
  expects := .nibbles
  newSignal := false
  lastTime := if p.newSignal then time else p.lastTime

def Protocol.step (frequency : Int) (p : Protocol) (x : Received) : List Int × Protocol :=
  if x.data = STREAMZAP_TIMEOUT then ([], { lastTime := x.time })
  else
    match p.expects with
    | .fullPulse => (p.gap frequency x.time ++ [PULSE_BIT + duration x.data], p.durations x.time)
    | .fullSpace => (p.gap frequency x.time ++ [duration x.data], p.durations x.time)
    | .nibbles =>
      if isSpaceMarker x.data then (upperPulse x.data, { p with expects := .fullSpace })
      else if isPulseMarker x.data then ([], { p with expects := .fullPulse })
      else (p.gap frequency x.time ++ upperPulse x.data ++ [spaceNibble x.data], p.durations x.time)

/-- The state of the protocol that a state of the driver stands for. -/
def StreamzapAPI.protocol (s : StreamzapAPI) : Protocol where
  expects := if s.nextByteFull then if s.pulse then .fullPulse else .fullSpace else .nibbles
  newSignal := s.newSignal
  lastTime := s.lastTime

/-! ## 3. The driver and the protocol -/

/-- A byte that is not the time-out and follows a marker does not look like a
    marker. -/
def Clear (p : Protocol) (x : Received) : Prop :=
  x.data ≠ STREAMZAP_TIMEOUT → p.expects ≠ .nibbles →
    isSpaceMarker x.data = false ∧ isPulseMarker x.data = false

section Simulation

variable {frequency : Int} {s : StreamzapAPI} {x : Received}

theorem expects_eq_nibbles : s.protocol.expects = .nibbles ↔ s.nextByteFull = false := by
  unfold StreamzapAPI.protocol
  dsimp only
  cases s.nextByteFull with
  | false => simp
  | true => cases s.pulse <;> simp

theorem decode_timeout (h : x.data = STREAMZAP_TIMEOUT) :
    (decode frequency s x).1 = (s.protocol.step frequency x).1 ∧
      (decode frequency s x).2.protocol = (s.protocol.step frequency x).2 := by
  unfold decode Protocol.step
  rw [if_pos h, if_pos h]
  exact ⟨rfl, rfl⟩

theorem isSpaceMarker_eq {data : UCHAR} :
    isSpaceMarker data = true ↔ data &&& STREAMZAP_SPACE_MASK = STREAMZAP_SPACE_MASK := beq_iff_eq

theorem isPulseMarker_eq {data : UCHAR} :
    isPulseMarker data = true ↔ data &&& STREAMZAP_PULSE_MASK = STREAMZAP_PULSE_MASK := beq_iff_eq

/-- A marker where none is pending. -/
theorem decode_nibbles (h : x.data ≠ STREAMZAP_TIMEOUT) (hfull : s.nextByteFull = false) :
    (decode frequency s x).1 = (s.protocol.step frequency x).1 ∧
      (decode frequency s x).2.protocol = (s.protocol.step frequency x).2 := by
  obtain ⟨nextByteFull, pulse, newSignal, lastTime⟩ := s
  dsimp only at hfull
  subst hfull
  unfold decode Protocol.step
  rw [if_neg h, if_neg h]
  by_cases hspace : isSpaceMarker x.data = true
  · rw [if_pos (isSpaceMarker_eq.mp hspace)]
    dsimp only [StreamzapAPI.protocol, Bool.false_eq_true, if_false]
    rw [if_pos hspace]
    exact ⟨rfl, rfl⟩
  have hspace' := mt isSpaceMarker_eq.mpr hspace
  by_cases hpulse : isPulseMarker x.data = true
  · have hmask := isPulseMarker_eq.mp hpulse
    have hne : x.data &&& STREAMZAP_PULSE_MASK ≠ 0 := by
      rw [hmask]
      decide
    rw [if_neg hspace', if_pos hmask, if_pos hne]
    dsimp only [StreamzapAPI.protocol, Bool.false_eq_true, if_false]
    rw [if_neg hspace, if_pos hpulse]
    exact ⟨rfl, rfl⟩
  · rw [if_neg hspace', if_neg (mt isPulseMarker_eq.mpr hpulse)]
    dsimp only [StreamzapAPI.protocol, Bool.false_eq_true, if_false]
    rw [if_neg hspace, if_neg hpulse]
    cases newSignal with
    | true => exact ⟨rfl, rfl⟩
    | false => exact ⟨rfl, rfl⟩

/-- A byte with one duration. -/
theorem decode_full (h : x.data ≠ STREAMZAP_TIMEOUT) (hfull : s.nextByteFull = true)
    (hspace : isSpaceMarker x.data = false) (hpulse : isPulseMarker x.data = false) :
    (decode frequency s x).1 = (s.protocol.step frequency x).1 ∧
      (decode frequency s x).2.protocol = (s.protocol.step frequency x).2 := by
  have hspace' : ¬ x.data &&& STREAMZAP_SPACE_MASK = STREAMZAP_SPACE_MASK := fun he =>
    Bool.false_ne_true (hspace.symm.trans (isSpaceMarker_eq.mpr he))
  have hpulse' : ¬ x.data &&& STREAMZAP_PULSE_MASK = STREAMZAP_PULSE_MASK := fun he =>
    Bool.false_ne_true (hpulse.symm.trans (isPulseMarker_eq.mpr he))
  obtain ⟨nextByteFull, pulse, newSignal, lastTime⟩ := s
  dsimp only at hfull
  subst hfull
  unfold decode Protocol.step
  rw [if_neg h, if_neg h, if_neg hspace', if_neg hpulse']
  cases pulse with
  | true => cases newSignal <;> exact ⟨rfl, rfl⟩
  | false => cases newSignal <;> exact ⟨rfl, rfl⟩

/-- The pulse in front of a space marker is not the duration of the whole byte. -/
theorem pulseNibble_ne {data : UCHAR} (hspace : isSpaceMarker data = true) (pulse : Bool) :
    pulseNibble data ≠ if pulse then PULSE_BIT + duration data else duration data := by
  revert data pulse
  decide +kernel

/-- What the protocol answers to a byte behind a marker. -/
theorem step_full (h : x.data ≠ STREAMZAP_TIMEOUT) (hfull : s.nextByteFull = true) :
    (s.protocol.step frequency x).1 = s.protocol.gap frequency x.time ++
      [if s.pulse then PULSE_BIT + duration x.data else duration x.data] := by
  obtain ⟨nextByteFull, pulse, newSignal, lastTime⟩ := s
  dsimp only at hfull
  subst hfull
  unfold Protocol.step
  rw [if_neg h]
  cases pulse with
  | true => rfl
  | false => rfl

/-- **A byte behind a marker that looks like a marker** is taken for one. -/
theorem decode_misread (h : x.data ≠ STREAMZAP_TIMEOUT) (hfull : s.nextByteFull = true)
    (hmarker : isSpaceMarker x.data = true ∨ isPulseMarker x.data = true) :
    (decode frequency s x).1 ≠ (s.protocol.step frequency x).1 := by
  rw [step_full h hfull]
  unfold decode
  rw [if_neg h]
  by_cases hspace : isSpaceMarker x.data = true
  · rw [if_pos (isSpaceMarker_eq.mp hspace)]
    dsimp only
    intro he
    split at he
    · have hlast := congrArg List.getLast? he
      rw [List.getLast?_concat] at hlast
      exact pulseNibble_ne hspace s.pulse (Option.some.inj hlast)
    · exact List.append_ne_nil_of_right_ne_nil _ (List.cons_ne_nil _ _) he.symm
  · rw [if_neg (mt isSpaceMarker_eq.mpr hspace), if_pos (isPulseMarker_eq.mp (hmarker.resolve_left hspace))]
    exact fun he => List.append_ne_nil_of_right_ne_nil _ (List.cons_ne_nil _ _) he.symm

theorem clear_iff : Clear s.protocol x ↔
    x.data = STREAMZAP_TIMEOUT ∨ s.nextByteFull = false ∨
      (isSpaceMarker x.data = false ∧ isPulseMarker x.data = false) := by
  unfold Clear
  rw [ne_eq, ne_eq, expects_eq_nibbles]
  tauto

/-- **One byte** that is clear is answered as by the protocol. -/
theorem decode_clear (h : Clear s.protocol x) :
    (decode frequency s x).1 = (s.protocol.step frequency x).1 ∧
      (decode frequency s x).2.protocol = (s.protocol.step frequency x).2 := by
  by_cases htimeout : x.data = STREAMZAP_TIMEOUT
  · exact decode_timeout htimeout
  · by_cases hfull : s.nextByteFull = false
    · exact decode_nibbles htimeout hfull
    · obtain ⟨hspace, hpulse⟩ := ((clear_iff.mp h).resolve_left htimeout).resolve_left hfull
      exact decode_full htimeout (Bool.eq_true_of_not_eq_false hfull) hspace hpulse

/-- One that is not is not. -/
theorem decode_not_clear (h : ¬ Clear s.protocol x) :
    (decode frequency s x).1 ≠ (s.protocol.step frequency x).1 := by
  rw [clear_iff, not_or, not_or] at h
  obtain ⟨htimeout, hfull, hmarker⟩ := h
  refine decode_misread htimeout (Bool.eq_true_of_not_eq_false hfull) ?_
  by_contra hnone
  obtain ⟨hspace, hpulse⟩ := not_or.mp hnone
  exact hmarker ⟨Bool.eq_false_iff.mpr hspace, Bool.eq_false_iff.mpr hpulse⟩

end Simulation

/-- **`decode` against the protocol**, for every stream of bytes: each byte is
    answered as by the decoder with three states exactly if no byte but the
    time-out that follows a marker looks like one. -/
theorem decode_protocol (frequency lastTime : Int) (stream : List Received) :
    answers (decode frequency) { lastTime } stream =
        answers (Protocol.step frequency) { lastTime } stream ↔
      Meets (Protocol.step frequency) Clear { lastTime } stream := by
  refine Signal.answers_eq_iff (R := fun s p => s.protocol = p) ?_ ?_ rfl stream
  · intro s p x hp hclear
    subst hp
    exact decode_clear hclear
  · intro s p x hp hclear
    subst hp
    exact decode_not_clear hclear

/-- **0x1F behind a marker**: a pulse of 31 units is taken for one of 1 unit and a
    marker. -/
theorem decode_protocol_misread :
    answers (decode 1000000) { lastTime := 0 } [⟨0x12, 0⟩, ⟨0xf3, 10⟩, ⟨0x1f, 20⟩] =
        [[65280, PULSE_BIT + 384, 640], [], [PULSE_BIT + 384]] ∧
      answers (Protocol.step 1000000) { lastTime := 0 } [⟨0x12, 0⟩, ⟨0xf3, 10⟩, ⟨0x1f, 20⟩] =
        [[65280, PULSE_BIT + 384, 640], [], [PULSE_BIT + 8064]] := by
  decide +kernel

end WinLirc.Streamzap
