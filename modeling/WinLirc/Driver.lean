/-
  File:      WinLirc/Driver.lean
  Subject:   DLL/Serial/irdriver.cpp: the queue between the receive thread and
             the decoder, and the event `hDataReadyEvent`.

  The two threads take turns in any order. Each of `setData`, `SetEvent`,
  `dataReady`, `ResetEvent`, the end of the wait and `getData` is one step. The
  event is one that is reset by hand: a wait leaves it as it is.

  `noLostWakeup`: the decoder never sleeps over data that are in the queue
  exactly if it never resets the event of such data.
-/
import Mathlib.Data.BitVec
import WinLirc.Signal.Runs

namespace WinLirc

open Signal (runSteps)

/-! ## 1. The queue -/

abbrev UCHAR := BitVec 8
abbrev UINT := BitVec 32

/-- The bytes of a word in memory, the low one first. -/
def wordBytes (word : BitVec 16) : List UCHAR := [word.setWidth 8, (word >>> 8).setWidth 8]

theorem length_wordBytes (words : List (BitVec 16)) :
    (words.flatMap wordBytes).length = 2 * words.length := by
  induction words with
  | nil => rfl
  | cons word words ih =>
    rw [List.flatMap_cons, List.length_append, ih, List.length_cons]
    show 2 + 2 * words.length = _
    omega

/-- Where the receive thread is: it writes one value, or two, and then sets the
    event. -/
inductive ReceiverAt where
  | idle
  | halfWritten
  | written
  deriving DecidableEq, Repr

/-- Where the decoder is: outside the functions of the driver, behind a check
    that found the queue empty, or in the wait. -/
inductive DecoderAt where
  | idle
  | foundEmpty
  | waiting
  deriving DecidableEq, Repr

structure CIRDriver where
  devicetype : Bool -- false: each value is followed by a virtual pulse
  dataBuffer : UCHAR → UINT := fun _ => 0
  bufferStart : UCHAR := 0
  bufferEnd : UCHAR := 0
  hDataReadyEvent : Bool := false
  receiver : ReceiverAt := .idle
  decoder : DecoderAt := .idle

namespace CIRDriver

def setData (s : CIRDriver) (data : UINT) : CIRDriver :=
  { s with
    dataBuffer := Function.update s.dataBuffer s.bufferEnd data
    bufferEnd := s.bufferEnd + 1 }

def dataReady (s : CIRDriver) : Bool := !(s.bufferStart == s.bufferEnd)

def getData (s : CIRDriver) : Option UINT × CIRDriver :=
  if !s.dataReady then (none, s)
  else (some (s.dataBuffer s.bufferStart), { s with bufferStart := s.bufferStart + 1 })

/-! ## 2. The steps of the two threads -/

inductive Action where
  | setData (data : UINT)
  | setEvent
  | checkReady -- the test in `waitTillDataIsReady`
  | resetEvent
  | wake
  | giveUp -- the wait times out, or the thread is to exit
  | getData
  deriving DecidableEq, Repr

/-- One step, `none` if the thread that takes it is elsewhere. -/
def step (s : CIRDriver) : Action → Option CIRDriver
  | .setData data =>
    match s.receiver with
    | .idle =>
      some { s.setData data with receiver := if s.devicetype then .written else .halfWritten }
    | .halfWritten => some { s.setData data with receiver := .written }
    | .written => none
  | .setEvent =>
    if s.receiver = .written then some { s with hDataReadyEvent := true, receiver := .idle }
    else none
  | .checkReady =>
    if s.decoder = .idle then
      some { s with decoder := if s.dataReady then .idle else .foundEmpty }
    else none
  | .resetEvent =>
    if s.decoder = .foundEmpty then
      some { s with hDataReadyEvent := false, decoder := .waiting }
    else none
  | .wake =>
    if s.decoder = .waiting ∧ s.hDataReadyEvent then some { s with decoder := .idle } else none
  | .giveUp => if s.decoder = .waiting then some { s with decoder := .idle } else none
  | .getData => if s.decoder = .idle then some s.getData.2 else none

/-! ## 3. Sleeping over data -/

/-- The decoder sleeps although there are data, and nobody is about to wake it. -/
def Oversleeps (s : CIRDriver) : Prop :=
  s.decoder = .waiting ∧ s.hDataReadyEvent = false ∧ s.dataReady = true ∧ s.receiver = .idle

/-- There is nothing in the queue of which the event still has to tell. -/
def Announced (s : CIRDriver) : Prop := s.dataReady = false ∨ s.receiver ≠ .idle

theorem not_oversleeps_of_decoder {s : CIRDriver} (h : s.decoder ≠ .waiting) : ¬ s.Oversleeps :=
  fun ho => h ho.1

theorem decoder_getData (s : CIRDriver) : s.getData.2.decoder = s.decoder := by
  unfold getData
  split
  · rfl
  · rfl

theorem of_guarded {c : Prop} [Decidable c] {s s' : CIRDriver}
    (h : (if c then some s else none) = some s') : c ∧ s = s' := by
  obtain ⟨hc, he⟩ := Option.ite_none_right_eq_some.mp h
  exact ⟨hc, Option.some.inj he⟩

/-- **What a step does**: only resetting the event leaves the decoder asleep over
    data. -/
theorem oversleeps_step {s s' : CIRDriver} {a : Action} (h : s.step a = some s') :
    ¬ s'.Oversleeps ↔ (a = .resetEvent → s.Announced) := by
  have other : a ≠ .resetEvent → ¬ s'.Oversleeps →
      (¬ s'.Oversleeps ↔ (a = .resetEvent → s.Announced)) :=
    fun ha hs' => ⟨fun _ h0 => absurd h0 ha, fun _ => hs'⟩
  cases a with
  | setData data =>
    refine other (fun h0 => Action.noConfusion h0) fun ho => ?_
    have hbusy : s'.receiver ≠ .idle := by
      unfold step at h
      dsimp only at h
      cases hr : s.receiver with
      | idle =>
        rw [hr] at h
        injection h with h
        rw [← h]
        dsimp only
        split
        · exact fun h0 => ReceiverAt.noConfusion h0
        · exact fun h0 => ReceiverAt.noConfusion h0
      | halfWritten =>
        rw [hr] at h
        injection h with h
        rw [← h]
        exact fun h0 => ReceiverAt.noConfusion h0
      | written =>
        rw [hr] at h
        exact absurd h.symm (Option.some_ne_none _)
    exact hbusy ho.2.2.2
  | setEvent =>
    obtain ⟨-, rfl⟩ := of_guarded h
    exact other (fun h0 => Action.noConfusion h0) fun ho => absurd ho.2.1.symm Bool.false_ne_true
  | checkReady =>
    obtain ⟨-, rfl⟩ := of_guarded h
    refine other (fun h0 => Action.noConfusion h0) (not_oversleeps_of_decoder ?_)
    dsimp only
    split
    · exact fun h0 => DecoderAt.noConfusion h0
    · exact fun h0 => DecoderAt.noConfusion h0
  | resetEvent =>
    obtain ⟨-, rfl⟩ := of_guarded h
    unfold Oversleeps Announced
    constructor
    · intro hno _
      by_contra hc
      obtain ⟨hready, hidle⟩ := not_or.mp hc
      exact hno ⟨rfl, rfl, Bool.not_eq_false _ ▸ hready, not_not.mp hidle⟩
    · rintro hann ⟨-, -, hready, hidle⟩
      rcases hann rfl with hempty | hbusy
      · exact absurd (hempty.symm.trans hready) Bool.false_ne_true
      · exact hbusy hidle
  | wake =>
    obtain ⟨-, rfl⟩ := of_guarded h
    exact other (fun h0 => Action.noConfusion h0)
      (not_oversleeps_of_decoder fun h0 => DecoderAt.noConfusion h0)
  | giveUp =>
    obtain ⟨-, rfl⟩ := of_guarded h
    exact other (fun h0 => Action.noConfusion h0)
      (not_oversleeps_of_decoder fun h0 => DecoderAt.noConfusion h0)
  | getData =>
    obtain ⟨hidle, rfl⟩ := of_guarded h
    refine other (fun h0 => Action.noConfusion h0) (not_oversleeps_of_decoder ?_)
    rw [decoder_getData, hidle]
    exact fun h0 => DecoderAt.noConfusion h0

/-- **No wake-up is lost in a run** exactly if the event is reset only where the
    queue is empty or the receive thread has yet to set it. -/
theorem noLostWakeup (devicetype : Bool) (actions : List Action) :
    (∀ before after s, actions = before ++ after →
      runSteps step { devicetype } before = some s → ¬ s.Oversleeps) ↔
    ∀ before after s s', actions = before ++ .resetEvent :: after →
      runSteps step { devicetype } before = some s → s.step .resetEvent = some s' →
      s.dataReady = false ∨ s.receiver ≠ .idle := by
  have hstart : ¬ Oversleeps { devicetype } :=
    not_oversleeps_of_decoder fun h0 => DecoderAt.noConfusion h0
  refine (Signal.states_iff_steps (P := fun s => ¬ Oversleeps s)
    (C := fun s a => a = .resetEvent → s.Announced) hstart
    fun s a s' _ ha => oversleeps_step ha).trans ?_
  constructor
  · intro h before after s s' hsplit hrun ha
    exact h before .resetEvent after s s' hsplit hrun ha rfl
  · rintro h before a after s s' hsplit hrun ha rfl
    exact h before after s s' hsplit hrun ha

/-- A value comes in between the test of the decoder and its `ResetEvent`. -/
theorem oversleeps_after_race : ∃ s, runSteps step { devicetype := true }
    [.checkReady, .setData 500, .setEvent, .resetEvent] = some s ∧ s.Oversleeps :=
  ⟨_, rfl, rfl, rfl, rfl, rfl⟩

end CIRDriver

end WinLirc
