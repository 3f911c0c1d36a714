/-
  File:      WinLirc/Fifo.lean
  Subject:   DLL/Common/fifo.h, and the same queue in DLL/Serial/irdriver.cpp.

  Both are rings of 256 places with indices of 8 bits (`Fifo.view`,
  `CIRDriver.view`). `fifo_law`: each sample is popped once and in order, and a
  queue that holds samples is not reported empty, exactly as long as fewer
  than 256 samples wait in it.
-/
import WinLirc.Driver
import WinLirc.Signal.Ring

namespace WinLirc

open Signal (runSteps QueueOps QueueCall QueueRun Ring RingView)

structure Fifo where
  dataBuffer : UCHAR → UINT := fun _ => 0
  bufferStart : UCHAR := 0
  bufferEnd : UCHAR := 0

namespace Fifo

def push (f : Fifo) (value : UINT) : Fifo :=
  { f with
    dataBuffer := Function.update f.dataBuffer f.bufferEnd value
    bufferEnd := f.bufferEnd + 1 }

def pop (f : Fifo) : UINT × Fifo :=
  (f.dataBuffer f.bufferStart, { f with bufferStart := f.bufferStart + 1 })

def empty (f : Fifo) : Bool := f.bufferStart == f.bufferEnd

def ops : QueueOps Fifo UINT := ⟨push, pop, empty⟩

def view : RingView 8 ops where
  ring f := ⟨f.dataBuffer, f.bufferStart, f.bufferEnd⟩
  push _ _ := rfl
  front _ _ := rfl
  pop _ _ := rfl
  empty _ := rfl

end Fifo

namespace CIRDriver

/-- The queue of the driver; a `getData` that finds nothing leaves `*out` as it
    is. -/
def ops : QueueOps CIRDriver UINT where
  push := setData
  pop s := (s.getData.1.getD 0, s.getData.2)
  empty s := !s.dataReady

theorem getData_of_ready {s : CIRDriver} (h : (!s.dataReady) = false) :
    s.getData = (some (s.dataBuffer s.bufferStart), { s with bufferStart := s.bufferStart + 1 }) := by
  unfold getData
  rw [if_neg]
  rw [h]
  exact Bool.false_ne_true

def view : RingView 8 ops where
  ring s := ⟨s.dataBuffer, s.bufferStart, s.bufferEnd⟩
  push _ _ := rfl
  front _ h := congrArg (fun x => x.1.getD 0) (getData_of_ready h)
  pop _ h := congrArg (fun x : Option UINT × CIRDriver =>
    (⟨x.2.dataBuffer, x.2.bufferStart, x.2.bufferEnd⟩ : Ring 8 UINT)) (getData_of_ready h)
  empty _ := Bool.not_not _

end CIRDriver

section Law

variable {σ : Type}

/-- In every state of the run each sample popped is the next one, and the queue is
    not reported empty while samples wait in it. -/
def KeepsLaw (q : QueueOps σ UINT) (start : σ) (calls : List (QueueCall UINT)) : Prop :=
  ∀ before after s, calls = before ++ after →
    runSteps q.step { state := start } before = some s → q.Lawful s

/-- In every state of the run fewer than 256 samples wait in the queue. -/
def NeverFull (q : QueueOps σ UINT) (start : σ) (calls : List (QueueCall UINT)) : Prop :=
  ∀ before after s, calls = before ++ after →
    runSteps q.step { state := start } before = some s → s.pushed.length < s.popped.length + 256

/-- A ring with both indices at one place is empty. -/
theorem contains_nil (dataBuffer : UCHAR → UINT) (i : UCHAR) : (⟨dataBuffer, i, i⟩ : Ring 8 UINT).Contains [] :=
  ⟨by decide, (BitVec.add_zero i).symm, fun i a h => nomatch h⟩

/-- **The sample FIFO**, in any order of `push` and `pop`, with `pop` only where it is
    not reported empty. -/
theorem fifo_law (calls : List (QueueCall UINT)) (devicetype : Bool) :
    (KeepsLaw Fifo.ops {} calls ↔ NeverFull Fifo.ops {} calls) ∧
    (KeepsLaw CIRDriver.ops { devicetype } calls ↔ NeverFull CIRDriver.ops { devicetype } calls) :=
  ⟨@RingView.lawful_iff _ _ 8 Fifo.ops Fifo.view {} (contains_nil _ 0) calls,
    @RingView.lawful_iff _ _ 8 CIRDriver.ops CIRDriver.view { devicetype } (contains_nil _ 0) calls⟩

/-- Some pushes one after the other. -/
theorem run_pushes (value : UINT) (n : Nat) :
    ∃ s, runSteps Fifo.ops.step { state := {} } (List.replicate n (.push value)) = some s ∧
      s.pushed.length = n ∧ s.popped = [] ∧ s.state.bufferStart = 0 ∧
      s.state.bufferEnd = BitVec.ofNat 8 n := by
  induction n with
  | zero => exact ⟨_, rfl, rfl, rfl, rfl, rfl⟩
  | succ n ih =>
    obtain ⟨s, hrun, hpushed, hpopped, hstart, hend⟩ := ih
    rw [List.replicate_succ']
    refine ⟨_, Signal.runSteps_snoc _ hrun rfl, ?_, hpopped, hstart, ?_⟩
    · rw [List.length_append, hpushed]
      rfl
    · show s.state.bufferEnd + 1 = _
      rw [hend, BitVec.ofNat_add]
      rfl

/-- **256 samples in a row**: all of them wait, and the queue is reported empty. -/
theorem fifo_law_overrun :
    ∃ s, runSteps Fifo.ops.step { state := {} } (List.replicate 256 (.push 0x1000190)) = some s ∧
      s.pushed.length = 256 ∧ s.popped = [] ∧ s.state.empty = true ∧
      ¬ KeepsLaw Fifo.ops {} (List.replicate 256 (.push 0x1000190)) := by
  obtain ⟨s, hrun, hpushed, hpopped, hstart, hend⟩ := run_pushes 0x1000190 256
  have hempty : s.state.empty = true := by
    unfold Fifo.empty
    rw [hstart, hend]
    rfl
  refine ⟨s, hrun, hpushed, hpopped, hempty, fun hlaw => ?_⟩
  obtain ⟨left, hleft, hnil⟩ := hlaw _ [] s (List.append_nil _).symm hrun
  rw [hpopped, hnil hempty] at hleft
  rw [hleft] at hpushed
  exact absurd hpushed (by decide)

end Law

end WinLirc
