/-
  File:      WinLirc/Moves.lean
  Subject:   What the decoder does to the receive buffer: reads, and moves
             within what was recorded.

  `Moves R` says that the relation `R` between two buffers holds across every
  read and every change of the decoder's place in the buffer, and is
  transitive. Then it holds across every helper (`moves_expectpulse`, ...,
  `moves_getGap`), across `get_data` unless a serial remote pushes back what is
  left of a space (`pushesBack`), and so across all of `receive_decode`
  (`moves_receiveDecode`).
-/
import WinLirc.Receive

namespace WinLirc

/-- A relation that reads and moves within the buffer keep. -/
structure Moves (R : Rbuf → Rbuf → Prop) : Prop where
  trans : ∀ {a b c}, R a b → R b c → R a c
  read : ∀ maxusec b, R b (getNextRecBuffer maxusec b).2
  move : ∀ {b b'}, b'.data = b.data → b'.input = b.input → b'.decoded = b.decoded → R b b'

section Helpers

variable {R : Rbuf → Rbuf → Prop}

theorem Moves.refl (h : Moves R) (b : Rbuf) : R b b := h.move rfl rfl rfl

/-- The answer of a helper: the buffer has only been moved in. -/
theorem moves_ite {α : Type} {p : Prop} [Decidable p] {b : Rbuf} {x y : α × Rbuf}
    (hx : R b x.2) (hy : R b y.2) : R b (if p then x else y).2 := by
  split
  · exact hx
  · exact hy

theorem moves_setPendingPulse (h : Moves R) (d : Int) (b : Rbuf) : R b (setPendingPulse d b) :=
  h.move rfl rfl rfl

theorem moves_setPendingSpace (h : Moves R) (d : Int) (b : Rbuf) : R b (setPendingSpace d b) :=
  h.move rfl rfl rfl

theorem moves_unget (h : Moves R) (count : Nat) (b : Rbuf) : R b (ungetRecBuffer count b) := by
  unfold ungetRecBuffer
  split
  · dsimp only
    split
    · exact h.move rfl rfl rfl
    · exact h.move rfl rfl rfl
  · exact h.refl b

theorem moves_getNextPulse (h : Moves R) (m : Int) (b : Rbuf) : R b (getNextPulse m b).2 := by
  have hread := h.read m b
  unfold getNextPulse
  exact moves_ite hread (moves_ite hread hread)

theorem moves_getNextSpace (h : Moves R) (m : Int) (b : Rbuf) : R b (getNextSpace m b).2 := by
  have hread := h.read m b
  unfold getNextSpace
  exact moves_ite hread (moves_ite hread hread)

theorem moves_syncPendingPulse (h : Moves R) (remote : IrRemote) (b : Rbuf) :
    R b (syncPendingPulse remote b).2 := by
  have hread := moves_getNextPulse h b.pendingp b
  have hset := h.trans hread (moves_setPendingPulse h 0 _)
  unfold syncPendingPulse
  exact moves_ite (moves_ite hread (moves_ite hread hset)) (h.refl b)

theorem moves_syncPendingSpace (h : Moves R) (remote : IrRemote) (b : Rbuf) :
    R b (syncPendingSpace remote b).2 := by
  have hread := moves_getNextSpace h b.pendings b
  have hset := h.trans hread (moves_setPendingSpace h 0 _)
  unfold syncPendingSpace
  exact moves_ite (moves_ite hread (moves_ite hread hset)) (h.refl b)

theorem moves_expectpulse (h : Moves R) (remote : IrRemote) (exdelta : Int) (b : Rbuf) :
    R b (expectpulse remote exdelta b).2 := by
  have hsync := moves_syncPendingSpace h remote b
  unfold expectpulse
  generalize syncPendingSpace remote b = x at hsync ⊢
  obtain ⟨ok, b1⟩ := x
  cases ok with
  | false => exact hsync
  | true =>
    have hread := h.trans hsync (moves_getNextPulse h (b1.pendingp + exdelta) b1)
    have hset := h.trans hread (moves_setPendingPulse h 0 _)
    exact moves_ite hread (moves_ite (moves_ite hread (moves_ite hread hset)) hread)

theorem moves_expectspace (h : Moves R) (remote : IrRemote) (exdelta : Int) (b : Rbuf) :
    R b (expectspace remote exdelta b).2 := by
  have hsync := moves_syncPendingPulse h remote b
  unfold expectspace
  generalize syncPendingPulse remote b = x at hsync ⊢
  obtain ⟨ok, b1⟩ := x
  cases ok with
  | false => exact hsync
  | true =>
    have hread := h.trans hsync (moves_getNextSpace h (b1.pendings + exdelta) b1)
    have hset := h.trans hread (moves_setPendingSpace h 0 _)
    exact moves_ite hread (moves_ite (moves_ite hread (moves_ite hread hset)) hread)

/-- Wherever a step that may not end does end. -/
def Lands {β : Type} (R : Rbuf → Rbuf → Prop) (b : Rbuf) (buf : β → Rbuf) (x : Option β) : Prop :=
  ∀ y, x = some y → R b (buf y)

theorem lands_none {β : Type} {b : Rbuf} {buf : β → Rbuf} : Lands R b buf none :=
  fun _ h => nomatch h

theorem lands_some {β : Type} {b : Rbuf} {buf : β → Rbuf} {y : β} (h : R b (buf y)) :
    Lands R b buf (some y) := by
  rintro z ⟨⟩
  exact h

theorem Lands.ite {β : Type} {p : Prop} [Decidable p] {b : Rbuf} {buf : β → Rbuf} {x y : Option β}
    (hx : Lands R b buf x) (hy : Lands R b buf y) : Lands R b buf (if p then x else y) := by
  split
  · exact hx
  · exact hy

theorem Lands.after {β : Type} {b b1 : Rbuf} {buf : β → Rbuf} {x : Option β} (h : Moves R)
    (hb : R b b1) (hx : Lands R b1 buf x) : Lands R b buf x :=
  fun y hy => h.trans hb (hx y hy)

theorem Lands.map {β γ : Type} {b : Rbuf} {buf : β → Rbuf} {buf' : γ → Rbuf} {f : β → γ}
    {x : Option β} (hx : Lands R b buf x) (hf : ∀ y, buf' (f y) = buf y) :
    Lands R b buf' (x.map f) := by
  intro y hy
  obtain ⟨z, hz, rfl⟩ := Option.map_eq_some_iff.mp hy
  rw [hf]
  exact hx z hz

/-- A helper whose call is guarded. -/
theorem moves_guarded (h : Moves R) {p : Prop} [Decidable p] {b : Rbuf} {x : Bool × Rbuf}
    (hx : R b x.2) : R b (if p then x else (true, b)).2 :=
  moves_ite hx (h.refl b)

theorem moves_expectone (h : Moves R) (remote : IrRemote) (bit : Int) (b : Rbuf) :
    R b (expectone remote bit b).2 := by
  have hspace := moves_guarded h (p := remote.sone > 0) (moves_expectspace h remote remote.sone b)
  have hpulse := moves_guarded h (p := remote.pone > 0) (moves_expectpulse h remote remote.pone b)
  unfold expectone
  split
  · dsimp only
    generalize (if rc6Bit remote bit = true then (2 : Int) else 1) = k
    have hspace := moves_guarded h (p := remote.sone > 0)
      (moves_expectspace h remote (k * remote.sone) b)
    split
    · next b1 he =>
      rw [he] at hspace
      exact h.trans hspace (moves_unget h 1 b1)
    · next b1 he =>
      rw [he] at hspace
      exact h.trans hspace (moves_setPendingPulse h _ b1)
  · split
    · split
      · next b1 he =>
        rw [he] at hspace
        exact h.trans hspace (moves_unget h 1 b1)
      · next b1 he =>
        rw [he] at hspace
        have hpulse := h.trans hspace
          (moves_guarded h (p := remote.pone > 0) (moves_expectpulse h remote remote.pone b1))
        split
        · next b2 he =>
          rw [he] at hpulse
          exact h.trans hpulse (moves_unget h 2 b2)
        · next b2 he =>
          rw [he] at hpulse
          exact hpulse
    · split
      · next b1 he =>
        rw [he] at hpulse
        exact h.trans hpulse (moves_unget h 1 b1)
      · next b1 he =>
        rw [he] at hpulse
        have hspace := h.trans hpulse
          (moves_guarded h (p := remote.sone > 0) (moves_expectspace h remote remote.sone b1))
        split
        · split
          · next b2 he =>
            rw [he] at hspace
            exact h.trans hspace (moves_unget h 2 b2)
          · next b2 he =>
            rw [he] at hspace
            exact hspace
        · exact h.trans hpulse (moves_setPendingSpace h _ b1)

theorem moves_expectzero (h : Moves R) (remote : IrRemote) (bit : Int) (b : Rbuf) :
    R b (expectzero remote bit b).2 := by
  have hspace := moves_guarded h (p := remote.szero > 0) (moves_expectspace h remote remote.szero b)
  have hpulse := moves_expectpulse h remote remote.pzero b
  unfold expectzero
  split
  · dsimp only
    generalize (if rc6Bit remote bit = true then (2 : Int) else 1) = k
    have hpulse := moves_expectpulse h remote (k * remote.pzero) b
    split
    · next b1 he =>
      rw [he] at hpulse
      exact h.trans hpulse (moves_unget h 1 b1)
    · next b1 he =>
      rw [he] at hpulse
      exact h.trans hpulse (moves_setPendingSpace h _ b1)
  · split
    · split
      · next b1 he =>
        rw [he] at hspace
        exact h.trans hspace (moves_unget h 1 b1)
      · next b1 he =>
        rw [he] at hspace
        have hpulse := h.trans hspace
          (moves_guarded h (p := remote.pzero > 0) (moves_expectpulse h remote remote.pzero b1))
        split
        · next b2 he =>
          rw [he] at hpulse
          exact h.trans hpulse (moves_unget h 2 b2)
        · next b2 he =>
          rw [he] at hpulse
          exact hpulse
    · split
      · next b1 he =>
        rw [he] at hpulse
        exact h.trans hpulse (moves_unget h 1 b1)
      · next b1 he =>
        rw [he] at hpulse
        have hspace := h.trans hpulse (moves_expectspace h remote remote.szero b1)
        split
        · split
          · next b2 he =>
            rw [he] at hspace
            exact h.trans hspace (moves_unget h 2 b2)
          · next b2 he =>
            rw [he] at hspace
            exact hspace
        · exact h.trans hpulse (moves_setPendingSpace h _ b1)

theorem moves_syncLoop (h : Moves R) (last : IrRemote) (n : Nat) (deltas : Int) (b : Rbuf) :
    R b (syncLoop last n deltas b).2 := by
  induction n generalizing deltas b with
  | zero =>
    rw [syncLoop]
    have h1 := moves_getNextPulse h 1000000 b
    have h2 := h.trans h1 (moves_getNextSpace h 1000000 _)
    exact moves_ite (h.refl b) (moves_ite h1 (moves_ite h2 h2))
  | succ n ih =>
    rw [syncLoop]
    have h1 := moves_getNextPulse h 1000000 b
    have h2 := h.trans h1 (moves_getNextSpace h 1000000 _)
    exact moves_ite (h.refl b) (moves_ite h1 (moves_ite h2 (h.trans h2 (ih _ _))))

theorem moves_syncRecBuffer (h : Moves R) (last : Option IrRemote) (remote : IrRemote) (b : Rbuf) :
    R b (syncRecBuffer last remote b).2.2 := by
  have hread := moves_getNextSpace h 1000000 b
  unfold syncRecBuffer
  generalize getNextSpace 1000000 b = x at hread ⊢
  obtain ⟨deltas, b1⟩ := x
  dsimp only at hread ⊢
  split
  · exact hread
  · cases last with
    | none => exact h.trans hread (h.move rfl rfl rfl)
    | some last =>
      have hloop := h.trans hread (moves_syncLoop h last REC_SYNC deltas b1)
      dsimp only
      generalize syncLoop last REC_SYNC deltas b1 = y at hloop ⊢
      obtain ⟨deltas', b2⟩ := y
      dsimp only at hloop ⊢
      split
      · exact h.trans hread (h.move rfl rfl rfl)
      · split
        · exact hloop
        · exact h.trans hloop (h.move rfl rfl rfl)

/-- One helper after the other, as long as they succeed. -/
theorem moves_chain (h : Moves R) {b : Rbuf} {x : Bool × Rbuf} {f : Rbuf → Bool × Rbuf}
    (hx : R b x.2) (hf : ∀ b1, R b1 (f b1).2) :
    R b (match x with | (false, b) => (false, b) | (true, b) => f b).2 := by
  obtain ⟨ok, b1⟩ := x
  cases ok with
  | false => exact hx
  | true => exact h.trans hx (hf b1)

theorem moves_getHeader (h : Moves R) (remote : IrRemote) (b : Rbuf) :
    R b (getHeader remote b).2 := by
  have hpulse := fun d b => moves_expectpulse h remote d b
  have hspace := fun d b => moves_expectspace h remote d b
  unfold getHeader
  split
  · have h1 := moves_getNextPulse h remote.phead b
    have h2 := h.trans h1 (moves_getNextSpace h remote.shead _)
    have h3 := h.trans h2 (moves_unget h 2 _)
    exact moves_ite (h.trans h1 (moves_unget h 1 _)) (moves_ite h3 (moves_ite h2 h3))
  · split
    · exact moves_chain h (hpulse _ _) fun b1 => moves_chain h (hspace _ _) fun b2 =>
        moves_chain h (hpulse _ _) fun b3 => moves_chain h (hspace _ _) fun b4 =>
        moves_chain h (hpulse _ _) fun b5 => hspace _ _
    · split
      · exact moves_chain h (moves_syncPendingSpace h remote b) fun b1 =>
          moves_setPendingPulse h _ b1
      · have hhead := hpulse remote.phead b
        split
        · next b1 he =>
          rw [he] at hhead
          exact h.trans hhead (moves_unget h 1 b1)
        · next b1 he =>
          rw [he] at hhead
          have hread := h.trans hhead (moves_getNextSpace h remote.shead b1)
          split
          · exact moves_ite
              (moves_ite hread (h.trans hread (moves_unget h 2 _)))
              (h.trans hread (moves_setPendingSpace h _ _))
          · exact h.trans hhead (moves_setPendingSpace h _ b1)

/-! ## 2. The parts of a frame -/

theorem moves_getFoot (h : Moves R) (remote : IrRemote) (b : Rbuf) : R b (getFoot remote b).2 :=
  moves_chain h (moves_expectspace h remote remote.sfoot b) fun b1 =>
    moves_expectpulse h remote remote.pfoot b1

theorem moves_getLead (h : Moves R) (remote : IrRemote) (b : Rbuf) : R b (getLead remote b).2 :=
  moves_ite (h.refl b) (moves_chain h (moves_syncPendingSpace h remote b) fun b1 =>
    moves_setPendingPulse h _ b1)

theorem moves_getTrail (h : Moves R) (remote : IrRemote) (b : Rbuf) : R b (getTrail remote b).2 :=
  moves_chain h (moves_guarded h (moves_expectpulse h remote remote.ptrail b)) fun b1 =>
    moves_guarded h (moves_syncPendingPulse h remote b1)

theorem moves_getGap (h : Moves R) (remote : IrRemote) (gap : Int) (b : Rbuf) :
    R b (getGap remote gap b).2 := by
  have hread := h.read (gap - (gap * remote.eps).tdiv 100) b
  exact moves_ite hread (moves_ite hread (h.trans hread (moves_unget h 1 _)))

theorem moves_getRepeat (h : Moves R) (remote : IrRemote) (b : Rbuf) :
    R b (getRepeat remote b).2 := by
  have htail := fun b1 => moves_chain h (moves_getTrail h remote b1) fun b2 =>
    moves_getGap h remote (gapAfterRepeat remote (minGap remote) b2.sum) b2
  refine moves_chain h (moves_getLead h remote b) fun b1 => moves_chain h (moves_ite ?_ ?_) htail
  · exact moves_chain h (moves_expectspace h remote remote.srepeat b1) fun b2 =>
      moves_expectpulse h remote remote.prepeat b2
  · exact moves_chain h (moves_expectpulse h remote remote.prepeat b1) fun b2 =>
      moves_setPendingSpace h _ b2

/-! ## 3. `get_data` -/

theorem moves_getRcmm (h : Moves R) (remote : IrRemote) (n : Nat) (code : IrCode) (b : Rbuf) :
    R b (getRcmm remote n code b).2 := by
  induction n generalizing code b with
  | zero => exact h.refl b
  | succ n ih =>
    have h1 := moves_getNextPulse h (remote.pzero + remote.pone + remote.ptwo + remote.pthree) b
    have h2 := h.trans h1
      (moves_getNextSpace h (remote.szero + remote.sone + remote.stwo + remote.sthree) _)
    rw [getRcmm]
    exact moves_ite h2 (moves_ite (h.trans h2 (ih _ _)) (moves_ite (h.trans h2 (ih _ _))
      (moves_ite (h.trans h2 (ih _ _)) (moves_ite (h.trans h2 (ih _ _)) h2))))

theorem moves_getBo (h : Moves R) (remote : IrRemote) (n : Nat) (lastbit : Bool) (code : IrCode)
    (b : Rbuf) : R b (getBo remote n lastbit code b).2 := by
  induction n generalizing lastbit code b with
  | zero => exact h.refl b
  | succ n ih =>
    have h1 := moves_getNextPulse h (remote.pzero + remote.pone + remote.ptwo + remote.pthree) b
    have h2 := h.trans h1
      (moves_getNextSpace h (remote.szero + remote.sone + remote.stwo + remote.sthree) _)
    rw [getBo]
    exact moves_ite h2 (moves_ite (h.trans h2 (ih _ _ _)) (moves_ite (h.trans h2 (ih _ _ _)) h2))

theorem moves_getXmp (h : Moves R) (remote : IrRemote) (n : Nat) (code : IrCode) (b : Rbuf) :
    R b (getXmp remote n code b).2 := by
  induction n generalizing code b with
  | zero => exact h.refl b
  | succ n ih =>
    have h1 := moves_getNextPulse h remote.pzero b
    have h2 := h.trans h1 (moves_getNextSpace h (remote.szero + 16 * remote.sone) _)
    rw [getXmp]
    exact moves_ite h2 (moves_ite h2 (h.trans h2 (ih _ _)))

theorem moves_getBits (h : Moves R) (n : Nat) (bit : Int) (code : IrCode) (remote : IrRemote)
    (b : Rbuf) : R b (getBits n bit code remote b).2.2 := by
  induction n generalizing bit code remote b with
  | zero => exact h.refl b
  | succ n ih =>
    have hone := moves_expectone h (goldstarOne remote bit) bit b
    rw [getBits]
    split
    · next b1 he =>
      rw [he] at hone
      exact h.trans hone (ih _ _ _ _)
    · next b1 he =>
      rw [he] at hone
      have hzero := h.trans hone (moves_expectzero h (goldstarOne remote bit) bit b1)
      split
      · next b2 he =>
        rw [he] at hzero
        exact h.trans hzero (ih _ _ _ _)
      · next b2 he =>
        rw [he] at hzero
        exact hzero

theorem moves_getGrundig (h : Moves R) (remote : IrRemote) (bits : Int) (fuel : Nat)
    (i laststate : Int) (code : IrCode) (b : Rbuf) :
    Lands R b (·.2) (getGrundig remote bits fuel i laststate code b) := by
  induction fuel generalizing i laststate code b with
  | zero => exact lands_none
  | succ fuel ih =>
    have h1 := moves_getNextSpace h (remote.szero + remote.sone + remote.stwo + remote.sthree) b
    have h2 := h.trans h1
      (moves_getNextPulse h (remote.pzero + remote.pone + remote.ptwo + remote.pthree) _)
    have hnext := fun i l c => Lands.after h h2 (ih i l c _)
    rw [getGrundig]
    exact .ite (lands_some (h.refl b)) (.ite (lands_some h2) (.ite (lands_some h2)
      (.ite (hnext _ _ _) (.ite (hnext _ _ _) (.ite (hnext _ _ _) (.ite (hnext _ _ _)
        (.ite (hnext _ _ _) (lands_some h2))))))))

/-- `moves_ite` for a turn of the serial loop. -/
theorem serial_ite {p : Prop} [Decidable p] {b : Rbuf} {x y : Bool × SerialState}
    (hx : R b x.2.buf) (hy : R b y.2.buf) : R b (if p then x else y).2.buf := by
  split
  · exact hx
  · exact hy

theorem moves_serialRead (h : Moves R) (remote : IrRemote) (cfg : SerialConfig) (s : SerialState) :
    R s.buf (serialRead remote cfg s).buf := by
  unfold serialRead
  split
  · dsimp only
    split
    · exact moves_getNextSpace h cfg.maxSpace s.buf
    · exact moves_getNextPulse h cfg.maxPulse s.buf
  · exact h.refl _

theorem moves_serialByte (h : Moves R) (remote : IrRemote) (cfg : SerialConfig) {b : Rbuf}
    (s : SerialState) (hs : R b s.buf) : R b (serialByte remote cfg s).2.buf := by
  unfold serialByte
  refine serial_ite (serial_ite hs ?_) hs
  exact serial_ite hs (h.trans hs (moves_setPendingSpace h _ _))

/-- The level is turned over once it is used up. -/
theorem serial_turn {b : Rbuf} {r : Bool × SerialState} (hr : R b r.2.buf) :
    R b (match r with
      | (false, s) => (false, s)
      | (true, s) => (true, { s with space := if s.delta = 0 then !s.space else s.space })).2.buf := by
  obtain ⟨ok, s⟩ := r
  cases ok with
  | false => exact hr
  | true => exact hr

theorem moves_serialStep (h : Moves R) (remote : IrRemote) (cfg : SerialConfig) (s : SerialState) :
    R s.buf (serialStep remote cfg s).2.buf := by
  have hread := moves_serialRead h remote cfg s
  unfold serialStep
  generalize serialRead remote cfg s = s1 at hread ⊢
  dsimp only
  refine serial_ite hread ?_
  generalize (if s1.space = true then s1.buf.pendings else s1.buf.pendingp) = pending
  split
  · exact hread
  · next delta _ =>
    refine serial_ite ?_ (serial_turn ?_)
    · exact serial_ite (h.trans hread (h.move rfl rfl rfl)) (h.trans hread (h.move rfl rfl rfl))
    · refine serial_ite (moves_serialByte h remote cfg _ hread) ?_
      exact serial_ite hread hread

theorem moves_serialLoop (h : Moves R) (remote : IrRemote) (cfg : SerialConfig) (fuel : Nat)
    (s : SerialState) : Lands R s.buf (·.2.buf) (serialLoop remote cfg fuel s) := by
  induction fuel generalizing s with
  | zero => exact lands_none
  | succ fuel ih =>
    have hstep := moves_serialStep h remote cfg s
    rw [serialLoop]
    refine .ite ?_ (lands_some (h.refl _))
    split
    · next s1 he =>
      rw [he] at hstep
      exact lands_some hstep
    · next s1 he =>
      rw [he] at hstep
      exact .after h hstep (ih s1)

/-- The serial loop ends with a rest of a space, and pushing it back changes
    what was recorded. -/
def pushesBack (fuel : Nat) (remote : IrRemote) (bits : Int) (b : Rbuf) : Bool :=
  let cfg := serialConfig remote bits
  let b := setPendingPulse cfg.base b
  match serialLoop remote cfg fuel { space := b.pendingp == 0, buf := b } with
  | some (true, s) =>
    s.gapDelta != 0 && (ungetRecBufferDelta s.gapDelta s.buf).data != s.buf.data
  | _ => false

theorem moves_getSerial (h : Moves R) (fuel : Nat) (remote : IrRemote) (bits : Int) (b : Rbuf)
    (hpush : pushesBack fuel remote bits b = false) :
    Lands R b (·.2) (getSerial fuel remote bits b) := by
  have hloop := moves_serialLoop h remote (serialConfig remote bits) fuel
    { space := (setPendingPulse (serialConfig remote bits).base b).pendingp == 0,
      buf := setPendingPulse (serialConfig remote bits).base b }
  have hstart := moves_setPendingPulse h (serialConfig remote bits).base b
  unfold getSerial
  unfold pushesBack at hpush
  dsimp only at hpush hloop ⊢
  split
  · exact lands_none
  · next s he => exact lands_some (h.trans hstart (hloop _ he))
  · next s he =>
    have hend : R b s.buf := h.trans hstart (hloop _ he)
    rw [he] at hpush
    dsimp only at hpush
    refine lands_some (h.trans hend ?_)
    split
    · next hne =>
      rw [bne_iff_ne.mpr hne, Bool.true_and, bne_eq_false_iff_eq] at hpush
      exact h.move hpush rfl rfl
    · exact h.move rfl rfl rfl

/-- A call of `get_data`. -/
structure DataCall where
  remote : IrRemote
  bits : Int
  done : Int
  buf : Rbuf
  deriving DecidableEq, Repr

def DataCall.run (fuel : Nat) (c : DataCall) : Option (IrCode × IrRemote × Rbuf) :=
  getData fuel c.remote c.bits c.done c.buf

/-- The branch of `get_data` for the serial remotes is reached. -/
def serialBranch (remote : IrRemote) : Bool :=
  !isRcmm remote && !isGrundig remote && isSerial remote

/-- The call takes the branch `if(gap_delta) unget_rec_buffer_delta(gap_delta)`
    and changes a recorded sample by it. -/
def DataCall.rewrites (fuel : Nat) (c : DataCall) : Bool :=
  serialBranch c.remote && pushesBack fuel c.remote c.bits c.buf

/-- **`get_data`**, unless it rewrites a sample. -/
theorem moves_dataCall (h : Moves R) (fuel : Nat) (c : DataCall) (hc : c.rewrites fuel = false) :
    Lands R c.buf (·.2.2) (c.run fuel) := by
  have hspace := moves_syncPendingSpace h c.remote c.buf
  have hpulse := moves_syncPendingPulse h c.remote c.buf
  unfold DataCall.rewrites serialBranch at hc
  unfold DataCall.run getData
  split
  · refine .ite (lands_some (h.refl _)) ?_
    split
    · next he =>
      rw [he] at hspace
      exact lands_some hspace
    · next b1 he =>
      rw [he] at hspace
      exact lands_some (h.trans hspace (moves_getRcmm h _ _ _ b1))
  · next hrcmm =>
    split
    · refine .ite (lands_some (h.refl _)) ?_
      split
      · next he =>
        rw [he] at hpulse
        exact lands_some hpulse
      · next b1 he =>
        rw [he] at hpulse
        exact .after h hpulse ((moves_getGrundig h _ _ _ _ _ _ b1).map fun _ => rfl)
    · next hgrundig =>
      split
      · next hserial =>
        rw [Bool.not_eq_true] at hrcmm hgrundig
        rw [hrcmm, hgrundig, hserial] at hc
        exact (moves_getSerial h fuel _ _ _ hc).map fun _ => rfl
      · refine .ite (lands_some (moves_getBo h _ _ _ _ _)) (.ite (.ite (lands_some (h.refl _)) ?_) ?_)
        · split
          · next he =>
            rw [he] at hspace
            exact lands_some hspace
          · next b1 he =>
            rw [he] at hspace
            exact lands_some (h.trans hspace (moves_getXmp h _ _ _ b1))
        · exact lands_some (moves_getBits h _ _ _ _ _)

/-! ## 4. `receive_decode` -/

end Helpers

/-- What `get_post` does in front of `get_data`. -/
def postFront (remote : IrRemote) (b : Rbuf) : Bool × Rbuf :=
  if remote.postP > 0 ∧ remote.postS > 0 then
    match expectpulse remote remote.postP b with
    | (false, b) => (false, b)
    | (true, b) => (true, setPendingSpace remote.postS b)
  else (true, b)

def preCall (remote : IrRemote) (b : Rbuf) : DataCall := ⟨remote, remote.preDataBits, 0, b⟩

def codeCall (remote : IrRemote) (b : Rbuf) : DataCall :=
  ⟨remote, remote.bits, remote.preDataBits, b⟩

def postCall (remote : IrRemote) (b : Rbuf) : DataCall :=
  ⟨remote, remote.postDataBits, remote.preDataBits + remote.bits, b⟩

/-- The calls of `get_data` made by `get_post`. -/
def postCalls (remote : IrRemote) (b : Rbuf) : List DataCall :=
  match postFront remote b with
  | (false, _) => []
  | (true, b) => [postCall remote b]

/-- The calls of `get_data` for the code and the post data. -/
def codeCalls (fuel : Nat) (remote : IrRemote) (b : Rbuf) : List DataCall :=
  codeCall remote b ::
    match (codeCall remote b).run fuel with
    | none => []
    | some (code, remote, b) =>
      if code = irFail then [] else if hasPost remote then postCalls remote b else []

/-- The calls of `get_data` made for a frame. -/
def frameCalls (fuel : Nat) (remote : IrRemote) (b : Rbuf) : List DataCall :=
  match getLead remote b with
  | (false, _) => []
  | (true, b) =>
    if hasPre remote then
      preCall remote b ::
        match getPre fuel remote b with
        | none => []
        | some (pre, remote, b) =>
          if hasPre remote ∧ pre = irFail then [] else codeCalls fuel remote b
    else codeCalls fuel remote b

/-- The calls of `get_data` behind the front. -/
def restCalls (fuel : Nat) (env : DecodeEnv) (remote : IrRemote) (b : Rbuf) : List DataCall :=
  if isRaw remote ∨ env.recMode = LIRC_MODE_LIRCCODE then [] else frameCalls fuel remote b

/-- **The calls of `get_data`** that `receive_decode` makes, each with the
    buffer it finds. -/
def dataCalls (fuel : Nat) (env : DecodeEnv) (remote : IrRemote) (b : Rbuf) : List DataCall :=
  if isSampleMode env.recMode then
    match decodeFront env remote b with
    | (.frame _ _, remote, b) => restCalls fuel env remote b
    | _ => []
  else restCalls fuel env remote b

section Frame

variable {R : Rbuf → Rbuf → Prop}

theorem moves_postFront (h : Moves R) (remote : IrRemote) (b : Rbuf) :
    R b (postFront remote b).2 :=
  moves_ite (moves_chain h (moves_expectpulse h remote remote.postP b) fun b1 =>
    moves_setPendingSpace h _ b1) (h.refl b)

theorem getPost_eq (fuel : Nat) (remote : IrRemote) (b : Rbuf) :
    getPost fuel remote b =
      match postFront remote b with
      | (false, b) => some (irFail, remote, b)
      | (true, b) => (postCall remote b).run fuel := rfl

theorem moves_getPost (h : Moves R) (fuel : Nat) (remote : IrRemote) (b : Rbuf)
    (hcalls : ∀ c ∈ postCalls remote b, R b c.buf → c.rewrites fuel = false) :
    Lands R b (·.2.2) (getPost fuel remote b) := by
  have hfront := moves_postFront h remote b
  rw [getPost_eq]
  unfold postCalls at hcalls
  split
  · next b1 he =>
    rw [he] at hfront
    exact lands_some hfront
  · next b1 he =>
    rw [he] at hfront hcalls
    exact .after h hfront (moves_dataCall h fuel _ (hcalls _ (List.mem_singleton.mpr rfl) hfront))

theorem moves_getPre (h : Moves R) (fuel : Nat) (remote : IrRemote) (b : Rbuf)
    (hcall : (preCall remote b).rewrites fuel = false) :
    Lands R b (·.2.2) (getPre fuel remote b) := by
  have hdata := moves_dataCall h fuel _ hcall
  unfold getPre
  split
  · exact lands_none
  · next pre r b1 he =>
    have h1 : R b b1 := hdata _ he
    have hpulse := h.trans h1 (moves_expectpulse h r r.preP b1)
    refine .ite (lands_some h1) (.ite ?_ (lands_some h1))
    split
    · next b2 he =>
      rw [he] at hpulse
      exact lands_some hpulse
    · next b2 he =>
      rw [he] at hpulse
      exact lands_some (h.trans hpulse (moves_setPendingSpace h _ b2))

/-- What follows the code: post data, trail, foot and gap only move. -/
theorem moves_tail (h : Moves R) (header : Bool) (remote : IrRemote) (values : IrCode × IrCode × IrCode)
    (b : Rbuf) :
    Lands R b (·.2.2) (match getTrail remote b with
      | (false, b) => some (none, remote, b)
      | (true, b) =>
        match (if hasFoot remote then getFoot remote b else (true, b)) with
        | (false, b) => some (none, remote, b)
        | (true, b) =>
          let b := if header && isConst remote && hasFlag remote NO_HEAD_REP then
              { b with sum := b.sum - (remote.phead + remote.shead) }
            else b
          match getGap remote (gapAfterFrame remote b.sum) b with
          | (false, b) => some (none, remote, b)
          | (true, b) => some (some values, remote, b)) := by
  have htrail := moves_getTrail h remote b
  split
  · next b1 he =>
    rw [he] at htrail
    exact lands_some htrail
  · next b1 he =>
    rw [he] at htrail
    have hfoot := h.trans htrail
      (moves_guarded h (p := hasFoot remote) (moves_getFoot h remote b1))
    split
    · next b2 he =>
      rw [he] at hfoot
      exact lands_some hfoot
    · next b2 he =>
      rw [he] at hfoot
      dsimp only
      generalize hb : (if (header && isConst remote && hasFlag remote NO_HEAD_REP) = true then
        ({ b2 with sum := b2.sum - (remote.phead + remote.shead) } : Rbuf) else b2) = b3
      have hsum : R b2 b3 := by
        rw [← hb]
        split
        · exact h.move rfl rfl rfl
        · exact h.refl b2
      have hgap := h.trans hfoot (h.trans hsum (moves_getGap h remote
        (gapAfterFrame remote b3.sum) b3))
      split
      · next b4 he =>
        rw [he] at hgap
        exact lands_some hgap
      · next b4 he =>
        rw [he] at hgap
        exact lands_some hgap

theorem moves_decodeFrame (h : Moves R) (fuel : Nat) (header : Bool) (remote : IrRemote) (b : Rbuf)
    (hcalls : ∀ c ∈ frameCalls fuel remote b, R b c.buf → c.rewrites fuel = false) :
    Lands R b (·.2.2) (decodeFrame fuel header remote b) := by
  have hlead := moves_getLead h remote b
  unfold decodeFrame
  unfold frameCalls at hcalls
  split
  · next b1 he =>
    rw [he] at hlead
    exact lands_some hlead
  · next b1 he =>
    rw [he] at hlead hcalls
    dsimp only at hcalls
    refine .after h hlead ?_
    split
    · exact lands_none
    · next pre r b2 hpre =>
      have hfirst : R b1 b2 ∧ (¬ (hasPre r ∧ pre = irFail) →
          ∀ c ∈ codeCalls fuel r b2, R b2 c.buf → c.rewrites fuel = false) := by
        split at hpre
        · next hp =>
          rw [if_pos hp] at hcalls
          have hmoved : R b1 b2 :=
            moves_getPre h fuel remote b1 (hcalls _ List.mem_cons_self hlead) _ hpre
          refine ⟨hmoved, ?_⟩
          intro hno c hc hreach
          rw [hpre] at hcalls
          dsimp only at hcalls
          rw [if_neg hno] at hcalls
          exact hcalls c (List.mem_cons_of_mem _ hc) (h.trans hlead (h.trans hmoved hreach))
        · next hp =>
          rw [if_neg hp] at hcalls
          cases hpre
          exact ⟨h.refl b1, fun _ c hc hreach => hcalls c hc (h.trans hlead hreach)⟩
      obtain ⟨h2, hcalls⟩ := hfirst
      refine .after h h2 ?_
      split
      · exact lands_some (h.refl b2)
      · next hno =>
        have hcalls := hcalls hno
        unfold codeCalls at hcalls
        split
        · exact lands_none
        · next code r3 b3 hcode =>
          have h3 : R b2 b3 :=
            moves_dataCall h fuel _ (hcalls _ List.mem_cons_self (h.refl b2)) _ hcode
          have hrun : (codeCall r b2).run fuel = some (code, r3, b3) := hcode
          rw [hrun] at hcalls
          dsimp only at hcalls
          refine .after h h3 ?_
          split
          · exact lands_some (h.refl b3)
          · next hne =>
            rw [if_neg hne] at hcalls
            split
            · exact lands_none
            · next post r4 b4 hpost =>
              have h4 : R b3 b4 := by
                split at hpost
                · next hp =>
                  rw [if_pos hp] at hcalls
                  exact moves_getPost h fuel r3 b3
                    (fun c hc hreach => hcalls c (List.mem_cons_of_mem _ hc) (h.trans h3 hreach))
                    _ hpost
                · cases hpost
                  exact h.refl b3
              refine .after h h4 ?_
              split
              · exact lands_some (h.refl b4)
              · exact moves_tail h header r4 (pre, code, post) b4

theorem moves_matchSignals (h : Moves R) (remote : IrRemote) (signals : List Int) (b : Rbuf) :
    R b (matchSignals remote signals b).2 := by
  match signals with
  | [] => exact h.refl b
  | [p] => exact moves_expectpulse h remote p b
  | p :: s :: signals =>
    exact moves_chain h (moves_expectpulse h remote p b) fun b1 =>
      moves_chain h (moves_expectspace h remote s b1) fun b2 =>
        moves_matchSignals h remote signals b2

theorem moves_rewind (h : Moves R) (b : Rbuf) : R b (rewindRecBuffer b) := h.move rfl rfl rfl

theorem moves_decodeRaw (h : Moves R) (env : DecodeEnv) (codes : List IrNcode) (remote : IrRemote)
    (b : Rbuf) : R b (decodeRaw env codes remote b).2.2 := by
  induction codes generalizing remote b with
  | nil => exact h.refl b
  | cons c codes ih =>
    have hmatch := moves_matchSignals h remote (c.signals.getD []) b
    rw [decodeRaw]
    split
    · next b1 he =>
      rw [he] at hmatch
      have hsync := h.trans (moves_rewind h b1)
        (moves_syncRecBuffer h env.lastRemote remote (rewindRecBuffer b1))
      dsimp only
      exact h.trans hmatch (h.trans hsync (ih _ _))
    · next b1 he =>
      rw [he] at hmatch
      dsimp only
      have hgap := h.trans hmatch (moves_getGap h remote
        (if isConst remote then minGap remote - b1.sum else minGap remote) b1)
      split
      · next b2 he =>
        rw [he] at hgap
        exact h.trans hgap (ih _ _)
      · next b2 he =>
        rw [he] at hgap
        exact hgap

theorem moves_frontHeader (h : Moves R) (remote : IrRemote) (sync : Int) (b : Rbuf) :
    R b (frontHeader remote sync b).2 := by
  have hheader := moves_getHeader h remote b
  unfold frontHeader
  split
  · split
    · next b1 he =>
      rw [he] at hheader
      exact hheader
    · next b1 he =>
      rw [he] at hheader
      exact moves_ite hheader hheader
  · exact h.refl b

theorem moves_decodeFront (h : Moves R) (env : DecodeEnv) (remote : IrRemote) (b : Rbuf) :
    R b (decodeFront env remote b).2.2 := by
  have hstart : R b { rewindRecBuffer b with isBiphase := isBiphase remote } := h.move rfl rfl rfl
  have hsync := h.trans hstart (moves_syncRecBuffer h env.lastRemote remote _)
  unfold decodeFront
  dsimp only
  generalize syncRecBuffer env.lastRemote remote
    { rewindRecBuffer b with isBiphase := isBiphase remote } = x at hsync ⊢
  obtain ⟨sync, r, b1⟩ := x
  dsimp only at hsync ⊢
  split
  · exact hsync
  · split
    · have hhead := h.trans hsync (moves_guarded h
        (p := (hasFlag r REPEAT_HEADER && hasHeader r) = true) (moves_getHeader h r b1))
      split
      · next b2 he =>
        rw [he] at hhead
        exact hhead
      · next b2 he =>
        rw [he] at hhead
        have hrep := h.trans hhead (moves_getRepeat h r b2)
        split
        · next b3 he =>
          rw [he] at hrep
          cases r.lastCode with
          | none => exact hrep
          | some i => exact hrep
        · next b3 he =>
          rw [he] at hrep
          have hagain := h.trans hrep (h.trans (moves_rewind h b3)
            (moves_syncRecBuffer h env.lastRemote r (rewindRecBuffer b3)))
          exact h.trans hagain (moves_frontHeader h _ sync _)
    · exact h.trans hsync (moves_frontHeader h r sync b1)

theorem moves_decodeRest (h : Moves R) (fuel : Nat) (env : DecodeEnv) (sync : Int) (header : Bool)
    (remote : IrRemote) (b : Rbuf)
    (hcalls : ∀ c ∈ restCalls fuel env remote b, R b c.buf → c.rewrites fuel = false) :
    Lands R b (·.2.2) (decodeRest fuel env sync header remote b) := by
  have hraw := moves_decodeRaw h env remote.codes remote b
  unfold decodeRest
  unfold restCalls at hcalls
  split
  · refine .ite (lands_some (h.refl b)) ?_
    split
    · next he =>
      rw [he] at hraw
      exact lands_some hraw
    · next he =>
      rw [he] at hraw
      exact lands_some hraw
  · next hnotRaw =>
    split
    · exact .ite (lands_some (h.refl b)) (lands_some (h.move rfl rfl rfl))
    · next hmode =>
      rw [if_neg (not_or_intro hnotRaw hmode)] at hcalls
      have hframe := moves_decodeFrame h fuel header remote b hcalls
      split
      · exact lands_none
      · next he => exact lands_some (hframe _ he)
      · next he => exact lands_some (hframe _ he)

/-- **What `receive_decode` does to the buffer**, unless a serial remote
    rewrites a sample. -/
theorem moves_receiveDecode (h : Moves R) (fuel : Nat) (env : DecodeEnv) (remote : IrRemote)
    (b : Rbuf) (hcalls : ∀ c ∈ dataCalls fuel env remote b, R b c.buf → c.rewrites fuel = false) :
    Lands R b (·.2.2) (receiveDecode fuel env remote b) := by
  have hfront := moves_decodeFront h env remote b
  unfold receiveDecode
  unfold dataCalls at hcalls
  split
  · next hmode =>
    rw [if_pos hmode] at hcalls
    split
    · next he =>
      rw [he] at hfront
      exact lands_some hfront
    · next he =>
      rw [he] at hfront
      exact lands_some hfront
    · next sync header r b1 he =>
      rw [he] at hfront hcalls
      exact .after h hfront (moves_decodeRest h fuel env sync header r b1
        fun c hc hreach => hcalls c hc (h.trans hfront hreach))
  · next hmode =>
    rw [if_neg hmode] at hcalls
    exact moves_decodeRest h fuel env 0 false remote b hcalls

end Frame

end WinLirc
