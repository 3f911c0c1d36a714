/-
  File:      WinLirc/LevelEnds.lean
  Subject:   The loops of `get_data` that run on received time.

  Only the Grundig and the serial branch of `get_data` run on received time. A
  turn of the Grundig loop reads two samples. The serial loop takes parts of a
  sample off and reads the next one when nothing is left (`serial_ends`):

  * from one read to the next what is left to read and the level go down
    (`SerialState.rank`);
  * in between a turn takes something off the level, or, where the bit of that
    level takes no time, leads to the end of a byte, which the stop bit or the
    parity check settles (`SerialState.weight`).

  Where neither does, the loop goes on for ever (`serial_never`).
-/
import WinLirc.Receive
import WinLirc.Signal.Fuel

namespace WinLirc

open Signal

/-! ## 1. What is left to read -/

/-- The samples recorded in front of the read position, and those to come. -/
def Rbuf.left (b : Rbuf) : Nat := ((b.data.length : Int) - b.rptr).toNat + b.input.length

/-- **A read** that answers something leaves less; none leaves more. -/
theorem getNextRecBuffer_left (maxusec : Int) (b : Rbuf) :
    (getNextRecBuffer maxusec b).2.left ≤ b.left ∧
      ((getNextRecBuffer maxusec b).1 ≠ 0 → (getNextRecBuffer maxusec b).2.left < b.left) := by
  unfold getNextRecBuffer Rbuf.left Rbuf.wptr
  split
  · next hlt =>
    constructor
    · dsimp only
      omega
    · intro
      dsimp only
      omega
  · split
    · cases hin : b.input with
      | nil => exact ⟨by rw [hin], fun h => absurd rfl h⟩
      | cons x rest =>
        dsimp only
        split
        · exact ⟨by simp only [List.length_cons]; omega, fun h => absurd rfl h⟩
        · simp only [List.length_append, List.length_cons, List.length_nil]
          exact ⟨by omega, fun _ => by omega⟩
    · exact ⟨Nat.le_refl _, fun h => absurd rfl h⟩

theorem getNextPulse_left (m : Int) (b : Rbuf) :
    (getNextPulse m b).2.left ≤ b.left ∧
      ((getNextPulse m b).1 ≠ 0 → (getNextPulse m b).2.left < b.left) := by
  obtain ⟨hle, hlt⟩ := getNextRecBuffer_left m b
  unfold getNextPulse
  dsimp only
  split
  · exact ⟨hle, fun h => absurd rfl h⟩
  · next hne =>
    split
    · exact ⟨hle, fun h => absurd rfl h⟩
    · exact ⟨hle, fun _ => hlt hne⟩

theorem getNextSpace_left (m : Int) (b : Rbuf) :
    (getNextSpace m b).2.left ≤ b.left ∧
      ((getNextSpace m b).1 ≠ 0 → (getNextSpace m b).2.left < b.left) := by
  obtain ⟨hle, hlt⟩ := getNextRecBuffer_left m b
  unfold getNextSpace
  dsimp only
  split
  · exact ⟨hle, fun h => absurd rfl h⟩
  · next hne =>
    split
    · exact ⟨hle, fun h => absurd rfl h⟩
    · exact ⟨hle, fun _ => hlt hne⟩

/-! ## 2. The Grundig loop -/

/-- **The Grundig loop** takes a turn for each two samples. -/
theorem getGrundig_ends (remote : IrRemote) (bits : Int) (fuel : Nat) (i laststate : Int)
    (code : IrCode) (b : Rbuf) (hfuel : b.left < fuel) :
    Ended (getGrundig remote bits fuel i laststate code b) := by
  induction fuel generalizing i laststate code b with
  | zero => exact absurd hfuel (Nat.not_lt_zero _)
  | succ fuel ih =>
    obtain ⟨-, hs⟩ := getNextSpace_left
      (remote.szero + remote.sone + remote.stwo + remote.sthree) b
    rw [getGrundig]
    generalize getNextSpace (remote.szero + remote.sone + remote.stwo + remote.sthree) b = x at hs ⊢
    obtain ⟨deltas, b1⟩ := x
    obtain ⟨hp, -⟩ := getNextPulse_left
      (remote.pzero + remote.pone + remote.ptwo + remote.pthree) b1
    dsimp only at hs ⊢
    generalize getNextPulse (remote.pzero + remote.pone + remote.ptwo + remote.pthree) b1 = x
      at hp ⊢
    obtain ⟨deltap, b2⟩ := x
    dsimp only at hp ⊢
    refine .ite (ended_some _) (.ite_of (ended_some _) fun hne => ?_)
    have hlt := hs fun h => hne (.inl h)
    have hnext : ∀ i l c, Ended (getGrundig remote bits fuel i l c b2) :=
      fun i l c => ih i l c b2 (by omega)
    exact .ite (ended_some _) (.ite (hnext _ _ _) (.ite (hnext _ _ _) (.ite (hnext _ _ _)
      (.ite (hnext _ _ _) (.ite (hnext _ _ _) (ended_some _))))))

/-- **More fuel, same result.** -/
theorem getGrundig_mono (remote : IrRemote) (bits : Int) {fuel fuel' : Nat} (hle : fuel ≤ fuel')
    (i laststate : Int) (code : IrCode) (b : Rbuf) :
    Keep (getGrundig remote bits fuel i laststate code b)
      (getGrundig remote bits fuel' i laststate code b) := by
  induction fuel generalizing fuel' i laststate code b with
  | zero => exact fun _ h => nomatch h
  | succ fuel ih =>
    obtain ⟨k, rfl⟩ : ∃ k, fuel' = k + 1 := ⟨fuel' - 1, by omega⟩
    have hnext := fun i l c b => ih (Nat.le_of_succ_le_succ hle) i l c b
    rw [getGrundig, getGrundig]
    exact .ite (.refl _) (.ite (.refl _) (.ite (.refl _) (.ite (hnext _ _ _ _)
      (.ite (hnext _ _ _ _) (.ite (hnext _ _ _ _) (.ite (hnext _ _ _ _)
        (.ite (hnext _ _ _ _) (.refl _))))))))

/-! ## 3. The serial loop -/

/-- A turn of the serial loop, or its end. -/
def serialNext (remote : IrRemote) (cfg : SerialConfig) (s : SerialState) :
    (Bool × SerialState) ⊕ SerialState :=
  if s.received < cfg.bits ∨ s.stopBit then
    match serialStep remote cfg s with
    | (false, s) => .inl (false, s)
    | (true, s) => .inr s
  else .inl (true, s)

theorem serialLoop_fuelLoop (remote : IrRemote) (cfg : SerialConfig) :
    FuelLoop (serialNext remote cfg) (serialLoop remote cfg) where
  zero := fun _ => rfl
  result := by
    intro s y hn fuel
    unfold serialNext at hn
    rw [serialLoop]
    split at hn
    · next hc =>
      rw [if_pos hc]
      generalize serialStep remote cfg s = r at hn ⊢
      obtain ⟨more, s1⟩ := r
      cases more with
      | false => exact congrArg some (Sum.inl.inj hn)
      | true => exact nomatch hn
    · next hc =>
      rw [if_neg hc]
      exact congrArg some (Sum.inl.inj hn)
  turn := by
    intro s s' hn fuel
    unfold serialNext at hn
    split at hn
    · next hc =>
      rw [serialLoop, if_pos hc]
      generalize serialStep remote cfg s = r at hn ⊢
      obtain ⟨more, s1⟩ := r
      cases more with
      | false => exact nomatch hn
      | true => exact congrArg (serialLoop remote cfg fuel) (Sum.inr.inj hn)
    · exact nomatch hn

namespace SerialState

/-- What is to be taken off the level before its bits. -/
def pending (s : SerialState) : Int := if s.space then s.buf.pendings else s.buf.pendingp

/-- The time of a bit of the level. -/
def bitTime (remote : IrRemote) (s : SerialState) : Int :=
  if s.space then remote.sone else remote.pzero

/-- The level is over once it is used up. -/
def turned (s : SerialState) : SerialState :=
  { s with space := if s.delta = 0 then !s.space else s.space }

end SerialState

/-- The bits of a byte on the line. -/
def lineBits (remote : IrRemote) (cfg : SerialConfig) : Nat := remote.bitsInByte + cfg.parityBit

/-- The parity check lets a byte pass. -/
def parityPasses (remote : IrRemote) (parity : Bool) : Prop :=
  (remote.parity = IR_PARITY_EVEN → parity = false) ∧
    (remote.parity = IR_PARITY_ODD → parity = true)

/-- **What a turn does** to a state `s` with something left of the level, when
    the loop goes on. -/
inductive Turn (remote : IrRemote) (cfg : SerialConfig) (s s' : SerialState) : Prop
  /-- the stop bit ends the level -/
  | stop (hp : 0 < s.pending) (hs : s.stopBit = true) (hd : s'.delta = 0)
      (hspace : s'.space = false) (hbuf : s'.buf = setPendingSpace 0 (setPendingPulse cfg.base s.buf))
      (hstop : s'.stopBit = false)
  /-- a pending part is taken off -/
  | pending (hp : 0 < s.pending) (hs : s.stopBit = false) (d : Int)
      (hd : d = 0 ∨ (s.pending < s.delta ∧ d = s.delta - s.pending))
      (he : s' = SerialState.turned { s with
        delta := d, buf := setPendingSpace 0 (setPendingPulse 0 s.buf) })
  /-- a bit is taken off -/
  | bit (hp : s.pending ≤ 0) (d : Int)
      (hd : d = 0 ∨ (s.pending < s.delta ∧ d = s.delta - s.pending))
      (hbyte : (s.received + 1) % lineBits remote cfg ≠ 0) (code : IrCode)
      (he : s' = SerialState.turned { s with
        delta := d - (if s.bitTime remote > d then d else s.bitTime remote)
        received := s.received + 1, code := code, parity := s.parity ^^ s.space })
  /-- the last bit of a byte is taken off -/
  | byte (hp : s.pending ≤ 0) (d : Int)
      (hd : d = 0 ∨ (s.pending < s.delta ∧ d = s.delta - s.pending))
      (hbyte : (s.received + 1) % lineBits remote cfg = 0)
      (hparity : parityPasses remote (s.parity ^^ s.space)) (code : IrCode)
      (he : s' = SerialState.turned { s with
        delta := d - (if s.bitTime remote > d then d else s.bitTime remote)
        received := s.received + 1, code := code, parity := false
        buf := setPendingSpace cfg.stop s.buf, stopBit := true })
  /-- what is left is dropped -/
  | drop (hp : s.pending ≤ 0)
      (he : s' = SerialState.turned { s with delta := 0 })

theorem serialByte_cases {remote : IrRemote} {cfg : SerialConfig} {s s' : SerialState}
    (h : serialByte remote cfg s = (true, s')) :
    (s.received % lineBits remote cfg ≠ 0 ∧ s' = s) ∨
      (s.received % lineBits remote cfg = 0 ∧ parityPasses remote s.parity ∧
        ∃ code : IrCode, s' = { s with
          parity := false, code := code, buf := setPendingSpace cfg.stop s.buf
          stopBit := true }) := by
  unfold serialByte at h
  split at h
  · next hbyte =>
    split at h
    · exact nomatch h
    · next hparity =>
      obtain ⟨heven, hodd⟩ := not_or.mp hparity
      dsimp only at h
      split at h
      · exact nomatch h
      · refine .inr ⟨hbyte, ⟨fun he => ?_, fun ho => ?_⟩, _, (congrArg Prod.snd h).symm⟩
        · rw [← Bool.not_eq_true]
          exact fun hp => heven ⟨he, hp⟩
        · by_contra hp
          rw [Bool.not_eq_true] at hp
          exact hodd ⟨ho, by rw [hp]; rfl⟩
  · next hbyte => exact .inl ⟨hbyte, (congrArg Prod.snd h).symm⟩

theorem serialStep_cases {remote : IrRemote} {cfg : SerialConfig} {s s' : SerialState}
    (h : serialStep remote cfg s = (true, s')) :
    (serialRead remote cfg s).delta ≠ 0 ∧ Turn remote cfg (serialRead remote cfg s) s' := by
  unfold serialStep at h
  generalize serialRead remote cfg s = s1 at h ⊢
  dsimp only at h
  split at h
  · cases h
  · next hne =>
    refine ⟨hne, ?_⟩
    have hpending : (if s1.space = true then s1.buf.pendings else s1.buf.pendingp) = s1.pending :=
      rfl
    rw [hpending] at h
    split at h
    · cases h
    · next d hd =>
      have hcut : d = 0 ∨ (s1.pending < s1.delta ∧ d = s1.delta - s1.pending) := by
        split at hd
        · exact .inl (Option.some.inj hd).symm
        · split at hd
          · next hlt => exact .inr ⟨hlt, (Option.some.inj hd).symm⟩
          · cases hd
      change (if s1.pending > 0 then _ else _) = _ at h
      split at h
      · next hp =>
        split at h
        · next hs =>
          obtain rfl := congrArg Prod.snd h
          exact .stop hp hs rfl rfl rfl rfl
        · next hs =>
          obtain rfl := congrArg Prod.snd h
          exact .pending hp ((Bool.not_eq_true _).mp hs) d hcut rfl
      · next hp =>
        have hp : s1.pending ≤ 0 := Int.not_lt.mp hp
        split at h
        · cases h
        · next s2 he =>
          obtain rfl : s' = s2.turned := (congrArg Prod.snd h).symm
          change (if d > s1.bitTime remote ∨ expect remote d (s1.bitTime remote) = true then _
            else _) = _ at he
          split at he
          · rcases serialByte_cases he with ⟨hbyte, rfl⟩ | ⟨hbyte, hparity, code, rfl⟩
            · exact .bit hp d hcut hbyte _ rfl
            · exact .byte hp d hcut hbyte hparity code rfl
          · split at he
            · cases he
            · obtain rfl := congrArg Prod.snd he
              exact .drop hp rfl

theorem serialNext_turn {remote : IrRemote} {cfg : SerialConfig} {s s' : SerialState}
    (h : serialNext remote cfg s = .inr s') :
    ((s.received : Int) < cfg.bits ∨ s.stopBit = true) ∧
      (serialRead remote cfg s).delta ≠ 0 ∧ Turn remote cfg (serialRead remote cfg s) s' := by
  unfold serialNext at h
  split at h
  · next hc =>
    split at h
    · exact nomatch h
    · next he =>
      obtain rfl := Sum.inr.inj h
      exact ⟨hc, serialStep_cases he⟩
  · exact nomatch h

/-- What reading the next level leaves as it was. -/
theorem serialRead_same (remote : IrRemote) (cfg : SerialConfig) (s : SerialState) :
    (serialRead remote cfg s).space = s.space ∧ (serialRead remote cfg s).received = s.received ∧
    (serialRead remote cfg s).stopBit = s.stopBit ∧ (serialRead remote cfg s).parity = s.parity ∧
    (s.delta ≠ 0 → serialRead remote cfg s = s) := by
  unfold serialRead
  split
  · next hd => exact ⟨rfl, rfl, rfl, rfl, fun h => absurd hd h⟩
  · exact ⟨rfl, rfl, rfl, rfl, fun _ => rfl⟩

/-! ## 4. From one read to the next -/

/-- What is left to read, and the level: behind a space comes a pulse. -/
def SerialState.rank (s : SerialState) : Nat :=
  2 * s.buf.left + (if s.delta = 0 then (if s.space then 1 else 0) else (if s.space then 0 else 1))

/-- **A read goes down.** -/
theorem serialRead_rank {remote : IrRemote} {cfg : SerialConfig} {s : SerialState} (hd : s.delta = 0)
    (hne : (serialRead remote cfg s).delta ≠ 0) :
    (serialRead remote cfg s).rank < s.rank := by
  unfold SerialState.rank
  rw [if_neg hne, if_pos hd, (serialRead_same remote cfg s).1]
  have hspace := getNextSpace_left cfg.maxSpace s.buf
  have hpulse := getNextPulse_left cfg.maxPulse s.buf
  unfold serialRead at hne ⊢
  rw [if_pos hd] at hne ⊢
  cases hs : s.space with
  | true =>
    simp only [if_true]
    omega
  | false =>
    rw [hs] at hne
    simp only [Bool.false_eq_true, false_and, and_false, if_false] at hne ⊢
    have hlt := hpulse.2 hne
    omega

theorem SerialState.turned_rank (s : SerialState) (hs : s.delta = 0) :
    s.turned.rank = 2 * s.buf.left + (if s.space then 0 else 1) := by
  unfold SerialState.turned SerialState.rank
  rw [if_pos hs, if_pos hs]
  cases s.space with
  | true => rfl
  | false => rfl

/-- **A turn does not go up**; it stays, with something left, on its level. -/
theorem Turn.level {remote : IrRemote} {cfg : SerialConfig} {s s' : SerialState}
    (h : Turn remote cfg s s') (hne : s.delta ≠ 0) :
    s'.rank ≤ s.rank ∧ (s'.delta ≠ 0 → s'.space = s.space) := by
  have hrank : s.rank = 2 * s.buf.left + (if s.space then 0 else 1) := by
    unfold SerialState.rank
    rw [if_neg hne]
  have hturned : ∀ t : SerialState, t.buf.left = s.buf.left → t.space = s.space →
      t.turned.rank ≤ s.rank ∧ (t.turned.delta ≠ 0 → t.turned.space = s.space) := by
    intro t hleft hspace
    by_cases hd : t.delta = 0
    · refine ⟨?_, fun hnd => absurd hd hnd⟩
      rw [t.turned_rank hd, hrank, hleft, hspace]
    · refine ⟨?_, fun _ => ?_⟩
      · unfold SerialState.turned SerialState.rank
        rw [if_neg hd, if_neg hd, if_neg hne, hleft, hspace]
      · unfold SerialState.turned
        rw [if_neg hd]
        exact hspace
  cases h with
  | stop hp hs hd hspace hbuf hstop =>
    refine ⟨?_, fun hnd => absurd hd hnd⟩
    have hleft : s'.buf.left = s.buf.left := by
      rw [hbuf]
      rfl
    rw [hrank]
    unfold SerialState.rank
    rw [if_pos hd, hspace, if_neg Bool.false_ne_true, hleft]
    exact Nat.le_add_right _ _
  | pending hp hs d hd he =>
    subst he
    exact hturned _ rfl rfl
  | bit hp d hd hbyte code he =>
    subst he
    exact hturned _ rfl rfl
  | byte hp d hd hbyte hparity code he =>
    subst he
    exact hturned _ rfl rfl
  | drop hp he =>
    subst he
    exact hturned _ rfl rfl

/-- **The loop ends** if its turns go down in some weight on every level, as
    long as something is left of it. -/
theorem serialLoop_ends {remote : IrRemote} {cfg : SerialConfig} {P : SerialState → Prop}
    (weight : SerialState → Nat)
    (hread : ∀ s, P s → P (serialRead remote cfg s))
    (hturn : ∀ s s', P s → s.delta ≠ 0 → ((s.received : Int) < cfg.bits ∨ s.stopBit = true) →
      Turn remote cfg s s' → P s' ∧ (s'.delta ≠ 0 → weight s' < weight s))
    (s : SerialState) (hs : P s) : ∃ fuel y, serialLoop remote cfg fuel s = some y := by
  -- with nothing left of the level the next turn reads
  let size := fun s : SerialState => (s.rank, if s.delta = 0 then 0 else weight s + 1)
  refine (serialLoop_fuelLoop remote cfg).ends (r := InvImage (Prod.Lex (· < ·) (· < ·)) size)
    (InvImage.wf size (WellFounded.prod_lex Nat.lt_wfRel.wf Nat.lt_wfRel.wf)) ?_ s hs
  intro s s' hs hn
  obtain ⟨hc, hne, ht⟩ := serialNext_turn hn
  obtain ⟨-, hreceived, hstopBit, -, hsame⟩ := serialRead_same remote cfg s
  rw [← hreceived, ← hstopBit] at hc
  obtain ⟨hs', hweight⟩ := hturn _ s' (hread s hs) hne hc ht
  refine ⟨hs', ?_⟩
  obtain ⟨hrank, -⟩ := ht.level hne
  show Prod.Lex _ _ (size s') (size s)
  by_cases hd : s.delta = 0
  · exact .left _ _ (Nat.lt_of_le_of_lt hrank (serialRead_rank hd hne))
  · rw [hsame hd] at hrank hweight
    rcases Nat.lt_or_eq_of_le hrank with hlt | heq
    · exact .left _ _ hlt
    · show Prod.Lex _ _ (s'.rank, _) (s.rank, _)
      rw [heq]
      refine .right _ ?_
      rw [if_neg hd]
      split
      · exact Nat.succ_pos _
      · next hd' => exact Nat.succ_lt_succ (hweight hd')

/-! ## 5. A level comes to its end -/

theorem add_one_mod {r n : Nat} (hn : 0 < n) :
    (r + 1) % n = if r % n + 1 = n then 0 else r % n + 1 := by
  have hlt := Nat.mod_lt r hn
  have hr := Nat.div_add_mod r n
  have hsplit : r + 1 = r % n + 1 + n * (r / n) := by omega
  rw [hsplit, Nat.add_mul_mod_self_left]
  split
  · next h => rw [h, Nat.mod_self]
  · next h => exact Nat.mod_eq_of_lt (by omega)

/-- The bits up to the end of the byte. -/
def toByte (remote : IrRemote) (cfg : SerialConfig) (s : SerialState) : Nat :=
  lineBits remote cfg - s.received % lineBits remote cfg

/-- The parity at the end of the byte, if it ends on this level. -/
def parityAhead (remote : IrRemote) (cfg : SerialConfig) (s : SerialState) : Bool :=
  s.parity ^^ (s.space && decide (toByte remote cfg s % 2 = 1))

instance (remote : IrRemote) (parity : Bool) : Decidable (parityPasses remote parity) :=
  inferInstanceAs (Decidable (_ ∧ _))

/-- **The bits of a level end**: they take time, or the stop bit or the parity
    check of a byte of nothing else ends them. -/
def LevelEnds (remote : IrRemote) (cfg : SerialConfig) (space : Bool) : Prop :=
  0 < (if space then remote.sone else remote.pzero) ∨ (space = true ∧ 0 < cfg.stop) ∨
    ¬ parityPasses remote (space && decide (lineBits remote cfg % 2 = 1))

/-- How far a level is from its end. -/
def SerialState.weight (remote : IrRemote) (cfg : SerialConfig) (s : SerialState) : Nat :=
  if 0 < s.bitTime remote then s.delta.toNat
  else if s.stopBit = true ∧ 0 < s.pending then 0
  else 1 + (if 0 < s.pending then 1 else 0) + toByte remote cfg s +
    (if parityPasses remote (parityAhead remote cfg s) then lineBits remote cfg else 0)

theorem SerialState.weight_timed {remote : IrRemote} {cfg : SerialConfig} {s : SerialState}
    (h : 0 < s.bitTime remote) : s.weight remote cfg = s.delta.toNat := if_pos h

/-- Without a pending part the bits count up to the end of the byte. -/
theorem SerialState.weight_bits {remote : IrRemote} {cfg : SerialConfig} {s : SerialState}
    (h : ¬ 0 < s.bitTime remote) (hp : ¬ 0 < s.pending) :
    s.weight remote cfg = 1 + toByte remote cfg s +
      (if parityPasses remote (parityAhead remote cfg s) then lineBits remote cfg else 0) := by
  unfold SerialState.weight
  rw [if_neg h, if_neg fun hs => hp hs.2, if_neg hp]

theorem SerialState.weight_pending {remote : IrRemote} {cfg : SerialConfig} {s : SerialState}
    (h : ¬ 0 < s.bitTime remote) (hp : 0 < s.pending) :
    s.weight remote cfg = if s.stopBit = true then 0 else 2 + toByte remote cfg s +
      (if parityPasses remote (parityAhead remote cfg s) then lineBits remote cfg else 0) := by
  unfold SerialState.weight
  rw [if_neg h, if_pos hp]
  simp only [hp, and_true]

/-- No pending part is negative. -/
structure NoDebt (s : SerialState) : Prop where
  pulse : 0 ≤ s.buf.pendingp
  space : 0 ≤ s.buf.pendings

theorem NoDebt.pending {s : SerialState} (h : NoDebt s) : 0 ≤ s.pending := by
  unfold SerialState.pending
  split
  · exact h.space
  · exact h.pulse

theorem getNextRecBuffer_pending (m : Int) (b : Rbuf) :
    (getNextRecBuffer m b).2.pendingp = b.pendingp ∧
      (getNextRecBuffer m b).2.pendings = b.pendings := by
  unfold getNextRecBuffer
  split
  · exact ⟨rfl, rfl⟩
  · split
    · split
      · exact ⟨rfl, rfl⟩
      · dsimp only
        split
        · exact ⟨rfl, rfl⟩
        · exact ⟨rfl, rfl⟩
    · exact ⟨rfl, rfl⟩

theorem getNextPulse_pending (m : Int) (b : Rbuf) :
    (getNextPulse m b).2.pendingp = b.pendingp ∧ (getNextPulse m b).2.pendings = b.pendings := by
  have h := getNextRecBuffer_pending m b
  unfold getNextPulse
  dsimp only
  split
  · exact h
  · split
    · exact h
    · exact h

theorem getNextSpace_pending (m : Int) (b : Rbuf) :
    (getNextSpace m b).2.pendingp = b.pendingp ∧ (getNextSpace m b).2.pendings = b.pendings := by
  have h := getNextRecBuffer_pending m b
  unfold getNextSpace
  dsimp only
  split
  · exact h
  · split
    · exact h
    · exact h

theorem NoDebt.read {s : SerialState} (remote : IrRemote) (cfg : SerialConfig) (h : NoDebt s) :
    NoDebt (serialRead remote cfg s) := by
  obtain ⟨hp, hs⟩ := h
  have hspace := getNextSpace_pending cfg.maxSpace s.buf
  have hpulse := getNextPulse_pending cfg.maxPulse s.buf
  unfold serialRead
  split
  · dsimp only
    split
    · exact ⟨by rw [← hspace.1] at hp; exact hp, by rw [← hspace.2] at hs; exact hs⟩
    · exact ⟨by rw [← hpulse.1] at hp; exact hp, by rw [← hpulse.2] at hs; exact hs⟩
  · exact ⟨hp, hs⟩

theorem SerialState.turned_of_ne {s : SerialState} (h : s.turned.delta ≠ 0) : s.turned = s := by
  unfold SerialState.turned at h ⊢
  rw [if_neg h]

/-- With no debt, what is left of a level without a pending part. -/
theorem NoDebt.cut {s : SerialState} (h : NoDebt s) (hp : s.pending ≤ 0) {d : Int}
    (hd : d = 0 ∨ (s.pending < s.delta ∧ d = s.delta - s.pending)) :
    s.pending = 0 ∧ (d = 0 ∨ (d = s.delta ∧ 0 < d)) := by
  have h0 := h.pending
  rcases hd with hd | ⟨hlt, hd⟩
  · exact ⟨by omega, .inl hd⟩
  · exact ⟨by omega, .inr (by omega)⟩

theorem toByte_succ {remote : IrRemote} {cfg : SerialConfig} {s t : SerialState}
    (hn : 0 < lineBits remote cfg) (ht : t.received = s.received + 1)
    (hbyte : (s.received + 1) % lineBits remote cfg ≠ 0) :
    toByte remote cfg s = toByte remote cfg t + 1 := by
  have hlt := Nat.mod_lt s.received hn
  unfold toByte
  rw [ht]
  rw [add_one_mod hn] at hbyte ⊢
  split at hbyte
  · exact absurd rfl hbyte
  · next hne =>
    rw [if_neg hne]
    omega

theorem toByte_last {remote : IrRemote} {cfg : SerialConfig} {s t : SerialState}
    (hn : 0 < lineBits remote cfg) (ht : t.received = s.received + 1)
    (hbyte : (s.received + 1) % lineBits remote cfg = 0) :
    toByte remote cfg s = 1 ∧ toByte remote cfg t = lineBits remote cfg := by
  have hlt := Nat.mod_lt s.received hn
  constructor
  · unfold toByte
    rw [add_one_mod hn] at hbyte
    split at hbyte
    · omega
    · exact absurd hbyte (Nat.succ_ne_zero _)
  · unfold toByte
    rw [ht, hbyte]
    rfl

/-- One bit of the level more, one less to come. -/
theorem parityAhead_succ {remote : IrRemote} {cfg : SerialConfig} {s t : SerialState}
    (hbits : toByte remote cfg s = toByte remote cfg t + 1)
    (hparity : t.parity = (s.parity ^^ s.space)) (hspace : t.space = s.space) :
    parityAhead remote cfg t = parityAhead remote cfg s := by
  unfold parityAhead
  rw [hparity, hspace, hbits]
  cases s.space with
  | false => simp
  | true =>
    have hodd : decide ((toByte remote cfg t + 1) % 2 = 1) = !decide (toByte remote cfg t % 2 = 1) := by
      rcases Nat.mod_two_eq_zero_or_one (toByte remote cfg t) with h | h
      · have h' : (toByte remote cfg t + 1) % 2 = 1 := by omega
        rw [h, h']
        rfl
      · have h' : (toByte remote cfg t + 1) % 2 = 0 := by omega
        rw [h, h']
        rfl
    rw [hodd]
    cases s.parity <;> simp

/-- What a bit that takes time leaves. -/
theorem NoDebt.taken {s : SerialState} {e d : Int}
    (hcut : d = 0 ∨ (d = s.delta ∧ 0 < d)) (he : 0 < e)
    (hne : d - (if e > d then d else e) ≠ 0) :
    (d - (if e > d then d else e)).toNat < s.delta.toNat := by
  split at hne
  · omega
  · next h =>
    rw [if_neg h]
    omega

/-- **A turn goes down**: the weight of what is left of a level. -/
theorem Turn.weight {remote : IrRemote} {cfg : SerialConfig} {s s' : SerialState}
    (h : Turn remote cfg s s') (hs : NoDebt s) (hn : 0 < lineBits remote cfg)
    (hends : LevelEnds remote cfg s.space) (hd' : s'.delta ≠ 0) :
    s'.weight remote cfg < s.weight remote cfg := by
  cases h with
  | stop hp hs hd hspace hbuf hstop => exact absurd hd hd'
  | drop hp he =>
    subst he
    exact absurd rfl hd'
  | pending hp hstop d hd he =>
    subst he
    have hsame := SerialState.turned_of_ne hd'
    rw [hsame] at hd' ⊢
    obtain ⟨hlt, hd⟩ := hd.resolve_left hd'
    generalize ht : ({ s with
      delta := d, buf := setPendingSpace 0 (setPendingPulse 0 s.buf) } : SerialState) = t at hd' ⊢
    have hdelta : t.delta = d := by rw [← ht]
    have htime : t.bitTime remote = s.bitTime remote := by rw [← ht]; rfl
    have hpend : t.pending = 0 := by
      rw [← ht]
      unfold SerialState.pending
      exact ite_self 0
    have hbits : toByte remote cfg t = toByte remote cfg s := by rw [← ht]; rfl
    have hahead : parityAhead remote cfg t = parityAhead remote cfg s := by rw [← ht]; rfl
    by_cases htake : 0 < s.bitTime remote
    · rw [s.weight_timed htake, t.weight_timed (htime ▸ htake)]
      omega
    · rw [s.weight_pending htake hp, t.weight_bits (htime ▸ htake) (by omega), hstop,
        if_neg Bool.false_ne_true, hbits, hahead]
      omega
  | bit hp d hd hbyte code he =>
    subst he
    have hsame := SerialState.turned_of_ne hd'
    rw [hsame] at hd' ⊢
    obtain ⟨hpend, hcut⟩ := hs.cut hp hd
    generalize ht : ({ s with
      delta := d - (if s.bitTime remote > d then d else s.bitTime remote)
      received := s.received + 1, code := code, parity := s.parity ^^ s.space } : SerialState) = t
      at hd' ⊢
    have hdelta : t.delta = d - (if s.bitTime remote > d then d else s.bitTime remote) := by rw [← ht]
    have htime : t.bitTime remote = s.bitTime remote := by rw [← ht]; rfl
    have hpend' : t.pending = 0 := by rw [← hpend, ← ht]; rfl
    have hbits := toByte_succ (t := t) hn (by rw [← ht]) hbyte
    have hahead := parityAhead_succ hbits (by rw [← ht]) (by rw [← ht])
    rw [hdelta] at hd'
    by_cases htake : 0 < s.bitTime remote
    · rw [s.weight_timed htake, t.weight_timed (htime ▸ htake), hdelta]
      exact NoDebt.taken hcut htake hd'
    · rw [s.weight_bits htake (by omega), t.weight_bits (htime ▸ htake) (by omega), hahead, hbits]
      omega
  | byte hp d hd hbyte hparity code he =>
    subst he
    have hsame := SerialState.turned_of_ne hd'
    rw [hsame] at hd' ⊢
    obtain ⟨hpend, hcut⟩ := hs.cut hp hd
    generalize ht : ({ s with
      delta := d - (if s.bitTime remote > d then d else s.bitTime remote)
      received := s.received + 1, code := code, parity := false
      buf := setPendingSpace cfg.stop s.buf, stopBit := true } : SerialState) = t at hd' ⊢
    have hdelta : t.delta = d - (if s.bitTime remote > d then d else s.bitTime remote) := by rw [← ht]
    have htime : t.bitTime remote = s.bitTime remote := by rw [← ht]; rfl
    have hstop : t.stopBit = true := by rw [← ht]
    have hspace : t.space = s.space := by rw [← ht]
    have hparity' : t.parity = false := by rw [← ht]
    have hpend' : t.space = true → t.pending = cfg.stop := by
      intro hs
      unfold SerialState.pending
      rw [if_pos hs, ← ht]
      rfl
    obtain ⟨hlast, hbits⟩ := toByte_last (t := t) hn (by rw [← ht]) hbyte
    have hpass : parityPasses remote (parityAhead remote cfg s) := by
      unfold parityAhead
      rw [hlast]
      simpa using hparity
    rw [hdelta] at hd'
    by_cases htake : 0 < s.bitTime remote
    · rw [s.weight_timed htake, t.weight_timed (htime ▸ htake), hdelta]
      exact NoDebt.taken hcut htake hd'
    · rw [s.weight_bits htake (by omega), hlast, if_pos hpass]
      by_cases hnext : 0 < t.pending
      · rw [t.weight_pending (htime ▸ htake) hnext, if_pos hstop]
        omega
      · -- a whole byte of this level does not pass the check
        have hfail : ¬ parityPasses remote (parityAhead remote cfg t) := by
          unfold parityAhead
          rw [hparity', hbits, hspace, Bool.false_xor]
          rcases hends with h | ⟨hsp, hst⟩ | h
          · exact absurd h htake
          · rw [hpend' (hspace.trans hsp)] at hnext
            exact absurd hst hnext
          · exact h
        rw [t.weight_bits (htime ▸ htake) hnext, if_neg hfail, hbits]
        omega

theorem Turn.noDebt {remote : IrRemote} {cfg : SerialConfig} {s s' : SerialState}
    (h : Turn remote cfg s s') (hs : NoDebt s) (hbase : 0 ≤ cfg.base) (hstop : 0 ≤ cfg.stop) :
    NoDebt s' := by
  cases h with
  | stop hp hs hd hspace hbuf hstop =>
    exact ⟨by rw [hbuf]; exact hbase, by rw [hbuf]; exact Int.le_refl 0⟩
  | drop hp he =>
    subst he
    exact ⟨hs.pulse, hs.space⟩
  | pending hp hstop d hd he =>
    subst he
    exact ⟨Int.le_refl 0, Int.le_refl 0⟩
  | bit hp d hd hbyte code he =>
    subst he
    exact ⟨hs.pulse, hs.space⟩
  | byte hp d hd hbyte hparity code he =>
    subst he
    exact ⟨hs.pulse, hstop⟩

/-- **The serial loop ends** where the bits of both levels do. -/
theorem serial_ends {remote : IrRemote} {cfg : SerialConfig} (hn : 0 < lineBits remote cfg)
    (hbase : 0 ≤ cfg.base) (hstop : 0 ≤ cfg.stop) (hends : ∀ space, LevelEnds remote cfg space)
    (s : SerialState) (hs : NoDebt s) : ∃ fuel y, serialLoop remote cfg fuel s = some y :=
  serialLoop_ends (SerialState.weight remote cfg) (fun _ h => h.read remote cfg)
    (fun _ _ h _ _ ht => ⟨ht.noDebt h hbase hstop, ht.weight h hn (hends _)⟩) s hs

/-- **The serial loop ends** where there are too few bits for a byte. -/
theorem serial_ends_short {remote : IrRemote} {cfg : SerialConfig}
    (hshort : cfg.bits < lineBits remote cfg) (s : SerialState) (hs : s.stopBit = false) :
    ∃ fuel y, serialLoop remote cfg fuel s = some y := by
  refine serialLoop_ends (P := fun s => s.stopBit = false)
    (fun s => (if 0 < s.pending then 1 else 0) + (cfg.bits - s.received).toNat) ?_ ?_ s hs
  · intro s hs
    exact (serialRead_same remote cfg s).2.2.1.trans hs
  · intro s s' hs hne hc ht
    have hc : (s.received : Int) < cfg.bits := hc.resolve_right (by rw [hs]; exact Bool.false_ne_true)
    cases ht with
    | stop hp hs' hd hspace hbuf hstop =>
      rw [hs] at hs'
      exact absurd hs' Bool.false_ne_true
    | drop hp he =>
      subst he
      exact ⟨hs, fun h => absurd rfl h⟩
    | pending hp hstop d hd he =>
      subst he
      refine ⟨hs, fun h => ?_⟩
      have hpend : SerialState.pending { s with
          delta := d, buf := setPendingSpace 0 (setPendingPulse 0 s.buf) } = 0 := by
        unfold SerialState.pending
        exact ite_self 0
      rw [SerialState.turned_of_ne h, hpend, if_pos hp, if_neg (Int.lt_irrefl 0)]
      dsimp only
      omega
    | bit hp d hd hbyte code he =>
      subst he
      refine ⟨hs, fun h => ?_⟩
      rw [SerialState.turned_of_ne h]
      change (if 0 < s.pending then 1 else 0) + _ < _
      dsimp only
      omega
    | byte hp d hd hbyte hparity code he =>
      rw [Nat.mod_eq_of_lt (by omega)] at hbyte
      exact absurd hbyte (Nat.succ_ne_zero _)

/-! ## 6. A level without end -/

/-- Something is left of a level whose bits take no time, behind the first byte
    or on the way to it, and the byte it is in would pass the parity check. -/
structure Stuck (remote : IrRemote) (cfg : SerialConfig) (s : SerialState) : Prop where
  left : 0 < s.delta
  above : expect remote s.delta 0 = false
  pending : s.pending = 0
  ahead : s.stopBit = true ∨
    (s.received < lineBits remote cfg ∧ (lineBits remote cfg : Int) ≤ cfg.bits)
  passes : parityPasses remote (parityAhead remote cfg s)

theorem expect_zero_of_le {remote : IrRemote} {d d' : Int} (hd : 0 < d) (hle : d ≤ d')
    (h : expect remote d 0 = false) : expect remote d' 0 = false := by
  unfold expect at h ⊢
  rw [Bool.or_eq_false_iff, decide_eq_false_iff_not, decide_eq_false_iff_not] at h ⊢
  simp only [Int.zero_mul, Int.zero_tdiv] at h ⊢
  exact ⟨by omega, by omega⟩

theorem parityPasses_iff {remote : IrRemote} {parity : Bool} (h : parityPasses remote parity) :
    ¬ ((remote.parity = IR_PARITY_EVEN ∧ parity = true) ∨
      (remote.parity = IR_PARITY_ODD ∧ (!parity) = true)) := by
  rintro (⟨he, hp⟩ | ⟨ho, hp⟩)
  · rw [h.1 he] at hp
    exact absurd hp Bool.false_ne_true
  · rw [h.2 ho] at hp
    exact absurd hp Bool.false_ne_true

/-- A bit of no time is taken off. -/
def bitOff (remote : IrRemote) (s : SerialState) : SerialState :=
  { s with
    delta := s.delta - s.bitTime remote
    received := s.received + 1
    code := s.code <<< 1 ||| (if s.space then 1 else 0)
    parity := s.parity ^^ s.space }

theorem Stuck.step {remote : IrRemote} {cfg : SerialConfig} {s : SerialState}
    (hs : Stuck remote cfg s) (htime : ¬ 0 < s.bitTime remote) :
    serialStep remote cfg s =
      match serialByte remote cfg (bitOff remote s) with
      | (false, s) => (false, s)
      | (true, s) => (true, s.turned) := by
  have hne : s.delta ≠ 0 := Int.ne_of_gt hs.left
  have hread : serialRead remote cfg s = s := (serialRead_same remote cfg s).2.2.2.2 hne
  have hoff : s.delta - (if s.bitTime remote > s.delta then s.delta else s.bitTime remote) =
      s.delta - s.bitTime remote := by
    have h := hs.left
    rw [if_neg (by omega)]
  have htake : s.delta > s.bitTime remote ∨ expect remote s.delta (s.bitTime remote) = true := by
    have h := hs.left
    exact .inl (by omega)
  unfold serialStep
  rw [hread]
  dsimp only
  rw [if_neg hne]
  have hpending : (if s.space = true then s.buf.pendings else s.buf.pendingp) = 0 := hs.pending
  have habove : expect remote s.delta 0 = false := hs.pending ▸ hs.above
  have hleft : s.delta > 0 := hs.left
  rw [hpending, habove, if_neg Bool.false_ne_true, if_pos hleft, Int.sub_zero]
  dsimp only
  rw [if_neg (Int.lt_irrefl 0)]
  have htime' : (if s.space = true then remote.sone else remote.pzero) = s.bitTime remote := rfl
  rw [htime', if_pos htake, hoff]
  rfl

theorem serialByte_mid {remote : IrRemote} {cfg : SerialConfig} {s : SerialState}
    (hbyte : s.received % lineBits remote cfg ≠ 0) : serialByte remote cfg s = (true, s) :=
  if_neg hbyte

theorem serialByte_last {remote : IrRemote} {cfg : SerialConfig} {s : SerialState}
    (hbyte : s.received % lineBits remote cfg = 0) (hpass : parityPasses remote s.parity)
    (hd : s.delta ≠ 0) :
    ∃ code : IrCode, serialByte remote cfg s = (true, { s with
      parity := false, code := code, buf := setPendingSpace cfg.stop s.buf, stopBit := true }) := by
  unfold lineBits at hbyte
  unfold serialByte
  rw [if_pos hbyte, if_neg (parityPasses_iff hpass)]
  dsimp only
  rw [if_neg fun h => hd h.2]
  exact ⟨_, rfl⟩

/-- One more bit of no time. -/
theorem Stuck.turn {remote : IrRemote} {cfg : SerialConfig} {s : SerialState}
    (hn : 0 < lineBits remote cfg) (hs : Stuck remote cfg s)
    (hlevel : ¬ LevelEnds remote cfg s.space) (hstop : 0 ≤ cfg.stop) :
    ∃ s', serialNext remote cfg s = .inr s' ∧ Stuck remote cfg s' ∧ s'.space = s.space := by
  obtain ⟨htime, hlevel⟩ := not_or.mp hlevel
  obtain ⟨hspace, hwhole⟩ := not_or.mp hlevel
  have htime : ¬ 0 < s.bitTime remote := htime
  have hwhole : parityPasses remote (s.space && decide (lineBits remote cfg % 2 = 1)) :=
    Classical.not_not.mp hwhole
  have hleft : s.delta ≤ s.delta - s.bitTime remote := by omega
  have hpos : 0 < s.delta - s.bitTime remote := Int.lt_of_lt_of_le hs.left hleft
  have habove := expect_zero_of_le hs.left hleft hs.above
  have hcontinue : (s.received : Int) < cfg.bits ∨ s.stopBit = true := by
    rcases hs.ahead with h | ⟨h1, h2⟩
    · exact .inr h
    · exact .inl (by omega)
  have hnext : ∀ s2, serialByte remote cfg (bitOff remote s) = (true, s2) → s2.delta ≠ 0 →
      serialNext remote cfg s = .inr s2 := by
    intro s2 he hd
    unfold serialNext
    rw [if_pos hcontinue, hs.step htime, he]
    exact congrArg Sum.inr (SerialState.turned_of_ne (s := s2) hd)
  by_cases hbyte : (s.received + 1) % lineBits remote cfg = 0
  · obtain ⟨hlast, hbits⟩ := toByte_last (t := bitOff remote s) hn rfl hbyte
    have hpass : parityPasses remote (s.parity ^^ s.space) := by
      have h := hs.passes
      unfold parityAhead at h
      rw [hlast] at h
      simpa using h
    obtain ⟨code, he⟩ := serialByte_last (s := bitOff remote s) hbyte hpass (Int.ne_of_gt hpos)
    refine ⟨_, hnext _ he (Int.ne_of_gt hpos), ⟨hpos, habove, ?_, .inl rfl, ?_⟩, rfl⟩
    · -- the stop bit does not wait on this level
      cases hsp : s.space with
      | true =>
        have hzero : cfg.stop = 0 := by
          have hle : ¬ 0 < cfg.stop := fun h => hspace ⟨hsp, h⟩
          omega
        have hsp' : (bitOff remote s).space = true := hsp
        unfold SerialState.pending
        rw [if_pos hsp']
        exact hzero
      | false =>
        have hp := hs.pending
        unfold SerialState.pending at hp ⊢
        rw [hsp, if_neg Bool.false_ne_true] at hp
        have hsp' : (bitOff remote s).space = false := hsp
        rw [hsp', if_neg Bool.false_ne_true]
        exact hp
    · unfold parityAhead
      change parityPasses remote (false ^^ (s.space && decide (toByte remote cfg (bitOff remote s) % 2 = 1)))
      rw [hbits, Bool.false_xor]
      exact hwhole
  · have he := serialByte_mid (s := bitOff remote s) hbyte
    refine ⟨bitOff remote s, hnext _ he (Int.ne_of_gt hpos), ⟨hpos, habove, hs.pending, ?_, ?_⟩, rfl⟩
    · rcases hs.ahead with h | ⟨h1, h2⟩
      · exact .inl h
      · refine .inr ⟨?_, h2⟩
        have hne : s.received + 1 ≠ lineBits remote cfg := fun h => hbyte (by rw [h, Nat.mod_self])
        show s.received + 1 < lineBits remote cfg
        omega
    · have hbits := toByte_succ (t := bitOff remote s) hn rfl hbyte
      rw [parityAhead_succ hbits rfl rfl]
      exact hs.passes

/-- **The serial loop never ends** on a level whose bits do not. -/
theorem serial_never {remote : IrRemote} {cfg : SerialConfig} (hn : 0 < lineBits remote cfg)
    (hstop : 0 ≤ cfg.stop) {s : SerialState} (hs : Stuck remote cfg s)
    (hlevel : ¬ LevelEnds remote cfg s.space) (fuel : Nat) : serialLoop remote cfg fuel s = none := by
  refine (serialLoop_fuelLoop remote cfg).never
    (P := fun t => Stuck remote cfg t ∧ t.space = s.space) ?_ fuel s ⟨hs, rfl⟩
  rintro t ⟨ht, hspace⟩
  rw [← hspace] at hlevel
  obtain ⟨t', hn', ht', hspace'⟩ := ht.turn hn hlevel hstop
  exact ⟨t', hn', ht', hspace'.trans hspace⟩

/-- Reading first changes nothing. -/
theorem serialLoop_read {remote : IrRemote} {cfg : SerialConfig} {s : SerialState}
    (hc : (s.received : Int) < cfg.bits ∨ s.stopBit = true)
    (hne : (serialRead remote cfg s).delta ≠ 0) (fuel : Nat) :
    serialLoop remote cfg fuel (serialRead remote cfg s) = serialLoop remote cfg fuel s := by
  obtain ⟨-, hreceived, hstopBit, -, -⟩ := serialRead_same remote cfg s
  have hread : serialRead remote cfg (serialRead remote cfg s) = serialRead remote cfg s :=
    (serialRead_same remote cfg _).2.2.2.2 hne
  have hstep : serialStep remote cfg (serialRead remote cfg s) = serialStep remote cfg s := by
    unfold serialStep
    rw [hread]
  cases fuel with
  | zero => rfl
  | succ fuel => rw [serialLoop, serialLoop, hreceived, hstopBit, hstep, if_pos hc, if_pos hc]

/-- The turn of the start bit. -/
theorem serialNext_start {remote : IrRemote} {cfg : SerialConfig} {s : SerialState} {d : Int}
    (hc : (s.received : Int) < cfg.bits) (hspace : s.space = false) (hstop : s.stopBit = false)
    (hbase : 0 < s.buf.pendingp) (hne : s.delta ≠ 0)
    (hd : (if expect remote s.delta s.buf.pendingp = true then some 0
      else if s.delta > s.buf.pendingp then some (s.delta - s.buf.pendingp) else none) = some d) :
    serialNext remote cfg s = .inr (SerialState.turned { s with
      delta := d, buf := setPendingSpace 0 (setPendingPulse 0 s.buf) }) := by
  have hread : serialRead remote cfg s = s := (serialRead_same remote cfg s).2.2.2.2 hne
  have hstep : serialStep remote cfg s = (true, SerialState.turned { s with
      delta := d, buf := setPendingSpace 0 (setPendingPulse 0 s.buf) }) := by
    unfold serialStep
    rw [hread]
    dsimp only
    rw [if_neg hne]
    simp only [hspace, Bool.false_eq_true, if_false]
    rw [hd]
    dsimp only
    rw [if_pos hbase, hstop, if_neg Bool.false_ne_true]
    unfold SerialState.turned
    rfl
  unfold serialNext
  rw [if_pos (.inl hc), hstep]

theorem serialConfig_nonneg (remote : IrRemote) (bits : Int) :
    0 ≤ (serialConfig remote bits).base ∧ 0 ≤ (serialConfig remote bits).stop := by
  have hbase : (0 : Int) ≤ (1000000 / remote.baud : Nat) := Int.natCast_nonneg _
  have hstop : (0 : Int) ≤ (1000000 / remote.baud : Nat) * remote.stopBits / 2 :=
    Int.ediv_nonneg (Int.mul_nonneg hbase (Int.natCast_nonneg _)) (by decide)
  unfold serialConfig
  dsimp only
  split
  · exact ⟨hbase, hstop⟩
  · exact ⟨hbase, hstop⟩

/-- The next recorded pulse. -/
theorem getNextPulse_recorded {b : Rbuf} {d : Int} (hr : 0 ≤ b.rptr) (hlt : b.rptr < b.wptr)
    (hd : b.data.getD b.rptr.toNat 0 = PULSE_BIT + d) (h0 : 0 < d) (h1 : d ≤ PULSE_MASK) (m : Int) :
    (getNextPulse m b).1 = d := by
  have hpulse := isPulse_add (Int.le_of_lt h0) h1
  have hmask := maskPulse_add (Int.le_of_lt h0) h1
  have hne : PULSE_BIT + d ≠ 0 := by
    unfold PULSE_BIT
    omega
  unfold getNextPulse getNextRecBuffer Rbuf.sample
  rw [if_pos hlt, if_pos hr, hd]
  dsimp only
  rw [if_neg hne, hpulse, hmask]
  rfl

/-- The next recorded space. -/
theorem getNextSpace_recorded {b : Rbuf} {d : Int} (hr : 0 ≤ b.rptr) (hlt : b.rptr < b.wptr)
    (hd : b.data.getD b.rptr.toNat 0 = d) (h0 : 0 < d) (h1 : d ≤ PULSE_MASK) (m : Int) :
    (getNextSpace m b).1 = d := by
  have hspace : isSpace d = true := by
    unfold isSpace
    rw [isPulse_of_le (Int.le_of_lt h0) h1]
    rfl
  unfold getNextSpace getNextRecBuffer Rbuf.sample
  rw [if_pos hlt, if_pos hr, hd]
  dsimp only
  rw [if_neg (Int.ne_of_gt h0), hspace]
  rfl

theorem serialRead_pulse (remote : IrRemote) (cfg : SerialConfig) {s : SerialState}
    (hd : s.delta = 0) (hspace : s.space = false) :
    serialRead remote cfg s = { s with
      delta := (getNextPulse cfg.maxPulse s.buf).1, origdelta := (getNextPulse cfg.maxPulse s.buf).1
      buf := (getNextPulse cfg.maxPulse s.buf).2 } := by
  unfold serialRead
  rw [if_pos hd]
  simp [hspace]

theorem serialRead_space (remote : IrRemote) (cfg : SerialConfig) {s : SerialState}
    (hd : s.delta = 0) (hspace : s.space = true) (hne : (getNextSpace cfg.maxSpace s.buf).1 ≠ 0) :
    serialRead remote cfg s = { s with
      delta := (getNextSpace cfg.maxSpace s.buf).1, origdelta := (getNextSpace cfg.maxSpace s.buf).1
      buf := (getNextSpace cfg.maxSpace s.buf).2 } := by
  unfold serialRead
  rw [if_pos hd]
  simp [hspace, hne]

/-- The samples on which `serial_never` is met: the start bit, with the bits
    behind it on the same level or on the next. -/
def endless (base x : Int) (space : Bool) : List Int :=
  if space then [PULSE_BIT + base, x] else [PULSE_BIT + (base + x)]

theorem serialLoop_none_of_turn {remote : IrRemote} {cfg : SerialConfig} {s s' : SerialState}
    (h : serialNext remote cfg s = .inr s') (h' : ∀ fuel, serialLoop remote cfg fuel s' = none)
    (fuel : Nat) : serialLoop remote cfg fuel s = none := by
  cases fuel with
  | zero => rfl
  | succ fuel => exact ((serialLoop_fuelLoop remote cfg).turn h fuel).trans (h' fuel)

/-- Behind a start bit at the start of the buffer. -/
theorem serialLoop_started {remote : IrRemote} {cfg : SerialConfig} {b : Rbuf} (d₀ d : Int)
    (hc : ((0 : Nat) : Int) < cfg.bits) (hr : b.rptr = 0) (hlt : 0 < b.data.length)
    (hdata : b.data.getD 0 0 = PULSE_BIT + d₀) (h0 : 0 < d₀) (h1 : d₀ ≤ PULSE_MASK)
    (hpend : 0 < b.pendingp)
    (hd : (if expect remote d₀ b.pendingp = true then some 0
      else if d₀ > b.pendingp then some (d₀ - b.pendingp) else none) = some d)
    (hnever : ∀ fuel, serialLoop remote cfg fuel (SerialState.turned {
      delta := d, origdelta := d₀
      buf := setPendingSpace 0 (setPendingPulse 0 (getNextPulse cfg.maxPulse b).2) }) = none)
    (fuel : Nat) : serialLoop remote cfg fuel { buf := b } = none := by
  have hread := serialRead_pulse remote cfg (s := { buf := b }) rfl rfl
  have hpulse : (getNextPulse cfg.maxPulse b).1 = d₀ := by
    refine getNextPulse_recorded ?_ ?_ ?_ h0 h1 _
    · omega
    · unfold Rbuf.wptr
      omega
    · rw [hr]
      exact hdata
  have hsame := (getNextPulse_pending cfg.maxPulse b).1
  dsimp only at hread
  rw [hpulse] at hread
  have hne : (serialRead remote cfg { buf := b }).delta ≠ 0 := by
    rw [hread]
    exact Int.ne_of_gt h0
  rw [← serialLoop_read (.inl hc) hne, hread]
  refine serialLoop_none_of_turn ?_ hnever fuel
  refine serialNext_start hc rfl rfl ?_ (Int.ne_of_gt h0) ?_
  · dsimp only
    rw [hsame]
    exact hpend
  · dsimp only
    rw [hsame]
    exact hd

/-- What the first read leaves of a recorded buffer. -/
theorem getNextPulse_rest {b : Rbuf} (hr : b.rptr = 0) (hlt : 0 < b.data.length) (m : Int) :
    (getNextPulse m b).2.data = b.data ∧ (getNextPulse m b).2.rptr = 1 := by
  have hread : (getNextRecBuffer m b).2.data = b.data ∧ (getNextRecBuffer m b).2.rptr = 1 := by
    unfold getNextRecBuffer
    rw [if_pos (by unfold Rbuf.wptr; omega)]
    exact ⟨rfl, by rw [hr]; rfl⟩
  unfold getNextPulse
  dsimp only
  split
  · exact hread
  · split
    · exact hread
    · exact hread

/-- A sample of `x`, alone or behind a start bit of `base`, is above all
    tolerance and fits the 24 bits of a sample. -/
structure OverTolerance (remote : IrRemote) (base x : Int) : Prop where
  pos : 0 < x
  fits : base + x ≤ PULSE_MASK
  above : expect remote x 0 = false
  start : expect remote (base + x) base = false

/-- **A loop that never ends**: the start bit, and a pulse or a space of `x`. -/
theorem serialLoop_endless {remote : IrRemote} {cfg : SerialConfig} {x : Int} {space : Bool}
    (hn : 0 < lineBits remote cfg) (hstop : 0 ≤ cfg.stop) (htol : Tolerant remote)
    (hbase : 0 < cfg.base) (hover : OverTolerance remote cfg.base x)
    (hbits : (lineBits remote cfg : Int) ≤ cfg.bits) (hlevel : ¬ LevelEnds remote cfg space)
    (fuel : Nat) :
    serialLoop remote cfg fuel
      { buf := setPendingPulse cfg.base { data := endless cfg.base x space } } = none := by
  obtain ⟨hx, hmask, habove, hstart⟩ := hover
  have hpasses : parityPasses remote (space && decide (lineBits remote cfg % 2 = 1)) :=
    Classical.not_not.mp (not_or.mp (not_or.mp hlevel).2).2
  have hc : ((0 : Nat) : Int) < cfg.bits := by omega
  have hbyte : lineBits remote cfg - 0 % lineBits remote cfg = lineBits remote cfg := by
    rw [Nat.zero_mod]
    rfl
  cases space with
  | false =>
    refine serialLoop_started (cfg.base + x) x hc rfl ?_ rfl (by omega) hmask hbase ?_ ?_ fuel
    · exact Nat.one_pos
    · change (if expect remote (cfg.base + x) cfg.base = true then _
        else if cfg.base + x > cfg.base then some (cfg.base + x - cfg.base) else none) = _
      rw [hstart, if_neg Bool.false_ne_true, if_pos (by omega)]
      congr 1
      omega
    · refine serial_never hn hstop ⟨hx, habove, ?_, .inr ⟨hn, hbits⟩, ?_⟩ ?_
      · unfold SerialState.pending SerialState.turned
        dsimp only
        rw [if_neg (Int.ne_of_gt hx)]
        rfl
      · unfold parityAhead SerialState.turned
        dsimp only
        rw [if_neg (Int.ne_of_gt hx)]
        exact hpasses
      · unfold SerialState.turned
        dsimp only
        rw [if_neg (Int.ne_of_gt hx)]
        exact hlevel
  | true =>
    refine serialLoop_started cfg.base 0 hc rfl ?_ rfl hbase (by omega) hbase ?_ ?_ fuel
    · exact Nat.two_pos
    · change (if expect remote cfg.base cfg.base = true then some 0 else _) = _
      rw [if_pos (expect_self htol (Int.le_of_lt hbase))]
    · intro fuel
      generalize hb : setPendingPulse cfg.base { data := endless cfg.base x true } = b
      have hrest := getNextPulse_rest (b := b) (by rw [← hb]; rfl) (by rw [← hb]; exact Nat.two_pos)
        cfg.maxPulse
      generalize (getNextPulse cfg.maxPulse b).2 = b1 at hrest
      obtain ⟨hdata, hrptr⟩ := hrest
      have hdata : b1.data = [PULSE_BIT + cfg.base, x] := by
        rw [hdata, ← hb]
        rfl
      generalize ht : SerialState.turned {
        delta := 0, origdelta := cfg.base
        buf := setPendingSpace 0 (setPendingPulse 0 b1) } = t
      have hspace : (getNextSpace cfg.maxSpace t.buf).1 = x := by
        have hbuf : t.buf.rptr = 1 ∧ t.buf.data = [PULSE_BIT + cfg.base, x] := by
          rw [← ht]
          exact ⟨hrptr, hdata⟩
        refine getNextSpace_recorded ?_ ?_ ?_ hx (by omega) _
        · rw [hbuf.1]
          decide
        · unfold Rbuf.wptr
          rw [hbuf.1, hbuf.2]
          exact Int.lt_succ 1
        · rw [hbuf.1, hbuf.2]
          rfl
      have hpend := (getNextSpace_pending cfg.maxSpace t.buf).2
      have hread := serialRead_space remote cfg (s := t) (by rw [← ht]; rfl)
        (by rw [← ht]; rfl) (by rw [hspace]; exact Int.ne_of_gt hx)
      rw [hspace] at hread
      have hc : (t.received : Int) < cfg.bits := by
        rw [← ht]
        exact hc
      rw [← serialLoop_read (.inl hc) (by rw [hread]; exact Int.ne_of_gt hx), hread]
      refine serial_never hn hstop ⟨hx, habove, ?_, .inr ⟨?_, hbits⟩, ?_⟩ ?_ fuel
      · unfold SerialState.pending
        dsimp only
        rw [hpend, ← ht]
        rfl
      · rw [← ht]
        exact hn
      · rw [← ht]
        change parityPasses remote (false ^^ (true && decide
          ((lineBits remote cfg - 0 % lineBits remote cfg) % 2 = 1)))
        rw [hbyte, Bool.false_xor]
        exact hpasses
      · rw [← ht]
        exact hlevel

/-- **A call that never ends**: the bits of a level do not, and there is a
    sample of that level above all tolerance. -/
theorem getSerial_never {remote : IrRemote} {bits x : Int} {space : Bool}
    (hbyte : 0 < remote.bitsInByte) (htol : Tolerant remote)
    (hbase : 0 < (serialConfig remote bits).base)
    (hover : OverTolerance remote (serialConfig remote bits).base x)
    (hbits : (lineBits remote (serialConfig remote bits) : Int) ≤ (serialConfig remote bits).bits)
    (hlevel : ¬ LevelEnds remote (serialConfig remote bits) space) (fuel : Nat) :
    getSerial fuel remote bits { data := endless (serialConfig remote bits).base x space } = none := by
  obtain ⟨-, hstop⟩ := serialConfig_nonneg remote bits
  have hn : 0 < lineBits remote (serialConfig remote bits) := Nat.add_pos_left hbyte _
  have hloop := serialLoop_endless hn hstop htol hbase hover hbits hlevel fuel
  have hspace : ((setPendingPulse (serialConfig remote bits).base
      { data := endless (serialConfig remote bits).base x space }).pendingp == 0) = false := by
    rw [beq_eq_false_iff_ne]
    exact Int.ne_of_gt hbase
  unfold getSerial
  dsimp only
  rw [hspace, hloop]

end WinLirc
