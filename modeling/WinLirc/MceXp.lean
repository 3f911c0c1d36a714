/-
  File:      WinLirc/MceXp.lean
  Subject:   DLL/MCE-XP/SendReceiveData.cpp: the packets of the device.

  A byte from 0x81 to 0x9E is the header of a pulse packet, 0x9F begins a packet
  of 8 bytes, other bytes are skipped. `threadProc` keeps a pulse packet that is
  not complete for the next read, but jumps over a 0x9F packet even where the
  read ends inside it.

  * `threadProc_framing`: the packets are those of the whole stream, and none is
    reparsed from its middle, exactly if no read ends inside a 0x9F packet;
  * `decodeRaw_merged`: the samples are merged runs exactly if each pulse byte
    stands alone behind a space that the mask does not change.
-/
import Mathlib.Data.List.DropRight
import WinLirc.Driver
import WinLirc.LircDefines
import WinLirc.Signal.Coalesce
import WinLirc.Signal.Framing
import WinLirc.Signal.Machine

namespace WinLirc.MceXp

open Signal

/-! ## 1. `threadProc` -/

/-- What `decodeRaw` is called with: a header and as many bytes as it says. -/
structure PulsePacket where
  header : UCHAR
  data : List UCHAR
  isHeader : 0x81 ≤ header ∧ header ≤ 0x9E
  length : data.length = (header &&& 0x7F).toNat
  deriving DecidableEq, Repr

/-- What a turn of the loop over the buffer takes. -/
inductive Turn where
  | pulse (packet : PulsePacket)
  | space -- 0x9F: `space += 100000`
  | skip (byte : UCHAR)
  deriving DecidableEq, Repr

/-- A turn, and by how much `bufferPointer` moves; `none` is the jump to
    `overflowExit`. -/
def turn : List UCHAR → Option (Turn × Nat)
  | [] => none
  | byte :: more =>
    if hbyte : 0x81 ≤ byte ∧ byte ≤ 0x9E then
      if hlength : (byte &&& 0x7F).toNat + 1 > (byte :: more).length then none
      else
        have hdata : (more.take (byte &&& 0x7F).toNat).length = (byte &&& 0x7F).toNat := by
          rw [List.length_take]
          rw [List.length_cons] at hlength
          omega
        some (.pulse ⟨byte, more.take (byte &&& 0x7F).toNat, hbyte, hdata⟩,
          (byte &&& 0x7F).toNat + 1)
    else if byte = 0x9F then some (.space, 8)
    else some (.skip byte, 1)

/-- What comes of a buffer: the turns with their places in the stream, the places
    that were looked at, and the overflow. -/
structure ReadResult where
  turns : List (Placed Turn)
  looked : List Nat
  overflow : List UCHAR

/-- The loop over the buffer, whose first byte stands at `place` in the stream; it
    takes no more turns than there are bytes. -/
def bufferLoop : Nat → Nat → List UCHAR → ReadResult
  | 0, _, buffer => ⟨[], [], buffer⟩
  | _ + 1, _, [] => ⟨[], [], []⟩
  | fuel + 1, place, byte :: more =>
    match turn (byte :: more) with
    | none => ⟨[], [place], byte :: more⟩
    | some (t, n) =>
      let r := bufferLoop fuel (place + n) ((byte :: more).drop n)
      ⟨⟨place, n, t⟩ :: r.turns, place :: r.looked, r.overflow⟩

/-- The reads one after the other, each behind the overflow of the one before. -/
def threadProc : Nat → List UCHAR → List (List UCHAR) → ReadResult
  | _, overflow, [] => ⟨[], [], overflow⟩
  | place, overflow, read :: reads =>
    let buffer := overflow ++ read
    let r := bufferLoop buffer.length place buffer
    let more := threadProc (place + buffer.length - r.overflow.length) r.overflow reads
    ⟨r.turns ++ more.turns, r.looked ++ more.looked, more.overflow⟩

/-- The pulse packets passed to `decodeRaw` and the 0x9F packets. -/
def packets (turns : List (Placed Turn)) : List Turn :=
  (turns.map (·.frame)).filter fun
    | .skip _ => false
    | _ => true

/-- The whole stream parsed at once. -/
def wholeTurns (stream : List UCHAR) : List (Placed Turn) := (bufferLoop stream.length 0 stream).turns

/-- The packets are those of the whole stream, and no place inside one is looked
    at as the beginning of a packet. -/
def FramedAsWhole (reads : List (List UCHAR)) : Prop :=
  packets (threadProc 0 [] reads).turns = packets (wholeTurns reads.flatten) ∧
    ∀ p ∈ wholeTurns reads.flatten, ∀ i ∈ (threadProc 0 [] reads).looked, ¬ p.Inside i

/-- No read but the last ends inside a 0x9F packet. -/
def NoSpaceCut (reads : List (List UCHAR)) : Prop :=
  ∀ front back, reads = front ++ back → back.flatten ≠ [] →
    ∀ p ∈ wholeTurns reads.flatten, p.frame = .space → ¬ p.Inside front.flatten.length

/-! ## 2. Framing -/

section Framing

variable {l m : List UCHAR} {t : Turn} {n : Nat}

theorem turn_pos (h : turn l = some (t, n)) : 0 < n := by
  unfold turn at h
  split at h
  · exact nomatch h
  · split at h
    · split at h
      · exact nomatch h
      · obtain ⟨-, rfl⟩ := Prod.mk.inj (Option.some.inj h)
        exact Nat.succ_pos _
    · split at h
      · obtain ⟨-, rfl⟩ := Prod.mk.inj (Option.some.inj h)
        decide
      · obtain ⟨-, rfl⟩ := Prod.mk.inj (Option.some.inj h)
        decide

/-- More bytes do not change a turn. -/
theorem turn_stable (m : List UCHAR) (h : turn l = some (t, n)) : turn (l ++ m) = some (t, n) := by
  cases l with
  | nil => exact nomatch h
  | cons byte more =>
    rw [List.cons_append]
    unfold turn at h ⊢
    dsimp only at h ⊢
    split at h
    · next hbyte =>
      split at h
      · exact nomatch h
      · next hlength =>
        rw [List.length_cons] at hlength
        have hmore : ¬ (byte &&& 0x7F).toNat + 1 > (byte :: (more ++ m)).length := by
          rw [List.length_cons, List.length_append]
          omega
        rw [dif_pos hbyte, dif_neg hmore, ← h]
        congr 4
        exact List.take_append_of_le_length (by omega)
    · next hbyte => rw [dif_neg hbyte, h]

/-- A pulse packet is taken when it is complete. -/
theorem turn_whole (h : turn l = some (t, n)) (ht : ¬ t = .space) : n ≤ l.length := by
  unfold turn at h
  split at h
  · exact nomatch h
  · split at h
    · split at h
      · exact nomatch h
      · next hlength =>
        obtain ⟨-, rfl⟩ := Prod.mk.inj (Option.some.inj h)
        exact Nat.not_lt.mp hlength
    · split at h
      · obtain ⟨rfl, -⟩ := Prod.mk.inj (Option.some.inj h)
        exact absurd rfl ht
      · obtain ⟨-, rfl⟩ := Prod.mk.inj (Option.some.inj h)
        exact Nat.succ_pos _

/-- What is kept is the beginning of a pulse packet. -/
theorem turn_waits (hl : l ≠ []) (h : turn l = none) (hm : turn (l ++ m) = some (t, n)) :
    ¬ t = .space ∧ l.length < n := by
  cases l with
  | nil => exact absurd rfl hl
  | cons byte more =>
    rw [List.cons_append] at hm
    unfold turn at h hm
    dsimp only at h hm
    split at h
    · next hbyte =>
      rw [dif_pos hbyte] at hm
      split at h
      · next hlength =>
        split at hm
        · exact nomatch hm
        · obtain ⟨rfl, rfl⟩ := Prod.mk.inj (Option.some.inj hm)
          exact ⟨Turn.noConfusion, hlength⟩
      · exact nomatch h
    · split at h
      · exact nomatch h
      · exact nomatch h

/-- The turns of the loop as the frames of a stream. -/
def framing : Framing UCHAR Turn where
  next := turn
  early := (· = .space)
  nil := rfl
  pos := turn_pos
  stable := turn_stable
  whole := turn_whole
  waits := turn_waits

/-- **The loop over a buffer** takes its frames. -/
theorem bufferLoop_eq {fuel : Nat} (place : Nat) (buffer : List UCHAR) (h : buffer.length ≤ fuel) :
    bufferLoop fuel place buffer = ⟨(framing.parse place buffer).frames,
      (framing.parse place buffer).looked, (framing.parse place buffer).rest⟩ := by
  induction fuel generalizing place buffer with
  | zero =>
    rw [List.eq_nil_of_length_eq_zero (Nat.le_zero.mp h)]
    rfl
  | succ fuel ih =>
    cases buffer with
    | nil => rfl
    | cons byte more =>
      rw [bufferLoop]
      cases ht : turn (byte :: more) with
      | none =>
        have hnext : framing.next (byte :: more) = none := ht
        rw [Framing.parse_none hnext]
        rfl
      | some r =>
        obtain ⟨t, n⟩ := r
        have hnext : framing.next (byte :: more) = some (t, n) := ht
        have hpos := turn_pos ht
        have hlen : ((byte :: more).drop n).length ≤ fuel := by
          rw [List.length_drop]
          omega
        rw [Framing.parse_some hnext]
        dsimp only
        rw [ih (place + n) _ hlen]
        rfl

theorem threadProc_eq (place : Nat) (overflow : List UCHAR) (reads : List (List UCHAR)) :
    threadProc place overflow reads = ⟨(framing.feed place overflow reads).frames,
      (framing.feed place overflow reads).looked, (framing.feed place overflow reads).rest⟩ := by
  induction reads generalizing place overflow with
  | nil => rfl
  | cons read reads ih =>
    rw [threadProc, Framing.feed]
    dsimp only
    rw [bufferLoop_eq place _ (Nat.le_refl _), ih]

theorem length_lt_of_waits (h : turn l = none) : l.length < 31 := by
  have hheader : ∀ byte : UCHAR, 0x81 ≤ byte ∧ byte ≤ 0x9E → (byte &&& 0x7F).toNat ≤ 30 := by
    decide
  cases l with
  | nil => exact Nat.succ_pos 30
  | cons byte more =>
    unfold turn at h
    dsimp only at h
    split at h
    · next hbyte =>
      have hle := hheader byte hbyte
      split at h
      · next hlength => exact Nat.lt_of_lt_of_le hlength (Nat.succ_le_succ hle)
      · exact nomatch h
    · split at h
      · exact nomatch h
      · exact nomatch h

/-- The overflow leaves room in the buffer of 256 bytes. -/
theorem overflow_lt (place : Nat) (overflow : List UCHAR) (reads : List (List UCHAR))
    (h : overflow.length < 31) : (threadProc place overflow reads).overflow.length < 31 := by
  induction reads generalizing place overflow with
  | nil => exact h
  | cons read reads ih =>
    rw [threadProc]
    refine ih _ _ ?_
    rw [bufferLoop_eq place _ (Nat.le_refl _)]
    dsimp only
    exact length_lt_of_waits (@Framing.next_rest _ _ framing place (overflow ++ read))

end Framing

/-- **Framing**, for every stream and every way it is split over reads: the packets
    are those of the whole stream exactly if no read ends inside a 0x9F packet. -/
theorem threadProc_framing (reads : List (List UCHAR)) :
    FramedAsWhole reads ↔ NoSpaceCut reads := by
  have hwhole : wholeTurns reads.flatten = (framing.parse 0 ([] ++ reads.flatten)).frames := by
    rw [wholeTurns, bufferLoop_eq 0 _ (Nat.le_refl _)]
    rfl
  have hcut : NoSpaceCut reads ↔ framing.NoEarlyCut 0 [] reads := by
    unfold NoSpaceCut Framing.NoEarlyCut
    rw [hwhole, List.length_nil, Nat.add_zero]
    simp only [Nat.zero_add]
    exact Iff.rfl
  unfold FramedAsWhole
  rw [hwhole, threadProc_eq, hcut]
  constructor
  · intro h
    exact (Framing.feed_iff rfl).mp h.2
  · intro h
    refine ⟨?_, (Framing.feed_iff rfl).mpr h⟩
    rw [Framing.feed_frames rfl h]

/-- **The rest of a 0x9F packet** is taken for a pulse packet. -/
theorem threadProc_framing_cut :
    (packets (threadProc 0 [] [[0x9F], [0x81, 0x80, 0, 0, 0, 0, 0]]).turns).length = 2 ∧
      packets (wholeTurns [0x9F, 0x81, 0x80, 0, 0, 0, 0, 0]) = [.space] ∧
      ¬ FramedAsWhole [[0x9F], [0x81, 0x80, 0, 0, 0, 0, 0]] := by
  have htwo : (packets (threadProc 0 [] [[0x9F], [0x81, 0x80, 0, 0, 0, 0, 0]]).turns).length = 2 := by
    decide +kernel
  have hone : packets (wholeTurns [0x9F, 0x81, 0x80, 0, 0, 0, 0, 0]) = [.space] := by
    decide +kernel
  refine ⟨htwo, hone, fun h => ?_⟩
  have hlen := congrArg List.length h.1
  rw [htwo, show wholeTurns [[0x9F], [0x81, 0x80, 0, 0, 0, 0, 0]].flatten =
    wholeTurns [0x9F, 0x81, 0x80, 0, 0, 0, 0, 0] from rfl, hone] at hlen
  exact absurd hlen (by decide)

/-! ## 3. `decodeRaw` -/

/-- `in[i] & 0x80`. -/
def isPulseByte (byte : UCHAR) : Bool := byte &&& 0x80 != 0

/-- `(in[i] & 0x7F) * 50`. -/
def duration (byte : UCHAR) : Int := ((byte &&& 0x7F).toNat * 50 : Nat)

/-- A byte of a packet: what `setData` is given, and `space` behind it, an `int`. -/
def decodeByte (space : Int) (byte : UCHAR) : List Int × Int :=
  if isPulseByte byte then ([maskPulse space, PULSE_BIT + duration byte], 0)
  else ([], (space + duration byte).bmod (2 ^ 32))

def decodeRaw (space : Int) (packet : PulsePacket) : List Int × Int :=
  (emits decodeByte space packet.data, after decodeByte space packet.data)

/-- A byte: is it a pulse, and how long. -/
def byteRun (byte : UCHAR) : Bool × Int := (isPulseByte byte, duration byte)

/-- The runs of a stream, behind the space that `init` sets. -/
def byteRuns (bytes : List UCHAR) : List (Bool × Int) :=
  coalesce ((false, PULSE_MASK) :: bytes.map byteRun)

/-- The sample for a run: a space is saturated. -/
def runSample (run : Bool × Int) : Int := if run.1 then PULSE_BIT + run.2 else min run.2 PULSE_MASK

/-- The runs without a space that is not over. -/
def closedRuns (runs : List (Bool × Int)) : List (Bool × Int) := runs.rdropWhile fun run => !run.1

/-- The samples are the merged runs. -/
structure Merged (bytes : List UCHAR) (samples : List Int) : Prop where
  alternating : (samples.map isPulse).IsChain (· ≠ ·)
  positive : ∀ sample ∈ samples, 0 < maskPulse sample
  runs : samples = (closedRuns (byteRuns bytes)).map runSample

/-- The space accumulated behind some bytes. -/
def accumulated (bytes : List UCHAR) : Int :=
  bytes.foldl (fun space byte => if isPulseByte byte then 0 else space + duration byte) PULSE_MASK

/-- The mask leaves of this space what saturation would, and not nothing. -/
def Saturates (space : Int) : Prop :=
  0 < space ∧ (space ≤ PULSE_MASK ∨ space % PULSE_BIT = PULSE_MASK)

/-- A byte in its place: a pulse byte is not empty, and stands behind a space that
    saturates. -/
def MergesAt (front : List UCHAR) (byte : UCHAR) : Prop :=
  isPulseByte byte = true → 0 < duration byte ∧ Saturates (accumulated front)

section Merge

variable {bytes front back : List UCHAR} {byte : UCHAR} {u : List (Bool × Int)}

theorem duration_nonneg (byte : UCHAR) : 0 ≤ duration byte := Int.natCast_nonneg _

theorem duration_le (byte : UCHAR) : duration byte ≤ PULSE_MASK := by
  have hlt := (byte &&& 0x7F).isLt
  unfold duration PULSE_MASK
  omega

theorem decodeByte_pulse (h : isPulseByte byte = true) (space : Int) :
    decodeByte space byte = ([maskPulse space, PULSE_BIT + duration byte], 0) := if_pos h

theorem decodeByte_space (h : ¬ isPulseByte byte = true) (space : Int) :
    decodeByte space byte = ([], (space + duration byte).bmod (2 ^ 32)) := if_neg h

theorem accumulated_snoc (bytes : List UCHAR) (byte : UCHAR) :
    accumulated (bytes ++ [byte]) =
      if isPulseByte byte then 0 else accumulated bytes + duration byte := by
  unfold accumulated
  rw [List.foldl_append]
  rfl

theorem accumulated_nonneg (bytes : List UCHAR) : 0 ≤ accumulated bytes := by
  induction bytes using List.reverseRecOn with
  | nil => decide
  | append_singleton bytes byte ih =>
    have hbyte := duration_nonneg byte
    rw [accumulated_snoc]
    split
    · exact Int.le_refl 0
    · omega

/-- `space` behind some bytes, which a long silence takes beyond an `int`. -/
theorem after_decodeByte (bytes : List UCHAR) :
    after decodeByte PULSE_MASK bytes = (accumulated bytes).bmod (2 ^ 32) := by
  induction bytes using List.reverseRecOn with
  | nil => rfl
  | append_singleton bytes byte ih =>
    rw [Signal.after_append, ih, accumulated_snoc]
    show (decodeByte ((accumulated bytes).bmod (2 ^ 32)) byte).2 = _
    unfold decodeByte
    split
    · rfl
    · exact Int.bmod_add_bmod

/-- The mask takes from an `int` what it would take from the whole sum. -/
theorem maskPulse_bmod (space : Int) : maskPulse (space.bmod (2 ^ 32)) = maskPulse space := by
  have hdvd : (PULSE_BIT : Int) ∣ ((2 ^ 32 : Nat) : Int) := by decide
  unfold maskPulse
  rw [← Int.emod_emod_of_dvd (space.bmod (2 ^ 32)) hdvd, Int.bmod_emod, Int.emod_emod_of_dvd space hdvd]

theorem emits_snoc (bytes : List UCHAR) (byte : UCHAR) :
    emits decodeByte PULSE_MASK (bytes ++ [byte]) =
      emits decodeByte PULSE_MASK bytes ++ (decodeByte (accumulated bytes) byte).1 := by
  have hsame : (decodeByte ((accumulated bytes).bmod (2 ^ 32)) byte).1 =
      (decodeByte (accumulated bytes) byte).1 := by
    unfold decodeByte
    split
    · rw [maskPulse_bmod]
    · rfl
  rw [Signal.emits_append, after_decodeByte, ← hsame]
  exact congrArg (_ ++ ·) (List.append_nil _)

/-- **The calls of `decodeRaw`** go through the bytes of all packets. -/
theorem emits_decodeRaw (space : Int) (calls : List PulsePacket) :
    emits decodeRaw space calls = emits decodeByte space (calls.flatMap (·.data)) := by
  induction calls generalizing space with
  | nil => rfl
  | cons packet calls ih =>
    rw [Signal.emits_cons, List.flatMap_cons, Signal.emits_append, ih]
    rfl

/-- Space and pulse in turn, whatever the bytes. -/
theorem alternating_emits (space : Int) (bytes : List UCHAR) :
    ((emits decodeByte space bytes).map isPulse).IsChain (· ≠ ·) ∧
      ((emits decodeByte space bytes).map isPulse).head? ≠ some true := by
  induction bytes generalizing space with
  | nil => exact ⟨List.isChain_nil, nofun⟩
  | cons byte bytes ih =>
    rw [Signal.emits_cons]
    by_cases hbyte : isPulseByte byte = true
    · obtain ⟨hchain, hhead⟩ := ih 0
      have hspace : isPulse (maskPulse space) = false := by
        have hlt : maskPulse space < PULSE_BIT := Int.emod_lt_of_pos space (by decide)
        refine isPulse_of_le (Int.emod_nonneg space (by decide)) ?_
        unfold PULSE_BIT at hlt
        unfold PULSE_MASK
        omega
      have hpulse : isPulse (PULSE_BIT + duration byte) = true :=
        isPulse_add (duration_nonneg byte) (duration_le byte)
      rw [decodeByte_pulse hbyte]
      show (isPulse (maskPulse space) :: isPulse (PULSE_BIT + duration byte) ::
          (emits decodeByte 0 bytes).map isPulse).IsChain (· ≠ ·) ∧
        some (isPulse (maskPulse space)) ≠ some true
      rw [hspace, hpulse]
      refine ⟨?_, by simp⟩
      refine List.isChain_cons_cons.mpr ⟨Bool.false_ne_true, ?_⟩
      refine List.isChain_cons.mpr ⟨fun kind hkind hsame => hhead ?_, hchain⟩
      rw [hsame]
      exact hkind
    · rw [decodeByte_space hbyte]
      exact ih _

theorem maskPulse_maskPulse (space : Int) : maskPulse (maskPulse space) = maskPulse space :=
  Int.emod_emod_of_dvd space (Int.dvd_refl PULSE_BIT)

theorem maskPulse_saturates {space : Int} (_ : 0 ≤ space) :
    (0 < maskPulse space ∧ maskPulse space = min space PULSE_MASK) ↔ Saturates space := by
  unfold Saturates maskPulse PULSE_BIT PULSE_MASK
  omega

/-- The runs and the samples behind some bytes. -/
structure Emitted (bytes : List UCHAR) (u : List (Bool × Int)) : Prop where
  last : u = [] ∨ ∃ v d, u = v ++ [(true, d)]
  runs : byteRuns bytes = u ++ [(false, accumulated bytes)] ∨
    byteRuns bytes = u ∧ accumulated bytes = 0 ∧ u ≠ []
  samples : emits decodeByte PULSE_MASK bytes = u.map runSample
  positive : ∀ sample ∈ u.map runSample, 0 < maskPulse sample

theorem byteRuns_snoc (bytes : List UCHAR) (byte : UCHAR) :
    byteRuns (bytes ++ [byte]) =
      coalesce ((false, PULSE_MASK) :: bytes.map byteRun ++ [(isPulseByte byte, duration byte)]) := by
  unfold byteRuns
  rw [List.map_append]
  rfl

/-- A byte of a space. -/
theorem Emitted.space (h : Emitted bytes u) (hbyte : ¬ isPulseByte byte = true) :
    Emitted (bytes ++ [byte]) u := by
  have hfalse : isPulseByte byte = false := Bool.eq_false_iff.mpr hbyte
  refine ⟨h.last, .inl ?_, ?_, h.positive⟩
  · rw [byteRuns_snoc, accumulated_snoc, if_neg hbyte, hfalse]
    rcases h.runs with hruns | ⟨hruns, hzero, hne⟩
    · exact coalesce_snoc_same _ hruns
    · rcases h.last with rfl | ⟨v, d, rfl⟩
      · exact absurd rfl hne
      · rw [coalesce_snoc_ne _ hruns (by decide), hzero, zero_add, List.append_assoc]
        rfl
  · rw [emits_snoc, decodeByte_space hbyte, h.samples]
    exact List.append_nil _

/-- A pulse byte in its place. -/
theorem Emitted.pulse (h : Emitted bytes u) (hbyte : isPulseByte byte = true)
    (hat : MergesAt bytes byte) :
    Emitted (bytes ++ [byte]) (u ++ [(false, accumulated bytes), (true, duration byte)]) := by
  obtain ⟨hpos, hsat⟩ := hat hbyte
  obtain ⟨hmask, hmin⟩ := (maskPulse_saturates (accumulated_nonneg bytes)).mpr hsat
  have hduration := maskPulse_add (duration_nonneg byte) (duration_le byte)
  have hu : u ++ [(false, accumulated bytes), (true, duration byte)] =
      u ++ [(false, accumulated bytes)] ++ [(true, duration byte)] := by
    rw [List.append_assoc]
    rfl
  refine ⟨.inr ⟨_, _, hu⟩, .inr ⟨?_, ?_, ?_⟩, ?_, ?_⟩
  · rw [byteRuns_snoc, hbyte]
    rcases h.runs with hruns | ⟨-, hzero, -⟩
    · exact coalesce_snoc_ne _ hruns (by decide)
    · rw [hzero] at hsat
      exact absurd hsat.1 (Int.lt_irrefl 0)
  · rw [accumulated_snoc, if_pos hbyte]
  · exact List.append_ne_nil_of_right_ne_nil u (List.cons_ne_nil _ _)
  · rw [emits_snoc, decodeByte_pulse hbyte, h.samples, List.map_append, hmin]
    rfl
  · intro sample hsample
    rw [List.map_append] at hsample
    rcases List.mem_append.mp hsample with hold | hnew
    · exact h.positive sample hold
    · rcases List.mem_cons.mp hnew with rfl | hnew
      · show 0 < maskPulse (min (accumulated bytes) PULSE_MASK)
        rwa [← hmin, maskPulse_maskPulse]
      · rw [List.mem_singleton.mp hnew]
        show 0 < maskPulse (PULSE_BIT + duration byte)
        rwa [hduration]

/-- **Bytes in their places** are emitted as merged runs. -/
theorem exists_emitted (h : ∀ front byte back, bytes = front ++ byte :: back → MergesAt front byte) :
    ∃ u, Emitted bytes u := by
  induction bytes using List.reverseRecOn with
  | nil => exact ⟨[], .inl rfl, .inl rfl, rfl, fun _ hs => absurd hs List.not_mem_nil⟩
  | append_singleton bytes byte ih =>
    obtain ⟨hfront, hlast⟩ := forall_place_snoc.mp h
    obtain ⟨u, hu⟩ := ih hfront
    by_cases hbyte : isPulseByte byte = true
    · exact ⟨_, hu.pulse hbyte hlast⟩
    · exact ⟨u, hu.space hbyte⟩

theorem Emitted.closed (h : Emitted bytes u) : closedRuns (byteRuns bytes) = u := by
  have hu : closedRuns u = u := by
    unfold closedRuns
    rcases h.last with rfl | ⟨v, d, rfl⟩
    · rfl
    · exact List.rdropWhile_concat_neg _ _ _ Bool.false_ne_true
  rcases h.runs with hruns | ⟨hruns, -, -⟩
  · rw [hruns]
    refine Eq.trans ?_ hu
    exact List.rdropWhile_concat_pos _ _ _ rfl
  · rw [hruns, hu]

/-- Nothing in front of a pulse is left out. -/
theorem closedRuns_append (front back : List (Bool × Int)) (d : Int) :
    ∃ v, closedRuns (front ++ (true, d) :: back) = front ++ v := by
  unfold closedRuns
  induction back using List.reverseRecOn with
  | nil => exact ⟨[(true, d)], List.rdropWhile_concat_neg _ _ _ Bool.false_ne_true⟩
  | append_singleton back run ih =>
    rw [← List.cons_append, ← List.append_assoc, List.rdropWhile_concat]
    split
    · exact ih
    · exact ⟨(true, d) :: back ++ [run], List.append_assoc _ _ _⟩

/-- **A pulse byte out of its place** is seen in the samples. -/
theorem Merged.at_place (h : Merged bytes (emits decodeByte PULSE_MASK bytes))
    (hsplit : bytes = front ++ byte :: back) (hu : Emitted front u) : MergesAt front byte := by
  intro hbyte
  have hnonneg := accumulated_nonneg front
  have hemits : emits decodeByte PULSE_MASK bytes =
      u.map runSample ++ (maskPulse (accumulated front) :: (PULSE_BIT + duration byte) ::
        emits decodeByte 0 back) := by
    rw [hsplit, Signal.emits_append, hu.samples, after_decodeByte, Signal.emits_cons,
      decodeByte_pulse hbyte, maskPulse_bmod]
    rfl
  have hpositive := h.positive
  rw [hemits] at hpositive
  have hspace : 0 < maskPulse (maskPulse (accumulated front)) :=
    hpositive (maskPulse (accumulated front)) (List.mem_append_right _ List.mem_cons_self)
  have hpulse : 0 < maskPulse (PULSE_BIT + duration byte) :=
    hpositive (PULSE_BIT + duration byte) (List.mem_append_right _ (List.mem_cons_of_mem _ List.mem_cons_self))
  rw [maskPulse_maskPulse] at hspace
  rw [maskPulse_add (duration_nonneg byte) (duration_le byte)] at hpulse
  refine ⟨hpulse, (maskPulse_saturates hnonneg).mp ⟨hspace, ?_⟩⟩
  rcases hu.runs with hruns | ⟨-, hzero, -⟩
  · have hall : byteRuns bytes = coalesce ((false, PULSE_MASK) :: front.map byteRun ++
        (true, duration byte) :: back.map byteRun) := by
      unfold byteRuns
      rw [hsplit, List.map_append, ← hbyte]
      rfl
    obtain ⟨x, v, hx⟩ := coalesce_append_ne (duration byte) (back.map byteRun) hruns
      (Bool.false_ne_true)
    obtain ⟨w, hw⟩ := closedRuns_append (u ++ [(false, accumulated front)]) v x
    have hsamples := h.runs
    rw [hemits, hall, hx, hw, List.append_assoc, List.map_append] at hsamples
    have hhead := List.append_cancel_left hsamples
    exact (List.cons.inj hhead).1
  · rw [hzero] at hspace
    exact absurd hspace (by decide)

end Merge

/-- **Merging**, for every sequence of calls: the samples are the merged runs
    exactly if every pulse byte stands alone, is not empty, and follows a space
    that is not 0 and that the mask leaves as it is or as saturation would. -/
theorem decodeRaw_merged (calls : List PulsePacket) :
    Merged (calls.flatMap (·.data)) (emits decodeRaw PULSE_MASK calls) ↔
      ∀ front byte back, calls.flatMap (·.data) = front ++ byte :: back → MergesAt front byte := by
  rw [emits_decodeRaw]
  generalize calls.flatMap (·.data) = bytes
  constructor
  · intro h
    -- by induction on the bytes in front, which are in their places
    have hfront : ∀ front back, bytes = front ++ back →
        ∀ f b k, front = f ++ b :: k → MergesAt f b := by
      intro front
      induction front using List.reverseRecOn with
      | nil => exact fun _ _ => forall_place_nil (P := fun f b _ => MergesAt f b)
      | append_singleton front last ih =>
        intro back hsplit
        rw [List.append_assoc] at hsplit
        have hgood := ih (last :: back) hsplit
        obtain ⟨u, hu⟩ := exists_emitted hgood
        exact forall_place_snoc.mpr ⟨hgood, h.at_place hsplit hu⟩
    exact hfront bytes [] (List.append_nil bytes).symm
  · intro h
    obtain ⟨u, hu⟩ := exists_emitted h
    refine ⟨(alternating_emits PULSE_MASK bytes).1, ?_, ?_⟩
    · rw [hu.samples]
      exact hu.positive
    · rw [hu.closed, hu.samples]

/-- A packet of a pulse in two bytes. -/
def twoPulses : PulsePacket := ⟨0x82, [0x85, 0x83], by decide, by decide⟩

/-- A packet that begins with a space. -/
def spacePulse : PulsePacket := ⟨0x82, [0x01, 0x85], by decide, by decide⟩

/-- **The two bytes are not merged**, and a first space of more than `PULSE_MASK` is
    49 microseconds long. -/
theorem decodeRaw_merged_apart :
    emits decodeRaw PULSE_MASK [twoPulses] = [PULSE_MASK, PULSE_BIT + 250, 0, PULSE_BIT + 150] ∧
      (closedRuns (byteRuns twoPulses.data)).map runSample = [PULSE_MASK, PULSE_BIT + 400] ∧
      emits decodeRaw PULSE_MASK [spacePulse] = [49, PULSE_BIT + 250] ∧
      (closedRuns (byteRuns spacePulse.data)).map runSample = [PULSE_MASK, PULSE_BIT + 250] ∧
      ¬ Merged twoPulses.data (emits decodeRaw PULSE_MASK [twoPulses]) := by
  refine ⟨by decide +kernel, by decide +kernel, by decide +kernel, by decide +kernel, fun h => ?_⟩
  have hzero : ∀ sample ∈ emits decodeRaw PULSE_MASK [twoPulses], 0 < maskPulse sample := h.positive
  revert hzero
  decide +kernel

end WinLirc.MceXp
