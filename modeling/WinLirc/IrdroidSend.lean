/-
  File:      WinLirc/IrdroidSend.lean
  Subject:   DLL/Irdroid/SendReceiveData.cpp: the packets in which `send` writes a
             transmission.

  A duration becomes a word, the high byte first; a space at the end is removed and
  0xFFFF put behind. The device says before each packet how many bytes it takes.
  The scaling of a duration is a parameter, and so is what stands in memory behind
  the words.

  `send_packets`: the loop ends, and each byte is written once exactly if every
  size that the words left can fill is even.
-/
import Mathlib.Tactic.IntervalCases
import WinLirc.Driver
import WinLirc.InitSend

namespace WinLirc.Irdroid

/-! ## 1. The words of a transmission -/

/-- `irDroidSignals[i]` with its two bytes swapped. -/
def swapBytes (word : BitVec 16) : BitVec 16 :=
  let temp : UCHAR := ((word >>> 8) &&& (0x00FF : BitVec 16)).setWidth 8
  let word := (word <<< 8) &&& (0xFF00 : BitVec 16)
  word + temp.setWidth 16

section Words

variable (scale : Int → BitVec 16)

/-- `length`, with the end marker and without a space at the end. -/
def sendLength (signals : List Int) : Nat :=
  let length := signals.length + 1
  if length % 2 = 1 then length - 1 else length

/-- `irDroidSignals`; its last word is not set where a space was removed. -/
def irDroidSignals (last : BitVec 16) (signals : List Int) : List (BitVec 16) :=
  (signals.map (fun signal => swapBytes (scale (maskPulse signal))) ++ [last]).set
    (sendLength signals - 1) 0xFFFF

/-- Memory from `irDroidSignals` on. -/
def memory (last : BitVec 16) (behind : Nat → UCHAR) (signals : List Int) (i : Nat) : UCHAR :=
  ((irDroidSignals scale last signals).flatMap wordBytes)[i]?.getD (behind i)

end Words

/-! ## 2. The loop over the packets -/

section Loop

variable (mem : Nat → UCHAR) (size : Nat → UCHAR) (length : Nat)

/-- What `serial.Write` is given: `n` bytes from `a` on. -/
def bytesAt (a n : Nat) : List UCHAR := (List.range n).map fun j => mem (a + j)

/-- The loop: the device has told `k` sizes, `i` words are done. -/
def packetLoop : Nat → Nat → Nat → Option (List (List UCHAR))
  | 0, _, _ => none
  | fuel + 1, k, i =>
    if i < length then
      let packetLength := (size k).toNat
      let packetLength :=
        if length - i < packetLength / 2 then (length - i) * 2 -- in bytes
        else packetLength
      (packetLoop fuel (k + 1) (i + packetLength / 2)).map (bytesAt mem (2 * i) packetLength :: ·)
    else some []

/-- The words that `n` packets take, the first of them packet `k`. -/
def wordsTaken (k n : Nat) : Nat := ((List.range n).map fun j => (size (k + j)).toNat / 2).sum

/-- Each size that the words left can fill is even. -/
def EvenSizes (k i : Nat) : Prop :=
  ∀ n, i + wordsTaken size k n + (size (k + n)).toNat / 2 ≤ length → (size (k + n)).toNat % 2 = 0

variable {mem size length}

theorem bytesAt_add (a m n : Nat) :
    bytesAt mem a (m + n) = bytesAt mem a m ++ bytesAt mem (a + m) n := by
  unfold bytesAt
  rw [List.range_add, List.map_append, List.map_map]
  congr 2
  funext j
  exact congrArg mem (Nat.add_assoc a m j).symm

theorem length_bytesAt (a n : Nat) : (bytesAt mem a n).length = n := by
  unfold bytesAt
  rw [List.length_map, List.length_range]

theorem wordsTaken_succ (k n : Nat) :
    wordsTaken size k (n + 1) = (size k).toNat / 2 + wordsTaken size (k + 1) n := by
  unfold wordsTaken
  rw [List.range_succ_eq_map, List.map_cons, List.map_map, List.sum_cons]
  congr 3
  funext j
  show (size (k + (j + 1))).toNat / 2 = (size (k + 1 + j)).toNat / 2
  rw [Nat.add_comm j 1, Nat.add_assoc]

/-- One packet, and those behind it. -/
theorem evenSizes_succ (k i : Nat) : EvenSizes size length k i ↔
    (i + (size k).toNat / 2 ≤ length → (size k).toNat % 2 = 0) ∧
      EvenSizes size length (k + 1) (i + (size k).toNat / 2) := by
  have hsum : ∀ n, i + wordsTaken size k (n + 1) =
      i + (size k).toNat / 2 + wordsTaken size (k + 1) n := by
    intro n
    rw [wordsTaken_succ, Nat.add_assoc]
  constructor
  · intro h
    refine ⟨h 0, fun n hn => ?_⟩
    have hk : k + 1 + n = k + (n + 1) := by omega
    rw [hk] at hn ⊢
    rw [← hsum] at hn
    exact h (n + 1) hn
  · intro h n hn
    cases n with
    | zero => exact h.1 hn
    | succ n =>
      have hk : k + 1 + n = k + (n + 1) := by omega
      rw [hsum] at hn
      rw [← hk] at hn ⊢
      exact h.2 n hn

/-- **The loop** writes all that is left, and more where a size is odd. -/
theorem packetLoop_packets (hsize : ∀ k, 2 ≤ size k) {fuel k i : Nat} (hi : i ≤ length)
    (hfuel : length - i < fuel) :
    ∃ packets, packetLoop mem size length fuel k i = some packets ∧
      (EvenSizes size length k i → packets.flatten = bytesAt mem (2 * i) (2 * (length - i))) ∧
      2 * (length - i) ≤ packets.flatten.length ∧
      (packets.flatten.length = 2 * (length - i) → EvenSizes size length k i) := by
  induction fuel generalizing k i with
  | zero => exact absurd hfuel (Nat.not_lt_zero _)
  | succ fuel ih =>
    have htwo : 2 ≤ (size k).toNat := hsize k
    rw [packetLoop]
    by_cases hlt : i < length
    · rw [if_pos hlt]
      dsimp only
      by_cases hlast : length - i < (size k).toNat / 2
      · -- the last packet
        rw [if_pos hlast, Nat.mul_div_cancel _ Nat.two_pos]
        obtain ⟨packets, hrun, -, -, -⟩ := @ih (k + 1) length (Nat.le_refl _) (by omega)
        have hdone : i + (length - i) = length := by omega
        have hnil : packets = [] := by
          obtain ⟨fuel, rfl⟩ := Nat.exists_eq_succ_of_ne_zero (show fuel ≠ 0 by omega)
          rw [packetLoop, if_neg (Nat.lt_irrefl _)] at hrun
          exact (Option.some.inj hrun).symm
        have heven : EvenSizes size length k i := by
          intro n hn
          cases n with
          | zero =>
            rw [Nat.add_zero] at hn
            omega
          | succ n =>
            rw [wordsTaken_succ] at hn
            omega
        rw [hdone, hrun, hnil]
        refine ⟨_, rfl, fun _ => ?_, ?_, fun _ => heven⟩
        · rw [List.flatten_singleton, Nat.mul_comm (length - i)]
        · rw [List.flatten_singleton, length_bytesAt]
          omega
      · rw [if_neg hlast]
        obtain ⟨packets, hrun, hbytes, hle, hlen⟩ :=
          @ih (k + 1) (i + (size k).toNat / 2) (by omega) (by omega)
        rw [hrun]
        refine ⟨_, rfl, ?_, ?_, ?_⟩
        · intro heven
          obtain ⟨hfirst, hmore⟩ := (evenSizes_succ k i).mp heven
          have hbyte : (size k).toNat = 2 * ((size k).toNat / 2) := by
            have := hfirst (by omega)
            omega
          rw [List.flatten_cons, hbytes hmore]
          have hsplit : 2 * (length - i) =
              (size k).toNat + 2 * (length - (i + (size k).toNat / 2)) := by omega
          have hplace : 2 * (i + (size k).toNat / 2) = 2 * i + (size k).toNat := by omega
          rw [hsplit, bytesAt_add, hplace]
        · rw [List.flatten_cons, List.length_append, length_bytesAt]
          omega
        · intro hall
          rw [List.flatten_cons, List.length_append, length_bytesAt] at hall
          refine (evenSizes_succ k i).mpr ⟨fun _ => by omega, hlen (by omega)⟩
    · rw [if_neg hlt]
      have hdone : length - i = 0 := by omega
      rw [hdone]
      refine ⟨[], rfl, fun _ => rfl, Nat.le_refl 0, fun _ n hn => ?_⟩
      have hpos : 2 ≤ (size (k + n)).toNat := hsize (k + n)
      omega

end Loop

/-! ## 3. What is written -/

section Written

variable (scale : Int → BitVec 16)

/-- The durations that are sent: a space at the end is left out. -/
def sentSignals (signals : List Int) : List Int :=
  if signals.length % 2 = 0 then signals.dropLast else signals

/-- The two bytes of a word, the high one first. -/
def signalBytes (signal : Int) : List UCHAR :=
  let word := scale (maskPulse signal)
  [(word >>> 8).setWidth 8, word.setWidth 8]

/-- The bytes of each word, and the end marker. -/
def wantedBytes (signals : List Int) : List UCHAR :=
  (sentSignals signals).flatMap (signalBytes scale) ++ [0xFF, 0xFF]

variable {scale} {signals : List Int}

theorem wordBytes_swapBytes (word : BitVec 16) :
    wordBytes (swapBytes word) = [(word >>> 8).setWidth 8, word.setWidth 8] := by
  have hapart : ((word <<< 8) &&& (0xFF00 : BitVec 16)) &&&
      (((word >>> 8) &&& (0x00FF : BitVec 16)).setWidth 8).setWidth 16 = 0#16 := by
    ext i hi
    simp
    omega
  unfold wordBytes swapBytes
  dsimp only
  rw [BitVec.add_eq_or_of_and_eq_zero _ _ hapart]
  congr 1
  · ext i hi
    interval_cases i <;> simp
  · congr 1
    ext i hi
    interval_cases i <;> simp

theorem take_flatMap_wordBytes (n : Nat) (words : List (BitVec 16)) :
    (words.flatMap wordBytes).take (2 * n) = (words.take n).flatMap wordBytes := by
  induction n generalizing words with
  | zero => rfl
  | succ n ih =>
    cases words with
    | nil => rfl
    | cons word words =>
      rw [List.take_succ_cons, List.flatMap_cons, List.flatMap_cons, ← ih words]
      rfl

/-- The words that the loop writes. -/
theorem take_irDroidSignals (h : signals ≠ []) (last : BitVec 16) :
    (irDroidSignals scale last signals).take (sendLength signals) =
      (sentSignals signals).map (fun signal => swapBytes (scale (maskPulse signal))) ++ [0xFFFF] := by
  unfold irDroidSignals sendLength sentSignals
  generalize (fun signal => swapBytes (scale (maskPulse signal))) = word
  dsimp only
  by_cases heven : signals.length % 2 = 0
  · obtain ⟨front, space, rfl⟩ : ∃ front space, signals = front ++ [space] :=
      ⟨_, _, (List.dropLast_append_getLast h).symm⟩
    have hodd : ((front ++ [space]).length + 1) % 2 = 1 := by omega
    rw [if_pos hodd, if_pos heven, List.dropLast_concat, List.length_append, List.length_singleton,
      Nat.add_sub_cancel, Nat.add_sub_cancel, List.map_append, List.append_assoc,
      List.set_append_right _ _ (by rw [List.length_map]), List.length_map, Nat.sub_self,
      List.take_append, List.length_map, Nat.add_sub_cancel_left,
      List.take_of_length_le (by rw [List.length_map]; omega)]
    rfl
  · have hodd : ¬ (signals.length + 1) % 2 = 1 := by omega
    rw [if_neg hodd, if_neg heven, Nat.add_sub_cancel,
      List.set_append_right _ _ (by rw [List.length_map]), List.length_map, Nat.sub_self]
    refine List.take_of_length_le ?_
    rw [List.set_cons_zero, List.length_append, List.length_map, List.length_singleton]

theorem bytesAt_memory (h : signals ≠ []) (last : BitVec 16) (behind : Nat → UCHAR) :
    bytesAt (memory scale last behind signals) 0 (2 * sendLength signals) =
      wantedBytes scale signals := by
  have htake : ∀ (l : List UCHAR) (n : Nat), n ≤ l.length →
      bytesAt (fun i => l[i]?.getD (behind i)) 0 n = l.take n := by
    intro l n hn
    induction n with
    | zero => rfl
    | succ n ih =>
      rw [bytesAt_add, ih (by omega), List.take_add_one, List.getElem?_eq_getElem hn]
      congr 1
      show [(l[0 + n + 0]?).getD _] = [l[n]]
      rw [Nat.zero_add, Nat.add_zero, List.getElem?_eq_getElem hn]
      rfl
  have hwords := @take_irDroidSignals scale signals h last
  have hlen : 2 * sendLength signals ≤ ((irDroidSignals scale last signals).flatMap wordBytes).length := by
    rw [length_wordBytes]
    unfold irDroidSignals sendLength
    rw [List.length_set, List.length_append, List.length_map, List.length_singleton]
    dsimp only
    split <;> omega
  refine (htake _ _ hlen).trans ?_
  rw [take_flatMap_wordBytes, hwords, List.flatMap_append, List.flatMap_map]
  unfold wantedBytes
  congr 1
  exact congrArg (List.flatMap · _) (funext fun signal => wordBytes_swapBytes _)

end Written

/-- **The packets** of a transmission, for every sequence of sizes of at least 2:
    the loop ends, and the bytes written are those of the words in order and
    the end marker, each once, exactly if every size that the words left can
    fill is even. -/
theorem send_packets (scale : Int → BitVec 16) (last : BitVec 16) (behind : Nat → UCHAR)
    (size : Nat → UCHAR) (hsize : ∀ k, 2 ≤ size k) (fuel : Nat) (remote : IrRemote) (code : IrNcode)
    (repeats : Int) (res : SendResult) (hsend : initSend fuel remote code repeats = some res)
    (hret : res.ret = true) :
    ∃ packets, packetLoop (memory scale last behind (res.buf.data.map Prod.snd)) size
        (sendLength (res.buf.data.map Prod.snd)) (sendLength (res.buf.data.map Prod.snd) + 1) 0 0 =
        some packets ∧
      (packets.flatten = wantedBytes scale (res.buf.data.map Prod.snd) ↔
        ∀ k, wordsTaken size 0 k + (size k).toNat / 2 ≤ sendLength (res.buf.data.map Prod.snd) →
          (size k).toNat % 2 = 0) := by
  have hne : res.buf.data.map Prod.snd ≠ [] := fun h =>
    initSend_ne_nil hsend hret (List.map_eq_nil_iff.mp h)
  generalize res.buf.data.map Prod.snd = signals at hne ⊢
  have hbytes := @bytesAt_memory scale signals hne last behind
  obtain ⟨packets, hrun, heven, -, hlen⟩ :=
    @packetLoop_packets (memory scale last behind signals) size (sendLength signals) hsize
      (sendLength signals + 1) 0 0 (Nat.zero_le (sendLength signals)) (Nat.lt_succ_self _)
  rw [Nat.sub_zero, Nat.mul_zero] at heven
  have hsizes : EvenSizes size (sendLength signals) 0 0 ↔
      ∀ k, wordsTaken size 0 k + (size k).toNat / 2 ≤ sendLength signals →
        (size k).toNat % 2 = 0 := by
    unfold EvenSizes
    simp only [Nat.zero_add]
  refine ⟨packets, hrun, ?_⟩
  rw [← hsizes, ← hbytes]
  constructor
  · intro h
    refine hlen ?_
    rw [h, length_bytesAt, Nat.sub_zero]
  · exact heven

/-- The factor 21.33, in hundredths. -/
def perTick (duration : Int) : BitVec 16 := BitVec.ofInt 16 (duration * 100 / 2133)

/-- A raw remote, and a code of a pulse, a space and a pulse. -/
def rawButton : IrRemote × IrNcode :=
  ({ flags := RAW_CODES, gap := 40000 }, { name := "KEY_A", code := 0, signals := some [900, 450, 600] })

/-- What `init_send` makes of it: the gap stands at the end. -/
theorem initSend_rawButton : ∃ res, initSend 1 rawButton.1 rawButton.2 0 = some res ∧
    res.ret = true ∧ res.buf.data.map Prod.snd = [900, 450, 600, 40000] :=
  ⟨_, rfl, by decide, by decide⟩

theorem send_packets_even :
    ∃ packets, packetLoop (memory perTick 0 (fun _ => 0) [900, 450, 600, 40000]) (fun _ => 4) 4 5 0 0 =
        some packets ∧
      packets.flatten = wantedBytes perTick [900, 450, 600, 40000] := by
  obtain ⟨res, hsend, hret, hdata⟩ := initSend_rawButton
  obtain ⟨packets, hrun, hiff⟩ := send_packets perTick 0 (fun _ => 0) (fun _ => 4)
    (fun _ => by decide) 1 rawButton.1 rawButton.2 0 res hsend hret
  rw [hdata] at hrun hiff
  exact ⟨packets, hrun, hiff.mpr fun _ _ => rfl⟩

/-- **Packets of 3 bytes** repeat the first byte of each word behind them. -/
theorem send_packets_odd :
    (∃ res, initSend 1 rawButton.1 rawButton.2 0 = some res ∧ res.ret = true ∧
      res.buf.data.map Prod.snd = [900, 450, 600, 40000]) ∧
    ∃ packets, packetLoop (memory perTick 0 (fun _ => 0) [900, 450, 600, 40000]) (fun _ => 3) 4 5 0 0 =
        some packets ∧
      packets.flatten = [0, 42, 0, 0, 21, 0, 0, 28, 0xFF, 0xFF, 0xFF, 0] ∧
      wantedBytes perTick [900, 450, 600, 40000] = [0, 42, 0, 21, 0, 28, 0xFF, 0xFF] :=
  ⟨initSend_rawButton, _, rfl, by decide +kernel, by decide +kernel⟩

end WinLirc.Irdroid
