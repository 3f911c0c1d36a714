/-
  File:      WinLirc/CommandIRSend.lean
  Subject:   DLL/CommandIR/winlirc.cpp: the packets of `send_lirc_buffer`.

  A duration becomes a word of 16 bits, the low byte first: how many periods of the
  carrier it takes, and bit 15 for a pulse. The first packet begins with a header;
  no packet is longer than 64 bytes. A write to the device that fails ends the
  function.

  `sendLircBuffer_words`: the words are exact, one for each duration, exactly if no
  product of a duration and the frequency needs more than 32 bits, and no write but
  the last fails.
-/
import Mathlib.Tactic.IntervalCases
import WinLirc.Driver
import WinLirc.InitSend

namespace WinLirc.CommandIR

/-! ## 1. `send_lirc_buffer` -/

/-- An `unsigned short` in memory, the low byte first. -/
def shortBytes (n : Nat) : List UCHAR := [BitVec.ofNat 8 n, BitVec.ofNat 8 (n / 256)]

/-- `struct commandir_3_tx_signal`. -/
structure TxSignal where
  txBitMask1 : Nat
  txBitMask2 : Nat
  txMinGap : Nat
  txSignalCount : Nat
  pulseWidth : Nat
  pwmOffset : Nat

def TxSignal.bytes (h : TxSignal) : List UCHAR :=
  shortBytes h.txBitMask1 ++ shortBytes h.txBitMask2 ++ shortBytes h.txMinGap ++
    shortBytes h.txSignalCount ++ shortBytes h.pulseWidth ++ shortBytes h.pwmOffset

def txHeader (currentTransmitterMask frequency : UINT) (signals : List Int) : TxSignal :=
  let pulseWidth := (48000000 / frequency.toNat) % 2 ^ 16
  { txBitMask1 := currentTransmitterMask.toNat
    txBitMask2 := currentTransmitterMask.toNat / 2 ^ 16
    txMinGap := 0
    txSignalCount := signals.length
    pulseWidth := pulseWidth
    pwmOffset := pulseWidth / 2 }

/-- `tx_value`: the product is one of `unsigned int`. -/
def txValue (frequency : UINT) (signal : Int) : BitVec 16 :=
  BitVec.ofNat 16 ((BitVec.ofInt 32 signal * frequency).toNat / 1000000)

/-- The two bytes for a duration. -/
def signalBytes (frequency : UINT) (pulseToggle : Bool) (signal : Int) : List UCHAR :=
  let value := txValue frequency signal
  [value.setWidth 8, (value.sshiftRight 8).setWidth 8 ||| (if pulseToggle then 0x80 else 0)]

/-- The inner loop: the packet, `pulse_toggle` and what is left. -/
def fillPacket (frequency : UINT) : List UCHAR → Bool → List Int → List UCHAR × Bool × List Int
  | packet, pulseToggle, [] => (packet, pulseToggle, [])
  | packet, pulseToggle, signal :: signals =>
    if packet.length < 64 - 1 then
      fillPacket frequency (packet ++ signalBytes frequency pulseToggle signal) (!pulseToggle) signals
    else (packet, pulseToggle, signal :: signals)

/-- The outer loop, which has written `k` packets; `status` is what
    `usb_bulk_write` returns for each packet. It takes no more turns than there
    are durations. -/
def packetLoop (frequency : UINT) (status : Nat → Int) :
    Nat → Nat → List UCHAR → Bool → List Int → List (List UCHAR)
  | 0, _, _, _, _ => []
  | _ + 1, _, _, _, [] => []
  | fuel + 1, k, packet, pulseToggle, signal :: signals =>
    let (packet, pulseToggle, rest) := fillPacket frequency packet pulseToggle (signal :: signals)
    packet :: if status k < 0 then [] else packetLoop frequency status fuel (k + 1) [] pulseToggle rest

def sendLircBuffer (status : Nat → Int) (currentTransmitterMask frequency : UINT)
    (signals : List Int) : List (List UCHAR) :=
  packetLoop frequency status signals.length 0 (txHeader currentTransmitterMask frequency signals).bytes
    true signals

/-- The words in some bytes. -/
def readWords : List UCHAR → List (BitVec 16)
  | low :: high :: more => ((high.setWidth 16) <<< 8 ||| low.setWidth 16) :: readWords more
  | _ => []

/-- A word for the duration at place `i`: the count of the carrier exactly, and the
    pulse bit for the even ones. -/
def Encodes (frequency : UINT) (i : Nat) (signal : Int) (word : BitVec 16) : Prop :=
  ((word &&& 0x7FFF).toNat : Int) = signal * frequency.toNat / 1000000 ∧ word.msb = (i % 2 == 0)

/-- One exact word for each duration, in packets of at most 64 bytes. -/
structure Transmits (frequency : UINT) (signals : List Int) (packets : List (List UCHAR)) : Prop where
  short : ∀ packet ∈ packets, packet.length ≤ 64
  count : (readWords (packets.flatten.drop 12)).length = signals.length
  words : ∀ i signal word, signals[i]? = some signal →
    (readWords (packets.flatten.drop 12))[i]? = some word → Encodes frequency i signal word

/-! ## 2. Words -/

section Words

variable {frequency : UINT} {pulseToggle : Bool} {signal : Int} {signals : List Int}

/-- The word that the two bytes make. -/
def txWord (frequency : UINT) (pulseToggle : Bool) (signal : Int) : BitVec 16 :=
  txValue frequency signal ||| (if pulseToggle then 0x8000 else 0)

/-- The words for some durations, pulse and space in turn. -/
def txWords (frequency : UINT) : Bool → List Int → List (BitVec 16)
  | _, [] => []
  | pulseToggle, signal :: signals =>
    txWord frequency pulseToggle signal :: txWords frequency (!pulseToggle) signals

theorem txValue_toNat (frequency : UINT) (signal : Int) :
    ((txValue frequency signal).toNat : Int) = signal * frequency.toNat % 2 ^ 32 / 1000000 ∧
      (txValue frequency signal).toNat < 2 ^ 15 := by
  have hlt := (BitVec.ofInt 32 signal * frequency).isLt
  have hmod : ((BitVec.ofInt 32 signal * frequency).toNat : Int) =
      signal * frequency.toNat % 2 ^ 32 := by
    rw [BitVec.toNat_mul, BitVec.toNat_ofInt]
    push_cast
    have hnonneg : 0 ≤ signal % 4294967296 := Int.emod_nonneg signal (by decide)
    rw [Int.toNat_of_nonneg hnonneg, Int.mul_emod, Int.emod_emod_of_dvd _ (Int.dvd_refl _),
      ← Int.mul_emod]
  unfold txValue
  rw [BitVec.toNat_ofNat]
  omega

theorem signalBytes_eq (frequency : UINT) (pulseToggle : Bool) (signal : Int) :
    signalBytes frequency pulseToggle signal = wordBytes (txWord frequency pulseToggle signal) := by
  unfold signalBytes wordBytes txWord
  dsimp only
  generalize txValue frequency signal = value
  congr 1
  · ext i hi
    cases pulseToggle <;> interval_cases i <;> simp
  · congr 1
    ext i hi
    cases pulseToggle <;> interval_cases i <;> simp [BitVec.getElem_sshiftRight]

theorem encodes_iff (frequency : UINT) (i : Nat) (signal : Int) :
    Encodes frequency i signal (txWord frequency (i % 2 == 0) signal) ↔
      0 ≤ signal * frequency.toNat ∧ signal * frequency.toNat < 2 ^ 32 := by
  obtain ⟨hvalue, hlt⟩ := txValue_toNat frequency signal
  unfold Encodes txWord
  generalize txValue frequency signal = value at hvalue hlt ⊢
  generalize (i % 2 == 0) = pulse
  have hlow : (value ||| (if pulse then 0x8000 else 0)) &&& 0x7FFF = value &&& 0x7FFF := by
    ext j hj
    cases pulse <;> interval_cases j <;> simp
  have hand : (value &&& 0x7FFF).toNat = value.toNat := by
    rw [BitVec.toNat_and]
    exact (Nat.and_two_pow_sub_one_eq_mod value.toNat 15).trans (Nat.mod_eq_of_lt hlt)
  have hmsb : (value ||| (if pulse then 0x8000 else 0)).msb = pulse := by
    have hfalse : value.msb = false := by
      rw [BitVec.msb_eq_false_iff_two_mul_lt]
      omega
    rw [BitVec.msb_or, hfalse]
    cases pulse <;> rfl
  rw [hlow, hand, hvalue, hmsb, and_iff_left rfl]
  generalize signal * (frequency.toNat : Int) = product
  omega

theorem wordBytes_append (word : BitVec 16) :
    (((word >>> 8).setWidth 8).setWidth 16 <<< 8 ||| (word.setWidth 8).setWidth 16 : BitVec 16) =
      word := by
  ext i hi
  interval_cases i <;> simp

theorem readWords_flatMap (words : List (BitVec 16)) :
    readWords (words.flatMap wordBytes) = words := by
  induction words with
  | nil => rfl
  | cons word words ih =>
    show (((word >>> 8).setWidth 8).setWidth 16 <<< 8 ||| (word.setWidth 8).setWidth 16 : BitVec 16) ::
      readWords (words.flatMap wordBytes) = word :: words
    rw [wordBytes_append, ih]

theorem length_readWords (bytes : List UCHAR) : (readWords bytes).length = bytes.length / 2 := by
  induction bytes using readWords.induct with
  | case1 low high more ih =>
    rw [readWords, List.length_cons, ih, List.length_cons, List.length_cons]
    omega
  | case2 bytes hshort =>
    match bytes with
    | [] => rfl
    | [_] => simp [readWords]
    | low :: high :: more => exact (hshort low high more rfl).elim

theorem length_txWords (pulseToggle : Bool) (signals : List Int) :
    (txWords frequency pulseToggle signals).length = signals.length := by
  induction signals generalizing pulseToggle with
  | nil => rfl
  | cons signal signals ih => exact congrArg (· + 1) (ih _)

/-- Pulse and space in turn. -/
theorem getElem?_txWords (start i : Nat) :
    (txWords frequency (start % 2 == 0) signals)[i]? =
      (signals[i]?).map (txWord frequency ((start + i) % 2 == 0)) := by
  induction signals generalizing start i with
  | nil => rfl
  | cons signal signals ih =>
    have hflip : (!(start % 2 == 0)) = ((start + 1) % 2 == 0) := by
      rcases Nat.mod_two_eq_zero_or_one start with h | h
      · rw [h, show (start + 1) % 2 = 1 by omega]
        rfl
      · rw [h, show (start + 1) % 2 = 0 by omega]
        rfl
    rw [txWords, hflip]
    cases i with
    | zero => rfl
    | succ i =>
      rw [List.getElem?_cons_succ, List.getElem?_cons_succ, ih, Nat.add_right_comm, Nat.add_assoc]

end Words

/-! ## 3. Packets -/

section Packets

variable {frequency : UINT} {status : Nat → Int} {packet : List UCHAR} {pulseToggle : Bool}
  {signals : List Int}

/-- The bytes of a packet and of the durations that are left. -/
theorem fillPacket_words (packet : List UCHAR) (pulseToggle : Bool) (signals : List Int) :
    (fillPacket frequency packet pulseToggle signals).1 ++
        (txWords frequency (fillPacket frequency packet pulseToggle signals).2.1
          (fillPacket frequency packet pulseToggle signals).2.2).flatMap wordBytes =
      packet ++ (txWords frequency pulseToggle signals).flatMap wordBytes := by
  induction signals generalizing packet pulseToggle with
  | nil => rfl
  | cons signal signals ih =>
    rw [fillPacket]
    split
    · rw [ih, signalBytes_eq, txWords, List.flatMap_cons, List.append_assoc]
    · rfl

/-- A packet is filled up to 64 bytes. -/
theorem fillPacket_rest (heven : packet.length % 2 = 0) (hle : packet.length ≤ 64) :
    (fillPacket frequency packet pulseToggle signals).2.2 =
        signals.drop ((64 - packet.length) / 2) ∧
      (fillPacket frequency packet pulseToggle signals).1.length ≤ 64 := by
  induction signals generalizing packet pulseToggle with
  | nil => exact ⟨List.drop_nil.symm, hle⟩
  | cons signal signals ih =>
    rw [fillPacket]
    split
    · next hroom =>
      have hlen : (packet ++ signalBytes frequency pulseToggle signal).length = packet.length + 2 := by
        rw [List.length_append]
        rfl
      obtain ⟨hrest, hfull⟩ := @ih (packet ++ signalBytes frequency pulseToggle signal) (!pulseToggle)
        (by omega) (by omega)
      refine ⟨?_, hfull⟩
      obtain ⟨n, hn⟩ : ∃ n, (64 - packet.length) / 2 = n + 1 := ⟨(64 - packet.length) / 2 - 1, by omega⟩
      rw [hrest, hlen, hn, List.drop_succ_cons]
      congr 1
      omega
    · have hfull : (64 - packet.length) / 2 = 0 := by omega
      rw [hfull]
      exact ⟨rfl, hle⟩

theorem packetLoop_nil (fuel k : Nat) (packet : List UCHAR) (pulseToggle : Bool) :
    packetLoop frequency status fuel k packet pulseToggle [] = [] := by
  cases fuel with
  | zero => rfl
  | succ fuel => rfl

theorem packetLoop_cons (fuel k : Nat) (packet : List UCHAR) (pulseToggle : Bool)
    (hne : signals ≠ []) :
    packetLoop frequency status (fuel + 1) k packet pulseToggle signals =
      (fillPacket frequency packet pulseToggle signals).1 ::
        if status k < 0 then []
        else packetLoop frequency status fuel (k + 1) []
          (fillPacket frequency packet pulseToggle signals).2.1
          (fillPacket frequency packet pulseToggle signals).2.2 := by
  cases signals with
  | nil => exact absurd rfl hne
  | cons signal signals => rfl

theorem packetLoop_short (fuel k : Nat) (heven : packet.length % 2 = 0) (hle : packet.length ≤ 64) :
    ∀ p ∈ packetLoop frequency status fuel k packet pulseToggle signals, p.length ≤ 64 := by
  induction fuel generalizing k packet pulseToggle signals with
  | zero => exact fun p hp => absurd hp List.not_mem_nil
  | succ fuel ih =>
    cases signals with
    | nil => exact fun p hp => absurd hp List.not_mem_nil
    | cons signal signals =>
      rw [packetLoop_cons fuel k packet pulseToggle (List.cons_ne_nil signal signals)]
      intro p hp
      rcases List.mem_cons.mp hp with rfl | hp
      · exact (fillPacket_rest heven hle).2
      · split at hp
        · exact absurd hp List.not_mem_nil
        · exact @ih [] _ _ (k + 1) rfl (Nat.zero_le 64) p hp

/-- No write fails behind which durations are left; the first packet takes `first`
    of them. -/
def Accepted (status : Nat → Int) (k first count : Nat) : Prop :=
  ∀ j, first + 32 * j < count → 0 ≤ status (k + j)

theorem accepted_succ {k first count : Nat} (hmore : first < count) :
    Accepted status k first count ↔ 0 ≤ status k ∧ Accepted status (k + 1) 32 (count - first) := by
  constructor
  · intro h
    refine ⟨h 0 (by omega), fun j hj => ?_⟩
    have hk : k + 1 + j = k + (j + 1) := by omega
    rw [hk]
    exact h (j + 1) (by omega)
  · intro h j hj
    cases j with
    | zero => exact h.1
    | succ j =>
      have hk : k + (j + 1) = k + 1 + j := by omega
      rw [hk]
      exact h.2 j (by omega)

/-- **The bytes of all packets**: those of the words, and less where a write fails
    before. -/
theorem packetLoop_bytes {fuel k : Nat} (heven : packet.length % 2 = 0) (hle : packet.length ≤ 62)
    (hne : signals ≠ []) (hfuel : signals.length ≤ fuel) :
    (Accepted status k ((64 - packet.length) / 2) signals.length →
      (packetLoop frequency status fuel k packet pulseToggle signals).flatten =
        packet ++ (txWords frequency pulseToggle signals).flatMap wordBytes) ∧
    (¬ Accepted status k ((64 - packet.length) / 2) signals.length →
      (packetLoop frequency status fuel k packet pulseToggle signals).flatten.length <
        packet.length + 2 * signals.length) := by
  induction fuel generalizing k packet pulseToggle signals with
  | zero => exact absurd (List.eq_nil_of_length_eq_zero (Nat.le_zero.mp hfuel)) hne
  | succ fuel ih =>
    have hwords := @fillPacket_words frequency packet pulseToggle signals
    obtain ⟨hrest, -⟩ := @fillPacket_rest frequency packet pulseToggle signals heven (by omega)
    rw [packetLoop_cons fuel k packet pulseToggle hne]
    generalize (fillPacket frequency packet pulseToggle signals).1 = filled at hwords ⊢
    generalize (fillPacket frequency packet pulseToggle signals).2.1 = toggle at hwords ⊢
    generalize (fillPacket frequency packet pulseToggle signals).2.2 = rest at hwords hrest ⊢
    generalize hfirst : (64 - packet.length) / 2 = first at hrest ⊢
    have hlen := congrArg List.length hwords
    rw [List.length_append, List.length_append, length_wordBytes, length_wordBytes, length_txWords,
      length_txWords] at hlen
    by_cases hmore : first < signals.length
    · have hrestne : rest ≠ [] := by
        rw [hrest]
        exact fun h => absurd (List.drop_eq_nil_iff.mp h) (Nat.not_le.mpr hmore)
      have hrestlen : rest.length = signals.length - first := by rw [hrest, List.length_drop]
      rw [accepted_succ hmore]
      by_cases hfail : status k < 0
      · rw [if_pos hfail, List.flatten_singleton]
        have hpos := List.length_pos_iff.mpr hrestne
        exact ⟨fun h => absurd h.1 (Int.not_le.mpr hfail), fun _ => by omega⟩
      · obtain ⟨hall, hless⟩ := @ih [] toggle rest (k + 1) rfl (Nat.zero_le 62) hrestne (by omega)
        rw [List.length_nil, hrestlen] at hall hless
        rw [if_neg hfail, List.flatten_cons, List.length_append, and_iff_right (Int.not_lt.mp hfail)]
        refine ⟨fun h => ?_, fun h => ?_⟩
        · rw [hall h, ← hwords]
          rfl
        · have := hless h
          omega
    · have hnil : rest = [] := by
        rw [hrest]
        exact List.drop_eq_nil_of_le (Nat.not_lt.mp hmore)
      have hdone : Accepted status k first signals.length := fun j hj => absurd hj (by omega)
      rw [hnil, packetLoop_nil, ite_self, List.flatten_singleton]
      refine ⟨fun _ => ?_, fun h => absurd hdone h⟩
      rw [hnil] at hwords
      exact (List.append_nil filled).symm.trans hwords

end Packets

/-- **The words of a transmission**, for every mask, every carrier and every sequence
    of results of the writes: exact and one for each duration exactly if no
    product needs more than 32 bits and no write fails in front of the last. -/
theorem sendLircBuffer_words (status : Nat → Int) (currentTransmitterMask frequency : UINT)
    (_ : 1 ≤ frequency ∧ frequency ≤ 500000) (fuel : Nat) (remote : IrRemote) (code : IrNcode)
    (repeats : Int) (res : SendResult) (hsend : initSend fuel remote code repeats = some res)
    (hret : res.ret = true) :
    Transmits frequency (res.buf.data.map Prod.snd)
        (sendLircBuffer status currentTransmitterMask frequency (res.buf.data.map Prod.snd)) ↔
      (∀ signal ∈ res.buf.data.map Prod.snd,
        0 ≤ signal * frequency.toNat ∧ signal * frequency.toNat < 2 ^ 32) ∧
      ∀ k, 26 + 32 * k < (res.buf.data.map Prod.snd).length → 0 ≤ status k := by
  have hne : res.buf.data.map Prod.snd ≠ [] := fun h =>
    initSend_ne_nil hsend hret (List.map_eq_nil_iff.mp h)
  generalize res.buf.data.map Prod.snd = signals at hne ⊢
  unfold sendLircBuffer
  generalize hheader : (txHeader currentTransmitterMask frequency signals).bytes = header
  have hlength : header.length = 12 := by rw [← hheader]; rfl
  have hshort := @packetLoop_short frequency status header true signals signals.length 0
    (by omega) (by omega)
  obtain ⟨hall, hless⟩ := @packetLoop_bytes frequency status header true signals
    signals.length 0 (by omega) (by omega) hne (Nat.le_refl signals.length)
  rw [hlength] at hall hless
  have haccepted : Accepted status 0 ((64 - 12) / 2) signals.length ↔
      ∀ k, 26 + 32 * k < signals.length → 0 ≤ status k := by
    unfold Accepted
    simp only [Nat.zero_add]
  rw [← haccepted]
  by_cases hok : Accepted status 0 ((64 - 12) / 2) signals.length
  · rw [and_iff_left hok]
    have hwords : readWords ((packetLoop frequency status signals.length 0 header true
        signals).flatten.drop 12) = txWords frequency true signals := by
      rw [hall hok, List.drop_left' hlength, readWords_flatMap]
    have hat : ∀ i, (txWords frequency true signals)[i]? =
        (signals[i]?).map (txWord frequency (i % 2 == 0)) := by
      intro i
      have hstart := @getElem?_txWords frequency signals 0 i
      rwa [Nat.zero_add] at hstart
    constructor
    · intro h signal hsignal
      obtain ⟨i, hi⟩ := List.mem_iff_getElem?.mp hsignal
      refine (encodes_iff frequency i signal).mp (h.words i signal _ hi ?_)
      rw [hwords, hat, hi]
      rfl
    · intro h
      refine ⟨hshort, ?_, fun i signal word hi hword => ?_⟩
      · rw [hwords, length_txWords]
      · rw [hwords, hat, hi] at hword
        rw [← Option.some.inj hword]
        exact (encodes_iff frequency i signal).mpr (h signal (List.mem_of_getElem? hi))
  · refine iff_of_false (fun h => ?_) fun h => hok h.2
    have hcount := h.count
    rw [length_readWords, List.length_drop] at hcount
    have hpos := List.length_pos_iff.mpr hne
    have := hless hok
    omega

/-- A raw remote with this gap, and a code of one pulse. -/
def rawKey (gap : Int) : IrRemote × IrNcode :=
  ({ flags := RAW_CODES, gap := gap }, { name := "KEY_A", code := 0, signals := some [900] })

/-- A gap of 40 ms, at 38 kHz. -/
theorem sendLircBuffer_words_short :
    Transmits 38000 [900, 40000] (sendLircBuffer (fun _ => 0) 0x0f 38000 [900, 40000]) := by
  obtain ⟨res, hsend, hret, hdata⟩ : ∃ res, initSend 1 (rawKey 40000).1 (rawKey 40000).2 0 = some res ∧
      res.ret = true ∧ res.buf.data.map Prod.snd = [900, 40000] := ⟨_, rfl, by decide, by decide⟩
  have hiff := sendLircBuffer_words (fun _ => 0) 0x0f 38000 (by decide) 1 (rawKey 40000).1
    (rawKey 40000).2 0 res hsend hret
  rw [hdata] at hiff
  exact hiff.mpr ⟨by decide, fun _ _ => Int.le_refl 0⟩

/-- **A gap of 120 ms** is sent as one of 7 ms. -/
theorem sendLircBuffer_words_long :
    (∃ res, initSend 1 (rawKey 120000).1 (rawKey 120000).2 0 = some res ∧ res.ret = true ∧
      res.buf.data.map Prod.snd = [900, 120000]) ∧
    readWords ((sendLircBuffer (fun _ => 0) 0x0f 38000 [900, 120000]).flatten.drop 12) =
      [0x8022, 265] ∧
    (120000 : Int) * 38000 / 1000000 = 4560 ∧
    ¬ Transmits 38000 [900, 120000] (sendLircBuffer (fun _ => 0) 0x0f 38000 [900, 120000]) := by
  have hwords : readWords ((sendLircBuffer (fun _ => 0) 0x0f 38000 [900, 120000]).flatten.drop 12) =
      [0x8022, 265] := by decide +kernel
  refine ⟨⟨_, rfl, by decide, by decide⟩, hwords, by decide, fun h => ?_⟩
  have hgap := (h.words 1 120000 265 rfl (by rw [hwords]; rfl)).1
  revert hgap
  decide

end WinLirc.CommandIR
