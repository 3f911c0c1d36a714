/-
  File:      WinLirc/ConvertRX.lean
  Subject:   `commandir3_convert_RX` of DLL/CommandIR/CommandIRUtils/libcmdir.c:
             signal records that come in packets.

  The payloads go into a ring. A record is a byte that says what it is, and as
  many bytes behind it as that takes. How much is in the ring is computed from
  its two indices, and where they are equal this is the whole ring.

  * `Unread`: the bytes that are in the ring, and that these are the places that
    were written and not consumed since;
  * `recordTurn_unread`, `recordLoop_unread`: one record, and all that are there;
  * `convertPacket_unread`: a packet, behind bytes that are no record yet;
  * `convertPacket_stale`: an empty packet with nothing in the ring;
  * `convertRX_records`: the records are those of the payloads one after the
    other, and no other byte is interpreted, exactly if no packet is of that kind.
-/
import Mathlib.Data.List.Nodup
import Mathlib.Logic.Function.Basic
import WinLirc.Signal.Access
import WinLirc.Signal.Framing

namespace WinLirc.CommandIR

open Signal

abbrev RxByte := BitVec 8

/-! ## 1. Records -/

/-- The bytes of a record behind the first one. -/
def mySize (type : RxByte) : Nat :=
  if type = 32 then 2  -- USB_RX_PULSE
  else if type = 33 then 4  -- USB_RX_SPACE
  else if type = 34 then 4  -- USB_RX_PULSE_DEMOD
  else if type = 35 then 4  -- USB_RX_SPACE_DEMOD
  else if type = 31 then 4  -- USB_RX_PULSE_DEF
  else 0  -- USB_NO_DATA_BYTE, and what is unknown

/-- A record with its first byte. -/
abbrev RxRecord := List RxByte

def nextRecord : List RxByte → Option (RxRecord × Nat)
  | [] => none
  | type :: rest =>
    if mySize type ≤ rest.length then some (type :: rest.take (mySize type), mySize type + 1) else none

theorem mySize_le (type : RxByte) : mySize type ≤ 4 := by
  unfold mySize
  repeat' split
  all_goals omega

theorem nextRecord_some {type : RxByte} {rest : List RxByte} {b : RxRecord} {n : Nat} :
    nextRecord (type :: rest) = some (b, n) ↔
      mySize type ≤ rest.length ∧ b = type :: rest.take (mySize type) ∧ n = mySize type + 1 := by
  rw [nextRecord, Option.ite_none_right_eq_some, Option.some.injEq, Prod.mk.injEq]
  exact and_congr_right fun _ => and_congr eq_comm eq_comm

/-- The records of a stream; none is taken before all of it is there. -/
def rxFraming : Framing RxByte RxRecord where
  next := nextRecord
  early _ := False
  nil := rfl
  pos := by
    intro l b n h
    cases l with
    | nil => exact nomatch h
    | cons type rest =>
      obtain ⟨-, -, rfl⟩ := nextRecord_some.mp h
      exact Nat.succ_pos _
  stable := by
    intro l b n m h
    cases l with
    | nil => exact nomatch h
    | cons type rest =>
      obtain ⟨hle, rfl, rfl⟩ := nextRecord_some.mp h
      rw [List.cons_append]
      refine nextRecord_some.mpr ⟨?_, ?_, rfl⟩
      · rw [List.length_append]
        omega
      · rw [List.take_append_of_le_length hle]
  whole := by
    intro l b n h _
    cases l with
    | nil => exact nomatch h
    | cons type rest =>
      obtain ⟨hle, -, rfl⟩ := nextRecord_some.mp h
      exact Nat.succ_le_succ hle
  waits := by
    intro l m b n hl hnone h
    refine ⟨not_false, ?_⟩
    cases l with
    | nil => exact absurd rfl hl
    | cons type rest =>
      have hlt : ¬ mySize type ≤ rest.length := by
        intro hle
        exact nomatch hnone.symm.trans (nextRecord_some.mpr ⟨hle, rfl, rfl⟩)
      obtain ⟨-, -, rfl⟩ := nextRecord_some.mp h
      exact Nat.succ_lt_succ (Nat.not_le.mp hlt)

/-- Bytes that are no record yet are at most the first four of one. -/
theorem length_of_nextRecord {l : List RxByte} (h : nextRecord l = none) : l.length ≤ 4 := by
  cases l with
  | nil => exact Nat.zero_le 4
  | cons type rest =>
    have hlt : ¬ mySize type ≤ rest.length := by
      intro hle
      exact nomatch h.symm.trans (nextRecord_some.mpr ⟨hle, rfl, rfl⟩)
    have := mySize_le type
    rw [List.length_cons]
    omega

/-! ## 2. The ring -/

def maxIncomingBuffer : Nat := 65535

/-- `records` are those that were processed, `accesses` what was done to the
    places of the ring. -/
structure RxState where
  incomingBuffer : Nat → RxByte := fun _ => 0
  incomingBufferWrite : Nat := 0
  incomingBufferRead : Nat := 0
  records : List RxRecord := []
  accesses : List (Access Nat) := []

/-- An index that has gone beyond the end. -/
def wrap (i : Nat) : Nat := if maxIncomingBuffer ≤ i then i - maxIncomingBuffer else i

def storeByte (s : RxState) (b : RxByte) : RxState :=
  let write := s.incomingBufferWrite + 1
  { s with
    incomingBuffer := Function.update s.incomingBuffer s.incomingBufferWrite b
    incomingBufferWrite := if maxIncomingBuffer ≤ write then 0 else write
    accesses := s.accesses ++ [.write s.incomingBufferWrite] }

def currentSize (s : RxState) : Nat :=
  if s.incomingBufferRead < s.incomingBufferWrite then s.incomingBufferWrite - s.incomingBufferRead
  else maxIncomingBuffer - s.incomingBufferRead + s.incomingBufferWrite

/-- The first `n` bytes copied behind the end. -/
def copyFront (buffer : Nat → RxByte) (n : Nat) : Nat → RxByte := fun i =>
  if maxIncomingBuffer ≤ i ∧ i < maxIncomingBuffer + n then buffer (i - maxIncomingBuffer) else buffer i

/-- The byte that says what comes next is looked at. -/
def lookType (s : RxState) : RxState :=
  { s with accesses := s.accesses ++ [.look s.incomingBufferRead] }

/-- A record that is there is processed. A byte behind the end of the ring is the
    copy of one at its front. -/
def recordTurn (s : RxState) : RxState :=
  let size := mySize (s.incomingBuffer s.incomingBufferRead)
  let buffer :=
    if maxIncomingBuffer ≤ s.incomingBufferRead + size then copyFront s.incomingBuffer (size + 1)
    else s.incomingBuffer
  let switchByte := buffer s.incomingBufferRead
  let read := wrap (s.incomingBufferRead + 1)
  { s with
    incomingBuffer := buffer
    incomingBufferRead := wrap (read + size)
    records := s.records ++ [switchByte :: (List.range size).map fun i => buffer (read + i)]
    accesses := s.accesses ++
      (s.incomingBufferRead :: (List.range size).map fun i => wrap (read + i)).map .consume }

/-- The loop, with at most `fuel` turns and `size` as `currentSize`. -/
def recordLoop : Nat → RxState → Nat → RxState
  | 0, s, _ => s
  | fuel + 1, s, size =>
    if 0 < size then
      let s := lookType s
      let mySize := mySize (s.incomingBuffer s.incomingBufferRead)
      if mySize + 1 ≤ size then recordLoop fuel (recordTurn s) (size - 1 - mySize) else s
    else s

/-- `commandir3_convert_RX`. -/
def convertRX (s : RxState) (rxBuffer : List RxByte) (numNewValues : Int) : RxState :=
  if 0 < numNewValues then
    let expectingBytes := (rxBuffer.getD 1 0).toNat + (rxBuffer.getD 2 0).toNat * 256
    let s := ((rxBuffer.drop 5).take expectingBytes).foldl storeByte s
    recordLoop (currentSize s) s (currentSize s)
  else s

/-! ## 3. What is in the ring -/

/-- The place of a byte, counted from a place on. -/
def ringPlace (start j : Nat) : Nat := (start + j) % maxIncomingBuffer

def ringPlaces (start n : Nat) : List Nat := (List.range n).map (ringPlace start)

/-- The bytes that were stored and not processed yet. -/
structure Unread (s : RxState) (l : List RxByte) : Prop where
  length : l.length < maxIncomingBuffer
  read : s.incomingBufferRead < maxIncomingBuffer
  write : s.incomingBufferWrite = ringPlace s.incomingBufferRead l.length
  data : ∀ (j : Nat) (b : RxByte), l[j]? = some b → s.incomingBuffer (ringPlace s.incomingBufferRead j) = b
  written : ∀ i, Written s.accesses i ↔ i ∈ ringPlaces s.incomingBufferRead l.length

section Places

variable {start i j n : Nat}

theorem ringPlace_lt (start j : Nat) : ringPlace start j < maxIncomingBuffer :=
  Nat.mod_lt _ (Nat.succ_pos 65534)

theorem ringPlace_add (start i j : Nat) : ringPlace (ringPlace start i) j = ringPlace start (i + j) := by
  rw [ringPlace, ringPlace, ringPlace, Nat.mod_add_mod, Nat.add_assoc]

theorem ringPlace_zero (h : start < maxIncomingBuffer) : ringPlace start 0 = start := Nat.mod_eq_of_lt h

theorem ringPlace_inj (hi : i < maxIncomingBuffer) (hj : j < maxIncomingBuffer) :
    ringPlace start i = ringPlace start j ↔ i = j := by
  unfold ringPlace
  unfold maxIncomingBuffer at *
  omega

theorem mem_ringPlaces : i ∈ ringPlaces start n ↔ ∃ j < n, ringPlace start j = i := by
  simp [ringPlaces]

theorem ringPlaces_nodup (h : n ≤ maxIncomingBuffer) : (ringPlaces start n).Nodup := by
  refine List.Nodup.map_on (fun i hi j hj he => ?_) List.nodup_range
  have hi := List.mem_range.mp hi
  have hj := List.mem_range.mp hj
  exact (ringPlace_inj (by omega) (by omega)).mp he

/-- The places behind the first ones. -/
theorem mem_ringPlaces_drop {k : Nat} (hk : k ≤ n) (hn : n ≤ maxIncomingBuffer) :
    i ∈ ringPlaces (ringPlace start k) (n - k) ↔ i ∈ ringPlaces start n ∧ i ∉ ringPlaces start k := by
  rw [mem_ringPlaces, mem_ringPlaces, mem_ringPlaces]
  constructor
  · intro h
    obtain ⟨j, hj, rfl⟩ := h
    rw [ringPlace_add]
    refine ⟨⟨k + j, by omega, rfl⟩, fun hx => ?_⟩
    obtain ⟨j', hj', he⟩ := hx
    have := (ringPlace_inj (by omega) (by omega)).mp he
    omega
  · intro h
    obtain ⟨⟨j, hj, rfl⟩, hfront⟩ := h
    have hkj : k ≤ j := by
      by_contra hlt
      exact hfront ⟨j, by omega, rfl⟩
    refine ⟨j - k, by omega, ?_⟩
    rw [ringPlace_add, Nat.add_sub_cancel' hkj]

end Places

section Ring

variable {s : RxState} {l : List RxByte} {b : RxByte}

/-- Nothing is in the ring before the first packet. -/
theorem unread_empty : Unread {} [] where
  length := Nat.succ_pos 65534
  read := Nat.succ_pos 65534
  write := rfl
  data _ _ h := nomatch h
  written _ := iff_of_false written_nil List.not_mem_nil

/-- **A byte is stored.** -/
theorem storeByte_unread (h : Unread s l) (hroom : l.length + 1 < maxIncomingBuffer) (b : RxByte) :
    Unread (storeByte s b) (l ++ [b]) := by
  have hwrite := h.write
  refine ⟨?_, h.read, ?_, fun j c hc => ?_, fun i => ?_⟩
  · rw [List.length_append]
    exact hroom
  · rw [List.length_append, List.length_singleton]
    show (if maxIncomingBuffer ≤ s.incomingBufferWrite + 1 then 0 else s.incomingBufferWrite + 1) = _
    rw [hwrite]
    show _ = ringPlace s.incomingBufferRead (l.length + 1)
    unfold ringPlace maxIncomingBuffer
    split <;> omega
  · show Function.update s.incomingBuffer s.incomingBufferWrite b (ringPlace s.incomingBufferRead j) = c
    obtain ⟨hj, -⟩ := List.getElem?_eq_some_iff.mp hc
    rw [List.length_append, List.length_singleton] at hj
    rcases Nat.lt_succ_iff_lt_or_eq.mp hj with hlt | rfl
    · rw [List.getElem?_append_left hlt] at hc
      have hne : ringPlace s.incomingBufferRead j ≠ s.incomingBufferWrite := by
        rw [hwrite]
        intro he
        exact Nat.ne_of_lt hlt ((ringPlace_inj (by omega) (by omega)).mp he)
      rw [Function.update_of_ne hne]
      exact h.data j c hc
    · rw [← hwrite, Function.update_self]
      rw [List.getElem?_concat_length] at hc
      exact Option.some.inj hc
  · show Written (s.accesses ++ [.write s.incomingBufferWrite]) i ↔
      i ∈ ringPlaces s.incomingBufferRead (l ++ [b]).length
    rw [written_write, h.written, List.length_append, List.length_singleton, ringPlaces, ringPlaces,
      List.range_succ, List.map_append, List.mem_append, or_comm, hwrite, List.map_singleton,
      List.mem_singleton, eq_comm (a := i)]

/-- How much is in the ring, unless this is nothing. -/
theorem currentSize_unread (h : Unread s l) (hl : l ≠ []) : currentSize s = l.length := by
  have hpos := List.length_pos_iff.mpr hl
  have hlen := h.length
  have hread := h.read
  unfold currentSize
  rw [h.write]
  unfold ringPlace
  unfold maxIncomingBuffer at *
  split <;> omega

theorem currentSize_empty (h : Unread s []) : currentSize s = maxIncomingBuffer := by
  have hread := h.read
  have hwrite : s.incomingBufferWrite = s.incomingBufferRead := by
    rw [h.write]
    exact ringPlace_zero hread
  unfold currentSize
  rw [hwrite, if_neg (Nat.lt_irrefl _)]
  omega

/-- Where a byte of a record is read, and which one it is: the copy behind the end
    is there if the record goes beyond it. -/
theorem wrap_place {start i : Nat} (hstart : start < maxIncomingBuffer) (hi : i ≤ 4) :
    wrap (wrap (start + 1) + i) = ringPlace start (1 + i) := by
  unfold ringPlace
  unfold wrap maxIncomingBuffer at *
  split <;> split <;> omega

theorem copyFront_front {buffer : Nat → RxByte} {n i : Nat} (hi : i < maxIncomingBuffer) :
    copyFront buffer n i = buffer i := if_neg fun h => Nat.not_le.mpr hi h.1

theorem copyFront_place {buffer : Nat → RxByte} {start size i : Nat} (hstart : start < maxIncomingBuffer)
    (hsize : size ≤ 4) (hi : i < size) :
    (if maxIncomingBuffer ≤ start + size then copyFront buffer (size + 1) else buffer)
      (wrap (start + 1) + i) = buffer (ringPlace start (1 + i)) := by
  have hplace := wrap_place hstart (by omega : i ≤ 4)
  rcases Nat.lt_or_ge (wrap (start + 1) + i) maxIncomingBuffer with hfront | hbehind
  · have hin : wrap (wrap (start + 1) + i) = wrap (start + 1) + i := if_neg (Nat.not_le.mpr hfront)
    rw [← hplace, hin]
    split
    · exact copyFront_front hfront
    · rfl
  · -- then the record began before the end, and the first bytes were copied
    have hnext : wrap (start + 1) = start + 1 := by
      refine if_neg fun hlast => ?_
      rw [wrap, if_pos hlast] at hbehind
      unfold maxIncomingBuffer at *
      omega
    have hcopy : maxIncomingBuffer ≤ start + size := by omega
    rw [hnext] at hbehind hplace ⊢
    rw [if_pos hcopy, ← hplace, copyFront, if_pos ⟨hbehind, by omega⟩, wrap, if_pos hbehind]

/-- **A record is processed.** -/
theorem recordTurn_unread {type : RxByte} {rest : List RxByte} (h : Unread s (type :: rest))
    (hsize : mySize type ≤ rest.length) :
    Unread (recordTurn s) (rest.drop (mySize type)) ∧
      (recordTurn s).records = s.records ++ [type :: rest.take (mySize type)] ∧
      (recordTurn s).accesses =
        s.accesses ++ (ringPlaces s.incomingBufferRead (mySize type + 1)).map .consume := by
  have hread := h.read
  have hfour := mySize_le type
  have hlen := h.length
  rw [List.length_cons] at hlen
  have htype : s.incomingBuffer s.incomingBufferRead = type := by
    have hfirst := h.data 0 type rfl
    rw [ringPlace_zero hread] at hfirst
    exact hfirst
  have hnext : wrap (wrap (s.incomingBufferRead + 1) + mySize type) =
      ringPlace s.incomingBufferRead (mySize type + 1) := by
    rw [wrap_place hread hfour, Nat.add_comm]
  have haccesses : (recordTurn s).accesses =
      s.accesses ++ (ringPlaces s.incomingBufferRead (mySize type + 1)).map .consume := by
    unfold recordTurn ringPlaces
    dsimp only
    rw [htype, List.range_succ_eq_map, List.map_cons, List.map_cons, List.map_cons, ringPlace_zero hread]
    congr 3
    rw [List.map_map]
    refine List.map_congr_left fun i hi => ?_
    have hi := List.mem_range.mp hi
    show wrap (wrap (s.incomingBufferRead + 1) + i) = ringPlace s.incomingBufferRead (i + 1)
    rw [wrap_place hread (by omega), Nat.add_comm]
  refine ⟨⟨?_, ?_, ?_, fun j b hb => ?_, fun i => ?_⟩, ?_, haccesses⟩
  · rw [List.length_drop]
    omega
  · unfold recordTurn
    dsimp only
    rw [htype, hnext]
    exact ringPlace_lt _ _
  · have hcount : mySize type + 1 + (rest.drop (mySize type)).length = rest.length + 1 := by
      rw [List.length_drop]
      omega
    unfold recordTurn
    dsimp only
    rw [htype, hnext, ringPlace_add, hcount]
    exact h.write
  · unfold recordTurn
    dsimp only
    rw [htype, hnext, ringPlace_add]
    rw [List.getElem?_drop] at hb
    have hold := h.data (mySize type + 1 + j) b (by
      rw [show mySize type + 1 + j = mySize type + j + 1 from by omega, List.getElem?_cons_succ]
      exact hb)
    split
    · rw [copyFront_front (ringPlace_lt _ _)]
      exact hold
    · exact hold
  · have hsplit := @mem_ringPlaces_drop s.incomingBufferRead i (rest.length + 1) (mySize type + 1)
      (by omega) (by omega)
    have hcount : rest.length + 1 - (mySize type + 1) = (rest.drop (mySize type)).length := by
      rw [List.length_drop]
      omega
    rw [hcount] at hsplit
    rw [haccesses, written_consumeAll, h.written]
    unfold recordTurn
    dsimp only
    rw [htype, hnext, hsplit, and_comm]
    rfl
  · unfold recordTurn
    dsimp only
    rw [htype]
    congr 3
    · split
      · rw [copyFront_front hread, htype]
      · exact htype
    · refine List.ext_getElem? fun i => ?_
      rw [List.getElem?_map, List.getElem?_take]
      rcases Nat.lt_or_ge i (mySize type) with hi | hi
      · have hbyte : rest[i]? = some rest[i] := List.getElem?_eq_getElem (by omega)
        have hold := h.data (1 + i) rest[i] (by
          rw [Nat.add_comm 1 i, List.getElem?_cons_succ]
          exact hbyte)
        rw [if_pos hi, List.getElem?_range hi, hbyte, Option.map_some, copyFront_place hread hfour hi, hold]
      · rw [if_neg (Nat.not_lt.mpr hi), List.getElem?_eq_none (by
          rw [List.length_range]
          exact hi)]
        rfl

theorem lookType_unread (h : Unread s l) : Unread (lookType s) l :=
  ⟨h.length, h.read, h.write, h.data, fun i => written_look.trans (h.written i)⟩

theorem lookType_fresh (h : Unread s l) (hl : l ≠ []) (hfresh : Fresh s.accesses) :
    Fresh (lookType s).accesses := by
  refine fresh_snoc.mpr ⟨hfresh, fun i hi => ?_⟩
  obtain rfl : s.incomingBufferRead = i := Option.some.inj hi
  exact (h.written _).mpr (mem_ringPlaces.mpr ⟨0, List.length_pos_iff.mpr hl, ringPlace_zero h.read⟩)

theorem recordTurn_fresh {type : RxByte} {rest : List RxByte} (h : Unread s (type :: rest))
    (hsize : mySize type ≤ rest.length) (hfresh : Fresh s.accesses) : Fresh (recordTurn s).accesses := by
  have hlen := h.length
  rw [List.length_cons] at hlen
  rw [(recordTurn_unread h hsize).2.2, fresh_consumeAll (ringPlaces_nodup (by omega))]
  refine ⟨hfresh, fun i hi => (h.written i).mpr ?_⟩
  obtain ⟨j, hj, rfl⟩ := mem_ringPlaces.mp hi
  refine mem_ringPlaces.mpr ⟨j, ?_, rfl⟩
  rw [List.length_cons]
  omega

/-- **The records that are there** are processed, and what is left is no record
    yet. -/
theorem recordLoop_unread {fuel : Nat} (h : Unread s l) (hfresh : Fresh s.accesses)
    (hfuel : l.length ≤ fuel) (start : Nat) :
    Unread (recordLoop fuel s l.length) (rxFraming.parse start l).rest ∧
      (recordLoop fuel s l.length).records =
        s.records ++ (rxFraming.parse start l).frames.map (·.frame) ∧
      Fresh (recordLoop fuel s l.length).accesses := by
  induction fuel generalizing s l start with
  | zero =>
    obtain rfl : l = [] := List.length_eq_zero_iff.mp (Nat.le_zero.mp hfuel)
    rw [Framing.parse_none rfl]
    exact ⟨h, (List.append_nil _).symm, hfresh⟩
  | succ fuel ih =>
    cases l with
    | nil =>
      rw [Framing.parse_none rfl]
      exact ⟨h, (List.append_nil _).symm, hfresh⟩
    | cons type rest =>
      have hlook := lookType_unread h
      have hlfresh := lookType_fresh h (List.cons_ne_nil type rest) hfresh
      have htype : (lookType s).incomingBuffer (lookType s).incomingBufferRead = type := by
        have hfirst := hlook.data 0 type rfl
        rw [ringPlace_zero hlook.read] at hfirst
        exact hfirst
      rw [List.length_cons] at hfuel ⊢
      rw [recordLoop, if_pos (Nat.succ_pos _)]
      dsimp only
      rw [htype]
      by_cases hsize : mySize type ≤ rest.length
      · have hnext : rxFraming.next (type :: rest) =
            some (type :: rest.take (mySize type), mySize type + 1) :=
          nextRecord_some.mpr ⟨hsize, rfl, rfl⟩
        obtain ⟨hunread, hrecords, -⟩ := recordTurn_unread hlook hsize
        have hlen : rest.length + 1 - 1 - mySize type = (rest.drop (mySize type)).length := by
          rw [List.length_drop, Nat.add_sub_cancel]
        have hfuel' : (rest.drop (mySize type)).length ≤ fuel := by
          rw [List.length_drop]
          omega
        rw [if_pos (Nat.succ_le_succ hsize), hlen, Framing.parse_some hnext]
        obtain ⟨ih1, ih2, ih3⟩ := ih hunread (recordTurn_fresh hlook hsize hlfresh) hfuel'
          (start + (mySize type + 1))
        refine ⟨ih1, ?_, ih3⟩
        rw [ih2, hrecords, List.append_assoc]
        rfl
      · have hnext : rxFraming.next (type :: rest) = none := if_neg hsize
        rw [if_neg (fun hle => hsize (Nat.le_of_succ_le_succ hle)), Framing.parse_none hnext]
        exact ⟨hlook, (List.append_nil _).symm, hlfresh⟩

/-- The bytes of a payload are stored. -/
theorem storeBytes_unread (h : Unread s l) (payload : List RxByte) (hfresh : Fresh s.accesses)
    (hroom : l.length + payload.length < maxIncomingBuffer) :
    Unread (payload.foldl storeByte s) (l ++ payload) ∧
      (payload.foldl storeByte s).records = s.records ∧ Fresh (payload.foldl storeByte s).accesses := by
  induction payload generalizing s l with
  | nil =>
    rw [List.append_nil]
    exact ⟨h, rfl, hfresh⟩
  | cons b payload ih =>
    rw [List.length_cons] at hroom
    have hstore := storeByte_unread h (by omega) b
    have hsfresh : Fresh (storeByte s b).accesses := fresh_snoc.mpr ⟨hfresh, nofun⟩
    have hlen : (l ++ [b]).length + payload.length < maxIncomingBuffer := by
      rw [List.length_append, List.length_singleton]
      omega
    obtain ⟨ih1, ih2, ih3⟩ := ih hstore hsfresh hlen
    rw [List.append_assoc] at ih1
    exact ⟨ih1, ih2, ih3⟩

end Ring

/-! ## 4. Packets -/

/-- A packet as it comes: its number, how much it brings, how far the sender is,
    and the bytes. -/
structure RxPacket where
  packetNumber : RxByte
  topLow : RxByte
  topHigh : RxByte
  payload : List RxByte
  length_le : payload.length ≤ 59

def RxPacket.bytes (p : RxPacket) : List RxByte :=
  [p.packetNumber, BitVec.ofNat 8 p.payload.length, 0, p.topLow, p.topHigh] ++ p.payload

/-- A call with a packet that has all the bytes it says. -/
def convertPacket (s : RxState) (p : RxPacket) : RxState := convertRX s p.bytes (p.payload.length + 5)

def convertAll (packets : List RxPacket) : RxState := packets.foldl convertPacket {}

section Packet

variable {s : RxState} {l : List RxByte} {p : RxPacket}

theorem convertPacket_eq (s : RxState) (p : RxPacket) :
    convertPacket s p =
      recordLoop (currentSize (p.payload.foldl storeByte s)) (p.payload.foldl storeByte s)
        (currentSize (p.payload.foldl storeByte s)) := by
  have hlen := p.length_le
  have hexpect : (p.bytes.getD 1 0).toNat + (p.bytes.getD 2 0).toNat * 256 = p.payload.length := by
    have hlow : p.bytes.getD 1 0 = BitVec.ofNat 8 p.payload.length := rfl
    have hhigh : p.bytes.getD 2 0 = 0#8 := rfl
    rw [hlow, hhigh, BitVec.toNat_ofNat, Nat.mod_eq_of_lt (by omega), BitVec.toNat_ofNat, Nat.zero_mod,
      Nat.zero_mul, Nat.add_zero]
  rw [convertPacket, convertRX, if_pos (by omega), hexpect]
  have hbytes : (p.bytes.drop 5).take p.payload.length = p.payload := List.take_length
  dsimp only
  rw [hbytes]

/-- **A packet** behind bytes that are no record yet. -/
theorem convertPacket_unread (h : Unread s l) (hrest : nextRecord l = none) (hfresh : Fresh s.accesses)
    (hne : p.payload = [] → l ≠ []) (start : Nat) :
    Unread (convertPacket s p) (rxFraming.parse start (l ++ p.payload)).rest ∧
      (convertPacket s p).records =
        s.records ++ (rxFraming.parse start (l ++ p.payload)).frames.map (·.frame) ∧
      Fresh (convertPacket s p).accesses := by
  have hfour := length_of_nextRecord hrest
  have hlen := p.length_le
  obtain ⟨hunread, hrecords, hsfresh⟩ := storeBytes_unread h p.payload hfresh (by
    unfold maxIncomingBuffer
    omega)
  have hany : l ++ p.payload ≠ [] := by
    intro hnil
    obtain ⟨hl, hp⟩ := List.append_eq_nil_iff.mp hnil
    exact hne hp hl
  rw [convertPacket_eq, currentSize_unread hunread hany, ← hrecords]
  exact recordLoop_unread hunread hsfresh (Nat.le_refl _) start

theorem recordLoop_keeps (fuel : Nat) (s : RxState) (size : Nat) :
    s.accesses <+: (recordLoop fuel s size).accesses := by
  induction fuel generalizing s size with
  | zero => exact List.prefix_refl _
  | succ fuel ih =>
    unfold recordLoop
    split
    · dsimp only
      have hlook : s.accesses <+: (lookType s).accesses := List.prefix_append _ _
      split
      · have hturn : (lookType s).accesses <+: (recordTurn (lookType s)).accesses := List.prefix_append _ _
        exact (hlook.trans hturn).trans (ih _ _)
      · exact hlook
    · exact List.prefix_refl _

theorem storeBytes_keeps (s : RxState) (payload : List RxByte) :
    s.accesses <+: (payload.foldl storeByte s).accesses := by
  induction payload generalizing s with
  | nil => exact List.prefix_refl _
  | cons b payload ih => exact (List.prefix_append _ _).trans (ih (storeByte s b))

theorem convertPacket_keeps (s : RxState) (p : RxPacket) :
    s.accesses <+: (convertPacket s p).accesses := by
  rw [convertPacket_eq]
  exact (storeBytes_keeps s p.payload).trans (recordLoop_keeps _ _ _)

/-- **An empty packet with nothing in the ring**: the ring seems full, and a byte
    is looked at that is not there. -/
theorem convertPacket_stale (h : Unread s []) (hp : p.payload = []) :
    ¬ Fresh (convertPacket s p).accesses := by
  intro hfresh
  rw [convertPacket_eq, hp, List.foldl_nil, currentSize_empty h] at hfresh
  obtain ⟨fuel, hfuel⟩ : ∃ fuel, maxIncomingBuffer = fuel + 1 := ⟨65534, rfl⟩
  have hlook : (lookType s).accesses <+: (recordLoop maxIncomingBuffer s maxIncomingBuffer).accesses := by
    rw [hfuel, recordLoop, if_pos (Nat.succ_pos fuel)]
    dsimp only
    split
    · have hturn : (lookType s).accesses <+: (recordTurn (lookType s)).accesses := List.prefix_append _ _
      exact hturn.trans (recordLoop_keeps _ _ _)
    · exact List.prefix_refl _
  have hneeds := (fresh_snoc.mp (hfresh.of_front hlook)).2 _ rfl
  exact absurd ((h.written _).mp hneeds) List.not_mem_nil

end Packet

/-! ## 5. All packets -/

/-- The payloads one after the other. -/
def stream (packets : List RxPacket) : List RxByte := (packets.map (·.payload)).flatten

/-- An empty packet comes only inside a record. -/
def NoStalePacket (packets : List RxPacket) : Prop :=
  ∀ before p after, packets = before ++ p :: after → p.payload = [] →
    (rxFraming.parse 0 (stream before)).rest ≠ []

/-- **The records of the stream**, each once and in order, and no byte interpreted
    that was not written since it was last consumed. -/
structure Converts (packets : List RxPacket) : Prop where
  records : (convertAll packets).records = (rxFraming.parse 0 (stream packets)).frames.map (·.frame)
  fresh : Fresh (convertAll packets).accesses

section All

variable {packets : List RxPacket} {p : RxPacket}

/-- No record is taken before all of it is there. -/
theorem rxFraming_behind (start : Nat) (l : List RxByte) : rxFraming.behind start l = 0 := by
  by_contra hpos
  obtain ⟨_, -, hearly, -⟩ := Framing.exists_early (Nat.pos_of_ne_zero hpos)
  exact hearly

theorem stream_snoc (packets : List RxPacket) (p : RxPacket) :
    rxFraming.parse 0 (stream (packets ++ [p])) =
      (rxFraming.parse (rxFraming.parse 0 (stream packets)).stop
        ((rxFraming.parse 0 (stream packets)).rest ++ p.payload)).prepend
        (rxFraming.parse 0 (stream packets)).frames := by
  have hstream : stream (packets ++ [p]) = stream packets ++ p.payload := by
    rw [stream, List.map_append, List.flatten_append, List.map_singleton, List.flatten_singleton]
    rfl
  rw [hstream, Framing.parse_append, rxFraming_behind, List.drop_zero]

theorem convertAll_snoc (packets : List RxPacket) (p : RxPacket) :
    convertAll (packets ++ [p]) = convertPacket (convertAll packets) p := by
  rw [convertAll, List.foldl_append]
  rfl

theorem noStalePacket_nil : NoStalePacket [] :=
  @forall_place_nil RxPacket fun before p _ =>
    p.payload = [] → (rxFraming.parse 0 (stream before)).rest ≠ []

theorem noStalePacket_snoc :
    NoStalePacket (packets ++ [p]) ↔
      NoStalePacket packets ∧ (p.payload = [] → (rxFraming.parse 0 (stream packets)).rest ≠ []) :=
  forall_place_snoc

/-- **All packets**, as long as none is of that kind. -/
theorem convertAll_unread (h : NoStalePacket packets) :
    Unread (convertAll packets) (rxFraming.parse 0 (stream packets)).rest ∧ Converts packets := by
  induction packets using List.reverseRecOn with
  | nil =>
    have hnil : rxFraming.parse 0 (stream []) = ⟨[], 0, []⟩ := Framing.parse_none rfl
    rw [hnil]
    refine ⟨unread_empty, ?_, fresh_nil⟩
    rw [hnil]
    rfl
  | append_singleton packets p ih =>
    obtain ⟨hfront, hp⟩ := noStalePacket_snoc.mp h
    obtain ⟨hunread, hrecords, hfresh⟩ := ih hfront
    obtain ⟨h1, h2, h3⟩ := convertPacket_unread hunread
      (@Framing.next_rest _ _ rxFraming 0 (stream packets)) hfresh hp
      (rxFraming.parse 0 (stream packets)).stop
    refine ⟨?_, ?_, ?_⟩
    · rw [stream_snoc, convertAll_snoc]
      exact h1
    · rw [stream_snoc, convertAll_snoc, h2, hrecords]
      exact (List.map_append ..).symm
    · rw [convertAll_snoc]
      exact h3

/-- **The conversion** for every way the stream is split over packets. -/
theorem convertRX_records (packets : List RxPacket) : Converts packets ↔ NoStalePacket packets := by
  constructor
  · intro h
    have hfresh := h.fresh
    clear h
    induction packets using List.reverseRecOn with
    | nil => exact noStalePacket_nil
    | append_singleton packets p ih =>
      rw [convertAll_snoc] at hfresh
      have hfront := ih (hfresh.of_front (convertPacket_keeps _ p))
      refine noStalePacket_snoc.mpr ⟨hfront, fun hp hrest => ?_⟩
      have hunread := (convertAll_unread hfront).1
      rw [hrest] at hunread
      exact convertPacket_stale hunread hp hfresh
  · intro h
    exact (convertAll_unread h).2

/-- One empty packet at the beginning. -/
theorem convertRX_records_stale : ¬ ∀ packets, Converts packets := by
  intro h
  have hfresh := (h ([] ++ [⟨1, 0, 0, [], Nat.zero_le 59⟩])).fresh
  rw [convertAll_snoc] at hfresh
  exact convertPacket_stale unread_empty rfl hfresh

end All

end WinLirc.CommandIR
