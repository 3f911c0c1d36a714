/-
  File:      WinLirc/MySock.lean
  Subject:   `CMySocket::OnReceive` of gen_ir/mysock.cpp: the lines a client gets
             from the server.

  `buf` and `curr` are carried from call to call; `pending` is what the socket
  still has, of which a call gets as much as has come and has room. `handled` are
  the lines that were given to `sscanf`; what it makes of them is left out.

  * `onReceive_waits`: a call that gets no newline keeps what it gets;
  * `onReceive_line`: a call that gets one leaves `curr` at everything in the
    buffer, and the buffer begins with the newline of the line it has handled, so
    the next call handles that (`onReceive_again`);
  * `onReceive_frames`: so the framing is right for as long as no newline comes.
-/
import Mathlib.Algebra.GroupWithZero.Nat
import Mathlib.Data.List.Induction
import Mathlib.Logic.Function.Basic
import WinLirc.Signal.Lines

namespace WinLirc.GenIr

open Signal

def maxLen : Nat := 4096

abbrev Byte := BitVec 8

def newline : Byte := 10

structure MySocket where
  buf : Nat → Byte
  curr : Nat := 0
  handled : List (List Byte) := []
  pending : List Byte

/-! ## 1. `OnReceive` -/

/-- `Receive(buf + curr, ..)` with its data. -/
def receiveAt (buf : Nat → Byte) (curr : Nat) (data : List Byte) : Nat → Byte := fun j =>
  if curr ≤ j then data.getD (j - curr) (buf j) else buf j

/-- The first newline in front of `curr`. -/
def findNewline (buf : Nat → Byte) (curr : Nat) : Option Nat :=
  (List.range curr).find? fun i => buf i == newline

/-- `buf[i-loc]=buf[i]` from `loc` on. -/
def moveBack (buf : Nat → Byte) (loc curr : Nat) : Nat → Byte :=
  (List.range' loc (curr - loc)).foldl (fun buf i => Function.update buf (i - loc) (buf i)) buf

/-- A call without an error, when `size` bytes have come. -/
def onReceive (s : MySocket) (size : Nat) : MySocket :=
  let curr := if maxLen ≤ s.curr then 0 else s.curr
  let data := s.pending.take (min size (maxLen - curr))
  if data.length = 0 then { s with curr }
  else
    let buf := receiveAt s.buf curr data
    let curr := curr + data.length
    let pending := s.pending.drop data.length
    match findNewline buf curr with
    | none => { s with buf, curr, pending }
    | some loc =>
      let tmp := (List.range (loc + 1)).map buf
      { buf := moveBack buf loc curr, curr, handled := s.handled ++ [tmp], pending }

def receiveAll (s : MySocket) (sizes : List Nat) : MySocket := sizes.foldl onReceive s

/-! ## 2. One call -/

section Call

variable {s : MySocket} {size : Nat} {buf : Nat → Byte} {curr : Nat} {received data : List Byte}

/-- The buffer begins with these bytes. -/
def BeginsWith (buf : Nat → Byte) (l : List Byte) : Prop := ∀ j b, l[j]? = some b → buf j = b

theorem receiveAt_beginsWith (h : BeginsWith buf received) (data : List Byte) :
    BeginsWith (receiveAt buf received.length data) (received ++ data) := by
  intro j b hb
  unfold receiveAt
  rcases Nat.lt_or_ge j received.length with hj | hj
  · rw [if_neg (Nat.not_le.mpr hj)]
    rw [List.getElem?_append_left hj] at hb
    exact h j b hb
  · rw [if_pos hj, List.getD_eq_getElem?_getD]
    rw [List.getElem?_append_right hj] at hb
    rw [hb]
    rfl

theorem findNewline_none (h : BeginsWith buf received) (hno : newline ∉ received) :
    findNewline buf received.length = none := by
  refine List.find?_eq_none.mpr fun j hj hnl => ?_
  have hj := List.mem_range.mp hj
  have hb := h j received[j] (List.getElem?_eq_getElem hj)
  rw [hb] at hnl
  exact hno (beq_iff_eq.mp hnl ▸ List.getElem_mem hj)

theorem findNewline_some (h : BeginsWith buf received) (hnl : newline ∈ received) :
    ∃ loc < received.length, findNewline buf received.length = some loc ∧ buf loc = newline := by
  obtain ⟨j, hj, hget⟩ := List.getElem_of_mem hnl
  have hfound : (findNewline buf received.length).isSome := by
    refine List.find?_isSome.mpr ⟨j, List.mem_range.mpr hj, ?_⟩
    rw [h j received[j] (List.getElem?_eq_getElem hj), hget]
    exact beq_self_eq_true _
  obtain ⟨loc, hloc⟩ := Option.isSome_iff_exists.mp hfound
  refine ⟨loc, List.mem_range.mp (List.mem_of_find?_eq_some hloc), hloc, ?_⟩
  exact beq_iff_eq.mp (List.find?_some (p := fun i => buf i == newline) hloc)

/-- What has been received is in the buffer, and `curr` is how much that is. -/
structure Holds (s : MySocket) (received : List Byte) : Prop where
  curr : s.curr = received.length
  room : received.length < maxLen
  begins : BeginsWith s.buf received

/-- What a call gets. -/
def gets (s : MySocket) (size : Nat) : List Byte := s.pending.take (min size (maxLen - s.curr))

theorem onReceive_eq (h : Holds s received) (size : Nat) (hdata : (gets s size).length ≠ 0) :
    onReceive s size =
      match findNewline (receiveAt s.buf received.length (gets s size)) (received ++ gets s size).length with
      | none =>
        { s with
          buf := receiveAt s.buf received.length (gets s size)
          curr := (received ++ gets s size).length
          pending := s.pending.drop (gets s size).length }
      | some loc =>
        { buf := moveBack (receiveAt s.buf received.length (gets s size)) loc (received ++ gets s size).length
          curr := (received ++ gets s size).length
          handled := s.handled ++
            [(List.range (loc + 1)).map (receiveAt s.buf received.length (gets s size))]
          pending := s.pending.drop (gets s size).length } := by
  have hroom : ¬ maxLen ≤ s.curr := by
    rw [h.curr]
    exact Nat.not_le.mpr h.room
  unfold onReceive
  rw [if_neg hroom]
  show (if (gets s size).length = 0 then _ else _) = _
  rw [if_neg hdata, List.length_append, ← h.curr]
  rfl

/-- **No newline**: what has come is kept for the next call. -/
theorem onReceive_waits (h : Holds s received) (size : Nat)
    (hno : newline ∉ received ++ gets s size) (hroom : (received ++ gets s size).length < maxLen) :
    Holds (onReceive s size) (received ++ gets s size) ∧ (onReceive s size).handled = s.handled ∧
      (onReceive s size).pending = s.pending.drop (gets s size).length := by
  have hbegins := receiveAt_beginsWith h.begins (gets s size)
  by_cases hdata : (gets s size).length = 0
  · have hcurr : ¬ maxLen ≤ s.curr := by
      rw [h.curr]
      exact Nat.not_le.mpr h.room
    have hsame : onReceive s size = s := by
      unfold onReceive
      rw [if_neg hcurr]
      exact if_pos hdata
    rw [hsame, hdata, List.length_eq_zero_iff.mp hdata, List.append_nil]
    exact ⟨h, rfl, rfl⟩
  · rw [onReceive_eq h size hdata, findNewline_none hbegins hno]
    exact ⟨⟨rfl, hroom, hbegins⟩, rfl, rfl⟩

theorem moveBack_zero {loc : Nat} (h : loc < curr) : moveBack buf loc curr 0 = buf loc := by
  obtain ⟨n, hn⟩ : ∃ n, curr - loc = n + 1 := ⟨curr - loc - 1, by omega⟩
  have hlater : ∀ (l : List Nat) (buf : Nat → Byte), (∀ i ∈ l, loc < i) →
      l.foldl (fun buf i => Function.update buf (i - loc) (buf i)) buf 0 = buf 0 := by
    intro l
    induction l with
    | nil => exact fun _ _ => rfl
    | cons i l ih =>
      intro buf hl
      have hi := hl i List.mem_cons_self
      rw [List.foldl_cons, ih _ fun j hj => hl j (List.mem_cons_of_mem i hj),
        Function.update_of_ne (by omega)]
  rw [moveBack, hn, List.range'_succ, List.foldl_cons, hlater _ _ fun i hi => (List.mem_range'_1.mp hi).1,
    Nat.sub_self, Function.update_self]

/-- **A newline**: a line is handled, but `curr` stays behind all of it, and its
    newline stays in the buffer. -/
theorem onReceive_line (h : Holds s received) (size : Nat) (hno : newline ∉ received)
    (hnl : newline ∈ received ++ gets s size) :
    (onReceive s size).curr = (received ++ gets s size).length ∧
      (onReceive s size).pending = s.pending.drop (gets s size).length ∧
      (onReceive s size).buf 0 = newline := by
  have hbegins := receiveAt_beginsWith h.begins (gets s size)
  have hdata : (gets s size).length ≠ 0 := by
    intro hzero
    rw [List.length_eq_zero_iff.mp hzero, List.append_nil] at hnl
    exact hno hnl
  obtain ⟨loc, hlt, hfind, hloc⟩ := findNewline_some hbegins hnl
  rw [onReceive_eq h size hdata, hfind]
  exact ⟨rfl, rfl, (moveBack_zero hlt).trans hloc⟩

theorem holds_self (hroom : s.curr < maxLen) : Holds s ((List.range s.curr).map s.buf) where
  curr := by rw [List.length_map, List.length_range]
  room := by
    rw [List.length_map, List.length_range]
    exact hroom
  begins := by
    intro j b hb
    rw [List.getElem?_map] at hb
    obtain ⟨i, hi, hib⟩ := Option.map_eq_some_iff.mp hb
    obtain ⟨hj, hget⟩ := List.getElem?_eq_some_iff.mp hi
    rw [List.getElem_range] at hget
    rw [hget]
    exact hib

/-- The next call handles that newline as a line. -/
theorem onReceive_again (hbuf : s.buf 0 = newline) (hpos : 0 < s.curr) (hroom : s.curr < maxLen)
    (hdata : (gets s size).length ≠ 0) :
    (onReceive s size).handled = s.handled ++ [[newline]] := by
  have hself := holds_self hroom
  have hfirst : receiveAt s.buf ((List.range s.curr).map s.buf).length (gets s size) 0 = newline := by
    rw [← hself.curr, receiveAt, if_neg (Nat.not_le.mpr hpos)]
    exact hbuf
  have hfind : findNewline (receiveAt s.buf ((List.range s.curr).map s.buf).length (gets s size))
      ((List.range s.curr).map s.buf ++ gets s size).length = some 0 := by
    obtain ⟨n, hn⟩ : ∃ n, ((List.range s.curr).map s.buf ++ gets s size).length = n + 1 := by
      refine Nat.exists_eq_add_one.mpr ?_
      rw [List.length_append, ← hself.curr]
      exact Nat.add_pos_left hpos _
    rw [findNewline, hn, List.range_succ_eq_map, List.find?_cons_of_pos]
    rw [hfirst]
    exact beq_self_eq_true newline
  rw [onReceive_eq hself size hdata, hfind]
  show s.handled ++ [[receiveAt s.buf _ (gets s size) 0]] = _
  rw [hfirst]

end Call

/-! ## 3. A stream of messages -/

/-- The messages that a server sends, the last one perhaps not all of it yet. -/
structure MessageStream where
  bytes : List Byte
  lines_short : ∀ l ∈ lines newline bytes, l.length + 1 < maxLen
  rest_short : (rest newline bytes).length < maxLen

/-- Before the first call. -/
def connected (stream : MessageStream) (buf : Nat → Byte) : MySocket := { buf, pending := stream.bytes }

/-- **The framing** of what was received: the lines of it were handled, each once
    and in order, and what is no line yet is kept. -/
structure Framed (received : List Byte) (s : MySocket) : Prop where
  handled : s.handled = (lines newline received).map (· ++ [newline])
  curr : s.curr = (rest newline received).length
  kept : BeginsWith s.buf (rest newline received)

/-- The same in terms of what the socket has left. -/
def FramedAt (stream : MessageStream) (s : MySocket) : Prop :=
  ∃ received, received ++ s.pending = stream.bytes ∧ Framed received s

section Stream

variable {stream : MessageStream} {s : MySocket} {n size : Nat} {buf : Nat → Byte}

/-- Before the first newline there is room for all that comes. -/
theorem MessageStream.take_short (stream : MessageStream) (h : newline ∉ stream.bytes.take n) :
    (stream.bytes.take n).length < maxLen := by
  by_cases hnl : newline ∈ stream.bytes
  · obtain ⟨l, t, hsplit, hl⟩ := List.eq_append_cons_of_mem hnl
    have hline : l.length + 1 < maxLen := by
      refine stream.lines_short l ?_
      rw [hsplit, lines, cut_line newline hl]
      exact List.mem_cons_self
    have hn : n ≤ l.length := by
      by_contra hlt
      obtain ⟨k, rfl⟩ := Nat.exists_eq_add_of_lt (Nat.not_le.mp hlt)
      rw [hsplit, Nat.add_assoc, List.take_length_add_append] at h
      exact h (List.mem_append_right l List.mem_cons_self)
    have hlen := List.length_take_le n stream.bytes
    omega
  · have hrest := stream.rest_short
    rw [rest, cut_of_notMem newline hnl] at hrest
    exact Nat.lt_of_le_of_lt (List.take_sublist n _).length_le hrest

/-- A run that has got no newline, with what it was asked to get. -/
structure Waiting (stream : MessageStream) (s : MySocket) (n : Nat) : Prop where
  no_newline : newline ∉ stream.bytes.take n
  holds : Holds s (stream.bytes.take n)
  handled : s.handled = []
  split : stream.bytes.take n ++ s.pending = stream.bytes

/-- What a call gets is as much as has come, or the buffer is full of it. -/
theorem Waiting.gets_eq (h : Waiting stream s n) (size : Nat) :
    stream.bytes.take n ++ gets s size = stream.bytes.take (n + size) ∨
      (stream.bytes.take n ++ gets s size).length = maxLen ∧
        ∃ m ≤ n + size, stream.bytes.take n ++ gets s size = stream.bytes.take m := by
  have hroom := h.holds.room
  have hpending : s.pending = stream.bytes.drop n :=
    List.append_cancel_left (h.split.trans (List.take_append_drop n stream.bytes).symm)
  rw [List.take_add, gets, h.holds.curr, hpending]
  rcases Nat.le_total size (maxLen - (stream.bytes.take n).length) with hle | hle
  · rw [Nat.min_eq_left hle]
    exact Or.inl rfl
  · rw [Nat.min_eq_right hle]
    rcases Nat.le_total (stream.bytes.drop n).length (maxLen - (stream.bytes.take n).length) with hall | hall
    · rw [List.take_of_length_le hall, List.take_of_length_le (hall.trans hle)]
      exact Or.inl rfl
    · refine Or.inr ⟨?_, n + (maxLen - (stream.bytes.take n).length), Nat.add_le_add_left hle n,
        (List.take_add ..).symm⟩
      rw [List.length_append, List.length_take_of_le hall]
      omega

theorem gets_append (s : MySocket) (size : Nat) : gets s size ++ s.pending.drop (gets s size).length = s.pending :=
  List.prefix_iff_eq_append.mp (List.take_prefix _ _)

theorem Waiting.framed (h : Waiting stream s n) : FramedAt stream s := by
  refine ⟨stream.bytes.take n, h.split, ?_, ?_, ?_⟩
  · rw [h.handled, lines, cut_of_notMem newline h.no_newline]
    rfl
  · rw [h.holds.curr, rest, cut_of_notMem newline h.no_newline]
  · rw [rest, cut_of_notMem newline h.no_newline]
    exact h.holds.begins

theorem waiting_connected (stream : MessageStream) (buf : Nat → Byte) :
    Waiting stream (connected stream buf) 0 where
  no_newline := List.not_mem_nil
  holds := ⟨rfl, Nat.succ_pos 4095, fun _ _ hb => nomatch hb⟩
  handled := rfl
  split := rfl

/-- **A call without a newline.** -/
theorem Waiting.step (h : Waiting stream s n) (hno : newline ∉ stream.bytes.take (n + size)) :
    Waiting stream (onReceive s size) (n + size) := by
  have hshort := stream.take_short hno
  have hgets : stream.bytes.take n ++ gets s size = stream.bytes.take (n + size) := by
    rcases h.gets_eq size with hx | ⟨hfull, m, hm, hget⟩
    · exact hx
    · have hle := (List.take_prefix_take_left hm : stream.bytes.take m <+: _).length_le
      rw [hget] at hfull
      omega
  obtain ⟨h1, h2, h3⟩ := onReceive_waits h.holds size (hgets ▸ hno) (hgets ▸ hshort)
  refine ⟨hno, hgets ▸ h1, h2.trans h.handled, ?_⟩
  rw [h3, ← hgets, List.append_assoc, gets_append, h.split]

/-- **The call that gets a newline** leaves `curr` at too much. -/
theorem Waiting.line (h : Waiting stream s n) (hnl : newline ∈ stream.bytes.take (n + size)) :
    ¬ FramedAt stream (onReceive s size) := by
  have hin : newline ∈ stream.bytes.take n ++ gets s size := by
    rcases h.gets_eq size with hx | ⟨hfull, m, -, hget⟩
    · rw [hx]
      exact hnl
    · by_contra hno
      rw [hget] at hfull hno
      exact Nat.ne_of_lt (stream.take_short hno) hfull
  obtain ⟨hcurr, hpending, -⟩ := onReceive_line h.holds size h.no_newline hin
  intro hx
  obtain ⟨received, hsplit, hframed⟩ := hx
  have hreceived : received = stream.bytes.take n ++ gets s size := by
    have hbytes : received ++ (onReceive s size).pending =
        (stream.bytes.take n ++ gets s size) ++ (onReceive s size).pending := by
      rw [hsplit, hpending, List.append_assoc, gets_append, h.split]
    exact List.append_cancel_right hbytes
  have hcount := hframed.curr
  rw [hcurr, hreceived] at hcount
  exact Nat.ne_of_gt (length_rest_lt newline hin) hcount

theorem receiveAll_waiting (stream : MessageStream) (buf : Nat → Byte) {sizes : List Nat}
    (hno : newline ∉ stream.bytes.take sizes.sum) :
    Waiting stream (receiveAll (connected stream buf) sizes) sizes.sum := by
  induction sizes using List.reverseRecOn with
  | nil => exact waiting_connected stream buf
  | append_singleton sizes size ih =>
    rw [List.sum_append, List.sum_singleton] at hno ⊢
    have hfront : newline ∉ stream.bytes.take sizes.sum := by
      intro hmem
      exact hno ((List.take_prefix_take_left (Nat.le_add_right _ size)).subset hmem)
    rw [receiveAll, List.foldl_append]
    exact (ih hfront).step hno

/-- **The framing after every call**, for every stream and every way it comes. -/
theorem onReceive_frames (stream : MessageStream) (buf : Nat → Byte) (sizes : List Nat) :
    (∀ before after, sizes = before ++ after → FramedAt stream (receiveAll (connected stream buf) before)) ↔
      newline ∉ stream.bytes.take sizes.sum := by
  constructor
  · intro h
    induction sizes using List.reverseRecOn with
    | nil => exact List.not_mem_nil
    | append_singleton sizes size ih =>
      have hfront := ih fun before after he => h before (after ++ [size]) (by
        rw [he, List.append_assoc])
      have hlast := h (sizes ++ [size]) [] (List.append_nil _).symm
      rw [List.sum_append, List.sum_singleton]
      intro hnl
      rw [receiveAll, List.foldl_append] at hlast
      exact (receiveAll_waiting stream buf hfront).line hnl hlast
  · intro hno before after he
    have hfront : newline ∉ stream.bytes.take before.sum := by
      intro hmem
      rw [he, List.sum_append] at hno
      exact hno ((List.take_prefix_take_left (Nat.le_add_right _ after.sum)).subset hmem)
    exact (receiveAll_waiting stream buf hfront).framed

/-- One message of one byte, all at once. -/
theorem onReceive_frames_line :
    ¬ ∀ (stream : MessageStream) (sizes : List Nat),
      FramedAt stream (receiveAll (connected stream fun _ => 0) sizes) := by
  intro h
  have hline : lines newline [65, newline] = [[65]] := by decide
  have hrest : rest newline [65, newline] = [] := by decide
  let stream : MessageStream :=
    { bytes := [65, newline]
      lines_short := fun l hl => by
        rw [hline] at hl
        rw [List.mem_singleton.mp hl]
        decide
      rest_short := by
        rw [hrest]
        decide }
  have hwait := waiting_connected stream fun _ => 0
  have hnl : newline ∈ stream.bytes.take (0 + 2) := List.mem_cons_of_mem 65 List.mem_cons_self
  exact hwait.line hnl (h stream [2])

end Stream

end WinLirc.GenIr
