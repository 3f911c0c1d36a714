/-
  File:      WinLirc/Irdroid.lean
  Subject:   DLL/Irdroid/SendReceiveData.cpp: the bytes that `receiveLoop` reads.

  The device sends durations as words of two bytes. `serial.Read` delivers them
  in chunks; the loop over a chunk ends at the word 0xFFFF, whatever stands
  behind it. The scaling of a duration is a parameter.

  `receiveLoop_stream`: the samples are those of the words of the whole stream
  and no byte is lost exactly if each word 0xFFFF is at the end of its chunk.
-/
import WinLirc.Driver
import WinLirc.LircDefines
import WinLirc.Signal.Machine

namespace WinLirc.Irdroid

open Signal (after emits)

/-! ## 1. `receiveLoop` -/

structure ReceiveState where
  highByte : Bool := true
  pulse : Bool := true
  value : Nat := 0
  firstSpace : Bool := false
  deriving DecidableEq, Repr

/-- `value |= PULSE_BIT`. -/
def orPulse (value : Int) : Int := if isPulse value then value else PULSE_BIT + value

variable (scale : Nat → Int)

/-- What `setData` is given for a duration. -/
def wordSamples (pulse firstSpace : Bool) (value : Nat) : List Int :=
  (if !firstSpace then [PULSE_MASK] else []) ++ [if pulse then orPulse (scale value) else scale value]

/-- The body of the loop over a chunk: what `setData` is given for a byte. -/
def byteStep (s : ReceiveState) (byte : UCHAR) : List Int × ReceiveState :=
  if s.highByte then ([], { s with value := byte.toNat <<< 8, highByte := false })
  else
    let value := s.value + byte.toNat
    if value = 0xFFFF then
      ([], { highByte := true, pulse := true, value := value, firstSpace := false })
    else
      (wordSamples scale s.pulse s.firstSpace value,
        { highByte := true, pulse := !s.pulse, value := value, firstSpace := true })

/-- The test for the end marker, behind which the loop breaks. -/
def isResync (s : ReceiveState) (byte : UCHAR) : Bool :=
  !s.highByte && s.value + byte.toNat == 0xFFFF

/-- The loop over a chunk: what `setData` is given, the bytes that it looked at,
    and the state. -/
def chunkLoop : ReceiveState → List UCHAR → List Int × List UCHAR × ReceiveState
  | s, [] => ([], [], s)
  | s, byte :: more =>
    if isResync s byte then ((byteStep scale s byte).1, [byte], (byteStep scale s byte).2)
    else
      let (samples, used, s') := chunkLoop (byteStep scale s byte).2 more
      ((byteStep scale s byte).1 ++ samples, byte :: used, s')

/-- The chunks one after the other. -/
def receiveLoop : ReceiveState → List (List UCHAR) → List Int × List UCHAR
  | _, [] => ([], [])
  | s, chunk :: chunks =>
    let (samples, used, s') := chunkLoop scale s chunk
    let (more, usedMore) := receiveLoop s' chunks
    (samples ++ more, used ++ usedMore)

/-! ## 2. The words of a stream -/

/-- A stream cut into words of two bytes; a single byte at the end is none. -/
def words16 : List UCHAR → List Nat
  | high :: low :: more => (high.toNat * 256 + low.toNat) :: words16 more
  | _ => []

/-- The samples for words: pulse and space in turn, a gap in front of each
    signal; behind the word 0xFFFF a signal begins. -/
def signalSamples : Bool → Bool → List Nat → List Int
  | _, _, [] => []
  | pulse, firstSpace, value :: more =>
    if value = 0xFFFF then signalSamples true false more
    else wordSamples scale pulse firstSpace value ++ signalSamples (!pulse) true more

/-- Some bytes of a stream end with the word 0xFFFF. -/
def EndsSignal (bytes : List UCHAR) : Prop := ∃ front, bytes = front ++ [0xff, 0xff] ∧ front.length % 2 = 0

/-- Each word 0xFFFF is at the end of its chunk. -/
def MarkersLast (chunks : List (List UCHAR)) : Prop :=
  ∀ front a byte b back, chunks = front ++ (a ++ byte :: b) :: back →
    EndsSignal (front.flatten ++ (a ++ [byte])) → b = []

/-- The samples are those of the words of the whole stream, and each byte of it is
    used once. -/
def ReadsStream (chunks : List (List UCHAR)) (result : List Int × List UCHAR) : Prop :=
  result.1 = signalSamples scale true false (words16 chunks.flatten) ∧ result.2 = chunks.flatten

/-! ## 3. Bytes and words -/

section Words

variable {scale} {s : ReceiveState}

theorem highByte_byteStep (s : ReceiveState) (byte : UCHAR) :
    (byteStep scale s byte).2.highByte = !s.highByte := by
  unfold byteStep
  cases s.highByte with
  | true => rfl
  | false =>
    rw [if_neg Bool.false_ne_true]
    dsimp only
    split
    · rfl
    · rfl

theorem byteStep_high (h : s.highByte = true) (byte : UCHAR) :
    byteStep scale s byte = ([], { s with value := byte.toNat * 256, highByte := false }) := by
  unfold byteStep
  rw [if_pos h, Nat.shiftLeft_eq]

/-- A first byte stands behind an even number of bytes. -/
theorem highByte_after (h : s.highByte = true) (bytes : List UCHAR) :
    (after (byteStep scale) s bytes).highByte = decide (bytes.length % 2 = 0) := by
  induction bytes using List.reverseRecOn with
  | nil => exact h
  | append_singleton bytes byte ih =>
    rw [Signal.after_append]
    show (byteStep scale (after (byteStep scale) s bytes) byte).2.highByte = _
    rw [highByte_byteStep, ih, List.length_append, List.length_singleton]
    by_cases heven : bytes.length % 2 = 0
    · rw [decide_eq_true heven, decide_eq_false (by omega)]
      rfl
    · rw [decide_eq_false heven, decide_eq_true (by omega)]
      rfl

/-- A first byte is the value that the second one completes. -/
theorem value_after (h : s.highByte = true) {front : List UCHAR} (heven : front.length % 2 = 0)
    (byte : UCHAR) : (after (byteStep scale) s (front ++ [byte])).value = byte.toNat * 256 := by
  have hhigh := @highByte_after scale s h front
  rw [decide_eq_true heven] at hhigh
  rw [Signal.after_append]
  show (byteStep scale (after (byteStep scale) s front) byte).2.value = _
  rw [byteStep_high hhigh]

theorem word_eq_marker {high low : UCHAR} :
    high.toNat * 256 + low.toNat = 0xFFFF ↔ high = 0xff ∧ low = 0xff := by
  have hhigh := high.isLt
  have hlow := low.isLt
  constructor
  · intro h
    exact ⟨BitVec.eq_of_toNat_eq (show high.toNat = 255 by omega),
      BitVec.eq_of_toNat_eq (show low.toNat = 255 by omega)⟩
  · intro hx
    obtain ⟨rfl, rfl⟩ := hx
    rfl

/-- **The end marker** as the loop sees it. -/
theorem isResync_after (h : s.highByte = true) (bytes : List UCHAR) (byte : UCHAR) :
    isResync (after (byteStep scale) s bytes) byte = true ↔ EndsSignal (bytes ++ [byte]) := by
  have hhigh := @highByte_after scale s h bytes
  unfold isResync
  rw [hhigh, Bool.and_eq_true, beq_iff_eq, Bool.not_eq_true', decide_eq_false_iff_not]
  constructor
  · intro hx
    obtain ⟨hodd, hvalue⟩ := hx
    rcases List.eq_nil_or_concat bytes with rfl | ⟨front, high, rfl⟩
    · exact absurd rfl hodd
    rw [List.concat_eq_append] at hodd hvalue ⊢
    rw [List.length_append, List.length_singleton] at hodd
    have heven : front.length % 2 = 0 := by omega
    rw [value_after h heven, word_eq_marker] at hvalue
    obtain ⟨rfl, rfl⟩ := hvalue
    exact ⟨front, List.append_assoc front [0xff] [0xff], heven⟩
  · intro hx
    obtain ⟨front, hbytes, heven⟩ := hx
    have hsplit : bytes ++ [byte] = front ++ [0xff] ++ [0xff] :=
      hbytes.trans (List.append_assoc front [0xff] [0xff]).symm
    obtain ⟨rfl, hbyte⟩ := List.append_inj' hsplit rfl
    obtain rfl := List.singleton_inj.mp hbyte
    rw [value_after h heven, List.length_append, List.length_singleton]
    exact ⟨by omega, rfl⟩

/-- The second byte of a word. -/
theorem byteStep_low (h : s.highByte = false) (byte : UCHAR) :
    byteStep scale s byte =
      if s.value + byte.toNat = 0xFFFF then
        ([], { highByte := true, pulse := true, value := s.value + byte.toNat, firstSpace := false })
      else
        (wordSamples scale s.pulse s.firstSpace (s.value + byte.toNat),
          { highByte := true, pulse := !s.pulse, value := s.value + byte.toNat, firstSpace := true }) := by
  unfold byteStep
  rw [if_neg (by rw [h]; exact Bool.false_ne_true)]

/-- **The samples of a stream** byte by byte are those of its words. -/
theorem emits_byteStep (h : s.highByte = true) (bytes : List UCHAR) :
    emits (byteStep scale) s bytes = signalSamples scale s.pulse s.firstSpace (words16 bytes) := by
  induction bytes using words16.induct generalizing s with
  | case1 high low more ih =>
    rw [Signal.emits_cons, Signal.emits_cons, byteStep_high h, words16, signalSamples,
      byteStep_low rfl]
    dsimp only
    split
    · exact ih rfl
    · rw [ih rfl]
      rfl
  | case2 bytes hshort =>
    match bytes with
    | [] => rfl
    | [byte] =>
      rw [Signal.emits_cons, byteStep_high h]
      rfl
    | high :: low :: more => exact (hshort high low more rfl).elim

end Words

/-! ## 4. Chunks -/

section Chunks

/-- An end marker is only met at the end. -/
def Unbroken (s : ReceiveState) (chunk : List UCHAR) : Prop :=
  ∀ a byte b, chunk = a ++ byte :: b → isResync (after (byteStep scale) s a) byte = true → b = []

variable {scale} {s : ReceiveState} {byte : UCHAR} {chunk more : List UCHAR}

theorem unbroken_nil : Unbroken scale s [] := Signal.forall_place_nil

theorem unbroken_cons : Unbroken scale s (byte :: more) ↔
    (isResync s byte = true → more = []) ∧ Unbroken scale (byteStep scale s byte).2 more :=
  Signal.forall_place_cons

theorem chunkLoop_break (h : isResync s byte = true) : chunkLoop scale s (byte :: more) =
    ((byteStep scale s byte).1, [byte], (byteStep scale s byte).2) := by
  rw [chunkLoop, if_pos h]

theorem chunkLoop_next (h : ¬ isResync s byte = true) : chunkLoop scale s (byte :: more) =
    ((byteStep scale s byte).1 ++ (chunkLoop scale (byteStep scale s byte).2 more).1,
      byte :: (chunkLoop scale (byteStep scale s byte).2 more).2.1,
      (chunkLoop scale (byteStep scale s byte).2 more).2.2) := by
  rw [chunkLoop, if_neg h]

/-- A chunk without a marker in it is read as a part of the stream. -/
theorem chunkLoop_unbroken (h : Unbroken scale s chunk) : chunkLoop scale s chunk =
    (emits (byteStep scale) s chunk, chunk, after (byteStep scale) s chunk) := by
  induction chunk generalizing s with
  | nil => rfl
  | cons byte more ih =>
    obtain ⟨hfirst, hmore⟩ := unbroken_cons.mp h
    by_cases hresync : isResync s byte = true
    · rw [chunkLoop_break hresync, hfirst hresync, Signal.emits_cons]
      exact congrArg (·, _) (List.append_nil _).symm
    · rw [chunkLoop_next hresync, ih hmore]
      rfl

/-- **The loop over a chunk** looks at all bytes only if it meets no marker in front
    of some of them. -/
theorem chunkLoop_used (s : ReceiveState) (chunk : List UCHAR) :
    (chunkLoop scale s chunk).2.1.length ≤ chunk.length ∧
      ((chunkLoop scale s chunk).2.1.length = chunk.length → Unbroken scale s chunk) := by
  induction chunk generalizing s with
  | nil => exact ⟨Nat.le_refl 0, fun _ => unbroken_nil⟩
  | cons byte more ih =>
    rw [unbroken_cons]
    by_cases hresync : isResync s byte = true
    · rw [chunkLoop_break hresync, List.length_cons, List.length_cons]
      refine ⟨by simp, fun hlen => ?_⟩
      have hnil : more = [] := List.eq_nil_of_length_eq_zero (Nat.succ.inj hlen).symm
      subst hnil
      exact ⟨fun _ => rfl, unbroken_nil⟩
    · obtain ⟨hle, hall⟩ := ih (byteStep scale s byte).2
      rw [chunkLoop_next hresync, List.length_cons, List.length_cons]
      exact ⟨Nat.succ_le_succ hle, fun hlen => ⟨fun h => absurd h hresync, hall (Nat.succ.inj hlen)⟩⟩

variable {chunks : List (List UCHAR)}

variable (scale) in
/-- Each chunk is unbroken in its place. -/
def AllUnbroken (s : ReceiveState) (chunks : List (List UCHAR)) : Prop :=
  ∀ front chunk back, chunks = front ++ chunk :: back →
    Unbroken scale (after (byteStep scale) s front.flatten) chunk

theorem allUnbroken_cons : AllUnbroken scale s (chunk :: chunks) ↔
    Unbroken scale s chunk ∧ AllUnbroken scale (after (byteStep scale) s chunk) chunks := by
  unfold AllUnbroken
  simp only [Signal.forall_place_cons, List.flatten_cons, Signal.after_append]
  exact Iff.rfl

/-- **Unbroken chunks** are read as one stream. -/
theorem receiveLoop_unbroken (h : AllUnbroken scale s chunks) :
    receiveLoop scale s chunks = (emits (byteStep scale) s chunks.flatten, chunks.flatten) := by
  induction chunks generalizing s with
  | nil => rfl
  | cons chunk chunks ih =>
    obtain ⟨hfirst, hmore⟩ := allUnbroken_cons.mp h
    rw [receiveLoop, chunkLoop_unbroken hfirst]
    dsimp only
    rw [ih hmore, List.flatten_cons, Signal.emits_append]

/-- **No byte is lost** only if the chunks are unbroken. -/
theorem receiveLoop_used (s : ReceiveState) (chunks : List (List UCHAR)) :
    (receiveLoop scale s chunks).2.length ≤ chunks.flatten.length ∧
      ((receiveLoop scale s chunks).2.length = chunks.flatten.length → AllUnbroken scale s chunks) := by
  induction chunks generalizing s with
  | nil =>
    exact ⟨Nat.le_refl 0, fun _ => Signal.forall_place_nil⟩
  | cons chunk chunks ih =>
    obtain ⟨hle, hall⟩ := @chunkLoop_used scale s chunk
    rcases hloop : chunkLoop scale s chunk with ⟨samples, used, s'⟩
    rw [hloop] at hle hall
    obtain ⟨hmore, hmoreAll⟩ := ih s'
    rw [receiveLoop, List.flatten_cons, hloop]
    dsimp only at hle hall ⊢
    rw [List.length_append, List.length_append]
    refine ⟨Nat.add_le_add hle hmore, fun hlen => ?_⟩
    have hunbroken := hall (by omega)
    rw [chunkLoop_unbroken hunbroken] at hloop
    obtain ⟨-, hused⟩ := Prod.mk.inj hloop
    obtain ⟨rfl, rfl⟩ := Prod.mk.inj hused
    exact allUnbroken_cons.mpr ⟨hunbroken, hmoreAll (Nat.add_left_cancel hlen)⟩

/-- The markers of the stream, and where the loop breaks. -/
theorem allUnbroken_iff : AllUnbroken scale {} chunks ↔ MarkersLast chunks := by
  have hresync : ∀ (front : List (List UCHAR)) (a : List UCHAR) (byte : UCHAR),
      isResync (after (byteStep scale) (after (byteStep scale) {} front.flatten) a) byte = true ↔
        EndsSignal (front.flatten ++ (a ++ [byte])) := by
    intro front a byte
    rw [← Signal.after_append, isResync_after rfl, List.append_assoc]
  constructor
  · intro h front a byte b back he hends
    exact h front (a ++ byte :: b) back he a byte b rfl ((hresync front a byte).mpr hends)
  · rintro h front _ back he a byte b rfl hbreak
    exact h front a byte b back he ((hresync front a byte).mp hbreak)

end Chunks

/-- **What is received**, for every stream and every way it is cut into chunks: the
    samples of its words without a byte lost, exactly if each word 0xFFFF is at
    the end of its chunk. -/
theorem receiveLoop_stream (scale : Nat → Int) (chunks : List (List UCHAR)) :
    ReadsStream scale chunks (receiveLoop scale {} chunks) ↔ MarkersLast chunks := by
  rw [← @allUnbroken_iff scale chunks]
  constructor
  · intro hx
    obtain ⟨-, hused⟩ := hx
    exact (receiveLoop_used {} chunks).2 (congrArg List.length hused)
  · intro h
    rw [receiveLoop_unbroken h]
    exact ⟨emits_byteStep rfl chunks.flatten, rfl⟩

/-- The factor 21.3333, in ten-thousandths. -/
def scaled (value : Nat) : Int := value * 213333 / 10000

/-- **A word behind a marker** in one chunk is lost. -/
theorem receiveLoop_stream_lost :
    receiveLoop scaled {} [[0xff, 0xff, 0x00, 0x10]] = ([], [0xff, 0xff]) ∧
      signalSamples scaled true false (words16 [0xff, 0xff, 0x00, 0x10]) =
        [PULSE_MASK, PULSE_BIT + 341] ∧
      ¬ ReadsStream scaled [[0xff, 0xff, 0x00, 0x10]]
        (receiveLoop scaled {} [[0xff, 0xff, 0x00, 0x10]]) := by
  refine ⟨by decide +kernel, by decide +kernel, fun h => ?_⟩
  have hused := h.2
  revert hused
  decide +kernel

end WinLirc.Irdroid
