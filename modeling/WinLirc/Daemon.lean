/-
  File:      WinLirc/Daemon.lean
  Subject:   winlirc/irdriver.cpp: what `CIRDriver::DaemonThreadProc` passes on
             to the clients.

  A turn of the loop sees what `decodeCommand` left in `message`. The loop
  reads the message back into fields to find the repeat counter;
  `filtered_iff` says when the filter for the first repeats of a key lets the
  rest through unchanged.
-/
import Mathlib.Data.List.Basic
import WinLirc.Signal.Numerals
import WinLirc.CString
import WinLirc.IrRemote

namespace WinLirc

open Signal (words words_append_sep words_self of_mem_words words_eq isDigitOf ofNumeral)

/-! ## 1. `sscanf` -/

/-- The base prefix in front of the digits of `%x`. -/
def scanPrefix : List Char → List Char
  | '0' :: 'x' :: s => s
  | '0' :: 'X' :: s => s
  | s => s

/-- `%x` for a number of `w` bits, and what is left of the text. -/
def scanHex (w : Nat) (s : List Char) : Option (BitVec w × List Char) :=
  let (negative, s) := scanSign (s.dropWhile isspace)
  let s := scanPrefix s
  let digits := s.takeWhile (isDigitOf 16)
  if digits = [] then none
  else
    let n := BitVec.ofNat w (ofNumeral 16 digits)
    some (if negative then -n else n, s.dropWhile (isDigitOf 16))

/-- `%s`. -/
def scanString (s : List Char) : Option (List Char × List Char) :=
  match s.dropWhile isspace with
  | [] => none
  | c :: t => some ((c :: t).takeWhile (!isspace ·), (c :: t).dropWhile (!isspace ·))

/-- What `sscanf(message,"%I64x %x %s %s",...)` assigns. -/
structure MessageFields where
  keyCode : Option (BitVec 64) := none
  rept : Option (BitVec 32) := none -- `repeat`
  command : Option (List Char) := none
  remoteName : Option (List Char) := none
  deriving DecidableEq, Repr

def scanMessage (message : List Char) : MessageFields :=
  match scanHex 64 message with
  | none => {}
  | some (keyCode, s) =>
    match scanHex 32 s with
    | none => { keyCode := some keyCode }
    | some (rept, s) =>
      match scanString s with
      | none => { keyCode := some keyCode, rept := some rept }
      | some (command, s) =>
        { keyCode := some keyCode, rept := some rept, command := some command
          remoteName := (scanString s).map Prod.fst }

/-! ## 2. `DaemonThreadProc` -/

/-- The settings that the loop looks at. -/
structure RepeatConfig where
  disableRepeats : Bool := false
  disableFirstKeyRepeats : Int := 0
  deriving DecidableEq, Repr

/-- The size of `command` and of `remoteName`. -/
def FIELD_SIZE : Nat := 128

/-- What a turn sends to the clients, and whether it wrote or read beyond the
    end of one of its buffers. -/
structure DaemonTurn where
  sent : Option (List Char) := none
  overrun : Bool := false
  deriving DecidableEq, Repr

/-- A string and its NUL do not fit into `n` characters. -/
def tooLong (n : Nat) (s : Option (List Char)) : Bool := s.any fun s => decide (n ≤ s.length)

/-- A turn that got a message. -/
def filterMessage (config : RepeatConfig) (message : List Char) : DaemonTurn :=
  let fields := scanMessage message
  if config.disableRepeats then
    match fields.rept with
    | some rept => if rept ≠ 0 then {} else { sent := some message }
    | none => { sent := some message }
  else if config.disableFirstKeyRepeats > 0 then
    let overrun := tooLong FIELD_SIZE fields.command || tooLong FIELD_SIZE fields.remoteName
    match fields.keyCode, fields.rept, fields.command, fields.remoteName with
    | some keyCode, some rept, some command, some remoteName =>
      if rept ≠ 0 then
        if rept.toInt ≤ config.disableFirstKeyRepeats then { overrun := overrun }
        else
          let text := messageText (String.ofList remoteName) (String.ofList command) "" keyCode
            (rept.toInt - config.disableFirstKeyRepeats)
          { sent := some text, overrun := overrun || tooLong (PACKET_SIZE + 1) (some text) }
      else { sent := some message, overrun := overrun }
    | _, _, _, _ => { sent := some message, overrun := overrun }
  else { sent := some message }

/-- A turn of the loop. A buffer without a NUL is read beyond its end. -/
def daemonTurn (config : RepeatConfig) (o : Outcome) : DaemonTurn :=
  match o.ret, o.out with
  | true, some message =>
    if '\x00' ∈ message then filterMessage config (cstr message) else { overrun := true }
  | _, _ => {}

theorem tooLong_some (n : Nat) (s : List Char) : tooLong n (some s) = decide (n ≤ s.length) := rfl

theorem daemonTurn_open (config : RepeatConfig) {message : List Char} (h : '\x00' ∉ message) :
    daemonTurn config ⟨true, some message⟩ = { overrun := true } := if_neg h

theorem daemonTurn_string (config : RepeatConfig) {message : List Char} (h : '\x00' ∉ message) :
    daemonTurn config ⟨true, some (message ++ ['\x00'])⟩ = filterMessage config message := by
  have hturn : daemonTurn config ⟨true, some (message ++ ['\x00'])⟩ =
      filterMessage config (cstr (message ++ ['\x00'])) :=
    if_pos (List.mem_append_right _ (List.mem_singleton_self _))
  rw [hturn, cstr_nul h]

/-- What is sent over a run of turns. -/
def daemonSent (config : RepeatConfig) (os : List Outcome) : List (List Char) :=
  os.filterMap fun o => (daemonTurn config o).sent

/-! ## 3. The fields of a message -/

theorem scanString_none {s : List Char} (h : scanString s = none) : words isspace s = [] := by
  rw [words_eq]
  unfold scanString at h
  cases hs : s.dropWhile isspace with
  | nil => rfl
  | cons c t =>
    rw [hs] at h
    exact absurd h (Option.some_ne_none _)

/-- `%s` reads the next word. -/
theorem scanString_some {s w t : List Char} (h : scanString s = some (w, t)) :
    words isspace s = w :: words isspace t := by
  rw [words_eq]
  unfold scanString at h
  cases hs : s.dropWhile isspace with
  | nil =>
    rw [hs] at h
    exact absurd h.symm (Option.some_ne_none _)
  | cons c r =>
    rw [hs] at h
    injection h with h
    injection h with hw ht
    dsimp only
    rw [hw, ← ht]
    congr 1
    cases hd : (c :: r).dropWhile (!isspace ·) with
    | nil => rfl
    | cons d u =>
      have hne : (c :: r).dropWhile (!isspace ·) ≠ [] := by
        rw [hd]
        exact List.cons_ne_nil d u
      have hhead := List.head_dropWhile_not (!isspace ·) hne
      have hsep : isspace d = true := by simpa [hd] using hhead
      rw [List.tail_cons, Signal.words_cons_sep hsep]

/-- A text of digits, up to the blank behind it. -/
theorem scanPrefix_digits {ds : List Char} (h : ∀ c ∈ ds, isDigitOf 16 c = true) (t : List Char) :
    scanPrefix (ds ++ ' ' :: t) = ds ++ ' ' :: t := by
  have hx : ∀ c, isDigitOf 16 c = true → c ≠ 'x' ∧ c ≠ 'X' := by
    intro c hc
    constructor
    · rintro rfl
      exact absurd hc (by decide)
    · rintro rfl
      exact absurd hc (by decide)
  match ds with
  | [] => rfl
  | [c] =>
    unfold scanPrefix
    split
    · next he => exact absurd (List.cons.inj (List.cons.inj he).2).1 (by decide)
    · next he => exact absurd (List.cons.inj (List.cons.inj he).2).1 (by decide)
    · rfl
  | c :: d :: ds =>
    have hd := hx d (h d (List.mem_cons_of_mem _ List.mem_cons_self))
    unfold scanPrefix
    split
    · next he => exact absurd (List.cons.inj (List.cons.inj he).2).1 hd.1
    · next he => exact absurd (List.cons.inj (List.cons.inj he).2).1 hd.2
    · rfl

theorem isDigitOf_hexText (width n : Nat) : ∀ c ∈ hexText width n, isDigitOf 16 c = true := by
  intro c hc
  rcases List.mem_append.mp hc with hc | hc
  · rw [List.eq_of_mem_replicate hc]
    decide
  · exact Signal.isDigitOf_of_mem (by decide) (by decide) n c hc

theorem ofNumeral_hexText (width n : Nat) : ofNumeral 16 (hexText width n) = n :=
  (Signal.ofNumeral_zeros 16 _ _).trans (Signal.ofNumeral_toDigits (by decide) (by decide) n)

theorem hexText_ne_nil (width n : Nat) : hexText width n ≠ [] :=
  List.append_ne_nil_of_right_ne_nil _ Nat.toDigits_ne_nil

/-- A digit is neither a blank nor a sign. -/
theorem digit_ne {c : Char} (h : isDigitOf 16 c = true) :
    isspace c = false ∧ c ≠ '-' ∧ c ≠ '+' ∧ c ≠ ' ' ∧ c ≠ '\x00' := by
  refine ⟨?_, ?_, ?_, ?_, ?_⟩
  · have hlo : '0' ≤ c ∨ isspace c = false := by
      by_contra hno
      obtain ⟨h0, hs⟩ := not_or.mp hno
      unfold isDigitOf Signal.digitValue at h
      rw [if_neg fun hc => h0 hc.1, if_neg, if_neg] at h
      · exact absurd h Bool.false_ne_true
      · intro hc
        exact h0 (Char.le_trans (by decide) hc.1)
      · intro hc
        exact h0 (Char.le_trans (by decide) hc.1)
    rcases hlo with hlo | hlo
    · unfold isspace
      have h1 : (c == ' ') = false := by
        rw [beq_eq_false_iff_ne]
        rintro rfl
        exact absurd hlo (by decide)
      have h2 : ¬c ≤ '\r' := fun hle => absurd (Char.le_trans hlo hle) (by decide)
      rw [h1, decide_eq_false h2, Bool.and_false]
      rfl
    · exact hlo
  all_goals
    rintro rfl
    exact absurd h (by decide)

/-- **A number of the message read back.** -/
theorem scanHex_hexText {w width n : Nat} (t : List Char) :
    scanHex w (hexText width n ++ ' ' :: t) = some (BitVec.ofNat w n, ' ' :: t) := by
  have hd := isDigitOf_hexText width n
  obtain ⟨c, ds, hcs⟩ := List.exists_cons_of_ne_nil (hexText_ne_nil width n)
  have hc : isDigitOf 16 c = true := hd c (by rw [hcs]; exact List.mem_cons_self)
  obtain ⟨hsp, hminus, hplus, -⟩ := digit_ne hc
  have hdrop : (hexText width n ++ ' ' :: t).dropWhile isspace = hexText width n ++ ' ' :: t := by
    rw [hcs, List.cons_append, List.dropWhile_cons_of_neg (by rw [hsp]; exact Bool.false_ne_true)]
  have hsign : scanSign (hexText width n ++ ' ' :: t) = (false, hexText width n ++ ' ' :: t) := by
    rw [hcs, List.cons_append]
    unfold scanSign
    split
    · next he => exact absurd (List.cons.inj he).1 hminus
    · next he => exact absurd (List.cons.inj he).1 hplus
    · rfl
  have hblank : isDigitOf 16 ' ' = false := by decide
  have htake : (hexText width n ++ ' ' :: t).takeWhile (isDigitOf 16) = hexText width n := by
    rw [List.takeWhile_append_of_pos hd, List.takeWhile_cons_of_neg (by rw [hblank]; decide),
      List.append_nil]
  have hrest : (hexText width n ++ ' ' :: t).dropWhile (isDigitOf 16) = ' ' :: t := by
    rw [List.dropWhile_append_of_pos hd, List.dropWhile_cons_of_neg (by rw [hblank]; decide)]
  unfold scanHex
  rw [hdrop, hsign]
  dsimp only
  rw [scanPrefix_digits hd, htake, hrest, if_neg (hexText_ne_nil width n), ofNumeral_hexText]
  rfl

/-- The same behind a blank. -/
theorem scanHex_blank (w : Nat) (s : List Char) : scanHex w (' ' :: s) = scanHex w s := by
  unfold scanHex
  rw [List.dropWhile_cons_of_pos (by decide)]

/-- The words that the two names are read back as. -/
def nameWords (remoteName buttonName : String) : List (List Char) :=
  words isspace (buttonName.toList ++ ' ' :: remoteName.toList)

/-- **A message read back.** -/
theorem scanMessage_messageText (remoteName buttonName : String) (code : IrCode) {i : Nat}
    (hi : i < 2 ^ 32) :
    scanMessage (messageText remoteName buttonName "" code i) =
      { keyCode := some code, rept := some (BitVec.ofNat 32 i)
        command := (nameWords remoteName buttonName)[0]?
        remoteName := (nameWords remoteName buttonName)[1]? } := by
  have htext : messageText remoteName buttonName "" code i =
      hexText 16 code.toNat ++ ' ' :: (hexText 2 i ++
        ' ' :: (buttonName.toList ++ ' ' :: remoteName.toList ++ '\n' :: [])) := by
    have hmod : (((i : Nat) : Int) % 2 ^ 32).toNat = i := by omega
    unfold messageText
    rw [hmod]
    simp [List.append_assoc]
  have hwords : words isspace (' ' :: (buttonName.toList ++ ' ' :: remoteName.toList ++
      '\n' :: [])) = nameWords remoteName buttonName := by
    rw [Signal.words_cons_sep (by decide), words_append_sep (by decide), Signal.words_nil,
      List.append_nil]
    rfl
  unfold scanMessage
  rw [htext, scanHex_hexText]
  dsimp only
  rw [scanHex_blank, scanHex_hexText]
  dsimp only
  rw [BitVec.ofNat_toNat, BitVec.setWidth_eq, ← hwords]
  cases h1 : scanString (' ' :: (buttonName.toList ++ ' ' :: remoteName.toList ++
      '\n' :: [])) with
  | none =>
    rw [scanString_none h1]
    rfl
  | some p =>
    rw [scanString_some h1]
    dsimp only
    cases h2 : scanString p.2 with
    | none =>
      rw [scanString_none h2]
      rfl
    | some q =>
      rw [scanString_some h2]
      rfl

/-! ## 4. The messages of a key held down -/

/-- A name as the configuration admits it: a token of a line. -/
def Admissible (name : String) : Prop :=
  name.toList ≠ [] ∧ ∀ c ∈ name.toList, c ≠ ' ' ∧ c ≠ '\t' ∧ c ≠ '\n' ∧ c ≠ '\x00'

instance (name : String) : Decidable (Admissible name) :=
  @instDecidableAnd _ _ _ (List.decidableBAll _ _)

theorem length_toDigits_le {b n k : Nat} (hb : 1 < b) (h : n ≤ k) :
    (Nat.toDigits b n).length ≤ (Nat.toDigits b k).length := by
  have hpos : 0 < (Nat.toDigits b k).length := Nat.length_toDigits_pos
  have hk := (Nat.length_toDigits_le_iff hb hpos).mp (Nat.le_refl _)
  exact (Nat.length_toDigits_le_iff hb hpos).mpr (Nat.lt_of_le_of_lt h hk)

/-- A message gets no longer when its counter gets smaller. -/
theorem length_messageText_le (remoteName buttonName : String) (code : IrCode) {i k : Nat}
    (h : i ≤ k) (hk : k < 2 ^ 32) :
    (messageText remoteName buttonName "" code i).length ≤
      (messageText remoteName buttonName "" code k).length := by
  have hi : (((i : Nat) : Int) % 2 ^ 32).toNat = i := by omega
  have hk' : (((k : Nat) : Int) % 2 ^ 32).toNat = k := by omega
  have hdigits := length_toDigits_le (b := 16) (by decide) h
  unfold messageText
  rw [hi, hk']
  simp only [hexText, List.length_append, List.length_replicate]
  omega

theorem nul_notMem_messageText {remoteName buttonName : String} (hr : Admissible remoteName)
    (hb : Admissible buttonName) (code : IrCode) (reps : Int) :
    '\x00' ∉ messageText remoteName buttonName "" code reps := by
  have hdigit : ∀ width n, '\x00' ∉ hexText width n := fun width n hc =>
    (digit_ne (isDigitOf_hexText width n _ hc)).2.2.2.2 rfl
  unfold messageText
  simp only [List.mem_append, List.mem_singleton]
  rintro ((((((((h | h) | h) | h) | h) | h) | h) | h) | h)
  · exact hdigit _ _ h
  · exact absurd h (by decide)
  · exact hdigit _ _ h
  · exact absurd h (by decide)
  · exact (hb.2 _ h).2.2.2 rfl
  · exact absurd h (by decide)
  · exact absurd h (by decide)
  · exact (hr.2 _ h).2.2.2 rfl
  · exact absurd h (by decide)

/-- A message that fits into the buffer. -/
theorem reportMessage_fits {remote : IrRemote} {button : String} {code : IrCode} {reps : Int}
    (h : (messageText remote.name button "" code reps).length ≤ PACKET_SIZE) :
    reportMessage remote button code reps =
      ⟨true, some (messageText remote.name button "" code reps ++ ['\x00'])⟩ := by
  have hlt : (messageText remote.name button "" code reps).length < PACKET_SIZE + 1 := by omega
  unfold reportMessage writeMessage snprintf
  rw [if_pos hlt]
  dsimp only
  rw [decide_eq_false (by omega)]
  rfl

/-- A message that does not: `write_message` answers -1, which counts as a
    short one. -/
theorem reportMessage_cut {remote : IrRemote} {button : String} {code : IrCode} {reps : Int}
    (h : PACKET_SIZE + 1 < (messageText remote.name button "" code reps).length) :
    reportMessage remote button code reps =
      ⟨true, some ((messageText remote.name button "" code reps).take (PACKET_SIZE + 1))⟩ := by
  unfold reportMessage writeMessage snprintf
  rw [if_neg (by omega), if_neg (by omega)]
  rfl

theorem reportMessage_exact {remote : IrRemote} {button : String} {code : IrCode} {reps : Int}
    (h : (messageText remote.name button "" code reps).length = PACKET_SIZE + 1) :
    (reportMessage remote button code reps).ret = false := by
  unfold reportMessage writeMessage snprintf
  rw [if_neg (by omega), if_pos h]
  dsimp only
  rw [h]
  rfl

/-! ## 5. A turn of the filter -/

section Turns

variable {remote : IrRemote} {button : String} {code : IrCode} {N : Int}

/-- The filter for the first `N` repeats. -/
def firstKeyFilter (N : Int) : RepeatConfig := { disableFirstKeyRepeats := N }

/-- One of the fields that are read back is too long for its buffer. -/
def fieldTooLong (remote : IrRemote) (button : String) : Bool :=
  tooLong FIELD_SIZE (nameWords remote.name button)[0]? ||
    tooLong FIELD_SIZE (nameWords remote.name button)[1]?

theorem daemonTurn_cut {i : Nat} (hr : Admissible remote.name) (hb : Admissible button)
    (h : PACKET_SIZE + 1 < (messageText remote.name button "" code i).length) :
    daemonTurn (firstKeyFilter N) (reportMessage remote button code i) = { overrun := true } := by
  rw [reportMessage_cut h]
  exact daemonTurn_open _ fun hc =>
    nul_notMem_messageText hr hb code i (List.mem_of_mem_take hc)

theorem daemonTurn_fits {i : Nat} (hr : Admissible remote.name) (hb : Admissible button)
    (h : (messageText remote.name button "" code i).length ≤ PACKET_SIZE) :
    daemonTurn (firstKeyFilter N) (reportMessage remote button code i) =
      filterMessage (firstKeyFilter N) (messageText remote.name button "" code i) := by
  rw [reportMessage_fits h]
  exact daemonTurn_string _ (nul_notMem_messageText hr hb code i)

/-- What the filter makes of a message whose names are read back as fewer than
    two words. -/
theorem filterMessage_short (hN : 0 < N) {i : Nat} (hi : i < 2 ^ 31)
    (h : (nameWords remote.name button).length < 2) :
    filterMessage (firstKeyFilter N) (messageText remote.name button "" code i) =
      { sent := some (messageText remote.name button "" code i)
        overrun := fieldTooLong remote button } := by
  have h1 : (nameWords remote.name button)[1]? = none := List.getElem?_eq_none (by omega)
  unfold filterMessage firstKeyFilter fieldTooLong
  rw [scanMessage_messageText _ _ _ (by omega)]
  dsimp only
  rw [if_neg Bool.false_ne_true, if_pos hN, h1]
  cases (nameWords remote.name button)[0]? <;> rfl

/-- What it makes of one whose names are read back as `c` and `r`. -/
theorem filterMessage_words (hN : 0 < N) {i : Nat} (hi : i < 2 ^ 31) {c r : List Char}
    (hc : (nameWords remote.name button)[0]? = some c)
    (hr : (nameWords remote.name button)[1]? = some r) :
    filterMessage (firstKeyFilter N) (messageText remote.name button "" code i) =
      if i = 0 then
        { sent := some (messageText remote.name button "" code i)
          overrun := fieldTooLong remote button }
      else if (i : Int) ≤ N then { overrun := fieldTooLong remote button }
      else
        { sent := some (messageText (String.ofList r) (String.ofList c) "" code (i - N))
          overrun := fieldTooLong remote button || tooLong (PACKET_SIZE + 1)
            (some (messageText (String.ofList r) (String.ofList c) "" code (i - N))) } := by
  have hint : (BitVec.ofNat 32 i).toInt = i := by
    rw [BitVec.toInt_eq_toNat_of_lt]
    · rw [BitVec.toNat_ofNat, Nat.mod_eq_of_lt (by omega)]
    · rw [BitVec.toNat_ofNat, Nat.mod_eq_of_lt (by omega)]
      omega
  have hzero : BitVec.ofNat 32 i ≠ 0 ↔ i ≠ 0 := by
    rw [not_iff_not]
    constructor
    · intro h
      rw [h] at hint
      have h0 : (0 : BitVec 32).toInt = 0 := rfl
      omega
    · rintro rfl
      rfl
  unfold filterMessage firstKeyFilter fieldTooLong
  rw [scanMessage_messageText _ _ _ (by omega)]
  dsimp only
  rw [if_neg Bool.false_ne_true, if_pos hN, hc, hr]
  dsimp only
  by_cases h0 : i = 0
  · rw [if_neg (fun h => hzero.mp h h0), if_pos h0]
  · rw [if_pos (hzero.mpr h0), if_neg h0, hint]

/-! ## 6. A key held down -/

/-- What `decodeCommand` answers for a key that is held down for `m` repeats. -/
def heldDown (remote : IrRemote) (button : String) (code : IrCode) (m : Nat) : List Outcome :=
  (List.range (m + 1)).map fun i : Nat => reportMessage remote button code i

/-- The clients get the first message and those behind the first `N` repeats,
    with the counters 0, 1, ... and the other fields as they are, and no buffer
    is overrun. -/
structure Filtered (N : Int) (remote : IrRemote) (button : String) (code : IrCode) (m : Nat) :
    Prop where
  sent : daemonSent (firstKeyFilter N) (heldDown remote button code m) =
    (List.range (((m : Int) - N).toNat + 1)).map fun i : Nat =>
      messageText remote.name button "" code i
  inside : ∀ o ∈ heldDown remote button code m, (daemonTurn (firstKeyFilter N) o).overrun = false

/-- Dropping the first `N` repeats of a run. -/
theorem filterMap_repeats {β : Type} {f : Nat → Option β} {t : Int → β} {m : Nat} (hN : 0 < N)
    (h0 : f 0 = some (t 0)) (hdrop : ∀ i : Nat, 0 < i → i ≤ m → (i : Int) ≤ N → f i = none)
    (hpass : ∀ i : Nat, i ≤ m → N < i → f i = some (t (i - N))) :
    (List.range (m + 1)).filterMap f =
      (List.range (((m : Int) - N).toNat + 1)).map fun i : Nat => t i := by
  induction m with
  | zero =>
    have hz : (((0 : Nat) : Int) - N).toNat = 0 := by omega
    rw [hz]
    simp [h0]
  | succ m ih =>
    rw [List.range_succ, List.filterMap_append,
      ih (fun i hi hle => hdrop i hi (by omega)) (fun i hle => hpass i (by omega))]
    by_cases hle : ((m + 1 : Nat) : Int) ≤ N
    · have hz : (((m + 1 : Nat) : Int) - N).toNat = ((m : Int) - N).toNat := by omega
      rw [hz, List.filterMap_cons_none (hdrop (m + 1) (by omega) (by omega) hle),
        List.filterMap_nil, List.append_nil]
    · have hlt : N < ((m + 1 : Nat) : Int) := by omega
      have hz : (((m + 1 : Nat) : Int) - N).toNat = ((m : Int) - N).toNat + 1 := by omega
      have hi : ((m + 1 : Nat) : Int) - N = ((((m : Int) - N).toNat + 1 : Nat) : Int) := by omega
      rw [hz, List.range_succ (n := ((m : Int) - N).toNat + 1), List.map_append,
        List.filterMap_cons_some (hpass (m + 1) (by omega) hlt), List.filterMap_nil, hi]
      rfl

/-- The names of a message are its last two fields. -/
theorem messageText_inj {r b r' b' : String} {code : IrCode} {i k : Int} (hb : ' ' ∉ b.toList)
    (hb' : ' ' ∉ b'.toList)
    (h : messageText r b "" code i = messageText r' b' "" code k) :
    b.toList = b'.toList ∧ r.toList = r'.toList := by
  have hdigit : ∀ width n, ' ' ∉ hexText width n := fun width n hc =>
    (digit_ne (isDigitOf_hexText width n _ hc)).2.2.2.1 rfl
  have hshape : ∀ (r b : String) (i : Int), messageText r b "" code i =
      hexText 16 code.toNat ++ ' ' :: (hexText 2 (i % 2 ^ 32).toNat ++
        ' ' :: (b.toList ++ ' ' :: (r.toList ++ ['\n']))) := by
    intro r b i
    unfold messageText
    simp [List.append_assoc]
  rw [hshape, hshape] at h
  have h1 := (Signal.append_cons_inj (hdigit _ _) (hdigit _ _) h).2
  have h2 := (Signal.append_cons_inj (hdigit _ _) (hdigit _ _) h1).2
  obtain ⟨h3, h4⟩ := Signal.append_cons_inj hb hb' h2
  exact ⟨h3, List.append_cancel_right h4⟩

/-- Names without whitespace are read back as they are. -/
theorem nameWords_self {r b : String} (hr : Admissible r) (hb : Admissible b)
    (h : ∀ c ∈ b.toList ++ r.toList, isspace c = false) :
    nameWords r b = [b.toList, r.toList] := by
  unfold nameWords
  rw [words_append_sep (by decide),
    words_self hb.1 fun c hc => h c (List.mem_append_left _ hc),
    words_self hr.1 fun c hc => h c (List.mem_append_right _ hc)]
  rfl

theorem fieldTooLong_iff : fieldTooLong remote button = false ↔
    ∀ f ∈ (nameWords remote.name button).take 2, f.length < FIELD_SIZE := by
  unfold fieldTooLong
  match nameWords remote.name button with
  | [] => simp [tooLong]
  | [c] => simp [tooLong]
  | c :: r :: ws => simp [tooLong]

theorem mem_heldDown {m : Nat} {o : Outcome} (h : o ∈ heldDown remote button code m) :
    ∃ i : Nat, i ≤ m ∧ o = reportMessage remote button code i := by
  obtain ⟨i, hi, rfl⟩ := List.mem_map.mp h
  have hlt := List.mem_range.mp hi
  exact ⟨i, by omega, rfl⟩

theorem heldDown_mem {m i : Nat} (h : i ≤ m) :
    reportMessage remote button code i ∈ heldDown remote button code m :=
  List.mem_map.mpr ⟨i, List.mem_range.mpr (by omega), rfl⟩

/-- What a run sends, turn by turn. -/
theorem daemonSent_heldDown (config : RepeatConfig) (m : Nat) :
    daemonSent config (heldDown remote button code m) = (List.range (m + 1)).filterMap
      fun i : Nat => (daemonTurn config (reportMessage remote button code i)).sent :=
  List.filterMap_map

/-- Every message of a run fits if no buffer is overrun. -/
theorem Filtered.fits {m : Nat} (hr : Admissible remote.name) (hb : Admissible button)
    (hret : ∀ i : Nat, i ≤ m → (reportMessage remote button code i).ret = true)
    (h : Filtered N remote button code m) {i : Nat} (hi : i ≤ m) :
    (messageText remote.name button "" code i).length ≤ PACKET_SIZE := by
  rcases Nat.lt_trichotomy (messageText remote.name button "" code i).length (PACKET_SIZE + 1)
    with hlt | heq | hgt
  · omega
  · have hfalse := reportMessage_exact heq
    rw [hret i hi] at hfalse
    exact absurd hfalse (by decide)
  · have hover := h.inside _ (heldDown_mem hi)
    rw [daemonTurn_cut hr hb hgt] at hover
    exact absurd hover (by decide)

/-- The names of a run whose filter passes a repeat on. -/
theorem Filtered.names {m : Nat} (hN : 0 < N) (hm : m < 2 ^ 31) (hr : Admissible remote.name)
    (hb : Admissible button)
    (hfits : ∀ i : Nat, i ≤ m → (messageText remote.name button "" code i).length ≤ PACKET_SIZE)
    (h : Filtered N remote button code m) (hlt : N < m) {c r : List Char}
    (hc : (nameWords remote.name button)[0]? = some c)
    (hw : (nameWords remote.name button)[1]? = some r) :
    c = button.toList ∧ r = remote.name.toList := by
  -- the first message that the filter passes on is one of those it should send
  have hi : ∃ i : Nat, i ≤ m ∧ (i : Int) = N + 1 := ⟨(N + 1).toNat, by omega, by omega⟩
  obtain ⟨i, hle, hi⟩ := hi
  have hturn : (daemonTurn (firstKeyFilter N) (reportMessage remote button code i)).sent =
      some (messageText (String.ofList r) (String.ofList c) "" code (i - N)) := by
    rw [daemonTurn_fits hr hb (hfits i hle), filterMessage_words hN (by omega) hc hw,
      if_neg (by omega), if_neg (by omega)]
  have hmem : messageText (String.ofList r) (String.ofList c) "" code (i - N) ∈
      daemonSent (firstKeyFilter N) (heldDown remote button code m) :=
    List.mem_filterMap.mpr ⟨_, heldDown_mem hle, hturn⟩
  rw [h.sent] at hmem
  obtain ⟨k, -, hk⟩ := List.mem_map.mp hmem
  have hcmem : c ∈ nameWords remote.name button := List.mem_of_getElem? hc
  have hblank : ' ' ∉ (String.ofList c).toList := by
    rw [String.toList_ofList]
    intro hin
    exact absurd ((of_mem_words hcmem).2 _ hin) (by decide)
  obtain ⟨h1, h2⟩ := messageText_inj (fun hin => (hb.2 _ hin).1 rfl) hblank hk
  rw [String.toList_ofList] at h1 h2
  exact ⟨h1.symm, h2.symm⟩

/-- The fields of the first message are read back whatever comes after it. -/
theorem Filtered.short {m : Nat} (hN : 0 < N) (hr : Admissible remote.name) (hb : Admissible button)
    (hfits : ∀ i : Nat, i ≤ m → (messageText remote.name button "" code i).length ≤ PACKET_SIZE)
    (h : Filtered N remote button code m) : fieldTooLong remote button = false := by
  have hover := h.inside _ (heldDown_mem (Nat.zero_le m))
  rw [daemonTurn_fits hr hb (hfits 0 (Nat.zero_le m))] at hover
  by_cases hw : (nameWords remote.name button).length < 2
  · rwa [filterMessage_short hN (by decide) hw] at hover
  · rwa [filterMessage_words hN (by decide) (List.getElem?_eq_getElem (by omega))
      (List.getElem?_eq_getElem (by omega)), if_pos rfl] at hover

/-- A run with a repeat to drop reads two words back: with fewer it sends all. -/
theorem Filtered.two {m : Nat} (hN : 0 < N) (hm : m < 2 ^ 31) (hr : Admissible remote.name)
    (hb : Admissible button)
    (hfits : ∀ i : Nat, i ≤ m → (messageText remote.name button "" code i).length ≤ PACKET_SIZE)
    (h : Filtered N remote button code m) (hne : m ≠ 0) :
    2 ≤ (nameWords remote.name button).length := by
  by_contra hw
  have hall : daemonSent (firstKeyFilter N) (heldDown remote button code m) =
      (List.range (m + 1)).map fun i : Nat => messageText remote.name button "" code i := by
    rw [daemonSent_heldDown, List.filterMap_eq_map_iff_forall_eq_some]
    intro i hi
    have hi := List.mem_range.mp hi
    rw [daemonTurn_fits hr hb (hfits i (by omega)),
      filterMessage_short hN (by omega) (by omega)]
  have hlen := congrArg List.length (hall.symm.trans h.sent)
  simp only [List.length_map, List.length_range] at hlen
  omega

/-- What the filter makes of the message of repeat `i`. -/
theorem filterMessage_run {m : Nat} (hN : 0 < N) (hm : m < 2 ^ 31) (hr : Admissible remote.name)
    (hb : Admissible button) (hlong : fieldTooLong remote button = false)
    (hfits : ∀ i : Nat, i ≤ m → (messageText remote.name button "" code i).length ≤ PACKET_SIZE)
    (htwo : m ≠ 0 → 2 ≤ (nameWords remote.name button).length)
    (hspace : N < m → ∀ c ∈ button.toList ++ remote.name.toList, isspace c = false) {i : Nat}
    (hi : i ≤ m) :
    filterMessage (firstKeyFilter N) (messageText remote.name button "" code i) =
      { sent :=
          if i = 0 then some (messageText remote.name button "" code i)
          else if (i : Int) ≤ N then none
          else some (messageText remote.name button "" code (i - N))
        overrun := false } := by
  by_cases h0 : i = 0
  · rw [if_pos h0, ← hlong]
    by_cases hw : (nameWords remote.name button).length < 2
    · exact filterMessage_short hN (by omega) hw
    · rw [filterMessage_words hN (by omega) (List.getElem?_eq_getElem (by omega))
        (List.getElem?_eq_getElem (by omega)), if_pos h0]
  · rw [if_neg h0]
    by_cases hle : (i : Int) ≤ N
    · have hw := htwo (by omega)
      rw [filterMessage_words hN (by omega) (List.getElem?_eq_getElem (by omega))
        (List.getElem?_eq_getElem (by omega)), if_neg h0, if_pos hle, if_pos hle, hlong]
    · have hw := nameWords_self hr hb (hspace (by omega))
      have hk : ((i : Int) - N) = (((i : Int) - N).toNat : Int) := by omega
      have hshort : tooLong (PACKET_SIZE + 1)
          (some (messageText remote.name button "" code (i - N))) = false := by
        have hlen := Nat.le_trans (length_messageText_le remote.name button code
          (i := ((i : Int) - N).toNat) (k := i) (by omega) (by omega)) (hfits i hi)
        rw [hk, tooLong_some]
        exact decide_eq_false (by omega)
      rw [filterMessage_words (c := button.toList) (r := remote.name.toList) hN (by omega)
        (by rw [hw]; rfl) (by rw [hw]; rfl), if_neg h0, if_neg hle, if_neg hle,
        String.ofList_toList, String.ofList_toList, hlong, hshort]
      rfl

/-- **The filter for the first repeats of a key.** The message of the last
    repeat fits into `message`; the first two words of the two names fit into
    their buffers; there are two words if anything is to be dropped; and no name
    has whitespace in it if anything is to be passed on behind that. -/
theorem filtered_iff (remote : IrRemote) (button : String) (code : IrCode) (N : Int) (m : Nat)
    (hN : 0 < N) (hm : m < 2 ^ 31) (hr : Admissible remote.name) (hb : Admissible button)
    (hret : ∀ i : Nat, i ≤ m → (reportMessage remote button code i).ret = true) :
    Filtered N remote button code m ↔
      (messageText remote.name button "" code m).length ≤ PACKET_SIZE ∧
        (∀ f ∈ (nameWords remote.name button).take 2, f.length < FIELD_SIZE) ∧
        (m ≠ 0 → 2 ≤ (nameWords remote.name button).length) ∧
        (N < m → ∀ c ∈ button.toList ++ remote.name.toList, isspace c = false) := by
  constructor
  · intro h
    have hfits : ∀ i : Nat, i ≤ m →
        (messageText remote.name button "" code i).length ≤ PACKET_SIZE :=
      fun i hi => h.fits hr hb hret hi
    have htwo := h.two hN hm hr hb hfits
    refine ⟨hfits m (Nat.le_refl m), fieldTooLong_iff.mp (h.short hN hr hb hfits), htwo, ?_⟩
    intro hlt c hc
    have hw := htwo (by omega)
    have hc0 : (nameWords remote.name button)[0]? = some (nameWords remote.name button)[0] :=
      List.getElem?_eq_getElem (by omega)
    have hc1 : (nameWords remote.name button)[1]? = some (nameWords remote.name button)[1] :=
      List.getElem?_eq_getElem (by omega)
    obtain ⟨h0, h1⟩ := h.names hN hm hr hb hfits hlt hc0 hc1
    rcases List.mem_append.mp hc with hc | hc
    · rw [← h0] at hc
      exact (of_mem_words (List.mem_of_getElem? hc0)).2 c hc
    · rw [← h1] at hc
      exact (of_mem_words (List.mem_of_getElem? hc1)).2 c hc
  · rintro ⟨hlast, hfields, htwo, hspace⟩
    have hfits : ∀ i : Nat, i ≤ m →
        (messageText remote.name button "" code i).length ≤ PACKET_SIZE := fun i hi =>
      Nat.le_trans (length_messageText_le _ _ code hi (by omega)) hlast
    have hturn : ∀ i : Nat, i ≤ m →
        daemonTurn (firstKeyFilter N) (reportMessage remote button code i) =
          { sent :=
              if i = 0 then some (messageText remote.name button "" code i)
              else if (i : Int) ≤ N then none
              else some (messageText remote.name button "" code (i - N))
            overrun := false } := by
      intro i hi
      rw [daemonTurn_fits hr hb (hfits i hi)]
      exact filterMessage_run hN hm hr hb (fieldTooLong_iff.mpr hfields) hfits htwo hspace hi
    constructor
    · rw [daemonSent_heldDown]
      refine filterMap_repeats (t := fun k => messageText remote.name button "" code k) hN ?_ ?_ ?_
      · rw [hturn 0 (Nat.zero_le m)]
        rfl
      · intro i hpos hi hle
        rw [hturn i hi, if_neg (by omega), if_pos hle]
      · intro i hi hlt
        rw [hturn i hi, if_neg (by omega), if_neg (by omega)]
    · intro o ho
      obtain ⟨i, hi, rfl⟩ := mem_heldDown ho
      rw [hturn i hi]

end Turns

def tvRemote : IrRemote := { name := "tv" }

theorem filtered_iff_tvRemote : Filtered 2 tvRemote "power" 0x1f 5 := by
  have hplain : (("power".toList ++ tvRemote.name.toList).all fun c => !isspace c) = true := by
    decide +kernel
  refine (filtered_iff tvRemote "power" 0x1f 2 5 (by decide) (by decide) (by decide +kernel)
    (by decide +kernel) (by decide +kernel)).mpr
      ⟨by decide +kernel, by decide +kernel, by decide +kernel, fun _ c hc => ?_⟩
  have h := List.all_eq_true.mp hplain c hc
  rwa [Bool.not_eq_true'] at h

/-- A remote whose name is longer than the buffer for it. -/
def longNameRemote : IrRemote := { name := String.ofList (List.replicate 128 'a') }

theorem not_filtered_longNameRemote :
    ¬∀ (remote : IrRemote) (button : String) (code : IrCode) (N : Int) (m : Nat), 0 < N →
      m < 2 ^ 31 → Admissible remote.name → Admissible button →
      (∀ i : Nat, i ≤ m → (reportMessage remote button code i).ret = true) →
      Filtered N remote button code m := by
  intro hall
  have h := hall longNameRemote "power" 0x1f 1 0 (by decide) (by decide) (by decide +kernel)
    (by decide +kernel) (by decide +kernel)
  have hover := h.inside _ (heldDown_mem (Nat.le_refl 0))
  exact absurd hover (by decide +kernel)

end WinLirc
