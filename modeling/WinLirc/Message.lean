/-
  File:      WinLirc/Message.lean
  Subject:   The message that `decodeCommand` leaves in its buffer.

  `write_message` goes through `_snprintf`, which writes no NUL if the text
  fills the buffer and answers -1 if it is longer.
  `decodeCommand_message`: the message is written as a whole, or the call
  answers false, exactly for messages that are not longer than the buffer.
-/
import WinLirc.Daemon
import WinLirc.Repeats

namespace WinLirc

/-- The buffer holds `message` with its NUL, or the call answers false. -/
def AllOrNothing (o : Outcome) (message : List Char) : Prop :=
  (o.ret = true ∧ o.out = some (message ++ ['\x00'])) ∨ o.ret = false

section Report

variable {remote : IrRemote} {button : String} {code : IrCode} {reps : Int}

/-- **A message is whole or not reported** exactly if it is not longer than the
    buffer. -/
theorem reportMessage_allOrNothing :
    AllOrNothing (reportMessage remote button code reps) (messageText remote.name button "" code reps) ↔
      (messageText remote.name button "" code reps).length ≤ PACKET_SIZE + 1 := by
  rcases Nat.lt_trichotomy (messageText remote.name button "" code reps).length (PACKET_SIZE + 1) with
    hlt | heq | hgt
  · rw [reportMessage_fits (Nat.le_of_lt_succ hlt)]
    exact iff_of_true (.inl ⟨rfl, rfl⟩) (Nat.le_of_lt hlt)
  · exact iff_of_true (.inr (reportMessage_exact heq)) (Nat.le_of_eq heq)
  · rw [reportMessage_cut hgt]
    refine iff_of_false ?_ (Nat.not_le_of_gt hgt)
    rintro (⟨-, hout⟩ | hret)
    · have hlen := congrArg List.length (Option.some.inj hout)
      rw [List.length_take, List.length_append, List.length_singleton] at hlen
      omega
    · exact Bool.noConfusion hret

end Report

/-! ## The message of a call -/

/-- The message for the remote that accepts a frame with its code `found`. -/
def acceptedMessage (now : MyTimeval) (w : World) (a : Accept) (found : IrNcode) : List Char :=
  let (code, remote) :=
    setCode now (w.lastDecoded == some a.index) a.remote a.key found a.toggleBits a.frame
  messageText a.remote.name found.name "" code (remote.reps - (if found.next = [] then 0 else 1))

theorem clearCurrent_name (remote : IrRemote) (i : Nat) :
    ((clearCurrent remote).codes[i]?).map (·.name) = (remote.codes[i]?).map (·.name) := by
  unfold clearCurrent
  rw [List.getElem?_map, Option.map_map]
  rfl

theorem reportMessage_clearCurrent (remote : IrRemote) (button : String) (code : IrCode) (reps : Int) :
    reportMessage (clearCurrent remote) button code reps = reportMessage remote button code reps := by
  unfold reportMessage
  have hname : (clearCurrent remote).name = remote.name := rfl
  rw [hname]

theorem setCode_codes (now : MyTimeval) (sameDecoded : Bool) (remote : IrRemote) (i : Nat)
    (found : IrNcode) (t : IrCode) (d : Decoded) :
    (setCode now sameDecoded remote i found t d).2.codes = remote.codes :=
  congrArg (·.codes) (setCode_rest now sameDecoded remote i found t d)

/-- The entry that `get_code` answered is the last code from then on, if no
    sequence is under way. -/
theorem setCode_lastCode (now : MyTimeval) (sameDecoded : Bool) (remote : IrRemote) (i : Nat)
    {found : IrNcode} (t : IrCode) (d : Decoded) (h : found.current = []) :
    (setCode now sameDecoded remote i found t d).2.lastCode = some i := by
  unfold setCode
  dsimp only
  rw [if_pos h]

/-- What is reported names the code that was found. -/
theorem reportCode_found {w : World} {k i : Nat} {found : IrNcode} {code : IrCode} {remote : IrRemote}
    (hfound : remote.codes[i]? = some found) (hlast : found.current = [] → remote.lastCode = some i) :
    (reportCode w k i found code remote).1 = .nothing ∨
      (reportCode w k i found code remote).1 =
        reportMessage remote found.name code (remote.reps - (if found.next = [] then 0 else 1)) := by
  unfold reportCode
  split
  · exact .inl rfl
  · next h =>
    have hcurrent : found.current = [] := by
      by_contra hne
      exact h (by rw [bne_iff_ne.mpr hne, Bool.or_true])
    have hlast' : (clearCurrent remote).lastCode = some i := hlast hcurrent
    dsimp only
    rw [hlast', Option.getD_some, clearCurrent_name, hfound, Option.map_some, Option.getD_some,
      reportMessage_clearCurrent]
    exact .inr rfl

/-- **What `decodeCommand` leaves in the buffer**: it answers false, or reports the
    remote that accepts the frame; what it reports is whole or not reported
    exactly if the message is not longer than the buffer. -/
theorem decodeCommand_message (fuel : Nat) (now : MyTimeval) (w w' : World) (o : Outcome)
    (h : decodeCommand fuel now w = some (o, w')) :
    o = .nothing ∨ ∃ a found, acceptOf fuel now w = some a ∧ a.remote.codes[a.key]? = some found ∧
      (AllOrNothing o (acceptedMessage now w a found) ↔
        (acceptedMessage now w a found).length ≤ PACKET_SIZE + 1) := by
  rcases decodeCommand_cases h with ⟨w1, -, -, ho, -⟩ | ⟨a, w1, found, hfind, hpass, -, hfound, he⟩
  · exact .inl ho
  have hacc : acceptOf fuel now w = some a := by
    rw [acceptOf, hfind]
    rfl
  have hcodes := setCode_codes now (w.lastDecoded == some a.index) a.remote a.key found a.toggleBits a.frame
  have hlast := fun hcurrent : found.current = [] =>
    setCode_lastCode now (w.lastDecoded == some a.index) a.remote a.key a.toggleBits a.frame hcurrent
  have hname : (setCode now (w.lastDecoded == some a.index) a.remote a.key found a.toggleBits
      a.frame).2.name = a.remote.name :=
    congrArg (·.name) (setCode_rest now (w.lastDecoded == some a.index) a.remote a.key found
      a.toggleBits a.frame)
  have ho := congrArg Prod.fst he
  unfold acceptFrame at ho
  rw [hpass.lastDecoded] at ho
  dsimp only at ho
  rcases reportCode_found (w := { w1 with lastRemote := some a.index, lastDecoded := some a.index })
      (k := a.index) (hcodes ▸ hfound) hlast with hnone | hreport
  · exact .inl (ho.trans hnone)
  · refine .inr ⟨a, found, hacc, hfound, ?_⟩
    rw [ho.trans hreport]
    unfold acceptedMessage
    dsimp only
    rw [← hname]
    exact reportMessage_allOrNothing

/-- A remote whose name has `n` letters, and a frame of its only code. -/
def longWorld (n : Nat) : World where
  remotes := [{ volumeRemote with
    name := String.ofList (List.replicate n 'a'), codes := [{ name := "MUTE", code := 3 }] }]
  buf := (volumeFrame 0 100000 1500 1500).buf

theorem longWorld_outcome : (decodeCommand 0 ⟨0, 0⟩ (longWorld 4)).map (fun x => x.1) =
    some ⟨true, some ("0000000000000003 00 MUTE aaaa\n\x00".toList)⟩ := by decide +kernel

theorem decodeCommand_message_short : ∃ o w', decodeCommand 0 ⟨0, 0⟩ (longWorld 4) = some (o, w') ∧
    ∃ a found, acceptOf 0 ⟨0, 0⟩ (longWorld 4) = some a ∧ a.remote.codes[a.key]? = some found ∧
      (AllOrNothing o (acceptedMessage ⟨0, 0⟩ (longWorld 4) a found) ↔
        (acceptedMessage ⟨0, 0⟩ (longWorld 4) a found).length ≤ PACKET_SIZE + 1) := by
  obtain ⟨⟨o, w'⟩, hcall, ho⟩ := Option.map_eq_some_iff.mp longWorld_outcome
  refine ⟨o, w', hcall, ?_⟩
  rcases decodeCommand_message 0 ⟨0, 0⟩ (longWorld 4) w' o hcall with hnone | hreport
  · rw [show o = _ from ho] at hnone
    exact absurd hnone (by decide)
  · exact hreport

/-- **A name of 240 letters**: the call answers true, and there is no NUL in the
    buffer. -/
theorem decodeCommand_message_cut : ∃ o w' text,
    decodeCommand 0 ⟨0, 0⟩ (longWorld 240) = some (o, w') ∧ o.ret = true ∧ o.out = some text ∧
      '\x00' ∉ text ∧ ∀ message, ¬ AllOrNothing o message := by
  have hcut : (decodeCommand 0 ⟨0, 0⟩ (longWorld 240)).map (fun x =>
      (x.1.ret, x.1.out.map fun text => decide ('\x00' ∈ text))) = some (true, some false) := by
    decide +kernel
  obtain ⟨⟨o, w'⟩, hcall, ho⟩ := Option.map_eq_some_iff.mp hcut
  obtain ⟨hret, hout⟩ := Prod.mk.inj ho
  obtain ⟨text, htext, hnul⟩ := Option.map_eq_some_iff.mp hout
  refine ⟨o, w', text, hcall, hret, htext, of_decide_eq_false hnul, fun message hall => ?_⟩
  rcases hall with ⟨-, hmessage⟩ | hfalse
  · obtain rfl := Option.some.inj (htext.symm.trans hmessage)
    exact of_decide_eq_false hnul (List.mem_append_right _ List.mem_cons_self)
  · exact Bool.noConfusion (hfalse.symm.trans hret)

end WinLirc
