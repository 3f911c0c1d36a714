/-
  File:      WinLirc/Interference.lean
  Subject:   Two remotes and one recorded frame: what trying the first leaves
             to the second.

  `receive_decode` of one remote finds three things another remote may have
  touched: the samples, the place in the buffer, and the remote that
  `last_remote` points to. The place does not matter, it rewinds
  (`receiveDecode_buf`); of the last remote it reads the tolerances and the
  remaining gaps, which no trial changes (`receiveDecode_last`). The samples
  stay as long as no serial field is spelled on the line with a rest of space
  behind its last stop time (`LeavesIdle`): that is what `get_data` pushes back.
-/
import WinLirc.Moves
import WinLirc.Command
import WinLirc.LeadingGap
import WinLirc.SerialField

namespace WinLirc

/-! ## 1. What a trial leaves of the recorded samples -/

/-- Nothing more is recorded, and nothing recorded is changed. -/
def Untouched (b b' : Rbuf) : Prop :=
  (b.input = [] → b'.data = b.data ∧ b'.input = []) ∧ b'.decoded = b.decoded

theorem moves_untouched : Moves Untouched where
  trans := by
    rintro a b c ⟨h1, h2⟩ ⟨h3, h4⟩
    refine ⟨fun hin => ?_, h4.trans h2⟩
    obtain ⟨hd, hi⟩ := h1 hin
    obtain ⟨hd', hi'⟩ := h3 hi
    exact ⟨hd'.trans hd, hi'⟩
  read := by
    intro maxusec b
    unfold getNextRecBuffer
    split
    · exact ⟨fun hin => ⟨rfl, hin⟩, rfl⟩
    · split
      · cases hi : b.input with
        | nil => exact ⟨fun _ => ⟨rfl, hi⟩, rfl⟩
        | cons x rest =>
          have hnot : b.input ≠ [] := by
            rw [hi]
            exact List.cons_ne_nil x rest
          dsimp only
          split
          · exact ⟨fun hin => absurd hin hnot, rfl⟩
          · exact ⟨fun hin => absurd hin hnot, rfl⟩
      · exact ⟨fun hin => ⟨rfl, hin⟩, rfl⟩
  move := fun hd hi hc => ⟨fun hin => ⟨hd, hi.trans hin⟩, hc⟩

/-! ## 2. What the second trial reads -/

/-- The place in the buffer, the pending parts and the sum do not matter. -/
theorem receiveDecode_buf {env : DecodeEnv} (fuel : Nat) (remote : IrRemote) {b c : Rbuf}
    (hmode : isSampleMode env.recMode = true ∨ env.recMode = LIRC_MODE_LIRCCODE)
    (hdata : c.data = b.data) (hinput : c.input = b.input) (hdecoded : c.decoded = b.decoded) :
    (receiveDecode fuel env remote c).map (·.1) = (receiveDecode fuel env remote b).map (·.1) := by
  unfold receiveDecode
  split
  · have hfront : decodeFront env remote c = decodeFront env remote b := by
      unfold decodeFront rewindRecBuffer
      rw [hdata, hinput, hdecoded]
    rw [hfront]
  · next hsample =>
    have hcode : env.recMode = LIRC_MODE_LIRCCODE := hmode.resolve_left hsample
    unfold decodeRest
    rw [if_pos hcode, if_pos hcode]
    split
    · rfl
    · split
      · rfl
      · unfold splitDecoded
        rw [hdecoded]
        rfl

/-- What `sync_rec_buffer` reads of the remote decoded last. -/
theorem syncLoop_last {last last' : IrRemote} (h : Tuned last last') (n : Nat) (deltas : Int)
    (b : Rbuf) : syncLoop last' n deltas b = syncLoop last n deltas b := by
  have hleast : ∀ d, expectAtLeast last' d last'.minRemainingGap =
      expectAtLeast last d last.minRemainingGap := by
    intro d
    rw [h.rest]
    rfl
  induction n generalizing deltas b with
  | zero => rw [syncLoop, syncLoop, hleast]
  | succ n ih =>
    rw [syncLoop, syncLoop, hleast]
    dsimp only
    rw [ih]

/-- The remote decoded last, before and after another was tried. -/
def LastTuned : Option IrRemote → Option IrRemote → Prop
  | some last, some last' => Tuned last last'
  | none, none => True
  | _, _ => False

theorem syncRecBuffer_last {l l' : Option IrRemote} (h : LastTuned l l') (remote : IrRemote)
    (b : Rbuf) : syncRecBuffer l' remote b = syncRecBuffer l remote b := by
  cases l with
  | none =>
    cases l' with
    | none => rfl
    | some last' => exact h.elim
  | some last =>
    cases l' with
    | none => exact h.elim
    | some last' =>
      have ht : Tuned last last' := h
      have hmost : ∀ d, expectAtMost last' d last'.maxRemainingGap =
          expectAtMost last d last.maxRemainingGap := by
        intro d
        rw [ht.rest]
        rfl
      unfold syncRecBuffer
      generalize getNextSpace 1000000 b = x
      obtain ⟨deltas, b1⟩ := x
      have hloop := syncLoop_last ht REC_SYNC deltas b1
      dsimp only
      generalize syncLoop last' REC_SYNC deltas b1 = y at hloop ⊢
      rw [← hloop]
      simp only [hmost]

theorem decodeRaw_last {env : DecodeEnv} {l' : Option IrRemote} (h : LastTuned env.lastRemote l')
    (codes : List IrNcode) (remote : IrRemote) (b : Rbuf) :
    decodeRaw { env with lastRemote := l' } codes remote b = decodeRaw env codes remote b := by
  induction codes generalizing remote b with
  | nil => rfl
  | cons c codes ih =>
    rw [decodeRaw, decodeRaw]
    simp only [syncRecBuffer_last h, ih]

theorem decodeRest_last {env : DecodeEnv} {l' : Option IrRemote} (h : LastTuned env.lastRemote l')
    (fuel : Nat) (sync : Int) (header : Bool) (remote : IrRemote) (b : Rbuf) :
    decodeRest fuel { env with lastRemote := l' } sync header remote b =
      decodeRest fuel env sync header remote b := by
  unfold decodeRest
  rw [decodeRaw_last h]
  rfl

/-- **Of the remote decoded last** only what no trial changes is read. -/
theorem receiveDecode_last (env : DecodeEnv) {l' : Option IrRemote}
    (h : LastTuned env.lastRemote l') (fuel : Nat) (remote : IrRemote) (b : Rbuf) :
    receiveDecode fuel { env with lastRemote := l' } remote b = receiveDecode fuel env remote b := by
  have hfront : decodeFront { env with lastRemote := l' } remote b = decodeFront env remote b := by
    unfold decodeFront
    dsimp only
    simp only [syncRecBuffer_last h]
  unfold receiveDecode
  rw [hfront]
  simp only [decodeRest_last h]

/-! ## 3. What a rewritten sample leaves -/

theorem Tuned.hasPre {a b : IrRemote} (h : Tuned a b) : WinLirc.hasPre b = WinLirc.hasPre a := by
  rw [h.rest]
  rfl

theorem Tuned.hasPost {a b : IrRemote} (h : Tuned a b) : WinLirc.hasPost b = WinLirc.hasPost a := by
  rw [h.rest]
  rfl

theorem Untouched.data_ne {b b1 b2 : Rbuf} (h : Untouched b1 b2) (hin : b1.input = [])
    (hne : b1.data ≠ b.data) : b2.data ≠ b.data := by
  rw [(h.1 hin).1]
  exact hne

/-- The samples after a call before a field that leaves a rest. -/
theorem dataCall_rewrites {fuel : Nat} {c : DataCall} (hidle : c.LeavesIdle c.buf.data)
    (howed : 0 ≤ c.buf.pendings) (hin : c.buf.input = []) {y : IrCode × IrRemote × Rbuf}
    (hrun : c.run fuel = some y) : y.2.2.input = [] ∧ y.2.2.data ≠ c.buf.data := by
  have hc := rewrites_of_leavesIdle hin howed hidle hrun
  unfold DataCall.rewrites serialBranch at hc
  rw [Bool.and_eq_true, Bool.and_eq_true, Bool.and_eq_true, Bool.not_eq_true', Bool.not_eq_true']
    at hc
  obtain ⟨⟨⟨hrcmm, hgrundig⟩, hserial⟩, hpush⟩ := hc
  unfold DataCall.run getData at hrun
  rw [hrcmm, hgrundig, if_neg Bool.false_ne_true, if_neg Bool.false_ne_true, if_pos hserial] at hrun
  obtain ⟨⟨code, b2⟩, hget, rfl⟩ := Option.map_eq_some_iff.mp hrun
  have hloop := moves_serialLoop moves_untouched c.remote (serialConfig c.remote c.bits) fuel
    { space := (setPendingPulse (serialConfig c.remote c.bits).base c.buf).pendingp == 0,
      buf := setPendingPulse (serialConfig c.remote c.bits).base c.buf }
  unfold pushesBack at hpush
  unfold getSerial at hget
  dsimp only at hpush hget hloop ⊢
  split at hpush
  · next s he =>
    rw [he] at hget
    rw [Bool.and_eq_true, bne_iff_ne, bne_iff_ne] at hpush
    obtain ⟨hgap, hdata⟩ := hpush
    dsimp only at hget
    rw [if_pos hgap] at hget
    obtain ⟨rfl, rfl⟩ := Prod.mk.inj (Option.some.inj hget)
    obtain ⟨hsame, hempty⟩ := (hloop _ he).1 hin
    refine ⟨hempty, fun h => hdata ?_⟩
    exact Eq.trans h hsame.symm
  · exact nomatch hpush

/-- A frame without pre data and post data: one call of `get_data`. -/
theorem decodeFrame_rewrites {fuel : Nat} {header : Bool} {remote : IrRemote} {b : Rbuf}
    (hpre : hasPre remote = false) (hpost : hasPost remote = false) (hin : b.input = [])
    {c : DataCall} (hc : c ∈ frameCalls fuel remote b) (hidle : c.LeavesIdle b.data)
    (howed : 0 ≤ c.buf.pendings) {y : Option (IrCode × IrCode × IrCode) × IrRemote × Rbuf}
    (hframe : decodeFrame fuel header remote b = some y) : y.2.2.data ≠ b.data := by
  have hlead := moves_getLead moves_untouched remote b
  unfold frameCalls at hc
  unfold decodeFrame at hframe
  split at hc
  · exact absurd hc List.not_mem_nil
  · next b1 he =>
    rw [he] at hlead hframe
    obtain ⟨hdata, hin1⟩ := hlead.1 hin
    dsimp only at hdata hin1 hframe
    rw [hpre, if_neg Bool.false_ne_true] at hc hframe
    dsimp only at hframe
    rw [if_neg (by rw [hpre]; exact fun h => Bool.false_ne_true h.1)] at hframe
    have hcall : c = codeCall remote b1 := by
      unfold codeCalls at hc
      rcases List.mem_cons.mp hc with hc | hc
      · exact hc
      · split at hc
        · exact absurd hc List.not_mem_nil
        · next code r b2 hrun =>
          have ht : Tuned remote r := getData_keeps fuel remote _ _ b1 _ hrun
          rw [ht.hasPost, hpost, if_neg Bool.false_ne_true, ite_self] at hc
          exact absurd hc List.not_mem_nil
    subst hcall
    split at hframe
    · exact absurd hframe.symm (Option.some_ne_none _)
    · next code r b2 hrun =>
      rw [← hdata] at hidle
      obtain ⟨hin2, hne⟩ := dataCall_rewrites hidle howed hin1 hrun
      have hne : b2.data ≠ b.data := by
        rw [← hdata]
        exact hne
      have ht : Tuned remote r := getData_keeps fuel remote _ _ b1 _ hrun
      split at hframe
      · obtain rfl := Option.some.inj hframe
        exact hne
      · have hpost' : WinLirc.hasPost r = false := ht.hasPost.trans hpost
        rw [hpost', if_neg Bool.false_ne_true] at hframe
        dsimp only at hframe
        rw [if_neg (by rw [hpost']; exact fun h => Bool.false_ne_true h.1)] at hframe
        have htail := moves_tail moves_untouched header r (0, code, 0) b2 y hframe
        exact htail.data_ne hin2 hne

/-- The samples after the trial of a remote without pre and post data, a call
    of `get_data` of which finds a field that leaves a rest. -/
theorem receiveDecode_rewrites {fuel : Nat} {env : DecodeEnv} {remote : IrRemote} {b : Rbuf}
    (hmode : isSampleMode env.recMode = true ∨ env.recMode = LIRC_MODE_LIRCCODE)
    (hpre : hasPre remote = false) (hpost : hasPost remote = false) (hin : b.input = [])
    {c : DataCall} (hc : c ∈ dataCalls fuel env remote b) (hidle : c.LeavesIdle b.data)
    {y : Option Decoded × IrRemote × Rbuf} (hrun : receiveDecode fuel env remote b = some y) :
    y.2.2.data ≠ b.data := by
  obtain ⟨-, state, code, hserial⟩ := dataCalls_serial hmode hc ((serialBranch_iff _).mpr hidle.1)
  have howed := hserial.debt
  have hrest : ∀ (sync : Int) (header : Bool) (r : IrRemote) (b1 : Rbuf), Tuned remote r →
      b1.input = [] → b1.data = b.data → c ∈ restCalls fuel env r b1 →
      ∀ y, decodeRest fuel env sync header r b1 = some y → y.2.2.data ≠ b.data := by
    intro sync header r b1 ht hin hdata hc y hy
    rw [← hdata] at hidle ⊢
    unfold restCalls at hc
    split at hc
    · exact absurd hc List.not_mem_nil
    · next hcond =>
      obtain ⟨hraw, hmode⟩ := not_or.mp hcond
      unfold decodeRest at hy
      rw [if_neg hraw, if_neg hmode] at hy
      split at hy
      · exact nomatch hy
      · next he =>
        obtain rfl := Option.some.inj hy
        exact decodeFrame_rewrites (ht.hasPre.trans hpre) (ht.hasPost.trans hpost) hin hc hidle howed
          he
      · next he =>
        obtain rfl := Option.some.inj hy
        exact decodeFrame_rewrites (ht.hasPre.trans hpre) (ht.hasPost.trans hpost) hin hc hidle howed
          he
  unfold dataCalls at hc
  unfold receiveDecode at hrun
  split at hc
  · next hmode =>
    have hfront := moves_decodeFront moves_untouched env remote b
    have ht := decodeFront_tuned env remote b
    rw [if_pos hmode] at hrun
    split at hc
    · next sync header r b1 he =>
      rw [he] at hfront ht hrun
      obtain ⟨hdata, hin1⟩ := hfront.1 hin
      dsimp only at hdata hin1 hrun
      exact hrest sync header r b1 ht hin1 hdata hc y hrun
    · exact absurd hc List.not_mem_nil
  · next hmode =>
    rw [if_neg hmode] at hrun
    exact hrest 0 false remote b (.refl remote) hin rfl hc y hrun

/-- The data of the remote follow the leading gap. -/
structure DataFirst (remote : IrRemote) : Prop where
  header : hasHeader remote = false
  noRepeat : hasRepeat remote = false
  lead : remote.plead = 0
  pre : hasPre remote = false
  post : hasPost remote = false

/-- **The call of `get_data`** of such a serial remote, behind the leading gap. -/
theorem dataCalls_first {fuel : Nat} {env : DecodeEnv} {remote : IrRemote} {b : Rbuf}
    (hmode : isSampleMode env.recMode = true) (hserial : isSerial remote = true)
    (hfirst : DataFirst remote) (hin : b.input = []) :
    (afterGap env.lastRemote b.data = none → dataCalls fuel env remote b = []) ∧
    ∀ gap rest, afterGap env.lastRemote b.data = some (gap, rest) → ∃ state code b1,
      dataCalls fuel env remote b =
        [codeCall { remote with toggleMaskState := state, toggleCode := code } b1] ∧
      b1.pendings = 0 ∧ b1.rptr = b.data.length - rest.length := by
  have hsamples : b.samples = b.data := by
    unfold Rbuf.samples
    rw [hin, List.take_nil, List.append_nil]
  have hstart : Reading [] b.data 0 { rewindRecBuffer b with isBiphase := isBiphase remote } := by
    have h := reading_rewind (b := b) (by rw [hin]; exact List.not_mem_nil)
    rw [hsamples] at h
    exact { h with samples := h.samples }
  have hprotocol : protocol remote = SERIAL := beq_iff_eq.mp hserial
  obtain ⟨hraw, -, hrcmm, -⟩ := protocol_cases remote SERIAL hprotocol
  have hrcmm : isRcmm remote = false := by
    rw [hrcmm]
    decide
  have hraw : isRaw remote = false := by
    rw [hraw]
    decide
  obtain ⟨hnone, hsome⟩ := @Reading.syncRecBuffer env.lastRemote _ hrcmm _ _ hstart
  obtain ⟨-, state, code, hremote⟩ := syncRecBuffer_debt
    (b := { rewindRecBuffer b with isBiphase := isBiphase remote }) env.lastRemote remote
    (Int.le_refl 0)
  unfold dataCalls decodeFront
  rw [if_pos hmode]
  dsimp only
  generalize syncRecBuffer env.lastRemote remote
    { rewindRecBuffer b with isBiphase := isBiphase remote } = x at hnone hsome hremote
  obtain ⟨sync, r, b1⟩ := x
  dsimp only at hnone hsome hremote ⊢
  subst hremote
  constructor
  · intro hgap
    rw [if_pos (hnone hgap)]
  · intro gap rest hgap
    obtain ⟨rfl, lead, hread, hall⟩ := hsome gap rest hgap
    refine ⟨state, code, b1, ?_, hread.pendings, ?_⟩
    · have hnoRepeat : hasRepeat { remote with toggleMaskState := state, toggleCode := code } = false :=
        hfirst.noRepeat
      have hnoHeader : hasHeader { remote with toggleMaskState := state, toggleCode := code } = false :=
        hfirst.header
      have hnoPre : hasPre { remote with toggleMaskState := state, toggleCode := code } = false :=
        hfirst.pre
      have hnoPost : hasPost { remote with toggleMaskState := state, toggleCode := code } = false :=
        hfirst.post
      have hnotRaw : ¬ (isRaw { remote with toggleMaskState := state, toggleCode := code } = true ∨
          env.recMode = LIRC_MODE_LIRCCODE) := by
        rintro (h | h)
        · have hfalse : isRaw remote = true := h
          rw [hraw] at hfalse
          exact Bool.false_ne_true hfalse
        · rw [h] at hmode
          revert hmode
          decide
      rw [if_neg (afterGap_ne hgap), hnoRepeat, Bool.false_and, if_neg Bool.false_ne_true]
      unfold frontHeader
      rw [hnoHeader, if_neg Bool.false_ne_true]
      dsimp only
      unfold restCalls
      rw [if_neg hnotRaw]
      unfold frameCalls getLead
      rw [if_pos hfirst.lead]
      dsimp only
      rw [hnoPre, if_neg Bool.false_ne_true]
      unfold codeCalls
      congr 1
      split
      · rfl
      · next code' r2 b2 hrun =>
        have ht := getData_keeps fuel { remote with toggleMaskState := state, toggleCode := code }
          _ _ b1 _ hrun
        rw [ht.hasPost, hnoPost, if_neg Bool.false_ne_true, ite_self]
    · have hlen := congrArg List.length hall
      rw [List.length_append] at hlen
      rw [hread.rptr]
      omega

/-! ## 4. Two trials of one frame -/

/-- A frame is recorded: no further samples arrive, and the receiver is one of
    samples or of codes. -/
structure FrameRecorded (w : World) : Prop where
  ended : w.buf.input = []
  mode : isSampleMode w.recMode = true ∨ w.recMode = LIRC_MODE_LIRCCODE

/-- The world after the frame was tried on remote `i`. -/
def World.tried (w : World) (fuel : Nat) (now : MyTimeval) (i : Nat) : Option World :=
  match w.remotes[i]? with
  | none => none
  | some remote =>
    (receiveDecode fuel (w.env now i) remote w.buf).map fun (_, remote, b) =>
      { w.setRemote i remote with buf := b }

/-- The calls of `get_data` of this trial. -/
def World.calls (w : World) (fuel : Nat) (now : MyTimeval) (i : Nat) : List DataCall :=
  match w.remotes[i]? with
  | none => []
  | some remote => dataCalls fuel (w.env now i) remote w.buf

/-- What `receive_decode` answers for remote `j`. -/
def World.outcome (w : World) (fuel : Nat) (now : MyTimeval) (j : Nat) : Option (Option Decoded) :=
  match w.remotes[j]? with
  | none => none
  | some remote => (receiveDecode fuel (w.env now j) remote w.buf).map (·.1)

/-- From the world `w` to `w'` the samples are the same, and so is the outcome
    for every remote but `i`. -/
def Apart (w w' : World) (i : Nat) : Prop :=
  w'.buf.data = w.buf.data ∧
    ∀ j, j ≠ i → ∀ fuel now, w'.outcome fuel now j = w.outcome fuel now j

theorem tried_inv {w w' : World} {fuel : Nat} {now : MyTimeval} {i : Nat}
    (h : w.tried fuel now i = some w') : ∃ a r a' b', w.remotes[i]? = some a ∧
      receiveDecode fuel (w.env now i) a w.buf = some (r, a', b') ∧
      w' = { w.setRemote i a' with buf := b' } := by
  unfold World.tried at h
  cases ha : w.remotes[i]? with
  | none =>
    rw [ha] at h
    exact nomatch h
  | some a =>
    rw [ha] at h
    obtain ⟨⟨r, a', b'⟩, hrun, rfl⟩ := Option.map_eq_some_iff.mp h
    exact ⟨a, r, a', b', rfl, hrun, rfl⟩

/-- The remote decoded last, after another was tried. -/
theorem lastTuned_set {w : World} {i : Nat} {a a' : IrRemote} (ha : w.remotes[i]? = some a)
    (ht : Tuned a a') :
    LastTuned (w.lastRemote.bind fun k => w.remotes[k]?)
      (w.lastRemote.bind fun k => (w.remotes.set i a')[k]?) := by
  cases w.lastRemote with
  | none => trivial
  | some k =>
    simp only [Option.bind_some]
    rw [List.getElem?_set]
    split
    · next hik =>
      subst hik
      rw [ha]
      have hlt : i < w.remotes.length := (List.getElem?_eq_some_iff.mp ha).1
      rw [if_pos hlt]
      exact ht
    · cases w.remotes[k]? with
      | none => trivial
      | some last => exact .refl last

/-- Same samples, same outcome. -/
theorem outcome_tried {w : World} (hw : FrameRecorded w) {i j : Nat} (hij : j ≠ i)
    {a a' : IrRemote} {b' : Rbuf} (ha : w.remotes[i]? = some a) (ht : Tuned a a')
    (hdata : b'.data = w.buf.data) (hinput : b'.input = w.buf.input)
    (hdecoded : b'.decoded = w.buf.decoded) (fuel : Nat) (now : MyTimeval) :
    World.outcome { w.setRemote i a' with buf := b' } fuel now j = w.outcome fuel now j := by
  have hremote : (w.remotes.set i a')[j]? = w.remotes[j]? := List.getElem?_set_ne hij.symm
  unfold World.outcome World.setRemote
  dsimp only
  rw [hremote]
  cases w.remotes[j]? with
  | none => rfl
  | some remote =>
    dsimp only
    have henv := receiveDecode_last (w.env now j) (lastTuned_set ha ht) fuel remote b'
    refine (congrArg (Option.map (·.1)) henv).trans ?_
    exact receiveDecode_buf fuel remote hw.mode hdata hinput hdecoded

/-- The calls of `get_data` leave the frame alone. -/
theorem calls_quiet {fuel : Nat} {env : DecodeEnv} {remote : IrRemote} {b : Rbuf}
    (hmode : isSampleMode env.recMode = true ∨ env.recMode = LIRC_MODE_LIRCCODE) (hin : b.input = [])
    (hidle : ∀ c ∈ dataCalls fuel env remote b, ¬ c.LeavesIdle b.data) :
    ∀ c ∈ dataCalls fuel env remote b, Untouched b c.buf → c.rewrites fuel = false := by
  intro c hc hreach
  obtain ⟨hdata, hin1⟩ := hreach.1 hin
  rw [← Bool.not_eq_true]
  intro hrewrites
  have hs : serialBranch c.remote = true := (Bool.and_eq_true_iff.mp hrewrites).1
  obtain ⟨-, state, code, hserial⟩ := dataCalls_serial hmode hc hs
  have h := leavesIdle_of_rewrites hin1 hserial.debt hrewrites
  rw [hdata] at h
  exact hidle c hc h

/-- **Trying a frame on one remote leaves it to the others as it was** when the
    line spells no field of the remote with a rest of space behind it, where
    `get_data` is called for the field; and if the remote has no pre and post
    data, only then. So too when it spells none anywhere; and for a serial
    remote without header, just when it spells none behind the leading gap. -/
theorem trial_apart (w w' : World) (fuel : Nat) (now : MyTimeval) (i : Nat) (a : IrRemote)
    (hw : FrameRecorded w) (ha : w.remotes[i]? = some a) (htried : w.tried fuel now i = some w') :
    ((∀ c ∈ w.calls fuel now i, ¬ c.LeavesIdle w.buf.data) → Apart w w' i) ∧
    (hasPre a = false → hasPost a = false → Apart w w' i →
      ∀ c ∈ w.calls fuel now i, ¬ c.LeavesIdle w.buf.data) ∧
    ((isSerial a = true → ∀ bits ∈ fieldWidths a, ∀ owed place,
      ¬ LeavesIdle a bits owed w.buf.data place) → Apart w w' i) ∧
    (isSerial a = true → DataFirst a → isSampleMode w.recMode = true →
      (Apart w w' i ↔ ∀ gap rest, afterGap (w.env now i).lastRemote w.buf.data = some (gap, rest) →
        ¬ LeavesIdle a a.bits 0 w.buf.data (w.buf.data.length - rest.length))) := by
  obtain ⟨a2, r, a', b', ha2, hrun, rfl⟩ := tried_inv htried
  obtain rfl : a = a2 := Option.some.inj (ha.symm.trans ha2)
  have hcalls : w.calls fuel now i = dataCalls fuel (w.env now i) a w.buf := by
    unfold World.calls
    rw [ha]
  rw [hcalls]
  have henough : (∀ c ∈ dataCalls fuel (w.env now i) a w.buf, ¬ c.LeavesIdle w.buf.data) →
      Apart w { w.setRemote i a' with buf := b' } i := by
    intro hidle
    have huntouched := moves_receiveDecode moves_untouched fuel (w.env now i) a w.buf
      (calls_quiet hw.mode hw.ended hidle) _ hrun
    obtain ⟨hdata, hempty⟩ := huntouched.1 hw.ended
    have ht : Tuned a a' := receiveDecode_tuned fuel (w.env now i) a w.buf _ hrun
    refine ⟨hdata, fun j hij fuel' now' => ?_⟩
    exact outcome_tried hw hij ha ht hdata (hempty.trans hw.ended.symm) huntouched.2 fuel' now'
  have hneeded : hasPre a = false → hasPost a = false → Apart w { w.setRemote i a' with buf := b' } i →
      ∀ c ∈ dataCalls fuel (w.env now i) a w.buf, ¬ c.LeavesIdle w.buf.data :=
    fun hpre hpost hapart c hc hidle =>
      receiveDecode_rewrites hw.mode hpre hpost hw.ended hc hidle hrun hapart.1
  refine ⟨henough, hneeded, fun hnone => henough fun c hc hidle => ?_, fun hserial hfirst hmode => ?_⟩
  · obtain ⟨hs, state, code, hsame, hfield, -⟩ := dataCalls_serial hw.mode hc
      ((serialBranch_iff _).mpr hidle.1)
    have hleaves := hidle.2
    rw [hsame] at hleaves
    exact hnone ((serialBranch_iff _).mp hs) _ hfield _ _ hleaves.toggled
  · obtain ⟨hno, hone⟩ := @dataCalls_first fuel (w.env now i) _ _ hmode hserial hfirst hw.ended
    constructor
    · intro hapart gap rest hgap hleaves
      obtain ⟨state, code, b1, hlist, howed, hplace⟩ := hone gap rest hgap
      have hcall := hneeded hfirst.pre hfirst.post hapart
        (codeCall { a with toggleMaskState := state, toggleCode := code } b1)
        (by rw [hlist]; exact List.mem_singleton.mpr rfl)
      refine hcall ⟨hserial, @LeavesIdle.toggled _ a.toggleMaskState a.toggleCode _ _ _ _ ?_⟩
      show LeavesIdle a a.bits b1.pendings w.buf.data b1.rptr
      rw [howed, hplace]
      exact hleaves
    · intro hquiet
      refine henough fun c hc hidle => ?_
      cases hgap : afterGap (w.env now i).lastRemote w.buf.data with
      | none =>
        rw [hno hgap] at hc
        exact absurd hc List.not_mem_nil
      | some found =>
        obtain ⟨gap, rest⟩ := found
        obtain ⟨state, code, b1, hlist, howed, hplace⟩ := hone gap rest hgap
        rw [hlist] at hc
        obtain rfl := List.mem_singleton.mp hc
        have hleaves : LeavesIdle { a with toggleMaskState := state, toggleCode := code } a.bits
            b1.pendings w.buf.data b1.rptr := hidle.2
        rw [howed, hplace] at hleaves
        exact hquiet gap rest hgap hleaves.toggled

/-- A byte as `serialRemote` sends it, and behind it `idle` microseconds of
    silence. -/
def serialFrame (idle : Int) : List Int :=
  [20000, 16778049, 833, 16781381, 833, 16778882, 833 + idle]

/-- That frame, recorded for two loaded remotes. -/
def recorded (a b : IrRemote) (idle : Int) : World :=
  { remotes := [a, b], buf := { data := serialFrame idle } }

theorem frameRecorded_recorded (a b : IrRemote) (idle : Int) : FrameRecorded (recorded a b idle) :=
  ⟨rfl, .inl rfl⟩

/-- A remote of the space encoding leaves the frame to the serial one; and so
    does a serial one where the recording ends with the stop time. -/
theorem trial_apart_quiet :
    (∃ w', (recorded plainRemote serialRemote 18100).tried 12 ⟨0, 0⟩ 0 = some w' ∧
      Apart (recorded plainRemote serialRemote 18100) w' 0) ∧
    ∃ w', (recorded serialRemote serialRemote 0).tried 12 ⟨0, 0⟩ 0 = some w' ∧
      Apart (recorded serialRemote serialRemote 0) w' 0 := by
  constructor
  · obtain ⟨w', hw'⟩ : ∃ w', (recorded plainRemote serialRemote 18100).tried 12 ⟨0, 0⟩ 0 = some w' :=
      Option.isSome_iff_exists.mp (by decide +kernel)
    exact ⟨w', hw', (trial_apart _ w' 12 ⟨0, 0⟩ 0 plainRemote (frameRecorded_recorded _ _ _) rfl
      hw').2.2.1 fun hserial => absurd hserial (by decide)⟩
  · obtain ⟨w', hw'⟩ : ∃ w', (recorded serialRemote serialRemote 0).tried 12 ⟨0, 0⟩ 0 = some w' :=
      Option.isSome_iff_exists.mp (by decide +kernel)
    have hcalls : ∀ c ∈ (recorded serialRemote serialRemote 0).calls 12 ⟨0, 0⟩ 0,
        (c.buf.input = [] ∧ 0 ≤ c.buf.pendings ∧ c.buf.data = serialFrame 0) ∧
          (c.run 12).isSome = true ∧ c.rewrites 12 = false := by
      decide +kernel
    refine ⟨w', hw', (trial_apart _ w' 12 ⟨0, 0⟩ 0 serialRemote (frameRecorded_recorded _ _ _) rfl
      hw').1 fun c hc hidle => ?_⟩
    obtain ⟨⟨hin, howed, hdata⟩, hrun, hquiet⟩ := hcalls c hc
    obtain ⟨y, hy⟩ := Option.isSome_iff_exists.mp hrun
    have hframe : (recorded serialRemote serialRemote 0).buf.data = c.buf.data := hdata.symm
    rw [hframe] at hidle
    have hrewrites := rewrites_of_leavesIdle hin howed hidle hy
    rw [hquiet] at hrewrites
    exact Bool.false_ne_true hrewrites

/-- **Two serial remotes of the same kind**: the stop bit is cut off the last
    sample, and the second one no longer decodes the frame. -/
theorem trial_serialFrame :
    ∃ w', (recorded serialRemote serialRemote 18100).tried 12 ⟨0, 0⟩ 0 = some w' ∧
      w'.buf.data = [20000, 16778049, 833, 16781381, 833, 16778882, 18100] ∧
      (∃ d, (recorded serialRemote serialRemote 18100).outcome 12 ⟨0, 0⟩ 1 = some (some d) ∧
        d.code = 0x41) ∧
      w'.outcome 12 ⟨0, 0⟩ 1 = some none ∧ ¬ Apart (recorded serialRemote serialRemote 18100) w' 0 := by
  obtain ⟨w', hw', hdata, hout⟩ : ∃ w',
      (recorded serialRemote serialRemote 18100).tried 12 ⟨0, 0⟩ 0 = some w' ∧
      w'.buf.data = [20000, 16778049, 833, 16781381, 833, 16778882, 18100] ∧
      w'.outcome 12 ⟨0, 0⟩ 1 = some none := by
    have h : ((recorded serialRemote serialRemote 18100).tried 12 ⟨0, 0⟩ 0).map
        (fun w' => (w'.buf.data, w'.outcome 12 ⟨0, 0⟩ 1)) =
        some ([20000, 16778049, 833, 16781381, 833, 16778882, 18100], some none) := by
      decide +kernel
    obtain ⟨w', hw', he⟩ := Option.map_eq_some_iff.mp h
    exact ⟨w', hw', congrArg (·.1) he, congrArg (·.2) he⟩
  refine ⟨w', hw', hdata, ?_, hout, fun h => ?_⟩
  · have h : ((recorded serialRemote serialRemote 18100).outcome 12 ⟨0, 0⟩ 1).map
        (Option.map (·.code)) = some (some 0x41) := by
      decide +kernel
    obtain ⟨d, hd, hsome⟩ := Option.map_eq_some_iff.mp h
    obtain ⟨d', rfl, hcode⟩ := Option.map_eq_some_iff.mp hsome
    exact ⟨d', hd, hcode⟩
  · have hsame := h.1
    rw [hdata] at hsame
    exact absurd hsame (by decide)

end WinLirc
