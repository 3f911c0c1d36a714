/-
  File:      WinLirc/Termination.lean
  Subject:   `receive_decode` comes to an end.

  * `dataCall_ends`: a call of `get_data` ends, whatever the samples, but for a
    serial remote with bits of no time (`SerialEnds`);
  * `receiveDecode_ends`: `receive_decode` ends if its calls of `get_data` do;
  * `frameCalls_serial`: its calls find no negative pending space;
  * `receiveDecodeTable` is `receive_decode` for a remote that may have no code
    table, as `read_config` accepts a raw one: behind the header it follows a null
    pointer.
-/
import WinLirc.Moves
import WinLirc.Command
import WinLirc.ReadConfig
import WinLirc.LevelEnds
import WinLirc.Serial

namespace WinLirc

open Signal

/-! ## 1. `get_data` -/

/-- The serial branch of `get_data` ends: no byte is complete, or the bits of
    both levels end. -/
def SerialEnds (remote : IrRemote) (bits : Int) : Prop :=
  (serialConfig remote bits).bits < lineBits remote (serialConfig remote bits) ∨
    ∀ space, LevelEnds remote (serialConfig remote bits) space

theorem getSerial_ends {remote : IrRemote} {bits : Int} {b : Rbuf}
    (hbyte : 0 < remote.bitsInByte) (hends : SerialEnds remote bits) (hdebt : 0 ≤ b.pendings) :
    ∃ fuel, Ended (getSerial fuel remote bits b) := by
  obtain ⟨hbase, hstop⟩ := serialConfig_nonneg remote bits
  have hn : 0 < lineBits remote (serialConfig remote bits) := Nat.add_pos_left hbyte _
  have hloop : ∃ fuel y, serialLoop remote (serialConfig remote bits) fuel
      { space := (setPendingPulse (serialConfig remote bits).base b).pendingp == 0,
        buf := setPendingPulse (serialConfig remote bits).base b } = some y := by
    rcases hends with hshort | hends
    · exact serial_ends_short hshort _ rfl
    · exact serial_ends hn hbase hstop hends _ ⟨hbase, hdebt⟩
  obtain ⟨fuel, ⟨ok, s⟩, he⟩ := hloop
  refine ⟨fuel, ?_⟩
  unfold getSerial
  dsimp only
  rw [he]
  cases ok with
  | false => exact ended_some _
  | true => exact ended_some _

theorem getSerial_mono {fuel fuel' : Nat} (hle : fuel ≤ fuel') (remote : IrRemote) (bits : Int)
    (b : Rbuf) : Keep (getSerial fuel remote bits b) (getSerial fuel' remote bits b) := by
  intro y hy
  unfold getSerial at hy ⊢
  dsimp only at hy ⊢
  cases he : serialLoop remote (serialConfig remote bits) fuel
      { space := (setPendingPulse (serialConfig remote bits).base b).pendingp == 0,
        buf := setPendingPulse (serialConfig remote bits).base b } with
  | none =>
    rw [he] at hy
    exact nomatch hy
  | some x =>
    rw [(serialLoop_fuelLoop remote (serialConfig remote bits)).mono hle he]
    rw [he] at hy
    exact hy

/-- What the end of a call rests on. -/
structure DataCall.Ok (c : DataCall) : Prop where
  byte : 0 < c.remote.bitsInByte
  ends : SerialEnds c.remote c.bits
  debt : 0 ≤ c.buf.pendings

/-- **Every call of `get_data` ends.** -/
theorem dataCall_ends {c : DataCall} (hc : serialBranch c.remote = true → c.Ok) :
    ∃ fuel, Ended (c.run fuel) := by
  unfold serialBranch at hc
  unfold DataCall.run getData
  split
  · refine ⟨0, .ite (ended_some _) ?_⟩
    split
    · exact ended_some _
    · exact ended_some _
  · next hrcmm =>
    split
    · generalize syncPendingPulse c.remote c.buf = x
      obtain ⟨ok, b1⟩ := x
      refine ⟨b1.left + 1, .ite (ended_some _) ?_⟩
      cases ok with
      | false => exact ended_some _
      | true => exact (getGrundig_ends _ _ _ _ _ _ b1 (Nat.lt_succ_self _)).map _
    · next hgrundig =>
      split
      · next hserial =>
        rw [Bool.not_eq_true] at hrcmm hgrundig
        rw [hrcmm, hgrundig, hserial] at hc
        obtain ⟨hbyte, hends, hdebt⟩ := hc rfl
        obtain ⟨fuel, he⟩ := getSerial_ends hbyte hends hdebt
        exact ⟨fuel, he.map _⟩
      · refine ⟨0, .ite (ended_some _) (.ite (.ite (ended_some _) ?_) (ended_some _))⟩
        split
        · exact ended_some _
        · exact ended_some _

theorem dataCall_mono {fuel fuel' : Nat} (hle : fuel ≤ fuel') (c : DataCall) :
    Keep (c.run fuel) (c.run fuel') := by
  unfold DataCall.run getData
  refine .ite (.refl _) (.ite (.ite (.refl _) ?_) (.ite ?_ (.refl _)))
  · split
    · exact .refl _
    · exact (getGrundig_mono _ _ hle _ _ _ _).map _
  · exact (getSerial_mono hle _ _ _).map _

/-! ## 2. `receive_decode` -/

/-- One fuel is enough for a list of calls. -/
theorem calls_fuel (cs : List DataCall) (h : ∀ c ∈ cs, ∃ fuel, Ended (c.run fuel)) :
    ∃ least, ∀ fuel, least ≤ fuel → ∀ c ∈ cs, Ended (c.run fuel) := by
  induction cs with
  | nil => exact ⟨0, fun _ _ c hc => absurd hc List.not_mem_nil⟩
  | cons c cs ih =>
    obtain ⟨f1, h1⟩ := h c List.mem_cons_self
    obtain ⟨f2, h2⟩ := ih fun c' hc' => h c' (List.mem_cons_of_mem _ hc')
    refine ⟨max f1 f2, fun fuel hle c' hc' => ?_⟩
    rcases List.mem_cons.mp hc' with rfl | hc'
    · exact h1.keep (dataCall_mono (by omega) _)
    · exact h2 fuel (by omega) c' hc'

/-- More fuel, no call less. -/
theorem codeCalls_mono {fuel fuel' : Nat} (hle : fuel ≤ fuel') {remote : IrRemote} {b : Rbuf}
    {c : DataCall} (hc : c ∈ codeCalls fuel remote b) : c ∈ codeCalls fuel' remote b := by
  unfold codeCalls at hc ⊢
  rcases List.mem_cons.mp hc with rfl | hc
  · exact List.mem_cons_self
  · refine List.mem_cons_of_mem _ ?_
    cases he : (codeCall remote b).run fuel with
    | none =>
      rw [he] at hc
      exact absurd hc List.not_mem_nil
    | some y =>
      rw [dataCall_mono hle _ y he]
      rw [he] at hc
      exact hc

theorem codeCalls_fuel {remote : IrRemote} {b : Rbuf}
    (h : ∀ fuel, ∀ c ∈ codeCalls fuel remote b, ∃ fuel', Ended (c.run fuel')) :
    ∃ least, ∀ fuel, least ≤ fuel → ∀ c ∈ codeCalls fuel remote b, Ended (c.run fuel) := by
  obtain ⟨f1, y, hy⟩ := h 0 (codeCall remote b) List.mem_cons_self
  obtain ⟨f2, h2⟩ := calls_fuel (codeCalls f1 remote b) (h f1)
  refine ⟨max f1 f2, fun fuel hle => ?_⟩
  have hsame : codeCalls fuel remote b = codeCalls f1 remote b := by
    unfold codeCalls
    rw [hy, dataCall_mono (by omega) _ y hy]
  rw [hsame]
  exact h2 fuel (by omega)

theorem getPre_mono {fuel fuel' : Nat} (hle : fuel ≤ fuel') (remote : IrRemote) (b : Rbuf) :
    Keep (getPre fuel remote b) (getPre fuel' remote b) := by
  intro y hy
  unfold getPre at hy ⊢
  cases he : getData fuel remote remote.preDataBits 0 b with
  | none =>
    rw [he] at hy
    exact nomatch hy
  | some x =>
    rw [show getData fuel' remote remote.preDataBits 0 b = some x from
      dataCall_mono hle (preCall remote b) x he]
    rw [he] at hy
    exact hy

theorem getPre_ended {fuel : Nat} {remote : IrRemote} {b : Rbuf}
    (h : Ended ((preCall remote b).run fuel)) : Ended (getPre fuel remote b) := by
  obtain ⟨y, hy⟩ := h
  unfold getPre
  rw [show getData fuel remote remote.preDataBits 0 b = some y from hy]
  refine .ite (ended_some _) (.ite ?_ (ended_some _))
  split
  · exact ended_some _
  · exact ended_some _

theorem frameCalls_fuel {remote : IrRemote} {b : Rbuf}
    (h : ∀ fuel, ∀ c ∈ frameCalls fuel remote b, ∃ fuel', Ended (c.run fuel')) :
    ∃ least, ∀ fuel, least ≤ fuel → ∀ c ∈ frameCalls fuel remote b, Ended (c.run fuel) := by
  unfold frameCalls at h ⊢
  split
  · exact ⟨0, fun _ _ c hc => absurd hc List.not_mem_nil⟩
  · next b1 he =>
    rw [he] at h
    dsimp only at h
    split
    · next hp =>
      simp only [if_pos hp] at h
      obtain ⟨f1, h1⟩ := h 0 (preCall remote b1) List.mem_cons_self
      obtain ⟨⟨pre, r, b2⟩, hpre⟩ := getPre_ended h1
      have hpre' : ∀ fuel, f1 ≤ fuel → getPre fuel remote b1 = some (pre, r, b2) :=
        fun fuel hle => getPre_mono hle remote b1 _ hpre
      by_cases hfail : hasPre r ∧ pre = irFail
      · refine ⟨f1, fun fuel hle c hc => ?_⟩
        rw [hpre' fuel hle] at hc
        dsimp only at hc
        rw [if_pos hfail] at hc
        obtain rfl := List.mem_singleton.mp hc
        exact h1.keep (dataCall_mono hle _)
      · have hcode : ∀ fuel, ∀ c ∈ codeCalls fuel r b2, ∃ fuel', Ended (c.run fuel') := by
          intro fuel c hc
          -- with enough fuel for the pre data it is a call of the frame
          refine h (max fuel f1) c (List.mem_cons_of_mem _ ?_)
          rw [hpre' _ (Nat.le_max_right _ _)]
          dsimp only
          rw [if_neg hfail]
          exact codeCalls_mono (Nat.le_max_left _ _) hc
        obtain ⟨f2, h2⟩ := codeCalls_fuel hcode
        refine ⟨max f1 f2, fun fuel hle c hc => ?_⟩
        rw [hpre' fuel (by omega)] at hc
        dsimp only at hc
        rw [if_neg hfail] at hc
        rcases List.mem_cons.mp hc with rfl | hc
        · exact h1.keep (dataCall_mono (by omega) _)
        · exact h2 fuel (by omega) c hc
    · next hp =>
      simp only [if_neg hp] at h
      exact codeCalls_fuel h

/-- Where the calls end, the frame does. -/
theorem decodeFrame_ended {fuel : Nat} {remote : IrRemote} {b : Rbuf} (header : Bool)
    (h : ∀ c ∈ frameCalls fuel remote b, Ended (c.run fuel)) :
    Ended (decodeFrame fuel header remote b) := by
  unfold frameCalls at h
  unfold decodeFrame
  split
  · exact ended_some _
  · next b1 he =>
    rw [he] at h
    dsimp only at h
    have hfirst : ∃ pre r b2, (if hasPre remote then getPre fuel remote b1 else some (0, remote, b1)) =
        some (pre, r, b2) ∧ (¬ (hasPre r ∧ pre = irFail) →
          ∀ c ∈ codeCalls fuel r b2, Ended (c.run fuel)) := by
      split
      · next hp =>
        rw [if_pos hp] at h
        obtain ⟨⟨pre, r, b2⟩, hpre⟩ := getPre_ended (h _ List.mem_cons_self)
        refine ⟨pre, r, b2, hpre, fun hno c hc => h c (List.mem_cons_of_mem _ ?_)⟩
        rw [hpre]
        dsimp only
        rw [if_neg hno]
        exact hc
      · next hp =>
        rw [if_neg hp] at h
        exact ⟨0, remote, b1, rfl, fun _ => h⟩
    obtain ⟨pre, r, b2, hpre, hcalls⟩ := hfirst
    rw [hpre]
    dsimp only
    split
    · exact ended_some _
    · next hno =>
      have hcalls := hcalls hno
      obtain ⟨⟨code, r3, b3⟩, hcode⟩ := hcalls _ List.mem_cons_self
      have hdata : getData fuel r r.bits r.preDataBits b2 = some (code, r3, b3) := hcode
      rw [hdata]
      dsimp only
      split
      · exact ended_some _
      · next hne =>
        unfold codeCalls at hcalls
        rw [hcode] at hcalls
        dsimp only at hcalls
        rw [if_neg hne] at hcalls
        have hpost : Ended (if hasPost r3 then getPost fuel r3 b3 else some (0, r3, b3)) := by
          split
          · next hp =>
            rw [if_pos hp] at hcalls
            rw [getPost_eq]
            unfold postCalls at hcalls
            split
            · exact ended_some _
            · next b4 he =>
              rw [he] at hcalls
              exact hcalls _ (List.mem_cons_of_mem _ (List.mem_singleton.mpr rfl))
          · exact ended_some _
        obtain ⟨⟨post, r4, b4⟩, hpost⟩ := hpost
        rw [hpost]
        dsimp only
        split
        · exact ended_some _
        · split
          · exact ended_some _
          · split
            · exact ended_some _
            · split
              · exact ended_some _
              · exact ended_some _

/-- **`receive_decode` ends** where every call of `get_data` in it does. -/
theorem receiveDecode_ends {env : DecodeEnv} {remote : IrRemote} {b : Rbuf}
    (h : ∀ fuel, ∀ c ∈ dataCalls fuel env remote b, ∃ fuel', Ended (c.run fuel')) :
    ∃ fuel, Ended (receiveDecode fuel env remote b) := by
  have hrest : ∀ (sync : Int) (header : Bool) (r : IrRemote) (b1 : Rbuf),
      (∀ fuel, ∀ c ∈ restCalls fuel env r b1, ∃ fuel', Ended (c.run fuel')) →
      ∃ fuel, Ended (decodeRest fuel env sync header r b1) := by
    intro sync header r b1 h
    unfold restCalls at h
    unfold decodeRest
    split
    · refine ⟨0, .ite (ended_some _) ?_⟩
      split
      · exact ended_some _
      · exact ended_some _
    · next hraw =>
      split
      · exact ⟨0, .ite (ended_some _) (ended_some _)⟩
      · next hmode =>
        simp only [if_neg (not_or_intro hraw hmode)] at h
        obtain ⟨fuel, hall⟩ := frameCalls_fuel h
        obtain ⟨y, hy⟩ := decodeFrame_ended header (hall fuel (Nat.le_refl fuel))
        refine ⟨fuel, ?_⟩
        rw [hy]
        split
        · next he => exact nomatch he
        · exact ended_some _
        · exact ended_some _
  unfold dataCalls at h
  unfold receiveDecode
  split
  · next hmode =>
    simp only [if_pos hmode] at h
    split
    · exact ⟨0, ended_some _⟩
    · exact ⟨0, ended_some _⟩
    · next sync header r b1 he =>
      rw [he] at h
      exact hrest sync header r b1 h
  · next hmode =>
    simp only [if_neg hmode] at h
    exact hrest 0 false remote b h

/-! ## 3. The calls of `receive_decode` -/

section Debt

variable {b : Rbuf}

theorem unget_debt (count : Nat) (h : 0 ≤ b.pendings) : 0 ≤ (ungetRecBuffer count b).pendings := by
  unfold ungetRecBuffer
  split
  · dsimp only
    split
    · exact h
    · exact h
  · exact h

theorem getNextPulse_debt (m : Int) (h : 0 ≤ b.pendings) : 0 ≤ (getNextPulse m b).2.pendings := by
  rw [(getNextPulse_pending m b).2]
  exact h

theorem getNextSpace_debt (m : Int) (h : 0 ≤ b.pendings) : 0 ≤ (getNextSpace m b).2.pendings := by
  rw [(getNextSpace_pending m b).2]
  exact h

/-- A buffer without debt, whichever way a helper goes. -/
theorem debt_ite {α : Type} {p : Prop} [Decidable p] {x y : α × Rbuf} (hx : 0 ≤ x.2.pendings)
    (hy : 0 ≤ y.2.pendings) : 0 ≤ (if p then x else y).2.pendings := by
  split
  · exact hx
  · exact hy

theorem debt_chain {x : Bool × Rbuf} {f : Rbuf → Bool × Rbuf} (hx : 0 ≤ x.2.pendings)
    (hf : ∀ b1 : Rbuf, 0 ≤ b1.pendings → 0 ≤ (f b1).2.pendings) :
    0 ≤ (match x with | (false, b) => (false, b) | (true, b) => f b).2.pendings := by
  obtain ⟨ok, b1⟩ := x
  cases ok with
  | false => exact hx
  | true => exact hf b1 hx

theorem syncPendingPulse_debt (remote : IrRemote) (h : 0 ≤ b.pendings) :
    0 ≤ (syncPendingPulse remote b).2.pendings := by
  have hread := getNextPulse_debt b.pendingp h
  unfold syncPendingPulse
  exact debt_ite (debt_ite hread (debt_ite hread hread)) h

theorem syncPendingSpace_debt (remote : IrRemote) (h : 0 ≤ b.pendings) :
    0 ≤ (syncPendingSpace remote b).2.pendings := by
  have hread := getNextSpace_debt b.pendings h
  unfold syncPendingSpace
  exact debt_ite (debt_ite hread (debt_ite hread (Int.le_refl 0))) h

theorem expectpulse_debt (remote : IrRemote) (exdelta : Int) (h : 0 ≤ b.pendings) :
    0 ≤ (expectpulse remote exdelta b).2.pendings := by
  unfold expectpulse
  refine debt_chain (syncPendingSpace_debt remote h) fun b1 h1 => ?_
  have hread := getNextPulse_debt (b1.pendingp + exdelta) h1
  exact debt_ite hread (debt_ite (debt_ite hread (debt_ite hread hread)) hread)

theorem expectspace_debt (remote : IrRemote) (exdelta : Int) (h : 0 ≤ b.pendings) :
    0 ≤ (expectspace remote exdelta b).2.pendings := by
  unfold expectspace
  refine debt_chain (syncPendingPulse_debt remote h) fun b1 h1 => ?_
  have hread := getNextSpace_debt (b1.pendings + exdelta) h1
  exact debt_ite hread (debt_ite (debt_ite hread (debt_ite hread (Int.le_refl 0))) hread)

theorem syncLoop_debt (last : IrRemote) (n : Nat) (deltas : Int) (h : 0 ≤ b.pendings) :
    0 ≤ (syncLoop last n deltas b).2.pendings := by
  induction n generalizing deltas b with
  | zero =>
    have h1 := getNextPulse_debt 1000000 h
    have h2 := getNextSpace_debt 1000000 h1
    rw [syncLoop]
    exact debt_ite h (debt_ite h1 (debt_ite h2 h2))
  | succ n ih =>
    have h1 := getNextPulse_debt 1000000 h
    have h2 := getNextSpace_debt 1000000 h1
    have hnext := ih (getNextSpace 1000000 (getNextPulse 1000000 b).2).1 h2
    rw [syncLoop]
    dsimp only
    exact debt_ite h (debt_ite h1 (debt_ite h2 hnext))

/-- `sync_rec_buffer`: no debt, and of the remote only the toggle state. -/
theorem syncRecBuffer_debt (last : Option IrRemote) (remote : IrRemote) (h : 0 ≤ b.pendings) :
    0 ≤ (syncRecBuffer last remote b).2.2.pendings ∧
      ∃ state code, (syncRecBuffer last remote b).2.1 =
        { remote with toggleMaskState := state, toggleCode := code } := by
  have hread := getNextSpace_debt 1000000 h
  unfold syncRecBuffer
  generalize getNextSpace 1000000 b = x at hread ⊢
  obtain ⟨deltas, b1⟩ := x
  dsimp only at hread ⊢
  split
  · exact ⟨hread, _, _, rfl⟩
  · cases last with
    | none => exact ⟨hread, _, _, rfl⟩
    | some last =>
      have hloop := syncLoop_debt last REC_SYNC deltas hread
      dsimp only
      generalize syncLoop last REC_SYNC deltas b1 = y at hloop ⊢
      obtain ⟨deltas', b2⟩ := y
      dsimp only at hloop ⊢
      split
      · exact ⟨hread, _, _, rfl⟩
      · split
        · exact ⟨hloop, _, _, rfl⟩
        · refine ⟨hloop, ?_⟩
          split
          · exact ⟨_, _, rfl⟩
          · exact ⟨_, _, rfl⟩

theorem getHeader_debt {remote : IrRemote} (hshead : 0 ≤ remote.shead) (h : 0 ≤ b.pendings) :
    0 ≤ (getHeader remote b).2.pendings := by
  have hpulse := fun (d : Int) (b : Rbuf) (h : 0 ≤ b.pendings) => expectpulse_debt remote d h
  have hspace := fun (d : Int) (b : Rbuf) (h : 0 ≤ b.pendings) => expectspace_debt remote d h
  unfold getHeader
  split
  · have h1 := getNextPulse_debt remote.phead h
    have h2 := getNextSpace_debt remote.shead h1
    have h3 := unget_debt 2 h2
    exact debt_ite (unget_debt 1 h1) (debt_ite h3 (debt_ite h2 h3))
  · split
    · exact debt_chain (hpulse _ _ h) fun b1 h => debt_chain (hspace _ _ h) fun b2 h =>
        debt_chain (hpulse _ _ h) fun b3 h => debt_chain (hspace _ _ h) fun b4 h =>
        debt_chain (hpulse _ _ h) fun b5 h => hspace _ _ h
    · split
      · exact debt_chain (syncPendingSpace_debt remote h) fun b1 h => h
      · have hhead := hpulse remote.phead b h
        split
        · next b1 he =>
          rw [he] at hhead
          exact unget_debt 1 hhead
        · next b1 he =>
          rw [he] at hhead
          have hread := getNextSpace_debt remote.shead hhead
          split
          · exact debt_ite (debt_ite hread (unget_debt 2 hread)) hshead
          · exact hshead

theorem getLead_debt (remote : IrRemote) (h : 0 ≤ b.pendings) :
    0 ≤ (getLead remote b).2.pendings := by
  unfold getLead
  exact debt_ite h (debt_chain (syncPendingSpace_debt remote h) fun b1 h => h)

theorem postFront_debt (remote : IrRemote) (h : 0 ≤ b.pendings) :
    0 ≤ (postFront remote b).2.pendings := by
  unfold postFront
  split
  · next hp =>
    exact debt_chain (expectpulse_debt remote remote.postP h) fun b1 _ => Int.le_of_lt hp.2
  · exact h

theorem hasHeader_shead {remote : IrRemote} (h : hasHeader remote = true) : 0 ≤ remote.shead := by
  unfold hasHeader at h
  rw [Bool.and_eq_true, decide_eq_true_eq, decide_eq_true_eq] at h
  exact Int.le_of_lt h.2

theorem frontHeader_debt (remote : IrRemote) (sync : Int) (h : 0 ≤ b.pendings) :
    0 ≤ (frontHeader remote sync b).2.pendings := by
  unfold frontHeader
  split
  · next hh =>
    have hheader := getHeader_debt (hasHeader_shead hh) h
    split
    · next he =>
      rw [he] at hheader
      exact hheader
    · next he =>
      rw [he] at hheader
      exact debt_ite hheader hheader
  · exact h

/-- In front of the frame: no debt, and of the remote only the toggle state. -/
theorem decodeFront_debt (env : DecodeEnv) (remote : IrRemote) (b : Rbuf) {sync : Int}
    {header : Bool} {r : IrRemote} {b' : Rbuf}
    (he : decodeFront env remote b = (.frame sync header, r, b')) :
    0 ≤ b'.pendings ∧
      ∃ state code, r = { remote with toggleMaskState := state, toggleCode := code } := by
  have hsync := syncRecBuffer_debt (b := { rewindRecBuffer b with isBiphase := isBiphase remote })
    env.lastRemote remote (Int.le_refl 0)
  unfold decodeFront at he
  dsimp only at he
  generalize syncRecBuffer env.lastRemote remote
    { rewindRecBuffer b with isBiphase := isBiphase remote } = x at hsync he
  obtain ⟨sync1, r1, b1⟩ := x
  dsimp only at hsync he
  obtain ⟨hdebt, state, code, rfl⟩ := hsync
  generalize hr : ({ remote with toggleMaskState := state, toggleCode := code } : IrRemote) = r1 at he
  split at he
  · exact nomatch he
  · split at he
    · split at he
      · exact nomatch he
      · next b2 _ =>
        split at he
        · split at he
          · exact nomatch he
          · exact nomatch he
        · next b3 _ =>
          have hsync := syncRecBuffer_debt (b := rewindRecBuffer b3) env.lastRemote r1 (Int.le_refl 0)
          generalize syncRecBuffer env.lastRemote r1 (rewindRecBuffer b3) = x at hsync he
          obtain ⟨sync2, r2, b4⟩ := x
          obtain ⟨hdebt, state2, code2, hr2⟩ := hsync
          have hfront := frontHeader_debt r2 sync1 hdebt
          dsimp only at he hfront hr2
          obtain ⟨-, h2⟩ := Prod.mk.inj he
          obtain ⟨h3, h4⟩ := Prod.mk.inj h2
          rw [h4] at hfront
          exact ⟨hfront, state2, code2, by rw [← h3, hr2, ← hr]⟩
    · have hfront := frontHeader_debt r1 sync1 hdebt
      obtain ⟨-, h2⟩ := Prod.mk.inj he
      obtain ⟨h3, h4⟩ := Prod.mk.inj h2
      rw [h4] at hfront
      exact ⟨hfront, state, code, by rw [← h3, ← hr]⟩

/-- What a serial call leaves: its remote, and after a success no pending space. -/
theorem dataCall_serial {fuel : Nat} {c : DataCall} (hs : serialBranch c.remote = true) {code : IrCode}
    {r : IrRemote} (hrun : c.run fuel = some (code, r, b)) :
    r = c.remote ∧ (code ≠ irFail → b.pendings = 0) := by
  unfold serialBranch at hs
  rw [Bool.and_eq_true, Bool.and_eq_true, Bool.not_eq_true', Bool.not_eq_true'] at hs
  obtain ⟨⟨hrcmm, hgrundig⟩, hserial⟩ := hs
  unfold DataCall.run getData at hrun
  rw [hrcmm, hgrundig, if_neg Bool.false_ne_true, if_neg Bool.false_ne_true, if_pos hserial] at hrun
  obtain ⟨⟨code', b1⟩, hget, he⟩ := Option.map_eq_some_iff.mp hrun
  obtain ⟨rfl, h2⟩ := Prod.mk.inj he
  obtain ⟨rfl, rfl⟩ := Prod.mk.inj h2
  refine ⟨rfl, fun hne => ?_⟩
  unfold getSerial at hget
  dsimp only at hget
  split at hget
  · exact nomatch hget
  · obtain ⟨rfl, -⟩ := Prod.mk.inj (Option.some.inj hget)
    exact absurd rfl hne
  · obtain ⟨-, rfl⟩ := Prod.mk.inj (Option.some.inj hget)
    rfl

theorem getPre_serial {fuel : Nat} {remote : IrRemote} {b1 : Rbuf}
    (hs : serialBranch remote = true) {pre : IrCode} {r : IrRemote}
    (h : getPre fuel remote b = some (pre, r, b1)) :
    r = remote ∧ (pre ≠ irFail → 0 ≤ b1.pendings) := by
  unfold getPre at h
  cases he : getData fuel remote remote.preDataBits 0 b with
  | none =>
    rw [he] at h
    exact nomatch h
  | some x =>
    obtain ⟨code, r', b2⟩ := x
    obtain ⟨hr, hdebt⟩ := dataCall_serial (c := preCall remote b) hs he
    rw [he] at h
    dsimp only at h
    split at h
    · obtain ⟨rfl, h2⟩ := Prod.mk.inj (Option.some.inj h)
      obtain ⟨rfl, -⟩ := Prod.mk.inj h2
      exact ⟨hr, fun hne => absurd rfl hne⟩
    · next hne =>
      have hdebt := hdebt hne
      split at h
      · next hp =>
        split at h
        · obtain ⟨rfl, h2⟩ := Prod.mk.inj (Option.some.inj h)
          obtain ⟨rfl, -⟩ := Prod.mk.inj h2
          exact ⟨hr, fun hne => absurd rfl hne⟩
        · obtain ⟨-, h2⟩ := Prod.mk.inj (Option.some.inj h)
          obtain ⟨rfl, rfl⟩ := Prod.mk.inj h2
          exact ⟨hr, fun _ => Int.le_of_lt hp.2⟩
      · obtain ⟨-, h2⟩ := Prod.mk.inj (Option.some.inj h)
        obtain ⟨rfl, rfl⟩ := Prod.mk.inj h2
        exact ⟨hr, fun _ => Int.le_of_eq hdebt.symm⟩

end Debt

/-- The widths of the fields that `get_data` is called for. -/
def fieldWidths (remote : IrRemote) : List Int :=
  (if hasPre remote then [remote.preDataBits] else []) ++ remote.bits ::
    (if hasPost remote then [remote.postDataBits] else [])

theorem bits_mem_fieldWidths (remote : IrRemote) : remote.bits ∈ fieldWidths remote :=
  List.mem_append_right _ List.mem_cons_self

/-- What a call of a serial remote finds: its remote, a field of it, and no
    debt. -/
structure DataCall.Serial (remote : IrRemote) (c : DataCall) : Prop where
  same : c.remote = remote
  field : c.bits ∈ fieldWidths remote
  debt : 0 ≤ c.buf.pendings

theorem codeCalls_serial {fuel : Nat} {remote : IrRemote} {b : Rbuf} (hs : serialBranch remote = true)
    (h : 0 ≤ b.pendings) {c : DataCall} (hc : c ∈ codeCalls fuel remote b) : c.Serial remote := by
  unfold codeCalls at hc
  replace hc := List.mem_cons.mp hc
  rcases hc with rfl | hc
  · exact ⟨rfl, bits_mem_fieldWidths remote, h⟩
  · split at hc
    · exact absurd hc List.not_mem_nil
    · next code r b1 hrun =>
      obtain ⟨hr, hdebt⟩ := dataCall_serial (c := codeCall remote b) hs hrun
      obtain rfl : remote = r := hr.symm
      split at hc
      · exact absurd hc List.not_mem_nil
      · next hne =>
        split at hc
        · next hp =>
          have hfront := postFront_debt remote (Int.le_of_eq (hdebt hne).symm)
          unfold postCalls at hc
          split at hc
          · exact absurd hc List.not_mem_nil
          · next b2 he =>
            rw [he] at hfront
            obtain rfl := List.mem_singleton.mp hc
            refine ⟨rfl, List.mem_append_right _ (List.mem_cons_of_mem _ ?_), hfront⟩
            rw [if_pos hp]
            exact List.mem_singleton.mpr rfl
        · exact absurd hc List.not_mem_nil

theorem frameCalls_serial {fuel : Nat} {remote : IrRemote} {b : Rbuf} (hs : serialBranch remote = true)
    (h : 0 ≤ b.pendings) {c : DataCall} (hc : c ∈ frameCalls fuel remote b) : c.Serial remote := by
  have hlead := getLead_debt remote h
  unfold frameCalls at hc
  split at hc
  · exact absurd hc List.not_mem_nil
  · next b1 he =>
    rw [he] at hlead
    split at hc
    · next hp =>
      replace hc := List.mem_cons.mp hc
      rcases hc with rfl | hc
      · refine ⟨rfl, List.mem_append_left _ ?_, hlead⟩
        rw [if_pos hp]
        exact List.mem_singleton.mpr rfl
      · split at hc
        · exact absurd hc List.not_mem_nil
        · next pre r b2 hpre =>
          obtain ⟨hr, hdebt⟩ := getPre_serial hs hpre
          obtain rfl : remote = r := hr.symm
          split at hc
          · exact absurd hc List.not_mem_nil
          · next hno => exact codeCalls_serial hs (hdebt fun he => hno ⟨hp, he⟩) hc
    · exact codeCalls_serial hs hlead hc

/-- The calls for a frame are made for the remote, tuned. -/
theorem codeCalls_tuned {fuel : Nat} {remote : IrRemote} {b : Rbuf} {c : DataCall}
    (hc : c ∈ codeCalls fuel remote b) : Tuned remote c.remote := by
  unfold codeCalls at hc
  replace hc := List.mem_cons.mp hc
  rcases hc with rfl | hc
  · exact .refl remote
  · split at hc
    · exact absurd hc List.not_mem_nil
    · next code r b1 hrun =>
      have ht : Tuned remote r := getData_keeps fuel remote _ _ b _ hrun
      split at hc
      · exact absurd hc List.not_mem_nil
      · split at hc
        · unfold postCalls at hc
          split at hc
          · exact absurd hc List.not_mem_nil
          · obtain rfl := List.mem_singleton.mp hc
            exact ht
        · exact absurd hc List.not_mem_nil

theorem frameCalls_tuned {fuel : Nat} {remote : IrRemote} {b : Rbuf} {c : DataCall}
    (hc : c ∈ frameCalls fuel remote b) : Tuned remote c.remote := by
  unfold frameCalls at hc
  split at hc
  · exact absurd hc List.not_mem_nil
  · split at hc
    · replace hc := List.mem_cons.mp hc
      rcases hc with rfl | hc
      · exact .refl remote
      · split at hc
        · exact absurd hc List.not_mem_nil
        · next pre r b2 hpre =>
          have ht : Tuned remote r := getPre_keeps fuel remote _ _ hpre
          split at hc
          · exact absurd hc List.not_mem_nil
          · exact ht.trans (codeCalls_tuned hc)
    · exact codeCalls_tuned hc

/-! ## 4. Every remote, every source of samples -/

theorem serialBranch_iff (remote : IrRemote) : serialBranch remote = true ↔ isSerial remote = true := by
  constructor
  · intro h
    unfold serialBranch at h
    rw [Bool.and_eq_true] at h
    exact h.2
  · intro h
    have hp : protocol remote = SERIAL := beq_iff_eq.mp h
    obtain ⟨-, -, hrcmm, -, hgrundig, -, -⟩ := protocol_cases remote SERIAL hp
    unfold serialBranch
    rw [hrcmm, hgrundig, h]
    rfl

theorem serialBranch_tuned {a b : IrRemote} (h : Tuned a b) : serialBranch b = serialBranch a := by
  rw [h.rest]
  rfl

/-- **Every call of `get_data` in `receive_decode`** of a serial remote. -/
theorem dataCalls_serial {fuel : Nat} {env : DecodeEnv} {remote : IrRemote} {b : Rbuf}
    (hmode : isSampleMode env.recMode = true ∨ env.recMode = LIRC_MODE_LIRCCODE)
    {c : DataCall} (hc : c ∈ dataCalls fuel env remote b) (hs : serialBranch c.remote = true) :
    serialBranch remote = true ∧ ∃ state code,
      c.Serial { remote with toggleMaskState := state, toggleCode := code } := by
  unfold dataCalls at hc
  split at hc
  · split at hc
    · next sync header r b1 he =>
      obtain ⟨hdebt, state, code, rfl⟩ := decodeFront_debt env remote b he
      unfold restCalls at hc
      split at hc
      · exact absurd hc List.not_mem_nil
      · have hs' : serialBranch remote = true := (serialBranch_tuned (frameCalls_tuned hc)).symm.trans hs
        have hs'' : serialBranch { remote with toggleMaskState := state, toggleCode := code } = true :=
          hs'
        exact ⟨hs', state, code, frameCalls_serial hs'' hdebt hc⟩
    · exact absurd hc List.not_mem_nil
  · next hsample =>
    unfold restCalls at hc
    rw [if_pos (.inr (hmode.resolve_left hsample))] at hc
    exact absurd hc List.not_mem_nil

/-- **Every call of `get_data` in `receive_decode`** finds what its end rests on. -/
theorem dataCalls_ok {fuel : Nat} {env : DecodeEnv} {remote : IrRemote} {b : Rbuf}
    (hmode : isSampleMode env.recMode = true ∨ env.recMode = LIRC_MODE_LIRCCODE)
    (hserial : serialBranch remote = true →
      0 < remote.bitsInByte ∧ ∀ bits ∈ fieldWidths remote, SerialEnds remote bits)
    {c : DataCall} (hc : c ∈ dataCalls fuel env remote b) (hs : serialBranch c.remote = true) :
    c.Ok := by
  obtain ⟨hs', state, code, hsame, hfield, hdebt⟩ := dataCalls_serial hmode hc hs
  obtain ⟨hbyte, hends⟩ := hserial hs'
  refine ⟨?_, ?_, hdebt⟩
  · rw [hsame]
    exact hbyte
  · rw [hsame]
    exact hends _ hfield

/-- `receive_decode` comes to the loop over the raw codes. -/
def reachesRawCodes (env : DecodeEnv) (remote : IrRemote) (b : Rbuf) : Bool :=
  isRaw remote &&
    if isSampleMode env.recMode then
      match (decodeFront env remote b).1 with
      | .frame _ _ => true
      | _ => false
    else env.recMode != LIRC_MODE_LIRCCODE

/-- `receive_decode` for a remote as `read_config` leaves it: `codes` may be a null
    pointer, which that loop follows. -/
def receiveDecodeTable (fuel : Nat) (env : DecodeEnv) (rem : ConfigRemote) (b : Rbuf) :
    Option (Option Decoded × IrRemote × Rbuf) :=
  if rem.codes.isNone && reachesRawCodes env rem.toIrRemote b then none
  else receiveDecode fuel env rem.toIrRemote b

theorem receiveDecodeTable_eq {env : DecodeEnv} {rem : ConfigRemote}
    (htable : isRaw rem.toIrRemote = true → rem.codes ≠ none) (fuel : Nat) (b : Rbuf) :
    receiveDecodeTable fuel env rem b = receiveDecode fuel env rem.toIrRemote b := by
  unfold receiveDecodeTable
  rw [if_neg]
  intro h
  obtain ⟨hnone, hreaches⟩ := Bool.and_eq_true_iff.mp h
  unfold reachesRawCodes at hreaches
  exact htable (Bool.and_eq_true_iff.mp hreaches).1 (Option.isNone_iff_eq_none.mp hnone)

/-- The pulse of a header, at the end of what is recorded, is enough. -/
theorem frontHeader_raw {remote : IrRemote} (hraw : isRaw remote = true) (sync : Int)
    (hhead : hasHeader remote = true → Tolerant remote ∧ remote.phead ≤ PULSE_MASK) (biphase : Bool) :
    ∃ header b', frontHeader remote sync
      { data := [1, PULSE_BIT + remote.phead], rptr := 1, isBiphase := biphase } =
        (.frame sync header, b') := by
  unfold frontHeader
  split
  · next h =>
    obtain ⟨htol, hmask⟩ := hhead h
    obtain ⟨hphead, hshead⟩ : 0 < remote.phead ∧ 0 < remote.shead := by simpa [hasHeader] using h
    obtain ⟨-, -, hrcmm, -, -, hbo, -⟩ := protocol_cases remote RAW_CODES (beq_iff_eq.mp hraw)
    have hpulse : isPulse (PULSE_BIT + remote.phead) = true := by
      simp only [isPulse, PULSE_BIT, PULSE_MASK, beq_iff_eq] at *
      omega
    have hlength : maskPulse (PULSE_BIT + remote.phead) = remote.phead := by
      simp only [maskPulse, PULSE_BIT, PULSE_MASK] at *
      omega
    have hne : PULSE_BIT + remote.phead ≠ 0 := by
      unfold PULSE_BIT
      omega
    have hread : expectpulse remote remote.phead
        { data := [1, PULSE_BIT + remote.phead], rptr := 1, isBiphase := biphase } =
          (true, { data := [1, PULSE_BIT + remote.phead], rptr := 2, isBiphase := biphase,
                   sum := remote.phead }) := by
      have hexpect := expect_self htol (Int.le_of_lt hphead)
      unfold expectpulse
      rw [syncPendingSpace_none (Int.le_refl 0)]
      simp [getNextPulse, getNextRecBuffer, Rbuf.wptr, Rbuf.sample, hne, hpulse, hlength,
        Int.ne_of_gt hphead, hexpect]
    -- no further sample arrives behind the pulse
    have hheader : ∃ b', getHeader remote
        { data := [1, PULSE_BIT + remote.phead], rptr := 1, isBiphase := biphase } = (true, b') := by
      unfold getHeader
      rw [hrcmm, if_neg (by decide), hbo, if_neg (by decide), if_neg (by omega), hread]
      dsimp only
      split
      · exact ⟨_, rfl⟩
      · exact ⟨_, rfl⟩
    obtain ⟨b', hb'⟩ := hheader
    rw [hb']
    exact ⟨true, b', rfl⟩
  · exact ⟨_, _, rfl⟩

/-- **A raw remote without a code table** follows the null pointer. -/
theorem receiveDecodeTable_null {rem : ConfigRemote} (hraw : isRaw rem.toIrRemote = true)
    (hnone : rem.codes = none)
    (hhead : hasHeader rem.toIrRemote = true →
      Tolerant rem.toIrRemote ∧ rem.toIrRemote.phead ≤ PULSE_MASK) (fuel : Nat) :
    receiveDecodeTable fuel {} rem { data := [1, PULSE_BIT + rem.toIrRemote.phead] } = none := by
  have hsync : syncRecBuffer none rem.toIrRemote
      { data := [1, PULSE_BIT + rem.toIrRemote.phead], isBiphase := isBiphase rem.toIrRemote } =
      (1, rem.toIrRemote,
        { data := [1, PULSE_BIT + rem.toIrRemote.phead], rptr := 1,
          isBiphase := isBiphase rem.toIrRemote }) := rfl
  obtain ⟨header, b', hfront⟩ := frontHeader_raw hraw 1 hhead (isBiphase rem.toIrRemote)
  have hreaches : reachesRawCodes {} rem.toIrRemote
      { data := [1, PULSE_BIT + rem.toIrRemote.phead] } = true := by
    unfold reachesRawCodes decodeFront rewindRecBuffer
    dsimp only
    rw [hsync, hraw]
    dsimp only
    rw [if_pos (by decide), if_neg (by decide), Bool.and_false, if_neg Bool.false_ne_true, hfront]
    rfl
  unfold receiveDecodeTable
  rw [hnone, hreaches]
  rfl

/-- **The decoder ends** on every stream of samples, and so does every call of
    `get_data` in it, if a raw remote has a code table, and a serial one a baud rate
    and bits that end; a raw remote without a table follows a null pointer, and a
    serial branch with a level whose bits do not end goes on for ever, on some
    samples. -/
theorem decoder_ends (rem : ConfigRemote)
    (hbyte : isSerial rem.toIrRemote = true → 0 < rem.toIrRemote.bitsInByte) :
    ((isRaw rem.toIrRemote = true → rem.codes ≠ none) →
      (isSerial rem.toIrRemote = true → rem.toIrRemote.baud ≠ 0 ∧
        ∀ bits ∈ fieldWidths rem.toIrRemote, SerialEnds rem.toIrRemote bits) →
      ∀ env b, isSampleMode env.recMode = true ∨ env.recMode = LIRC_MODE_LIRCCODE →
        (∃ fuel y, receiveDecodeTable fuel env rem b = some y) ∧
        ∀ fuel, ∀ c ∈ dataCalls fuel env rem.toIrRemote b, ∃ fuel' y, c.run fuel' = some y) ∧
    (isRaw rem.toIrRemote = true → rem.codes = none →
      (hasHeader rem.toIrRemote = true →
        Tolerant rem.toIrRemote ∧ rem.toIrRemote.phead ≤ PULSE_MASK) →
      ∃ b, ∀ fuel, receiveDecodeTable fuel {} rem b = none) ∧
    (isSerial rem.toIrRemote = true → Tolerant rem.toIrRemote → ∀ bits done x,
      0 < (serialConfig rem.toIrRemote bits).base →
      OverTolerance rem.toIrRemote (serialConfig rem.toIrRemote bits).base x →
      ¬ SerialEnds rem.toIrRemote bits → ∃ b, ∀ fuel, getData fuel rem.toIrRemote bits done b = none) := by
  refine ⟨?_, ?_, ?_⟩
  · intro htable hserial env b hmode
    have hcalls : ∀ fuel, ∀ c ∈ dataCalls fuel env rem.toIrRemote b, ∃ fuel' y, c.run fuel' = some y := by
      intro fuel c hc
      refine dataCall_ends fun hs => dataCalls_ok hmode (fun hs => ?_) hc hs
      have hs := (serialBranch_iff _).mp hs
      exact ⟨hbyte hs, (hserial hs).2⟩
    obtain ⟨fuel, y, hy⟩ := receiveDecode_ends hcalls
    exact ⟨⟨fuel, y, (receiveDecodeTable_eq htable fuel b).trans hy⟩, hcalls⟩
  · intro hraw hnone hhead
    exact ⟨_, receiveDecodeTable_null hraw hnone hhead⟩
  · intro hs htol bits done x hbase hover hnot
    obtain ⟨hbits, hlevels⟩ := not_or.mp hnot
    obtain ⟨space, hlevel⟩ := not_forall.mp hlevels
    refine ⟨{ data := endless (serialConfig rem.toIrRemote bits).base x space }, fun fuel => ?_⟩
    have hnever := getSerial_never (hbyte hs) htol hbase hover (Int.not_lt.mp hbits) hlevel fuel
    have hbranch := (serialBranch_iff _).mpr hs
    unfold serialBranch at hbranch
    rw [Bool.and_eq_true, Bool.and_eq_true, Bool.not_eq_true', Bool.not_eq_true'] at hbranch
    obtain ⟨⟨hrcmm, hgrundig⟩, -⟩ := hbranch
    unfold getData
    rw [hrcmm, hgrundig, if_neg Bool.false_ne_true, if_neg Bool.false_ne_true, if_pos hs, hnever]
    rfl

/-- The serial remote as `read_config` has it. -/
def serialConfigRemote : ConfigRemote :=
  { name := some ⟨0, []⟩, codes := some ⟨1, []⟩, ir := serialRemote }

/-- One run of the serial remote ends. -/
theorem decoder_ends_serialRemote :
    ∃ fuel y, receiveDecodeTable fuel {} serialConfigRemote { input := [20000, 0x01001388, 5000] } =
      some y := by
  refine (((decoder_ends serialConfigRemote fun _ => by decide).1 (fun _ => by decide)
    fun _ => ⟨by decide, ?_⟩) {} _ (.inl rfl)).1
  intro bits _
  exact .inr fun space => by
    cases space with
    | false => exact .inl (by decide)
    | true => exact .inl (by decide)

/-- A frame whose first call of `get_data` does not end, for a serial remote
    without lead pulse and pre data. -/
theorem receiveDecode_none {env : DecodeEnv} {remote r : IrRemote} {b : Rbuf} {sync : Int}
    {header : Bool} {fuel : Nat} (b1 : Rbuf) (s : SerialState) (hmode : isSampleMode env.recMode = true)
    (hfront : decodeFront env remote b = (.frame sync header, r, b1))
    (hs : serialBranch r = true) (hlead : r.plead = 0) (hpre : hasPre r = false)
    (hstart : serialNext r (serialConfig r r.bits) {
      space := (serialConfig r r.bits).base == 0
      buf := setPendingPulse (serialConfig r r.bits).base b1 } = .inr s)
    (hnever : ∀ fuel, serialLoop r (serialConfig r r.bits) fuel s = none) :
    receiveDecode fuel env remote b = none := by
  have hserial := (serialBranch_iff r).mp hs
  have hget : getSerial fuel r r.bits b1 = none := by
    have hloop := serialLoop_none_of_turn hstart hnever fuel
    unfold getSerial
    dsimp only
    generalize hrun : serialLoop r (serialConfig r r.bits) fuel _ = run
    have hnone : run = none := hrun.symm.trans hloop
    rw [hnone]
  have hraw : isRaw r = false := by
    obtain ⟨hraw, -⟩ := protocol_cases r SERIAL (beq_iff_eq.mp hserial)
    rw [hraw]
    rfl
  have hcode : env.recMode ≠ LIRC_MODE_LIRCCODE := by
    intro h
    rw [h] at hmode
    exact absurd hmode (by decide)
  unfold serialBranch at hs
  rw [Bool.and_eq_true, Bool.and_eq_true, Bool.not_eq_true', Bool.not_eq_true'] at hs
  obtain ⟨⟨hrcmm, hgrundig⟩, -⟩ := hs
  unfold receiveDecode
  rw [if_pos hmode, hfront]
  dsimp only
  unfold decodeRest
  rw [hraw, if_neg Bool.false_ne_true, if_neg hcode]
  unfold decodeFrame getLead
  rw [if_pos hlead]
  dsimp only
  rw [hpre, if_neg Bool.false_ne_true]
  dsimp only
  rw [if_neg (by rw [hpre]; exact fun h => Bool.false_ne_true h.1)]
  unfold getData
  rw [hrcmm, hgrundig, if_neg Bool.false_ne_true, if_neg Bool.false_ne_true, if_pos hserial, hget]
  rfl

/-- The decoder does not end on these samples. -/
def Endless (rem : ConfigRemote) (samples : List Int) : Prop :=
  ∀ fuel, receiveDecodeTable fuel {} rem { input := samples } = none

/-- A serial remote of 8 bits without parity, whose zero is a space only. -/
def noPulseRemote : ConfigRemote :=
  { name := some ⟨0, "tv".toList⟩
    codes := some ⟨1, []⟩
    ir := { flags := SERIAL, bits := 8, eps := 10, aeps := 100, pzero := 0, szero := 833,
            sone := 833, gap := 20000, baud := 1200, bitsInByte := 8, stopBits := 2 } }

/-- A serial remote of 2000000 baud, as `read_config` leaves it. -/
def fastRemote : ConfigRemote :=
  { name := some ⟨0, "tv".toList⟩
    codes := some ⟨1, []⟩
    ir := { flags := SERIAL, bits := 8, eps := 10, aeps := 100, phead := 9000, shead := 4500,
            gap := 20000, baud := 2000000, bitsInByte := 8, stopBits := 2 } }

/-- A raw remote whose section of codes is missing. -/
def tablelessFile : List (List Char) :=
  ["begin remote\n".toList, "name tv\n".toList, "flags RAW_CODES\n".toList, "gap 20000\n".toList,
    "end remote\n".toList]

def tablelessRemote : ConfigRemote :=
  { name := some ⟨0, "tv".toList⟩, ir := { flags := RAW_CODES, gap := 20000 } }

theorem endless_noPulseRemote : Endless noPulseRemote [20000, 0x01001388] := by
  intro fuel
  rw [receiveDecodeTable_eq fun _ => by decide]
  refine receiveDecode_none { data := [20000], rptr := 1, input := [0x01001388] }
    { delta := 4167, origdelta := 5000,
      buf := { data := [20000, 0x01001388], rptr := 2, sum := 5000 } }
    rfl rfl rfl rfl rfl rfl ?_
  refine serial_never (by decide) (by decide) ⟨by decide, rfl, rfl, .inr ⟨by decide, by decide⟩, ?_⟩ ?_
  · decide
  · unfold LevelEnds
    decide

theorem endless_fastRemote : Endless fastRemote [30000, 0x01002328, 10000] := by
  intro fuel
  rw [receiveDecodeTable_eq fun _ => by decide]
  refine receiveDecode_none
    { data := [30000, 0x01002328], rptr := 2, pendings := 4500, sum := 9000, input := [10000] }
    { space := true, delta := 5500, origdelta := 10000,
      buf := { data := [30000, 0x01002328, 10000], rptr := 3, sum := 19000 } }
    rfl rfl rfl rfl rfl rfl ?_
  refine serial_never (by decide) (by decide) ⟨by decide, rfl, rfl, .inr ⟨by decide, by decide⟩, ?_⟩ ?_
  · decide
  · unfold LevelEnds
    decide

theorem endless_tablelessRemote : Endless tablelessRemote [20000] := by
  intro fuel
  unfold receiveDecodeTable
  rw [if_pos (by decide)]

/-- **Remotes that `read_config` accepts** and samples on which the decoder does
    not come to an end: two go on for ever, one follows a null pointer. -/
theorem decoder_endless :
    Endless noPulseRemote [20000, 0x01001388] ∧ Endless fastRemote [30000, 0x01002328, 10000] ∧
      readConfig (fun _ => none) none tablelessFile = some ⟨[tablelessRemote], false, { next := 1 }⟩ ∧
      Endless tablelessRemote [20000] :=
  ⟨endless_noPulseRemote, endless_fastRemote, by decide +kernel, endless_tablelessRemote⟩

end WinLirc
