/-
  File:      WinLirc/Command.lean
  Subject:   `decodeCommand`, remote by remote.

  * `receiveDecode_tuned`: of a remote that a frame is tried on, only the
    pulses of a Goldstar one bit and the toggle state may change;
  * `tryRemote`: one turn of the loop of `decodeCommand`, and
    `decodeLoop_eq`, what the loop does with all of them;
  * `runCalls`: one call of `decodeCommand` after the other, each with the
    samples of its frame.
-/
import WinLirc.IrRemote

namespace WinLirc

/-! ## 1. What trying a frame changes of a remote -/

/-- `b` is the remote `a` after a frame was tried on it. -/
structure Tuned (a b : IrRemote) : Prop where
  rest : b = { a with
    pone := b.pone, sone := b.sone, toggleMaskState := b.toggleMaskState,
    toggleCode := b.toggleCode }
  toggle : (b.toggleMaskState = a.toggleMaskState ∧ b.toggleCode = a.toggleCode) ∨
    (hasToggleMask a = true ∧ b.toggleMaskState = 0 ∧ b.toggleCode = none)

namespace Tuned

variable {a b c : IrRemote}

theorem refl (a : IrRemote) : Tuned a a := ⟨rfl, .inl ⟨rfl, rfl⟩⟩

theorem hasToggleMask (h : Tuned a b) : WinLirc.hasToggleMask b = WinLirc.hasToggleMask a := by
  have e := congrArg (·.toggleMask) h.rest
  exact congrArg (fun m : IrCode => m != 0) e

theorem trans (h : Tuned a b) (h' : Tuned b c) : Tuned a c := by
  refine ⟨h'.rest.trans (congrArg (fun r : IrRemote => { r with
    pone := c.pone, sone := c.sone, toggleMaskState := c.toggleMaskState,
    toggleCode := c.toggleCode }) h.rest), ?_⟩
  rcases h'.toggle with ⟨h1, h2⟩ | ⟨h0, h1, h2⟩
  · rw [h1, h2]
    exact h.toggle
  · rw [h.hasToggleMask] at h0
    exact .inr ⟨h0, h1, h2⟩

theorem goldstarOne (a : IrRemote) (bit : Int) : Tuned a (goldstarOne a bit) := by
  unfold WinLirc.goldstarOne
  split_ifs
  · exact ⟨rfl, .inl ⟨rfl, rfl⟩⟩
  · exact ⟨rfl, .inl ⟨rfl, rfl⟩⟩
  · exact refl a

end Tuned

/-- Whatever a step answers, its remote is tuned. -/
def Keeps {α : Type} (remote : IrRemote) (x : Option (α × IrRemote × Rbuf)) : Prop :=
  ∀ y, x = some y → Tuned remote y.2.1

section Keeps

variable {α β : Type} {remote r : IrRemote}

theorem keeps_none : Keeps (α := α) remote none := fun _ h => nomatch h

theorem keeps_some {a : α} {b : Rbuf} (h : Tuned remote r) : Keeps remote (some (a, r, b)) := by
  rintro y ⟨⟩
  exact h

theorem keeps_same {a : α} {b : Rbuf} : Keeps remote (some (a, remote, b)) :=
  keeps_some (.refl remote)

theorem keeps_map {x : Option (α × Rbuf)} :
    Keeps remote (x.map fun y => (y.1, remote, y.2)) := by
  intro y h
  obtain ⟨z, -, rfl⟩ := Option.map_eq_some_iff.mp h
  exact .refl remote

theorem Keeps.ite {p : Prop} [Decidable p] {x y : Option (α × IrRemote × Rbuf)}
    (hx : Keeps remote x) (hy : Keeps remote y) : Keeps remote (if p then x else y) := by
  split
  · exact hx
  · exact hy

theorem Keeps.of_tuned {x : Option (α × IrRemote × Rbuf)} (h : Tuned remote r) (hx : Keeps r x) :
    Keeps remote x :=
  fun y hy => h.trans (hx y hy)

end Keeps

theorem getBits_tuned (n : Nat) (bit : Int) (code : IrCode) (remote : IrRemote) (b : Rbuf) :
    Tuned remote (getBits n bit code remote b).2.1 := by
  induction n generalizing bit code remote b with
  | zero => exact .refl remote
  | succ n ih =>
    have hone := Tuned.goldstarOne remote bit
    rw [getBits]
    split
    · exact hone.trans (ih _ _ _ _)
    · split
      · exact hone.trans (ih _ _ _ _)
      · exact hone

theorem getData_keeps (fuel : Nat) (remote : IrRemote) (bits done : Int) (b : Rbuf) :
    Keeps remote (getData fuel remote bits done b) := by
  unfold getData
  split_ifs
  · exact keeps_same
  · split
    · exact keeps_same
    · exact keeps_same
  · exact keeps_same
  · split
    · exact keeps_same
    · exact keeps_map
  · exact keeps_map
  · exact keeps_same
  · exact keeps_same
  · split
    · exact keeps_same
    · exact keeps_same
  · exact keeps_some (getBits_tuned _ _ _ _ _)

theorem getPre_keeps (fuel : Nat) (remote : IrRemote) (b : Rbuf) :
    Keeps remote (getPre fuel remote b) := by
  have hdata := getData_keeps fuel remote remote.preDataBits 0 b
  unfold getPre
  split
  · exact keeps_none
  · next pre r b' he =>
    have ht : Tuned remote r := hdata _ he
    split_ifs
    · exact keeps_some ht
    · split
      · exact keeps_some ht
      · exact keeps_some ht
    · exact keeps_some ht

theorem getPost_keeps (fuel : Nat) (remote : IrRemote) (b : Rbuf) :
    Keeps remote (getPost fuel remote b) := by
  unfold getPost
  dsimp only
  split
  · exact keeps_same
  · exact getData_keeps _ _ _ _ _

theorem decodeFrame_keeps (fuel : Nat) (header : Bool) (remote : IrRemote) (b : Rbuf) :
    Keeps remote (decodeFrame fuel header remote b) := by
  unfold decodeFrame
  split
  · exact keeps_same
  · split
    · exact keeps_none
    · next pre r1 b1 hpre =>
      have h1 : Tuned remote r1 := (getPre_keeps fuel remote _).ite keeps_same _ hpre
      split
      · exact keeps_some h1
      · split
        · exact keeps_none
        · next code r2 b2 hcode =>
          have h2 : Tuned remote r2 := h1.trans (getData_keeps _ _ _ _ _ _ hcode)
          split
          · exact keeps_some h2
          · split
            · exact keeps_none
            · next post r3 b3 hpost =>
              have h3 : Tuned remote r3 :=
                h2.trans ((getPost_keeps fuel r2 _).ite keeps_same _ hpost)
              split
              · exact keeps_some h3
              · split
                · exact keeps_some h3
                · split
                  · exact keeps_some h3
                  · dsimp only
                    split
                    · exact keeps_some h3
                    · exact keeps_some h3

theorem syncRecBuffer_tuned (last : Option IrRemote) (remote : IrRemote) (b : Rbuf) :
    Tuned remote (syncRecBuffer last remote b).2.1 := by
  unfold syncRecBuffer
  obtain ⟨deltas, b1⟩ := getNextSpace 1000000 b
  dsimp only
  split
  · exact .refl remote
  · cases last with
    | none => exact .refl remote
    | some last =>
      dsimp only
      generalize syncLoop last REC_SYNC deltas b1 = g
      obtain ⟨deltas', b2⟩ := g
      split
      · exact .refl remote
      · split
        · exact .refl remote
        · dsimp only
          split
          · next h => exact ⟨rfl, .inr ⟨(Bool.and_eq_true_iff.mp h).1, rfl, rfl⟩⟩
          · exact .refl remote

theorem decodeRaw_tuned (env : DecodeEnv) (codes : List IrNcode) (remote : IrRemote) (b : Rbuf) :
    Tuned remote (decodeRaw env codes remote b).2.1 := by
  induction codes generalizing remote b with
  | nil => exact .refl remote
  | cons c codes ih =>
    rw [decodeRaw]
    obtain ⟨m, b1⟩ := matchSignals remote (c.signals.getD []) b
    cases m with
    | false =>
      have hsync := syncRecBuffer_tuned env.lastRemote remote (rewindRecBuffer b1)
      dsimp only
      generalize syncRecBuffer env.lastRemote remote (rewindRecBuffer b1) = g at hsync
      obtain ⟨sync, r, b2⟩ := g
      exact hsync.trans (ih r b2)
    | true =>
      dsimp only
      obtain ⟨g, b2⟩ := getGap remote (if isConst remote then minGap remote - b1.sum
        else minGap remote) b1
      cases g with
      | false => exact ih remote b2
      | true => exact .refl remote

theorem decodeFront_tuned (env : DecodeEnv) (remote : IrRemote) (b : Rbuf) :
    Tuned remote (decodeFront env remote b).2.1 := by
  unfold decodeFront
  dsimp only
  generalize { rewindRecBuffer b with isBiphase := isBiphase remote } = b0
  have hsync := syncRecBuffer_tuned env.lastRemote remote b0
  generalize syncRecBuffer env.lastRemote remote b0 = g at hsync
  obtain ⟨sync, r, b1⟩ := g
  dsimp only at hsync ⊢
  split
  · exact hsync
  · split
    · split
      · exact hsync
      · split
        · cases r.lastCode with
          | none => exact hsync
          | some i => exact hsync
        · exact hsync.trans (syncRecBuffer_tuned _ _ _)
    · exact hsync

theorem decodeRest_keeps (fuel : Nat) (env : DecodeEnv) (sync : Int) (header : Bool)
    (remote : IrRemote) (b : Rbuf) : Keeps remote (decodeRest fuel env sync header remote b) := by
  have hraw := decodeRaw_tuned env remote.codes remote b
  unfold decodeRest
  split_ifs
  · exact keeps_same
  · split
    · next h =>
      rw [h] at hraw
      exact keeps_some hraw
    · next h =>
      rw [h] at hraw
      exact keeps_some hraw
  · exact keeps_same
  · exact keeps_same
  · have hframe := decodeFrame_keeps fuel header remote b
    split
    · exact keeps_none
    · next h => exact keeps_some (hframe _ h)
    · next h => exact keeps_some (hframe _ h)

/-- **What a frame changes of the remote it is tried on.** -/
theorem receiveDecode_tuned (fuel : Nat) (env : DecodeEnv) (remote : IrRemote) (b : Rbuf) :
    Keeps remote (receiveDecode fuel env remote b) := by
  have hfront := decodeFront_tuned env remote b
  unfold receiveDecode
  split_ifs
  · split
    · next h =>
      rw [h] at hfront
      exact keeps_some hfront
    · next h =>
      rw [h] at hfront
      exact keeps_some hfront
    · next h =>
      rw [h] at hfront
      exact .of_tuned hfront (decodeRest_keeps _ _ _ _ _ _)
  · exact decodeRest_keeps _ _ _ _ _ _

/-! ## 2. The code that `get_code` answers -/

/-- **One code of the loop** is noted or not. -/
theorem scanCode_cases (remote : IrRemote) (all : IrCode) (i : Nat) (c : IrNcode) (s : Scan) :
    (scanCode remote all i c s).2 = s ∨
      ((scanCode remote all i c s).2.foundCode = true ∧
        ((scanCode remote all i c s).2.found = s.found ∨
          (scanCode remote all i c s).2.found = some i)) := by
  unfold scanCode
  split
  · dsimp only
    split
    · exact .inr ⟨rfl, .inl rfl⟩
    · exact .inr ⟨rfl, .inr rfl⟩
  · split
    · exact .inl rfl
    · split
      · dsimp only
        split
        · exact .inr ⟨rfl, .inl rfl⟩
        · exact .inr ⟨rfl, .inr rfl⟩
      · exact .inl rfl

theorem length_scanCodes (remote : IrRemote) (all : IrCode) (i : Nat) (codes : List IrNcode)
    (s : Scan) : (scanCodes remote all i codes s).1.length = codes.length := by
  induction codes generalizing i s with
  | nil => rfl
  | cons c codes ih => exact congrArg (· + 1) (ih _ _)

theorem scanCodes_found (remote : IrRemote) (all : IrCode) (i : Nat) (codes : List IrNcode)
    (s : Scan) : (scanCodes remote all i codes s).2.found = s.found ∨
      ∃ j, i ≤ j ∧ j < i + codes.length ∧
        (scanCodes remote all i codes s).2.found = some j := by
  induction codes generalizing i s with
  | nil => exact .inl rfl
  | cons c codes ih =>
    have hlen : (c :: codes).length = codes.length + 1 := rfl
    rcases ih (i + 1) (scanCode remote all i c s).2 with h | ⟨j, h1, h2, h3⟩
    · rcases scanCode_cases remote all i c s with h' | ⟨-, h' | h'⟩
      · exact .inl (h.trans (congrArg (·.found) h'))
      · exact .inl (h.trans h')
      · exact .inr ⟨i, Nat.le_refl i, by omega, h.trans h'⟩
    · exact .inr ⟨j, by omega, by omega, h3⟩

theorem scanCodes_foundCode (remote : IrRemote) (all : IrCode) (i : Nat) (codes : List IrNcode)
    (s : Scan) (hs : s.found.isSome = true → s.foundCode = true)
    (h : (scanCodes remote all i codes s).2.found.isSome = true) :
    (scanCodes remote all i codes s).2.foundCode = true := by
  induction codes generalizing i s with
  | nil => exact hs h
  | cons c codes ih =>
    refine ih (i + 1) (scanCode remote all i c s).2 (fun hsome => ?_) h
    rcases scanCode_cases remote all i c s with h' | ⟨h', -⟩
    · rw [h'] at hsome ⊢
      exact hs hsome
    · exact h'

/-- What `get_code` leaves of a remote: only its matching state changes. -/
theorem getCode_rest (remote : IrRemote) (f : Fields) :
    (getCode remote f).2 = { remote with
      codes := (getCode remote f).2.codes, toggleCode := (getCode remote f).2.toggleCode } := by
  unfold getCode
  dsimp only
  split
  · rfl
  · split
    · rfl
    · split
      · rfl
      · split
        · split
          · rfl
          · split
            · rfl
            · rfl
        · rfl

/-- What `set_code` leaves of a remote: only the state of its last code changes. -/
theorem setCode_rest (now : MyTimeval) (sameDecoded : Bool) (remote : IrRemote) (i : Nat)
    (found : IrNcode) (t : IrCode) (d : Decoded) :
    (setCode now sameDecoded remote i found t d).2 = { remote with
      toggleBitMaskState := (setCode now sameDecoded remote i found t d).2.toggleBitMaskState
      toggleMaskState := (setCode now sameDecoded remote i found t d).2.toggleMaskState
      toggleCode := (setCode now sameDecoded remote i found t d).2.toggleCode
      lastCode := (setCode now sameDecoded remote i found t d).2.lastCode
      reps := (setCode now sameDecoded remote i found t d).2.reps
      lastSend := now
      minRemainingGap := d.minRemainingGap
      maxRemainingGap := d.maxRemainingGap } := by
  unfold setCode
  dsimp only
  split
  · split
    · split <;> rfl
    · split <;> rfl
  · rfl

/-- **The answer of `get_code`** is an entry of the table. -/
theorem getCode_entry {remote r : IrRemote} {f : Fields} {i : Nat} {t : IrCode}
    (h : getCode remote f = (some (i, t), r)) : ∃ found, r.codes[i]? = some found := by
  have hfound := scanCodes_found remote
    (genIrCode remote (receivedFields remote f).pre (receivedFields remote f).code
      (receivedFields remote f).post) 0 remote.codes {}
  have hlen := length_scanCodes remote
    (genIrCode remote (receivedFields remote f).pre (receivedFields remote f).code
      (receivedFields remote f).post) 0 remote.codes {}
  unfold getCode at h
  dsimp only at h
  generalize scanCodes remote _ 0 remote.codes {} = g at hfound hlen h
  obtain ⟨codes, s⟩ := g
  dsimp only at hfound hlen h
  have hentry : ∀ j, s.found = some j → ∃ found, codes[j]? = some found := by
    intro j hj
    rcases hfound with h' | ⟨j', h1, h2, h3⟩
    · rw [hj] at h'
      exact nomatch h'
    · have e : j = j' := by rw [hj] at h3; exact Option.some.inj h3
      have hj : j < codes.length := by omega
      exact ⟨codes[j], List.getElem?_eq_getElem hj⟩
  split at h
  · exact nomatch h
  · split at h
    · exact nomatch h
    · cases hs : s.found with
      | none =>
        rw [hs] at h
        exact nomatch h
      | some j =>
        have he := hentry j hs
        rw [hs] at h
        dsimp only at h
        split at h
        · split at h
          · obtain ⟨⟨rfl, -⟩, rfl⟩ := h
            exact he
          · split at h
            · exact nomatch h
            · obtain ⟨⟨rfl, -⟩, rfl⟩ := h
              exact he
        · obtain ⟨⟨rfl, -⟩, rfl⟩ := h
          exact he

/-! ## 3. One turn of the loop -/

/-- What one remote makes of the samples: the frame, the entry `get_code`
    answers and the toggle bits, if it accepts them; the remote; the buffer. -/
def tryRemote (fuel : Nat) (now : MyTimeval) (k : Nat) (remote : IrRemote) (w : World) :
    Option (Option (Decoded × Nat × IrCode) × IrRemote × Rbuf) :=
  match receiveDecode fuel (w.env now k) remote w.buf with
  | none => none
  | some (none, remote, b) => some (none, remote, b)
  | some (some d, remote, b) =>
    match getCode remote ⟨d.pre, d.code, d.post⟩ with
    | (some (i, t), remote) => some (some (d, i, t), remote, b)
    | (none, remote) => some (none, remote, b)

/-- The remote that accepts a frame: the frame, what `get_code` answers, and
    the remote as `set_code` finds it. -/
structure Accept where
  index : Nat
  frame : Decoded
  key : Nat
  toggleBits : IrCode
  remote : IrRemote
  deriving DecidableEq, Repr

/-- The loop up to the remote that accepts the frame. -/
def findRemote (fuel : Nat) (now : MyTimeval) : Nat → Nat → World → Option (Option Accept × World)
  | 0, _, w => some (none, w)
  | n + 1, k, w =>
    match w.remotes[k]? with
    | none => some (none, w)
    | some remote =>
      match tryRemote fuel now k remote w with
      | none => none
      | some (some (d, i, t), r, b) => some (some ⟨k, d, i, t, r⟩, { w with buf := b })
      | some (none, r, b) =>
        findRemote fuel now n (k + 1)
          { w.setRemote k { r with toggleMaskState := 0 } with buf := b }

/-- What `decodeCommand` does with the remote that accepts. -/
def acceptFrame (now : MyTimeval) (a : Accept) (found : IrNcode) (w : World) : Outcome × World :=
  let (code, remote) :=
    setCode now (w.lastDecoded == some a.index) a.remote a.key found a.toggleBits a.frame
  reportCode { w with lastRemote := some a.index, lastDecoded := some a.index } a.index a.key found
    code remote

/-- The end of `decodeCommand`. -/
def finishCommand (now : MyTimeval) (a : Option Accept) (w : World) : Outcome × World :=
  match a with
  | none => (.nothing, { w with lastRemote := none })
  | some a =>
    match a.remote.codes[a.key]? with
    | none => (.nothing, w)
    | some found => acceptFrame now a found w

theorem setRemote_twice (w : World) (k : Nat) (r r' : IrRemote) :
    (w.setRemote k r).setRemote k r' = w.setRemote k r' := by
  unfold World.setRemote
  rw [List.set_set]

theorem setRemote_buf (w : World) (k : Nat) (r r' : IrRemote) (b : Rbuf) :
    World.setRemote { w.setRemote k r with buf := b } k r' = { w.setRemote k r' with buf := b } := by
  rw [← setRemote_twice w k r r']
  rfl

theorem reportCode_setRemote (w : World) (k i : Nat) (r : IrRemote) (found : IrNcode)
    (code : IrCode) (remote : IrRemote) :
    reportCode (w.setRemote k r) k i found code remote = reportCode w k i found code remote := by
  unfold reportCode
  rw [setRemote_twice]

/-- **The loop of `decodeCommand`** is the search for the remote that accepts
    and what is done with it. -/
theorem decodeLoop_eq (fuel : Nat) (now : MyTimeval) (n k : Nat) (w : World) :
    decodeLoop fuel now n k w =
      (findRemote fuel now n k w).map fun (a, w) => finishCommand now a w := by
  induction n generalizing k w with
  | zero => rfl
  | succ n ih =>
    rw [decodeLoop, findRemote]
    cases hk : w.remotes[k]? with
    | none => rfl
    | some remote =>
      dsimp only
      unfold tryRemote
      cases hd : receiveDecode fuel (w.env now k) remote w.buf with
      | none => rfl
      | some x =>
        obtain ⟨r, remote1, b⟩ := x
        cases r with
        | none =>
          dsimp only
          rw [ih, setRemote_buf]
        | some d =>
          dsimp only
          rcases hg : getCode remote1 ⟨d.pre, d.code, d.post⟩ with ⟨g, r⟩
          cases g with
          | none =>
            dsimp only
            rw [ih, setRemote_buf]
          | some it =>
            obtain ⟨i, t⟩ := it
            obtain ⟨found, hfound⟩ := getCode_entry hg
            dsimp only [Option.map_some]
            rw [finishCommand]
            simp only [hfound, acceptFrame]
            exact congrArg some (reportCode_setRemote
              { w with lastRemote := some k, lastDecoded := some k, buf := b } k i remote1 found _ _)

/-- **A call of `decodeCommand`.** -/
theorem decodeCommand_eq (fuel : Nat) (now : MyTimeval) (w : World) :
    decodeCommand fuel now w =
      (findRemote fuel now w.remotes.length 0 w).map fun (a, w) => finishCommand now a w :=
  decodeLoop_eq fuel now _ 0 w

/-! ## 4. What a call changes of the remotes -/

/-- The fields that `get_code` is given. -/
def Decoded.fields (d : Decoded) : Fields := ⟨d.pre, d.code, d.post⟩

/-- `b` is the remote `a` after it has rejected a frame. -/
def Rejected (a b : IrRemote) : Prop :=
  ∃ r, b = { r with toggleMaskState := 0 } ∧
    (Tuned a r ∨ ∃ r0 f, Tuned a r0 ∧ getCode r0 f = (none, r))

theorem tryRemote_cases {fuel : Nat} {now : MyTimeval} {k : Nat} {remote r : IrRemote} {w : World}
    {x : Option (Decoded × Nat × IrCode)} {b : Rbuf}
    (h : tryRemote fuel now k remote w = some (x, r, b)) :
    (x = none ∧ Rejected remote { r with toggleMaskState := 0 }) ∨
    ∃ d i t r0, x = some (d, i, t) ∧ Tuned remote r0 ∧ getCode r0 d.fields = (some (i, t), r) := by
  have htuned := receiveDecode_tuned fuel (w.env now k) remote w.buf
  unfold tryRemote at h
  cases hd : receiveDecode fuel (w.env now k) remote w.buf with
  | none =>
    rw [hd] at h
    exact nomatch h
  | some y =>
    obtain ⟨d, r0, b0⟩ := y
    have hr0 : Tuned remote r0 := htuned _ hd
    rw [hd] at h
    cases d with
    | none =>
      obtain ⟨rfl, rfl, -⟩ := h
      exact .inl ⟨rfl, _, rfl, .inl hr0⟩
    | some d =>
      dsimp only at h
      rcases hg : getCode r0 ⟨d.pre, d.code, d.post⟩ with ⟨g, r1⟩
      rw [hg] at h
      cases g with
      | none =>
        obtain ⟨rfl, rfl, -⟩ := h
        exact .inl ⟨rfl, _, rfl, .inr ⟨r0, _, hr0, hg⟩⟩
      | some it =>
        obtain ⟨i, t⟩ := it
        obtain ⟨rfl, rfl, -⟩ := h
        exact .inr ⟨d, i, t, r0, rfl, hr0, hg⟩

/-- The remotes from `k` up to `m` have rejected the frame. -/
structure Passed (w w' : World) (k m : Nat) : Prop where
  length : w'.remotes.length = w.remotes.length
  lastDecoded : w'.lastDecoded = w.lastDecoded
  rejected : ∀ j remote, k ≤ j → j < m → w.remotes[j]? = some remote →
    ∃ r, w'.remotes[j]? = some r ∧ Rejected remote r
  same : ∀ j, j < k ∨ m ≤ j → w'.remotes[j]? = w.remotes[j]?

/-- `a` is the remote that accepts, with what it made of the frame. -/
def AcceptsFrame (w : World) (a : Accept) : Prop :=
  ∃ remote r0, w.remotes[a.index]? = some remote ∧ Tuned remote r0 ∧
    getCode r0 a.frame.fields = (some (a.key, a.toggleBits), a.remote)

theorem Passed.refl (w : World) {b : Rbuf} (k : Nat) : Passed w { w with buf := b } k k :=
  ⟨rfl, rfl, fun _ _ h1 h2 => absurd h1 (Nat.not_le_of_lt h2), fun _ _ => rfl⟩

theorem Passed.cons {w w' : World} {k m : Nat} {remote r : IrRemote} {b : Rbuf}
    (hk : w.remotes[k]? = some remote) (hr : Rejected remote r) (hkm : k < m)
    (h : Passed { w.setRemote k r with buf := b } w' (k + 1) m) : Passed w w' k m := by
  obtain ⟨h1, h2, h3, h4⟩ := h
  have hlt : k < w.remotes.length := by
    by_contra hlt
    rw [List.getElem?_eq_none (by omega)] at hk
    exact nomatch hk
  have hset : ∀ j, (w.setRemote k r).remotes[j]? = if j = k then some r else w.remotes[j]? := by
    intro j
    show (w.remotes.set k r)[j]? = _
    rw [List.getElem?_set]
    by_cases hj : j = k
    · rw [if_pos hj, if_pos hj.symm, if_pos hlt]
    · rw [if_neg hj, if_neg (fun h => hj h.symm)]
  refine ⟨?_, h2, fun j remote' hj hjm hrem => ?_, fun j hj => ?_⟩
  · rw [h1]
    exact List.length_set
  · by_cases hjk : j = k
    · subst hjk
      have e : remote' = remote := Option.some.inj (hrem.symm.trans hk)
      rw [e]
      refine ⟨r, ?_, hr⟩
      rw [h4 j (.inl (Nat.lt_succ_self j))]
      exact (hset j).trans (if_pos rfl)
    · refine h3 j remote' (by omega) hjm ?_
      exact ((hset j).trans (if_neg hjk)).trans hrem
  · rw [h4 j (by omega)]
    exact (hset j).trans (if_neg (by omega))

/-- **The search** for the remote that accepts. -/
theorem findRemote_cases {fuel : Nat} {now : MyTimeval} {n k : Nat} {w w' : World}
    {x : Option Accept} (h : findRemote fuel now n k w = some (x, w')) :
    (x = none ∧ Passed w w' k (k + n)) ∨
    ∃ a, x = some a ∧ k ≤ a.index ∧ Passed w w' k a.index ∧ AcceptsFrame w a := by
  induction n generalizing k w with
  | zero =>
    obtain ⟨rfl, rfl⟩ := h
    exact .inl ⟨rfl, .refl _ k⟩
  | succ n ih =>
    rw [findRemote] at h
    cases hk : w.remotes[k]? with
    | none =>
      rw [hk] at h
      obtain ⟨rfl, rfl⟩ := h
      refine .inl ⟨rfl, rfl, rfl, fun j remote hj _ hr => ?_, fun _ _ => rfl⟩
      have hlen := List.getElem?_eq_none_iff.mp hk
      rw [List.getElem?_eq_none (by omega)] at hr
      exact nomatch hr
    | some remote =>
      rw [hk] at h
      dsimp only at h
      rcases ht : tryRemote fuel now k remote w with - | ⟨y, r, b⟩
      · rw [ht] at h
        exact nomatch h
      · rw [ht] at h
        rcases tryRemote_cases ht with ⟨rfl, hr⟩ | ⟨d, i, t, r0, rfl, hr, hg⟩
        · rcases ih h with ⟨rfl, hp⟩ | ⟨a, rfl, hle, hp, remote', r0, ha1, ha2⟩
          · have e : k + 1 + n = k + (n + 1) := by omega
            rw [e] at hp
            exact .inl ⟨rfl, .cons hk hr (by omega) hp⟩
          · refine .inr ⟨a, rfl, by omega, .cons hk hr (by omega) hp, remote', r0, ?_, ha2⟩
            rw [← ha1]
            show _ = (w.remotes.set k _)[a.index]?
            rw [List.getElem?_set_ne (by omega)]
        · obtain ⟨rfl, rfl⟩ := h
          exact .inr ⟨_, rfl, Nat.le_refl k, .refl w k, remote, r0, hk, hr, hg⟩

/-- **What a call does**: every remote rejects the frame, or the first that
    does not is the one whose frame it was. -/
theorem decodeCommand_cases {fuel : Nat} {now : MyTimeval} {w w' : World} {o : Outcome}
    (h : decodeCommand fuel now w = some (o, w')) :
    (∃ w1, findRemote fuel now w.remotes.length 0 w = some (none, w1) ∧
      Passed w w1 0 w.remotes.length ∧ o = .nothing ∧ w' = { w1 with lastRemote := none }) ∨
    ∃ a w1 found, findRemote fuel now w.remotes.length 0 w = some (some a, w1) ∧
      Passed w w1 0 a.index ∧ AcceptsFrame w a ∧ a.remote.codes[a.key]? = some found ∧
      (o, w') = acceptFrame now a found w1 := by
  rw [decodeCommand_eq] at h
  obtain ⟨⟨x, w1⟩, hfind, hfin⟩ := Option.map_eq_some_iff.mp h
  rcases findRemote_cases hfind with ⟨rfl, hp⟩ | ⟨a, rfl, -, hp, ha⟩
  · rw [Nat.zero_add] at hp
    obtain ⟨rfl, rfl⟩ := hfin
    exact .inl ⟨w1, hfind, hp, rfl, rfl⟩
  · have ha' := ha
    obtain ⟨remote, r0, -, -, hg⟩ := ha'
    obtain ⟨found, hfound⟩ := getCode_entry hg
    refine .inr ⟨a, w1, found, hfind, hp, ha, hfound, ?_⟩
    have hfin' : finishCommand now (some a) w1 = (o, w') := hfin
    rw [← hfin']
    simp only [finishCommand, hfound]

/-- The test of `set_code` for a repetition. -/
def repeats (now : MyTimeval) (sameDecoded : Bool) (remote : IrRemote) (i : Nat) (found : IrNcode)
    (toggleBitMaskState : IrCode) (d : Decoded) : Bool :=
  sameDecoded &&
    (remote.lastCode == some i || (found.next != [] && found.current != [])) &&
    d.repeatFlag && decide (timeElapsed remote.lastSend now < 1000000) &&
    (!hasToggleBitMask remote || toggleBitMaskState == remote.toggleBitMaskState)

/-- What a report does to the other parts of a remote: nothing. -/
def SameButCodes (a b : IrRemote) : Prop := b = { a with codes := b.codes }

/-- **What the report leaves of the remotes** that are in the list then. -/
theorem reportCode_remotes (w : World) (k i : Nat) (found : IrNcode) (code : IrCode)
    (remote : IrRemote) {j : Nat} {r : IrRemote}
    (h : (w.setRemote k remote).remotes[j]? = some r) :
    ∃ r', (reportCode w k i found code remote).2.remotes[j]? = some r' ∧ SameButCodes r r' := by
  have hclear : ((w.setRemote k remote).remotes.map clearCurrent)[j]? = some (clearCurrent r) := by
    rw [List.getElem?_map, h]
    rfl
  unfold reportCode
  split
  · exact ⟨r, h, rfl⟩
  · dsimp only
    split
    · show ∃ r', (List.set _ k _)[j]? = some r' ∧ _
      rw [List.getElem?_set]
      by_cases hjk : k = j
      · subst hjk
        have hr : r = remote := by
          have hlt : k < w.remotes.length := by
            have hlt := (List.getElem?_eq_some_iff.mp h).1
            rwa [World.setRemote, List.length_set] at hlt
          have e : (w.setRemote k remote).remotes[k]? = some remote := List.getElem?_set_self hlt
          exact Option.some.inj (h.symm.trans e)
        subst hr
        rw [if_pos rfl, if_pos (List.getElem?_eq_some_iff.mp hclear).1]
        refine ⟨_, rfl, ?_⟩
        unfold xmpCurrent clearCurrent
        dsimp only
        split <;> rfl
      · rw [if_neg hjk]
        exact ⟨_, hclear, rfl⟩
    · exact ⟨_, hclear, rfl⟩

/-! ## 5. One call after the other -/

/-- A frame that arrives: the time and the receive buffer of the call. -/
structure Call where
  now : MyTimeval
  buf : Rbuf
  deriving DecidableEq, Repr

/-- What one call did: the world it found, the remote that accepted the frame,
    and the outcome. -/
structure Entry where
  now : MyTimeval
  before : World
  accept : Option Accept
  outcome : Outcome
  deriving DecidableEq, Repr

/-- The remote that accepts in one call. -/
def acceptOf (fuel : Nat) (now : MyTimeval) (w : World) : Option Accept :=
  (findRemote fuel now w.remotes.length 0 w).bind (·.1)

/-- The calls of `decodeCommand`, one for each frame. -/
def runCalls (fuel : Nat) : List Call → World → Option (List Entry × World)
  | [], w => some ([], w)
  | c :: calls, w =>
    match decodeCommand fuel c.now { w with buf := c.buf } with
    | none => none
    | some (o, w') =>
      (runCalls fuel calls w').map fun (log, w') =>
        (⟨c.now, { w with buf := c.buf }, acceptOf fuel c.now { w with buf := c.buf }, o⟩ :: log, w')

end WinLirc
