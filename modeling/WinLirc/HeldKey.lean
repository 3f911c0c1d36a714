/-
  File:      WinLirc/HeldKey.lean
  Subject:   A key that is held: `decodeIR` of the plugins, call after call, on the
             frames of one key.

  * `decodeIR`, `decodeIRs`: `clear_rec_buffer` and `decodeCommand`, again and
    again, on what the hardware delivers;
  * `Holding`: the remote behind `n` frames, the buffer at the gap behind them;
  * `holding_frame`, `holding_repeat`: one frame more, or one repeat frame;
  * `holding_run`: any number of frames, noisy within the tolerances, each of
    them reported.
-/
import WinLirc.NoisyFrame
import WinLirc.Repeats

namespace WinLirc

open Signal

/-! ## 1. The calls -/

/-- `decodeIR` of a plugin, data being ready. -/
def decodeIR (fuel : Nat) (now : MyTimeval) (w : World) : Option (Outcome × World) :=
  decodeCommand fuel now { w with buf := clearRecBuffer w.recMode w.buf }

/-- The calls at the given times, and what each of them reports. -/
def decodeIRs (fuel : Nat) : List MyTimeval → World → Option (List Outcome × World)
  | [], w => some ([], w)
  | now :: nows, w =>
    match decodeIR fuel now w with
    | none => none
    | some (o, w) => (decodeIRs fuel nows w).map fun (os, w) => (o :: os, w)

/-! ## 2. The remote at another time -/

/-- `b` is the remote `a` at another time, its pulses included. -/
def Steady (a b : IrRemote) : Prop :=
  b = { a with
    codes := b.codes, toggleBitMaskState := b.toggleBitMaskState, toggleMaskState := b.toggleMaskState,
    lastCode := b.lastCode, toggleCode := b.toggleCode, reps := b.reps, lastSend := b.lastSend,
    minRemainingGap := b.minRemainingGap, maxRemainingGap := b.maxRemainingGap }

section Steady

variable {a b : IrRemote}

theorem SameConfig.steady (h : SameConfig a b) (h1 : b.pone = a.pone) (h2 : b.sone = a.sone) : Steady a b := by
  unfold SameConfig at h
  rw [h1, h2] at h
  exact h

theorem Steady.spaceEnc (h : Steady a b) (hS : SpaceEnc a) : SpaceEnc b := by
  rw [h]
  exact ⟨hS.protocol, hS.rc6, hS.toggleBit, hS.toggle, hS.plead, hS.pone, hS.sone, hS.pzero, hS.szero⟩

theorem Steady.expect (h : Steady a b) : WinLirc.expect b = WinLirc.expect a := by
  rw [h]
  rfl

theorem Steady.expectAtLeast (h : Steady a b) : WinLirc.expectAtLeast b = WinLirc.expectAtLeast a := by
  rw [h]
  rfl

theorem Steady.expectAtMost (h : Steady a b) : WinLirc.expectAtMost b = WinLirc.expectAtMost a := by
  rw [h]
  rfl

theorem Steady.expected (h : Steady a b) : Expected b = Expected a := by
  unfold Expected
  rw [h.expect]

theorem Steady.disjoint (h : Steady a b) (hdis : TolerancesDisjoint a) : TolerancesDisjoint b := by
  have h1 : b.pone = a.pone ∧ b.pzero = a.pzero ∧ b.sone = a.sone ∧ b.szero = a.szero := by
    rw [h]
    exact ⟨rfl, rfl, rfl, rfl⟩
  unfold TolerancesDisjoint
  rw [h.expect, h1.1, h1.2.1, h1.2.2.1, h1.2.2.2]
  exact hdis

theorem Steady.within (h : Steady a b) {pre code post : IrCode} (hw : Within a pre code post) :
    Within b pre code post := by
  rw [h]
  exact ⟨⟨hw.preBits, hw.codeBits, hw.postBits, hw.count⟩, hw.pre, hw.code, hw.post⟩

theorem Steady.repeatSignal (h : Steady a b) : kindSignal b .repeatFrame = kindSignal a .repeatFrame := by
  rw [h]
  rfl

/-- The signal of a frame does not change. -/
theorem Steady.frameSignal (h : Steady a b) (hS : SpaceEnc a) (hw : Widths a) (pre code post : IrCode) :
    headerSignal b ++ frameOps b pre code post = headerSignal a ++ frameOps a pre code post := by
  have hS' := h.spaceEnc hS
  have hw' : Widths b := by
    rw [h]
    exact ⟨hw.preBits, hw.codeBits, hw.postBits, hw.count⟩
  have hsymbols (bit : Int) (vs : List Bool) : symbols b bit vs = symbols a bit vs := by
    induction vs generalizing bit with
    | nil => rfl
    | cons one vs ih =>
      rw [symbols, symbols, hS'.symbol, hS.symbol, ih, h]
  rw [h] at hS' hw' hsymbols ⊢
  have h1 := (hS'.dataSignal_eq hw' .pre pre).trans
    ((hsymbols _ _).trans (hS.dataSignal_eq hw .pre pre).symm)
  have h2 := (hS'.dataSignal_eq hw' .code code).trans
    ((hsymbols _ _).trans (hS.dataSignal_eq hw .code code).symm)
  have h3 := (hS'.dataSignal_eq hw' .post post).trans
    ((hsymbols _ _).trans (hS.dataSignal_eq hw .post post).symm)
  unfold frameOps preOps codeOps postOps
  rw [h1, h2, h3]
  rfl

end Steady

/-! ## 3. One call -/

theorem reportCode_world (w : World) (k i : Nat) (found : IrNcode) (code : IrCode) (remote : IrRemote) :
    (reportCode w k i found code remote).2.buf = w.buf ∧
      (reportCode w k i found code remote).2.recMode = w.recMode ∧
      (reportCode w k i found code remote).2.lastRemote = w.lastRemote := by
  unfold reportCode
  split
  · exact ⟨rfl, rfl, rfl⟩
  · dsimp only
    split
    · exact ⟨rfl, rfl, rfl⟩
    · exact ⟨rfl, rfl, rfl⟩

section Call

variable {base remote : IrRemote} {c : IrNcode} {j n fuel : Nat} {last now : MyTimeval} {w : World}

/-- Its own data pass the check. -/
theorem passesCheck_own (remote : IrRemote) {f : Fields} (hpre : f.pre = remote.preData)
    (hpost : f.post = remote.postData) : PassesCheck remote f := by
  unfold PassesCheck preMatches postMatches
  rw [hpre, hpost, bne_self_eq_false, bne_self_eq_false, Bool.and_false, Bool.and_false]
  exact ⟨rfl, rfl⟩

/-- **A frame of the first remote**: what `decodeCommand` reports of it, and the
    state behind it. -/
theorem counting_frame (hb : SequenceRemote base) (hcleared : ∀ c ∈ base.codes, c.current = [])
    (hentry : base.codes[j]? = some c) (h : Counting base 0 j c last w n remote) {d : Decoded} {b' : Rbuf}
    (hdecode : receiveDecode fuel (w.env now 0) remote w.buf = some (some d, remote, b'))
    (hp : PassesCheck base d.fields) (hpart : (parts c)[n % (parts c).length]? = some d.code)
    (hflag : d.repeatFlag = decide (n ≠ 0)) (htime : 0 < n → timeElapsed last now < 1000000) :
    ∃ w' remote', decodeCommand fuel now w = some (expectedOutcome base c n, w') ∧
      Counting base 0 j c now w' (n + 1) remote' ∧
      (w'.buf = b' ∧ w'.recMode = w.recMode ∧ w'.lastRemote = some 0) ∧
      remote'.minRemainingGap = d.minRemainingGap ∧ remote'.maxRemainingGap = d.maxRemainingGap ∧
      remote'.pone = remote.pone ∧ remote'.sone = remote.sone := by
  have hpos : 0 < (parts c).length := List.length_pos_of_ne_nil (parts_ne_nil c)
  obtain ⟨t, hg⟩ := getCode_behind hb hcleared hentry h.config h.codes (Nat.mod_lt n hpos) hp hpart
  have hlen : 0 < w.remotes.length := (List.getElem?_eq_some_iff.mp h.here).1
  have hj : j < base.codes.length := (List.getElem?_eq_some_iff.mp hentry).1
  obtain ⟨r, hr⟩ : ∃ r : IrRemote, r = { remote with
    codes := base.codes.set j (behind c (n % (parts c).length + 1)) } := ⟨_, rfl⟩
  rw [← hr] at hg
  have hcodes : r.codes[j]? = some (behind c (n % (parts c).length + 1)) := by
    rw [hr]
    exact List.getElem?_set_self hj
  have hsame : r.pone = remote.pone ∧ r.sone = remote.sone := by
    rw [hr]
    exact ⟨rfl, rfl⟩
  have htry : tryRemote fuel now 0 remote w = some (some (d, j, t), r, b') := by
    have hfields : (⟨d.pre, d.code, d.post⟩ : Fields) = d.fields := rfl
    unfold tryRemote
    rw [hdecode]
    dsimp only
    rw [hfields, hg]
  have hfind : findRemote fuel now w.remotes.length 0 w = some (some ⟨0, d, j, t, r⟩, { w with buf := b' }) := by
    obtain ⟨m, hm⟩ : ∃ m, w.remotes.length = m + 1 := ⟨w.remotes.length - 1, by omega⟩
    rw [hm, findRemote, h.here]
    dsimp only
    rw [htry]
  obtain ⟨o, w', haccept⟩ : ∃ o w', acceptFrame now ⟨0, d, j, t, r⟩ (behind c (n % (parts c).length + 1))
      { w with buf := b' } = (o, w') := ⟨_, _, rfl⟩
  have hcall : decodeCommand fuel now w = some (o, w') := by
    rw [decodeCommand_eq, hfind, Option.map_some]
    unfold finishCommand
    dsimp only
    rw [hcodes]
    exact congrArg some haccept
  have hacc : acceptOf fuel now w = some ⟨0, d, j, t, r⟩ := by
    unfold acceptOf
    rw [hfind]
    rfl
  obtain ⟨⟨remote', hcount⟩, ho⟩ := counting_call hb hcleared hentry h hcall hacc rfl hp hpart hflag htime
  rw [← ho]
  refine ⟨w', remote', hcall, hcount, ?_⟩
  -- what `set_code` remembers, and what the report leaves of it
  have hrest := setCode_rest now (w.lastDecoded == some 0) r j (behind c (n % (parts c).length + 1)) t d
  unfold acceptFrame at haccept
  dsimp only at haccept
  generalize setCode now (w.lastDecoded == some 0) r j (behind c (n % (parts c).length + 1)) t d = x
    at hrest haccept
  obtain ⟨code, remote2⟩ := x
  dsimp only at hrest haccept
  have hworld := reportCode_world { w with lastRemote := some 0, lastDecoded := some 0, buf := b' } 0 j
    (behind c (n % (parts c).length + 1)) code remote2
  obtain ⟨r', hr', hbut⟩ := @reportCode_remotes { w with lastRemote := some 0, lastDecoded := some 0, buf := b' } 0 j
    (behind c (n % (parts c).length + 1)) code remote2 0 _ (List.getElem?_set_self hlen)
  rw [haccept] at hworld hr'
  obtain rfl := Option.some.inj (hcount.here.symm.trans hr')
  refine ⟨hworld, ?_⟩
  rw [hbut, hrest]
  exact ⟨rfl, rfl, hsame⟩

end Call

/-! ## 4. The frames of a key -/

/-- The remotes whose keys are held here: space-encoded, with a trailing pulse;
    no two codes share a part, and the tolerances tell the bits apart. -/
structure HeldRemote (base : IrRemote) : Prop where
  spaceEnc : SpaceEnc base
  sequence : SequenceRemote base
  cleared : ∀ c ∈ base.codes, c.current = []
  widths : Widths base
  trail : 0 < base.ptrail
  header : hasFlag base NO_HEAD_REP = false
  disjoint : TolerancesDisjoint base
  minCodeRepeat : hasRepeat base = true → base.minCodeRepeat ≤ 0

/-- The tolerances tell the bits apart if those of their spaces do not meet. -/
theorem disjoint_of_spaces {remote : IrRemote}
    (h : remote.szero + max ((remote.szero * remote.eps).tdiv 100) remote.aeps <
      remote.sone - max ((remote.sone * remote.eps).tdiv 100) remote.aeps) : TolerancesDisjoint remote := by
  refine .inr fun d => ?_
  rintro ⟨h1, h0⟩
  unfold expect at h1 h0
  rw [Bool.or_eq_true, decide_eq_true_eq, decide_eq_true_eq] at h1 h0
  omega

/-- The gap that must follow a frame, a repeat frame or not, that took `sum`. -/
def leastGap (base : IrRemote) (rep : Bool) (sum : Int) : Int :=
  if rep then gapAfterRepeat base (minGap base) sum else gapAfterFrame base sum

/-- The longest gap behind a frame that makes the next one a repetition. -/
def mostGap (base : IrRemote) (sum : Int) : Int :=
  if isConst base then restOfGap (maxGap base) sum else maxGap base

/-- The signal of a frame of a part, or of a repeat frame. -/
def heldSignal (base : IrRemote) (rep : Bool) (part : IrCode) : List Emission :=
  if rep then kindSignal base .repeatFrame else headerSignal base ++ frameOps base base.preData part base.postData

/-- **A frame that is heard**, every time of it within the tolerance, and the
    gap behind it. -/
structure HeardTimes (base : IrRemote) (rep : Bool) (part : IrCode) (times : List Int) (g : Int) : Prop where
  heard : List.Forall₂ (Expected base) times ((heldSignal base rep part).map Prod.snd)
  mask : ∀ x ∈ times, x ≤ PULSE_MASK
  gap : 0 < g ∧ g ≤ PULSE_MASK
  least : expectAtLeast base g (leastGap base rep times.sum) = true

/-- A frame is a repeat frame if the remote has one, the first frame apart. -/
def isRepetition (base : IrRemote) (n : Nat) : Bool := hasRepeat base && decide (n ≠ 0)

/-- **The frames of a key that is held**, from the `n`th on: the parts of its
    code again and again, or repeat frames. Without repeat frames no gap but the
    last may be longer than the remote's. -/
def HeldFrames (base : IrRemote) (c : IrNcode) : Nat → List (List Int × Int) → Prop
  | _, [] => True
  | n, (times, g) :: frames =>
    (∃ part, (parts c)[n % (parts c).length]? = some part ∧ HeardTimes base (isRepetition base n) part times g) ∧
    (hasRepeat base = false → frames ≠ [] → expectAtMost base g (mostGap base times.sum) = true) ∧
    HeldFrames base c (n + 1) frames

/-- The samples of frames and the gaps behind them. -/
def framesSamples (frames : List (List Int × Int)) : List Int :=
  frames.flatMap fun f => marked 0 (f.1 ++ [f.2])

/-- **The receiver in front of the gap `g`**, `extra` behind it; the first remote
    is the one heard last, if any was. -/
structure AtSpace (base : IrRemote) (w : World) (g : Int) (extra : List Int) (remote : IrRemote) : Prop where
  pulses : remote.pone = base.pone ∧ remote.sone = base.sone
  mode : isSampleMode w.recMode = true
  heard : w.lastRemote = none ∨ w.lastRemote = some 0
  synced : w.lastRemote = some 0 → expectAtLeast base g remote.minRemainingGap = true
  gap : 0 < g ∧ g ≤ PULSE_MASK
  tape : (clearRecBuffer w.recMode w.buf).data ++ (clearRecBuffer w.recMode w.buf).input = g :: extra
  cap : (clearRecBuffer w.recMode w.buf).data.length ≤ RBUF_SIZE

/-- **The receiver behind `n` frames of a key**, the last at time `last`. -/
structure Holding (base : IrRemote) (j : Nat) (c : IrNcode) (last : MyTimeval) (w : World) (n : Nat) (g : Int)
    (extra : List Int) (remote : IrRemote) : Prop extends
    Counting base 0 j c last w n remote, AtSpace base w g extra remote where
  behind : 0 < n → w.lastRemote = some 0

section Holding

variable {base remote : IrRemote} {c : IrNcode} {j n fuel : Nat} {last now : MyTimeval} {w : World} {g g' : Int}
  {times extra : List Int} {part : IrCode}

theorem Holding.steady (h : Holding base j c last w n g extra remote) : Steady base remote :=
  h.config.steady h.pulses.1 h.pulses.2

theorem notLirccode {recMode : Nat} (h : isSampleMode recMode = true) : recMode ≠ LIRC_MODE_LIRCCODE := by
  rintro rfl
  exact absurd h (by decide)

/-- What `sync_rec_buffer` looks at. -/
theorem Holding.env (h : Holding base j c last w n g extra remote) (now : MyTimeval) (b : Rbuf) :
    Synced (World.env { w with buf := b } now 0).lastRemote g := by
  intro heard hl
  unfold World.env at hl
  dsimp only at hl
  rcases h.heard with h0 | h0
  · rw [h0] at hl
    exact nomatch hl
  · rw [h0, Option.bind_some, h.here] at hl
    obtain rfl := Option.some.inj hl
    rw [h.steady.expectAtLeast]
    exact h.synced h0

/-- **One call**, whatever kind of frame it is given. -/
theorem Holding.call (hB : HeldRemote base) (hentry : base.codes[j]? = some c)
    (h : Holding base j c last w n g extra remote) {d : Decoded} {b' : Rbuf} {extra' : List Int}
    (hdecode : receiveDecode fuel (World.env { w with buf := clearRecBuffer w.recMode w.buf } now 0) remote
      (clearRecBuffer w.recMode w.buf) = some (some d, remote, b'))
    (hp : PassesCheck base d.fields) (hpart : (parts c)[n % (parts c).length]? = some d.code)
    (hflag : d.repeatFlag = decide (n ≠ 0)) (htime : 0 < n → timeElapsed last now < 1000000)
    (hgap : AtGap b' g' extra') (hg' : 0 < g' ∧ g' ≤ PULSE_MASK)
    (hleast : expectAtLeast base g' d.minRemainingGap = true) :
    ∃ w' remote', decodeIR fuel now w = some (expectedOutcome base c n, w') ∧
      Holding base j c now w' (n + 1) g' extra' remote' ∧ remote'.maxRemainingGap = d.maxRemainingGap := by
  have hcount : Counting base 0 j c last { w with buf := clearRecBuffer w.recMode w.buf } n remote :=
    ⟨h.here, h.config, h.codes, h.decoded, h.sent, h.reps, h.code⟩
  obtain ⟨w', remote', hcall, hcount', ⟨hbuf, hmode, hlast⟩, hmin, hmax, hpone, hsone⟩ :=
    counting_frame hB.sequence hB.cleared hentry hcount hdecode hp hpart hflag htime
  have hmode' : isSampleMode w'.recMode = true := by
    rw [hmode]
    exact h.mode
  obtain ⟨htape, hcap⟩ := hgap.clear (notLirccode hmode')
  rw [← hbuf] at htape hcap
  exact ⟨w', remote', hcall, ⟨hcount', ⟨⟨hpone.trans h.pulses.1, hsone.trans h.pulses.2⟩, hmode', .inr hlast,
    fun _ => by rw [hmin]; exact hleast, hg', htape, hcap⟩, fun _ => hlast⟩, hmax⟩

/-- The gaps that a frame leaves. -/
theorem decodedFrame_gaps (h : Steady base remote) (hS : SpaceEnc base) (env : DecodeEnv) (sync : Int)
    (values : IrCode × IrCode × IrCode) (b : Rbuf) :
    (decodedFrame env remote sync values b).minRemainingGap = gapAfterFrame base b.sum ∧
      (decodedFrame env remote sync values b).maxRemainingGap = mostGap base b.sum := by
  have hrcmm := hS.bitCoded.rcmm
  unfold decodedFrame gapAfterFrame mostGap
  rw [hrcmm, if_neg Bool.false_ne_true, h]
  exact ⟨rfl, rfl⟩

/-- **A frame is a repetition** if it is not the first. -/
theorem decodedFrame_repeat (hB : HeldRemote base) (h : Holding base j c last w n g extra remote)
    (hmost : hasRepeat base = false → expectAtMost base g remote.maxRemainingGap = decide (n ≠ 0))
    (hrep : hasRepeat base = true → n = 0) (now : MyTimeval) (values : IrCode × IrCode × IrCode) (b b' : Rbuf) :
    (decodedFrame (World.env { w with buf := b } now 0) remote g values b').repeatFlag = decide (n ≠ 0) := by
  have hsteady := h.steady
  have hmode : (w.recMode == LIRC_MODE_LIRCCODE) = false := beq_eq_false_iff_ne.mpr (notLirccode h.mode)
  have hrepeat : hasRepeat remote = hasRepeat base := by
    rw [hsteady]
    rfl
  unfold decodedFrame World.env
  dsimp only
  rw [hmode, Bool.false_and, Bool.or_false, hrepeat, hsteady.expectAtMost]
  cases hr : hasRepeat base with
  | false =>
    rw [Bool.not_false, Bool.true_or, Bool.true_and]
    exact hmost hr
  | true =>
    have hcount : remote.minCodeRepeat ≤ 0 := by
      rw [hsteady]
      exact hB.minCodeRepeat hr
    have hreps : 0 ≤ remote.reps % 2 ^ 32 := Int.emod_nonneg _ (by decide)
    rw [hrep hr, decide_eq_false (by omega : ¬ remote.reps % 2 ^ 32 < remote.minCodeRepeat)]
    rfl

/-- **One frame more.** -/
theorem holding_frame (hB : HeldRemote base) (hentry : base.codes[j]? = some c)
    (h : Holding base j c last w n g (marked 0 (times ++ [g']) ++ extra) remote)
    (hpart : (parts c)[n % (parts c).length]? = some part) (hw : Within base base.preData part base.postData)
    (hheard : HeardTimes base false part times g')
    (hmost : hasRepeat base = false → expectAtMost base g remote.maxRemainingGap = decide (n ≠ 0))
    (hrep : hasRepeat base = true → n = 0)
    (hnew : hasRepeat base = true → w.lastRemote = some 0 → NotRepeat base times)
    (htime : 0 < n → timeElapsed last now < 1000000) :
    ∃ w' remote', decodeIR fuel now w = some (expectedOutcome base c n, w') ∧
      Holding base j c now w' (n + 1) g' extra remote' ∧
      remote'.maxRemainingGap = mostGap base times.sum := by
  have hsteady := h.steady
  have hsync := h.env now (clearRecBuffer w.recMode w.buf)
  have htimes := hheard.heard
  unfold heldSignal at htimes
  rw [if_neg Bool.false_ne_true, ← hsteady.frameSignal hB.spaceEnc hB.widths, ← hsteady.expected] at htimes
  have hmin (sum : Int) : gapAfterFrame remote sum = gapAfterFrame base sum := by
    rw [hsteady]
    rfl
  have hleast : expectAtLeast base g' (gapAfterFrame base times.sum) = true := hheard.least
  have hfirst : (hasRepeat remote &&
      (World.env { w with buf := clearRecBuffer w.recMode w.buf } now 0).lastIsRemote) = true →
      NotRepeat remote times := by
    intro hr
    rw [hsteady, Bool.and_eq_true] at hr
    rw [hsteady]
    exact hnew hr.1 (beq_iff_eq.mp hr.2)
  obtain ⟨b', hdecode, hsum, hgap⟩ := receive_noisy (hsteady.spaceEnc hB.spaceEnc)
    (by rw [hsteady]; exact hB.trail) (by rw [hsteady]; exact hB.header) (hsteady.disjoint hB.disjoint)
    (hsteady.within hw) htimes hheard.mask h.gap hheard.gap
    (by rw [hsteady.expectAtLeast, hmin]; exact hleast) h.mode hsync hfirst h.tape h.cap fuel
  obtain ⟨hmin', hmax'⟩ := decodedFrame_gaps hsteady hB.spaceEnc
    (World.env { w with buf := clearRecBuffer w.recMode w.buf } now 0) g (base.preData, part, base.postData) b'
  rw [hsum] at hmin' hmax'
  obtain ⟨w', remote', hcall, hnext, hmax⟩ := Holding.call hB hentry h hdecode (passesCheck_own base rfl rfl) hpart
    (decodedFrame_repeat hB h hmost hrep now _ _ b') htime hgap hheard.gap (by rw [hmin']; exact hleast)
  exact ⟨w', remote', hcall, hnext, hmax.trans hmax'⟩

/-- **One repeat frame more**, of a code of one part. -/
theorem holding_repeat (hB : HeldRemote base) (hentry : base.codes[j]? = some c) (hone : c.next = [])
    (h : Holding base j c last w n g (marked 0 (times ++ [g']) ++ extra) remote) (hn : 0 < n)
    (hrep : hasRepeat base = true) (hheard : HeardTimes base true part times g')
    (htime : 0 < n → timeElapsed last now < 1000000) :
    ∃ w' remote', decodeIR fuel now w = some (expectedOutcome base c n, w') ∧
      Holding base j c now w' (n + 1) g' extra remote' := by
  have hsteady := h.steady
  have hsync := h.env now (clearRecBuffer w.recMode w.buf)
  have hlast : (World.env { w with buf := clearRecBuffer w.recMode w.buf } now 0).lastIsRemote = true :=
    beq_iff_eq.mpr (h.behind hn)
  have htimes : List.Forall₂ (Expected remote) times ((kindSignal remote .repeatFrame).map Prod.snd) := by
    rw [hsteady.expected, hsteady.repeatSignal]
    exact hheard.heard
  have hlen : (parts c).length = 1 := by
    rw [length_parts, hone]
    rfl
  have hcode : remote.lastCode = some j := h.code (by rw [hlen]; exact hn)
  have hgaps (gap sum : Int) : gapAfterRepeat remote gap sum = gapAfterRepeat base gap sum ∧
      minGap remote = minGap base ∧ hasRepeat remote = hasRepeat base := by
    rw [hsteady]
    exact ⟨rfl, rfl, rfl⟩
  have hleast : expectAtLeast base g' (gapAfterRepeat base (minGap base) times.sum) = true := hheard.least
  obtain ⟨b', hdecode, hsum, hgap⟩ := receive_repeat (hsteady.spaceEnc hB.spaceEnc)
    (by rw [hsteady]; exact hB.trail) (by rw [hsteady]; exact hB.header)
    (by rw [(hgaps 0 0).2.2]; exact hrep) htimes hheard.mask h.gap hheard.gap
    (by rw [hsteady.expectAtLeast, (hgaps _ _).1, (hgaps 0 0).2.1]; exact hleast) h.mode hsync
    hlast hcode h.tape h.cap fuel
  have hj : j < base.codes.length := (List.getElem?_eq_some_iff.mp hentry).1
  have hfound : (remote.codes[j]?.map (·.code)).getD 0 = c.code := by
    rw [h.codes, List.getElem?_set_self hj]
    rfl
  rw [hfound] at hdecode
  have hmin' : (decodedRepeat remote c.code b').minRemainingGap = gapAfterRepeat base (minGap base) times.sum := by
    show gapAfterRepeat remote (minGap remote) b'.sum = _
    rw [(hgaps _ _).1, (hgaps 0 0).2.1, hsum]
  have hdata : remote.preData = base.preData ∧ remote.postData = base.postData := by
    rw [hsteady]
    exact ⟨rfl, rfl⟩
  obtain ⟨w', remote', hcall, hnext, -⟩ := Holding.call hB hentry h hdecode
    (passesCheck_own base hdata.1 hdata.2)
    (by rw [hlen, Nat.mod_one]; rfl) (decide_eq_true (Nat.ne_of_gt hn)).symm htime hgap hheard.gap
    (by rw [hmin']; exact hleast)
  exact ⟨w', remote', hcall, hnext⟩

end Holding

/-! ## 5. Any number of frames -/

section Run

variable {base remote : IrRemote} {c : IrNcode} {j n : Nat} {last : MyTimeval} {w : World} {g : Int}
  {extra : List Int} {frames : List (List Int × Int)} {nows : List MyTimeval}

/-- Every call comes within a second of the one before. -/
def WithinSecond (nows : List MyTimeval) : Prop :=
  nows.IsChain fun last now => timeElapsed last now < 1000000

/-- The gap behind the last frame is too long for a repetition. -/
def Released (base : IrRemote) : List (List Int × Int) → Prop
  | [] => True
  | [f] => expectAtMost base f.2 (mostGap base f.1.sum) = false
  | _ :: f :: frames => Released base (f :: frames)

/-- The first frame of a key is no repeat frame. -/
def FirstFrame (base : IrRemote) (frames : List (List Int × Int)) : Prop :=
  ∀ f ∈ frames.head?, NotRepeat base f.1

/-- **Any number of frames of a key.** -/
theorem holding_run (hB : HeldRemote base) (hentry : base.codes[j]? = some c)
    (hw : ∀ part ∈ parts c, Within base base.preData part base.postData) (hone : hasRepeat base = true → c.next = [])
    (hlen : nows.length = frames.length) (h : Holding base j c last w n g (framesSamples frames ++ extra) remote)
    (hframes : HeldFrames base c n frames)
    (hmost : hasRepeat base = false → frames ≠ [] → expectAtMost base g remote.maxRemainingGap = decide (n ≠ 0))
    (hnew : hasRepeat base = true → n = 0 → w.lastRemote = some 0 → FirstFrame base frames)
    (htime : WithinSecond (last :: nows)) (fuel : Nat) :
    ∃ w' last' g' remote', decodeIRs fuel nows w =
        some ((List.range' n frames.length).map (expectedOutcome base c), w') ∧
      Holding base j c last' w' (n + frames.length) g' extra remote' ∧
      (hasRepeat base = false → frames ≠ [] → Released base frames →
        expectAtMost base g' remote'.maxRemainingGap = false) := by
  induction frames generalizing nows n last w g remote with
  | nil =>
    obtain rfl := List.length_eq_zero_iff.mp hlen
    exact ⟨w, last, g, remote, rfl, h, fun _ hne => absurd rfl hne⟩
  | cons f frames ih =>
    obtain ⟨times, g'⟩ := f
    obtain ⟨now, nows, rfl⟩ := List.exists_cons_of_length_eq_add_one hlen
    obtain ⟨⟨part, hpart, hheard⟩, hnext, hrest⟩ := hframes
    obtain ⟨hnow, hlater⟩ := List.isChain_cons_cons.mp htime
    have hextra : framesSamples ((times, g') :: frames) ++ extra =
        marked 0 (times ++ [g']) ++ (framesSamples frames ++ extra) := List.append_assoc _ _ _
    rw [hextra] at h
    have hstep : ∃ w' remote', decodeIR fuel now w = some (expectedOutcome base c n, w') ∧
        Holding base j c now w' (n + 1) g' (framesSamples frames ++ extra) remote' ∧
        (hasRepeat base = false → remote'.maxRemainingGap = mostGap base times.sum) := by
      by_cases hrep : isRepetition base n = true
      · obtain ⟨hr, hn⟩ := Bool.and_eq_true_iff.mp hrep
        rw [hrep] at hheard
        obtain ⟨w', remote', hcall, hholding⟩ :=
          holding_repeat hB hentry (hone hr) h (Nat.pos_of_ne_zero (of_decide_eq_true hn)) hr hheard fun _ => hnow
        exact ⟨w', remote', hcall, hholding, fun hno => by rw [hr] at hno; exact nomatch hno⟩
      · have hfirst (hr : hasRepeat base = true) : n = 0 := by
          by_contra hn
          exact hrep (Bool.and_eq_true_iff.mpr ⟨hr, decide_eq_true hn⟩)
        rw [Bool.not_eq_true] at hrep
        rw [hrep] at hheard
        obtain ⟨w', remote', hcall, hholding, hmax⟩ := holding_frame hB hentry h hpart
          (hw part (List.mem_of_getElem? hpart)) hheard (fun hr => hmost hr (List.cons_ne_nil _ _)) hfirst
          (fun hr h0 => hnew hr (hfirst hr) h0 (times, g') rfl) fun _ => hnow
        exact ⟨w', remote', hcall, hholding, fun _ => hmax⟩
    obtain ⟨w', remote', hcall, hholding, hmax⟩ := hstep
    obtain ⟨w'', last', g'', remote'', hrun, hend, hrel⟩ := ih (Nat.succ.inj hlen) hholding hrest
      (fun hr hne => by rw [hmax hr]; exact hnext hr hne) (fun _ h0 => absurd h0 (Nat.succ_ne_zero n)) hlater
    cases frames with
    | nil =>
      obtain rfl := List.length_eq_zero_iff.mp (Nat.succ.inj hlen)
      refine ⟨w', now, g', remote', ?_, hholding, fun hr _ hreleased => ?_⟩
      · rw [decodeIRs, hcall]
        rfl
      · rw [hmax hr]
        exact hreleased
    | cons f frames =>
      refine ⟨w'', last', g'', remote'', ?_, ?_, fun hr _ hreleased => hrel hr (List.cons_ne_nil _ _) hreleased⟩
      · rw [decodeIRs, hcall]
        dsimp only
        rw [hrun]
        rfl
      · rw [List.length_cons, Nat.add_comm (List.length _) 1, ← Nat.add_assoc]
        exact hend

theorem decodeIRs_append {fuel : Nat} {nows' : List MyTimeval} {os os' : List Outcome} {w' w'' : World}
    (h : decodeIRs fuel nows w = some (os, w')) (h' : decodeIRs fuel nows' w' = some (os', w'')) :
    decodeIRs fuel (nows ++ nows') w = some (os ++ os', w'') := by
  induction nows generalizing w os with
  | nil =>
    obtain ⟨rfl, rfl⟩ := Prod.mk.inj (Option.some.inj h)
    exact h'
  | cons now nows ih =>
    rw [decodeIRs] at h
    rw [List.cons_append, decodeIRs]
    cases hcall : decodeIR fuel now w with
    | none =>
      rw [hcall] at h
      exact nomatch h
    | some x =>
      obtain ⟨o, w₁⟩ := x
      rw [hcall] at h
      dsimp only at h ⊢
      obtain ⟨⟨os₁, w₂⟩, hrest, heq⟩ := Option.map_eq_some_iff.mp h
      obtain ⟨rfl, rfl⟩ := Prod.mk.inj heq
      rw [ih hrest]
      rfl

end Run

end WinLirc
