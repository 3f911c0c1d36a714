/-
  File:      WinLirc/SentKey.lean
  Subject:   The frames that `init_send` sends for a key are those of a key that
             is held.

  * `gap_sent`: the receiver expects the gap that was sent;
  * `sent_frames`: the transmission, frame by frame;
  * `heldKey_sent`: every frame of it is reported.
-/
import WinLirc.KeyStrokes

namespace WinLirc

open Signal

/-! ## 1. The tape of a transmission -/

/-- A signal that ends in a pulse is written as it is. -/
theorem flushed_of_polarFrom {s : List Emission} (hpos : Positive s) (hs : ∀ g, PolarFrom 0 (s ++ [(.space, g)])) :
    PulseFirst s ∧ flushed s = s := by
  have hfirst : PulseFirst s := by
    have h0 := hs 0
    cases s with
    | nil => exact nomatch h0.1
    | cons e s => exact congrArg some h0.1
  obtain ⟨-, -, -, hco⟩ := flushed_cases hpos hfirst
  have hsnoc := hco 0
  rw [coalesce_of_alternating (alternating_of_polarFrom (hs 0))] at hsnoc
  exact ⟨hfirst, (List.append_inj_left' hsnoc rfl).symm⟩

/-- Frames behind each other are one tape if each takes an even number of samples. -/
theorem framesSamples_eq {frames : List (List Int × Int)} (h : ∀ f ∈ frames, f.1.length % 2 = 1) :
    framesSamples frames = marked 0 (frames.flatMap fun f => f.1 ++ [f.2]) := by
  induction frames with
  | nil => rfl
  | cons f frames ih =>
    obtain ⟨hf, hframes⟩ := List.forall_mem_cons.mp h
    have hlen : (0 + (f.1 ++ [f.2]).length) % 2 = 0 := by
      rw [List.length_append, List.length_singleton]
      omega
    rw [List.flatMap_cons, marked_append, marked_mod_two (0 + _), hlen, ← ih hframes]
    rfl

/-! ## 2. One frame -/

section Sent

variable {base remote : IrRemote} {c : IrNcode} {part : IrCode} {kind : FrameKind} {rep : Bool} {g : Int}
  {times : List Int}
  {j n fuel : Nat} {repeats : Int} {res : SendResult} {nows : List MyTimeval} {w : World} {g₀ : Int}

theorem heldSignal_polar (hB : HeldRemote base) (rep : Bool) (part : IrCode) (g : Int) :
    PolarFrom 0 (heldSignal base rep part ++ [(.space, g)]) := by
  unfold heldSignal
  split
  · exact polarFrom_repeat hB.spaceEnc hB.trail g
  · exact polarFrom_frame hB.spaceEnc.plead (ne_of_gt hB.trail) (fun hs value => by
      rw [hB.spaceEnc.dataSignal_eq hB.widths hs]
      exact hB.spaceEnc.pairs_symbols _ _) base.preData part base.postData g

theorem heldSignal_positive (hB : HeldRemote base) (hrep : rep = true → hasRepeat base = true) (part : IrCode) :
    Positive (heldSignal base rep part) := by
  have hframe := hB.spaceEnc.positive (le_of_lt hB.trail) hB.widths base.preData part base.postData
  unfold heldSignal
  split
  · next hr =>
    obtain ⟨hp, hs⟩ : 0 < base.prepeat ∧ 0 < base.srepeat := by
      have h := hrep hr
      unfold hasRepeat at h
      rw [Bool.and_eq_true, decide_eq_true_eq, decide_eq_true_eq] at h
      exact h
    rw [repeatFrame_signal hB.spaceEnc hB.trail]
    refine Positive.append ?_ (positive_cons hp (positive_cons hs (positive_cons hB.trail positive_nil)))
    split
    · exact fun e he => hframe e (List.mem_append_left _ he)
    · exact positive_nil
  · exact hframe

/-- The kind of a frame that `init_send` sends for a part. -/
structure SentAs (base : IrRemote) (rep : Bool) (part : IrCode) (kind : FrameKind) : Prop where
  signal : kindSignal base kind = heldSignal base rep part
  cut : kindCut base kind = 0
  repeatFrame : (kind == .repeatFrame) = rep
  hasRepeat : rep = true → hasRepeat base = true

/-- The kinds of a transmission of one part. -/
theorem sentAs_slot (hB : HeldRemote base) (hfoot : hasFlag base NO_FOOT_REP = false) (part : IrCode) (rep : Bool) :
    SentAs base (rep && hasRepeat base) part (slotKind base base.toggleMaskState part rep) := by
  have hcut (rep : Bool) : sumCut base rep = 0 := by
    unfold sumCut
    rw [hB.header, Bool.and_false, Bool.false_and, if_neg Bool.false_ne_true]
  unfold slotKind
  cases hr : rep && hasRepeat base with
  | true =>
    rw [if_pos rfl]
    exact ⟨rfl, rfl, rfl, fun _ => (Bool.and_eq_true_iff.mp hr).2⟩
  | false =>
    rw [if_neg Bool.false_ne_true, hB.spaceEnc.notRaw, Bool.not_false, if_pos rfl]
    refine ⟨?_, hcut rep, rfl, fun h => nomatch h⟩
    rw [kindSignal, codeSignal_atToggle, codeSignal_eq (fun _ => hB.header) fun _ => hfoot]
    rfl

/-- **The receiver expects the gap that was sent.** -/
theorem gap_sent (hB : HeldRemote base) (hk : SentAs base rep part kind)
    (hgap : hasRepeat base = true → isConst base = true → hasRepeatGap base = false)
    (hg : gapBehind base kind = some g) :
    leastGap base rep ((heldSignal base rep part).map Prod.snd).sum = g ∧
      (rep = false → g ≤ mostGap base ((heldSignal base rep part).map Prod.snd).sum) := by
  have hpos := heldSignal_positive hB hk.hasRepeat part
  have hflushed := (flushed_of_polarFrom hpos (heldSignal_polar hB rep part)).2
  have hle := minGap_le_maxGap base
  have hrcmm : isRcmm base = false := hB.spaceEnc.bitCoded.rcmm
  have htotal : total (heldSignal base rep part) = ((heldSignal base rep part).map Prod.snd).sum := rfl
  unfold gapBehind kindGap at hg
  rw [hk.signal, hflushed, hk.cut, sub_zero, hk.repeatFrame, htotal] at hg
  generalize ((heldSignal base rep part).map Prod.snd).sum = sum at hg ⊢
  unfold leastGap mostGap gapAfterFrame gapAfterRepeat
  rw [hrcmm, if_neg Bool.false_ne_true]
  cases hc : isConst base with
  | true =>
    have hno : (hasRepeatGap base && rep) = false := by
      cases rep with
      | false => exact Bool.and_false _
      | true => rw [hgap (hk.hasRepeat rfl) hc, Bool.false_and]
    rw [hno, if_neg Bool.false_ne_true, hc, if_pos rfl] at hg
    rw [if_pos rfl, if_pos rfl, ite_self]
    split at hg
    · next hlt =>
      obtain rfl := Option.some.inj hg
      unfold restOfGap
      rw [if_pos hlt, if_pos (lt_of_lt_of_le hlt hle)]
      exact ⟨rfl, fun _ => sub_le_sub_right hle sum⟩
    · exact nomatch hg
  | false =>
    rw [hc, if_neg Bool.false_ne_true] at hg
    rw [if_neg Bool.false_ne_true, if_neg Bool.false_ne_true, if_neg Bool.false_ne_true]
    cases rep with
    | false =>
      rw [Bool.and_false, if_neg Bool.false_ne_true] at hg
      obtain rfl := Option.some.inj hg
      exact ⟨rfl, fun _ => hle⟩
    | true =>
      rw [Bool.and_true] at hg
      refine ⟨?_, fun h => nomatch h⟩
      rw [if_pos rfl]
      split at hg
      · next hr =>
        rw [if_pos hr]
        exact Option.some.inj hg
      · next hr =>
        rw [if_neg hr]
        exact Option.some.inj hg

theorem sentFrame_eq (hB : HeldRemote base) (hk : SentAs base rep part kind) (g : Int) :
    sentFrame base g kind = heldSignal base rep part ++ [(.space, g)] := by
  unfold sentFrame
  rw [hk.signal]
  exact coalesce_of_alternating (alternating_of_polarFrom (heldSignal_polar hB rep part g))

/-- **A frame that was sent is heard**, and the gap behind it is short enough. -/
theorem heard_sent (hB : HeldRemote base) (htol : Tolerant base) (hmin : isConst base = false → 0 < minGap base)
    (hk : SentAs base rep part kind) (hgap : hasRepeat base = true → isConst base = true → hasRepeatGap base = false)
    (hg : gapBehind base kind = some g) (hmask : ∀ e ∈ sentFrame base g kind, e.2 ≤ PULSE_MASK) :
    HeardTimes base rep part ((heldSignal base rep part).map Prod.snd) g ∧
      (rep = false → expectAtMost base g (mostGap base ((heldSignal base rep part).map Prod.snd).sum) = true) := by
  have hpos := heldSignal_positive hB hk.hasRepeat part
  have hg0 : 0 < g := kindGap_pos hmin hg
  obtain ⟨hleast, hmost⟩ := gap_sent hB hk hgap hg
  rw [sentFrame_eq hB hk] at hmask
  refine ⟨⟨?_, ?_, ⟨hg0, hmask (.space, g) (List.mem_append_right _ (List.mem_singleton_self _))⟩, ?_⟩, fun h => ?_⟩
  · refine List.forall₂_same.mpr fun d hd => ?_
    obtain ⟨e, he, rfl⟩ := List.mem_map.mp hd
    exact ⟨hpos e he, expect_self htol (le_of_lt (hpos e he))⟩
  · intro d hd
    obtain ⟨e, he, rfl⟩ := List.mem_map.mp hd
    exact hmask e (List.mem_append_left _ he)
  · rw [hleast]
    exact expectAtLeast_of_le htol (le_of_lt hg0) (le_refl g)
  · have hle := hmost h
    exact expectAtMost_of_le htol (by omega) hle

/-! ## 3. The transmission -/

theorem part_single (hc : Single c) (n : Nat) : (parts c)[n % (parts c).length]? = some c.code := by
  unfold parts
  rw [hc.next, List.length_singleton, Nat.mod_one]
  rfl

/-- Repeated frames are the frames of a key that is held. -/
theorem heldFrames_replicate (hc : Single c) (hheard : HeardTimes base (hasRepeat base) c.code times g)
    (hmost : hasRepeat base = false → expectAtMost base g (mostGap base times.sum) = true) (hn : 0 < n) (r : Nat) :
    HeldFrames base c n (List.replicate r (times, g)) := by
  induction r generalizing n with
  | zero => exact trivial
  | succ r ih =>
    have hrep : isRepetition base n = hasRepeat base := by
      unfold isRepetition
      rw [decide_eq_true (Nat.ne_of_gt hn), Bool.and_true]
    rw [List.replicate_succ]
    refine ⟨⟨c.code, part_single hc n, ?_⟩, fun hr _ => hmost hr, ih (Nat.succ_pos n)⟩
    rw [hrep]
    exact hheard

/-- **What `init_send` sends for a key are frames of the key.** -/
theorem sent_frames (hB : HeldRemote base) (htol : Tolerant base) (hmin : isConst base = false → 0 < minGap base)
    (hc : Single c) (hfoot : hasFlag base NO_FOOT_REP = false)
    (hgap : hasRepeat base = true → isConst base = true → hasRepeatGap base = false)
    (h : initSend fuel base c repeats = some res) (hret : res.ret = true)
    (hmask : ∀ e ∈ res.buf.data, e.2 ≤ PULSE_MASK) :
    ∃ frames, marked 0 (res.buf.data.map Prod.snd) = framesSamples frames ∧ HeldFrames base c 0 frames ∧
      (NotRepeat base ((heldSignal base false c.code).map Prod.snd) → FirstFrame base frames) ∧
      frames.length = (max base.minRepeat repeats).toNat + 1 := by
  have hk₁ : SentAs base false c.code (slotKind base base.toggleMaskState c.code false) :=
    sentAs_slot hB hfoot c.code false
  have hk₂ : SentAs base (hasRepeat base) c.code (slotKind base base.toggleMaskState c.code true) :=
    sentAs_slot hB hfoot c.code true
  generalize hfirst : slotKind base base.toggleMaskState c.code false = first at hk₁
  generalize hagain : slotKind base base.toggleMaskState c.code true = again at hk₂
  have hpos₁ := heldSignal_positive hB hk₁.hasRepeat c.code
  have hpos₂ := heldSignal_positive hB hk₂.hasRepeat c.code
  have htm : hasToggleMask base = false := by
    unfold hasToggleMask
    rw [hB.spaceEnc.toggle]
    rfl
  obtain ⟨g, hg, hdata⟩ := initSend_single hc htm hB.spaceEnc.notRaw hmin h hret hfirst.symm hagain.symm
    (by rw [hk₁.signal]; exact hpos₁)
    (by rw [hk₁.signal]; exact (flushed_of_polarFrom hpos₁ (heldSignal_polar hB _ _)).1)
    (fun _ => by
      rw [hk₂.signal]
      exact ⟨hpos₂, (flushed_of_polarFrom hpos₂ (heldSignal_polar hB _ _)).1⟩)
  -- the gap behind the repeats, and nothing where there are none
  obtain ⟨g', hg', hall⟩ : ∃ g', (0 < (max base.minRepeat repeats).toNat → gapBehind base again = some g') ∧
      res.buf.data = sentFrame base g first ++
        (List.replicate (max base.minRepeat repeats).toNat (sentFrame base g' again)).flatten := by
    rcases hdata with ⟨hr, hdata⟩ | ⟨-, g', hg', hdata⟩
    · have hz : (max base.minRepeat repeats).toNat = 0 := Int.toNat_of_nonpos hr
      rw [hz, hdata]
      exact ⟨0, fun h0 => absurd h0 (Nat.lt_irrefl 0), (List.append_nil _).symm⟩
    · exact ⟨g', fun _ => hg', hdata⟩
  generalize (max base.minRepeat repeats).toNat = r at hall hg'
  rw [hall] at hmask
  obtain ⟨hheard, hmost⟩ := heard_sent hB htol hmin hk₁ hgap hg fun e he => hmask e (List.mem_append_left _ he)
  have hodd (rep : Bool) : ((heldSignal base rep c.code).map Prod.snd).length % 2 = 1 := by
    have hlast := (polarFrom_append.mp (heldSignal_polar hB rep c.code 0)).2.1
    rw [List.length_map]
    unfold rawLevel at hlast
    split at hlast
    · exact nomatch hlast
    · omega
  have hflat : (List.replicate r (sentFrame base g' again)).flatten.map Prod.snd =
      (List.replicate r ((heldSignal base (hasRepeat base) c.code).map Prod.snd, g')).flatMap
        fun f => f.1 ++ [f.2] := by
    rw [sentFrame_eq hB hk₂, List.map_flatten, List.map_replicate, List.flatMap_replicate, List.map_append]
    rfl
  refine ⟨((heldSignal base false c.code).map Prod.snd, g) ::
    List.replicate r ((heldSignal base (hasRepeat base) c.code).map Prod.snd, g'), ?_, ?_, ?_, ?_⟩
  · rw [framesSamples_eq fun f hf => ?_, hall, List.map_append, hflat, sentFrame_eq hB hk₁, List.map_append]
    · rfl
    · rcases List.mem_cons.mp hf with rfl | hf
      · exact hodd false
      · rw [(List.mem_replicate.mp hf).2]
        exact hodd _
  · refine ⟨⟨c.code, part_single hc 0, ?_⟩, fun _ _ => hmost rfl, ?_⟩
    · have hno : isRepetition base 0 = false := Bool.and_false _
      rw [hno]
      exact hheard
    · rcases Nat.eq_zero_or_pos r with rfl | hr
      · exact trivial
      · have hin : ∀ e ∈ sentFrame base g' again, e ∈ (List.replicate r (sentFrame base g' again)).flatten :=
          fun e he => List.mem_flatten.mpr ⟨_, List.mem_replicate.mpr ⟨ne_of_gt hr, rfl⟩, he⟩
        obtain ⟨hheard', hmost'⟩ := heard_sent hB htol hmin hk₂ hgap (hg' hr)
          fun e he => hmask e (List.mem_append_right _ (hin e he))
        exact heldFrames_replicate hc hheard' hmost' (Nat.zero_lt_one) r
  · intro hno f hf
    obtain rfl := Option.some.inj hf
    exact hno
  · rw [List.length_cons, List.length_replicate]

/-- **A key that is sent is received as held**: each frame of a transmission of
    a code of one part is decoded, repeat frames or not, and reported with the
    counters 0, 1, 2, ... -/
theorem heldKey_sent (hB : HeldRemote base) (htol : Tolerant base) (hmin : isConst base = false → 0 < minGap base)
    (hentry : base.codes[j]? = some c) (hc : Single c) (hw : Within base base.preData c.code base.postData)
    (hfoot : hasFlag base NO_FOOT_REP = false)
    (hgap : hasRepeat base = true → isConst base = true → hasRepeatGap base = false)
    (h : initSend fuel base c repeats = some res) (hret : res.ret = true)
    (hmask : ∀ e ∈ res.buf.data, e.2 ≤ PULSE_MASK)
    (hstart : NoKey base w g₀ (marked 0 (res.buf.data.map Prod.snd)) remote)
    (hnew : hasRepeat base = true → w.lastRemote = some 0 →
      NotRepeat base ((heldSignal base false c.code).map Prod.snd))
    (hlen : nows.length = (max base.minRepeat repeats).toNat + 1) (htime : WithinSecond nows) (fuel' : Nat) :
    ∃ w', decodeIRs fuel' nows w =
      some ((List.range nows.length).map fun (n : Nat) => reportMessage base c.name (reportedCode base c) n, w') := by
  obtain ⟨frames, htape, hframes, hfirst, hcount⟩ := sent_frames hB htol hmin hc hfoot hgap h hret hmask
  rw [htape, ← List.append_nil (framesSamples frames)] at hstart
  have hparts : parts c = [c.code] := congrArg _ hc.next
  obtain ⟨w', -, -, -, hrun, -⟩ := hstart.run hB hentry (by
      rw [hparts]
      exact List.forall_mem_singleton.mpr hw) (fun _ => hc.next) hframes
    (fun hr h0 => hfirst (hnew hr h0)) (hlen.trans hcount.symm)
    (List.ne_nil_of_length_eq_add_one hcount) htime fuel'
  refine ⟨w', hrun.trans ?_⟩
  rw [hlen, hcount]
  refine congrArg (fun l => some (l, w')) (List.map_congr_left fun n _ => ?_)
  unfold expectedOutcome
  rw [hparts, List.length_singleton, Nat.mod_one, if_pos rfl, Nat.div_one]

end Sent

/-- A remote of the NEC kind: a key that is held sends repeat frames. -/
def necRemote : IrRemote :=
  { name := "nec", flags := SPACE_ENC ||| CONST_LENGTH, eps := 30, aeps := 100, bits := 4, phead := 9000,
    shead := 4500, pone := 560, sone := 1690, pzero := 560, szero := 560, ptrail := 560, prepeat := 9000,
    srepeat := 2250, gap := 108000, codes := [{ name := "OK", code := 5 }] }

theorem held_necRemote : HeldRemote necRemote :=
  ⟨⟨by decide, rfl, rfl, rfl, rfl, by decide, by decide, by decide, by decide⟩,
    ⟨by decide, by decide, by decide, by decide, List.pairwise_singleton _ _⟩, by decide,
    ⟨by decide, by decide, by decide, by decide⟩, by decide, by decide, disjoint_of_spaces (by decide), by decide⟩

/-- OK is sent with two repeat frames. -/
theorem sent_necRemote : ∃ res, initSend 3 necRemote { name := "OK", code := 5 } 2 = some res ∧ res.ret = true ∧
    ∀ e ∈ res.buf.data, e.2 ≤ PULSE_MASK := by
  have h : (initSend 3 necRemote { name := "OK", code := 5 } 2).map (fun res =>
      (res.ret, decide (∀ e ∈ res.buf.data, e.2 ≤ PULSE_MASK))) = some (true, true) := by decide +kernel
  obtain ⟨res, hres, hok⟩ := Option.map_eq_some_iff.mp h
  obtain ⟨hret, hmask⟩ := Prod.mk.inj hok
  exact ⟨res, hres, hret, of_decide_eq_true hmask⟩

/-- It is received three times, twice from a repeat frame. -/
theorem heldKey_sent_necRemote : ∃ res w', initSend 3 necRemote { name := "OK", code := 5 } 2 = some res ∧
    decodeIRs 0 [⟨0, 0⟩, ⟨0, 108000⟩, ⟨0, 216000⟩]
        { remotes := [necRemote], buf := { input := fed 200000 res.buf } } =
      some ((List.range 3).map fun (n : Nat) => reportMessage necRemote "OK"
        (reportedCode necRemote { name := "OK", code := 5 }) n, w') := by
  obtain ⟨res, hres, hret, hmask⟩ := sent_necRemote
  obtain ⟨w', hrun⟩ := heldKey_sent held_necRemote (.inl (by decide)) (by decide)
    (show necRemote.codes[0]? = some { name := "OK", code := 5 } from rfl) ⟨rfl, rfl⟩
    ⟨held_necRemote.widths, by decide, by decide, by decide⟩ (by decide) (by decide) hres hret hmask
    (noKey_start (show ({ remotes := [necRemote], buf := { input := fed 200000 res.buf } } : World).remotes[0]? = _
      from rfl) (by rfl) rfl rfl rfl (by decide) fun h => absurd h (by decide))
    (fun _ h => nomatch h) (show [⟨0, 0⟩, ⟨0, 108000⟩, ⟨0, 216000⟩].length = 3 from rfl)
    (by unfold WithinSecond; decide) 0
  exact ⟨res, w', hres, hrun⟩

end WinLirc
