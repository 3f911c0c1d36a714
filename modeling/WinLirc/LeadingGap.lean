/-
  File:      WinLirc/LeadingGap.lean
  Subject:   The samples in the buffer, and the gap in front of a frame.

  `afterGap` finds the leading gap over the samples alone; `Reading` is a place
  in the buffer between samples read and samples to come, and one lemma for
  each read says what it gives. `Reading.syncRecBuffer`: `sync_rec_buffer` ends
  where the search does.
-/
import WinLirc.Moves
import WinLirc.Listen

namespace WinLirc

/-! ## 1. The leading gap -/

/-- What the decoder can read: the recorded samples, and the coming ones as far
    as the buffer has room. -/
def Rbuf.samples (b : Rbuf) : List Int := b.data ++ b.input.take (RBUF_SIZE - b.wptr)

/-- The search for the gap behind the last frame; `n` more pulses and spaces
    may be passed over. -/
def skipToGap (last : IrRemote) : Nat → Int → List Int → Option (Int × List Int)
  | n, gap, samples =>
    if expectAtLeast last gap last.minRemainingGap then some (gap, samples)
    else
      match n, samples with
      | n + 1, pulse :: space :: samples =>
        if isPulse pulse && maskPulse pulse != 0 && (isSpace space && space != 0) then
          skipToGap last n space samples
        else none
      | _, _ => none

/-- The leading gap, and the samples after it. -/
def afterGap (lastRemote : Option IrRemote) : List Int → Option (Int × List Int)
  | [] => none
  | gap :: samples =>
    if isSpace gap && gap != 0 then
      match lastRemote with
      | none => some (gap, samples)
      | some last => skipToGap last REC_SYNC gap samples
    else none

/-! ## 2. Reading samples -/

/-- `b` has read the samples `past`, `sum` microseconds of them since the
    leading gap, and has still to read `rest`. -/
structure Reading (past rest : List Int) (sum : Int) (b : Rbuf) : Prop where
  samples : b.samples = past ++ rest
  rptr : b.rptr = past.length
  within : past.length ≤ b.data.length
  pendingp : b.pendingp = 0
  pendings : b.pendings = 0
  sum : b.sum = sum
  nonzero : 0 ∉ b.input

/-- Reads and moves keep the samples. -/
def SameSamples (b b' : Rbuf) : Prop := 0 ∉ b.input → b'.samples = b.samples ∧ 0 ∉ b'.input

/-- A sample taken from the hardware is one of the samples already. -/
theorem samples_append {b : Rbuf} {x : Int} {rest : List Int} (hi : b.input = x :: rest)
    (hroom : b.wptr < RBUF_SIZE) :
    Rbuf.samples { b with data := b.data ++ [x], input := rest } = b.samples := by
  obtain ⟨n, hn⟩ : ∃ n, RBUF_SIZE - b.wptr = n + 1 := ⟨RBUF_SIZE - b.wptr - 1, by omega⟩
  have hn' : RBUF_SIZE - (b.data ++ [x]).length = n := by
    rw [List.length_append, List.length_singleton]
    unfold Rbuf.wptr at hn
    omega
  unfold Rbuf.samples
  rw [hi, hn, List.take_succ_cons]
  show (b.data ++ [x]) ++ rest.take (RBUF_SIZE - (b.data ++ [x]).length) = _
  rw [hn', List.append_assoc]
  rfl

theorem moves_sameSamples : Moves SameSamples where
  trans := by
    rintro a b c h1 h2 hin
    obtain ⟨hs, hi⟩ := h1 hin
    obtain ⟨hs', hi'⟩ := h2 hi
    exact ⟨hs'.trans hs, hi'⟩
  read := by
    intro maxusec b hin
    unfold getNextRecBuffer
    split
    · exact ⟨rfl, hin⟩
    · split
      · next hroom =>
        cases hi : b.input with
        | nil => exact ⟨rfl, hin⟩
        | cons x rest =>
          rw [hi] at hin
          dsimp only
          have hne : x ≠ 0 := fun hx => hin (by rw [hx]; exact List.mem_cons_self)
          rw [if_neg hne]
          exact ⟨samples_append hi hroom, fun h => hin (List.mem_cons_of_mem _ h)⟩
      · exact ⟨rfl, hin⟩
  move := by
    intro b b' hd hi _ hin
    unfold Rbuf.samples Rbuf.wptr
    rw [hd, hi]
    exact ⟨rfl, hin⟩

theorem reading_rewind {b : Rbuf} (hin : 0 ∉ b.input) :
    Reading [] b.samples 0 (rewindRecBuffer b) where
  samples := rfl
  rptr := rfl
  within := Nat.zero_le _
  pendingp := rfl
  pendings := rfl
  sum := rfl
  nonzero := hin

section Reading

variable {past rest : List Int} {sum x : Int} {b : Rbuf}

/-- **A read** gives the next sample. -/
theorem Reading.read (h : Reading past (x :: rest) sum b) :
    ∃ b', (∀ m, getNextRecBuffer m b = (x, b')) ∧
      Reading (past ++ [x]) rest (sum + maskPulse x) b' := by
  have hs := h.samples
  have hr := h.rptr
  have hw := h.within
  have hsplit : past ++ x :: rest = (past ++ [x]) ++ rest := by simp
  by_cases hlt : past.length < b.data.length
  · have hx : b.sample b.rptr = x := by
      rw [Rbuf.sample, hr, if_pos (Int.natCast_nonneg _), Int.toNat_natCast]
      exact sample_at hs hlt
    refine ⟨{ b with sum := b.sum + maskPulse x, rptr := b.rptr + 1 }, fun m => ?_, ?_⟩
    · unfold getNextRecBuffer
      rw [if_pos (by rw [Rbuf.wptr, hr]; exact Int.ofNat_lt.mpr hlt)]
      simp only [hx]
    · refine ⟨hs.trans hsplit, ?_, ?_, h.pendingp, h.pendings, ?_, h.nonzero⟩
      · simp [hr]
      · rw [List.length_append]
        exact hlt
      · simp [h.sum]
  · have heq : b.data.length = past.length := by omega
    obtain ⟨hd, hi⟩ := List.append_inj hs heq
    -- the sample is one the hardware still has
    have hroom : b.wptr < RBUF_SIZE := by
      by_contra hfull
      rw [Nat.sub_eq_zero_of_le (Nat.le_of_not_lt hfull), List.take_zero] at hi
      exact absurd hi.symm (List.cons_ne_nil x rest)
    cases hin : b.input with
    | nil =>
      rw [hin, List.take_nil] at hi
      exact absurd hi.symm (List.cons_ne_nil x rest)
    | cons y more =>
      obtain ⟨n, hn⟩ : ∃ n, RBUF_SIZE - b.wptr = n + 1 := ⟨RBUF_SIZE - b.wptr - 1, by omega⟩
      rw [hin, hn, List.take_succ_cons] at hi
      obtain ⟨rfl, -⟩ := List.cons.inj hi
      have hne : y ≠ 0 := fun hy => h.nonzero (by rw [hin, hy]; exact List.mem_cons_self)
      have hsame := samples_append hin hroom
      refine ⟨{ b with
        data := b.data ++ [y], input := more,
        sum := b.sum + maskPulse y, rptr := b.rptr + 1 }, fun m => ?_, ?_⟩
      · have hx : Rbuf.sample { b with data := b.data ++ [y], input := more } b.rptr = y := by
          rw [Rbuf.sample, hr, if_pos (Int.natCast_nonneg _), Int.toNat_natCast, ← heq]
          simp
        unfold getNextRecBuffer
        rw [if_neg (by rw [Rbuf.wptr, hr, heq]; omega), if_pos hroom, hin]
        simp only [if_neg hne, hx]
      · refine ⟨(hsame.trans hs).trans hsplit, ?_, ?_, h.pendingp, h.pendings, ?_, ?_⟩
        · simp [hr]
        · simp [heq]
        · simp [h.sum]
        · exact fun hm => h.nonzero (by rw [hin]; exact List.mem_cons_of_mem _ hm)

/-- Behind the last sample there is none. -/
theorem Reading.atEnd (h : Reading past [] sum b) (m : Int) : (getNextRecBuffer m b).1 = 0 := by
  have hs := h.samples
  rw [List.append_nil] at hs
  unfold Rbuf.samples at hs
  have hlen := congrArg List.length hs
  rw [List.length_append] at hlen
  have hw := h.within
  have hnot : ¬ b.rptr < b.wptr := by
    rw [h.rptr, Rbuf.wptr]
    omega
  unfold getNextRecBuffer
  rw [if_neg hnot]
  split
  · next hroom =>
    cases hin : b.input with
    | nil => rfl
    | cons y more =>
      obtain ⟨n, hn⟩ : ∃ n, RBUF_SIZE - b.wptr = n + 1 := ⟨RBUF_SIZE - b.wptr - 1, by omega⟩
      rw [hin, hn, List.take_succ_cons, List.length_cons] at hlen
      omega
  · rfl

theorem Reading.nextPulse (h : Reading past (x :: rest) sum b) :
    ∃ b', (∀ m, getNextPulse m b = (if isPulse x then maskPulse x else 0, b')) ∧
      Reading (past ++ [x]) rest (sum + maskPulse x) b' := by
  obtain ⟨b', hread, hb'⟩ := h.read
  refine ⟨b', fun m => ?_, hb'⟩
  unfold getNextPulse
  rw [hread]
  dsimp only
  by_cases hx : x = 0
  · subst hx
    rfl
  · rw [if_neg hx]
    cases isPulse x <;> rfl

theorem Reading.nextSpace (h : Reading past (x :: rest) sum b) :
    ∃ b', (∀ m, getNextSpace m b = (if isSpace x then x else 0, b')) ∧
      Reading (past ++ [x]) rest (sum + maskPulse x) b' := by
  obtain ⟨b', hread, hb'⟩ := h.read
  refine ⟨b', fun m => ?_, hb'⟩
  unfold getNextSpace
  rw [hread]
  dsimp only
  by_cases hx : x = 0
  · subst hx
    rfl
  · rw [if_neg hx]
    cases isSpace x <;> rfl

theorem Reading.noPulse (h : Reading past [] sum b) (m : Int) : (getNextPulse m b).1 = 0 := by
  have hread := h.atEnd m
  unfold getNextPulse
  generalize getNextRecBuffer m b = r at hread ⊢
  obtain ⟨data, b'⟩ := r
  dsimp only at hread ⊢
  rw [if_pos hread]

theorem Reading.noSpace (h : Reading past [] sum b) (m : Int) : (getNextSpace m b).1 = 0 := by
  have hread := h.atEnd m
  unfold getNextSpace
  generalize getNextRecBuffer m b = r at hread ⊢
  obtain ⟨data, b'⟩ := r
  dsimp only at hread ⊢
  rw [if_pos hread]

end Reading

/-! ## 3. The search for the gap -/

theorem skipToGap_ne {last : IrRemote} {n : Nat} {gap g : Int} {samples ss : List Int}
    (hne : gap ≠ 0) (h : skipToGap last n gap samples = some (g, ss)) : g ≠ 0 := by
  induction n generalizing gap samples with
  | zero =>
    unfold skipToGap at h
    split at h
    · obtain ⟨rfl, -⟩ := Prod.mk.inj (Option.some.inj h)
      exact hne
    · exact absurd h.symm (Option.some_ne_none _)
  | succ n ih =>
    unfold skipToGap at h
    split at h
    · obtain ⟨rfl, -⟩ := Prod.mk.inj (Option.some.inj h)
      exact hne
    · cases samples with
      | nil => exact absurd h.symm (Option.some_ne_none _)
      | cons p rest =>
        cases rest with
        | nil => exact absurd h.symm (Option.some_ne_none _)
        | cons s samples =>
          dsimp only at h
          split at h
          · next hps =>
            have hspace := (Bool.and_eq_true_iff.mp hps).2
            exact ih (bne_iff_ne.mp (Bool.and_eq_true_iff.mp hspace).2) h
          · exact absurd h.symm (Option.some_ne_none _)

theorem afterGap_ne {lastRemote : Option IrRemote} {g : Int} {samples ss : List Int}
    (h : afterGap lastRemote samples = some (g, ss)) : g ≠ 0 := by
  cases samples with
  | nil => exact absurd h.symm (Option.some_ne_none _)
  | cons x samples =>
    cases lastRemote with
    | none =>
      rw [afterGap] at h
      split at h
      · next hx =>
        obtain ⟨rfl, -⟩ := Prod.mk.inj (Option.some.inj h)
        exact bne_iff_ne.mp (Bool.and_eq_true_iff.mp hx).2
      · exact absurd h.symm (Option.some_ne_none _)
    | some last =>
      rw [afterGap] at h
      split at h
      · next hx => exact skipToGap_ne (bne_iff_ne.mp (Bool.and_eq_true_iff.mp hx).2) h
      · exact absurd h.symm (Option.some_ne_none _)

/-- `sync_rec_buffer` ends as the search over the samples does; behind a gap it
    stands where the search ends. -/
def SyncsTo (samples : List Int) (found : Option (Int × List Int)) (r : Int × Rbuf) : Prop :=
  (found = none → r.1 = 0) ∧
    ∀ gap rest, found = some (gap, rest) → r.1 = gap ∧ ∃ past sum,
      Reading past rest sum r.2 ∧ past ++ rest = samples

theorem syncsTo_none {samples : List Int} (b : Rbuf) : SyncsTo samples none (0, b) :=
  ⟨fun _ => rfl, fun _ _ h => absurd h.symm (Option.some_ne_none _)⟩

/-- Without a further pulse and space there is no other gap to find. -/
theorem skipToGap_stop {last : IrRemote} {gap : Int} {samples : List Int}
    (hgap : ¬ expectAtLeast last gap last.minRemainingGap = true)
    (h : ∀ p s rest, samples = p :: s :: rest →
      ¬ (isPulse p && maskPulse p != 0 && (isSpace s && s != 0)) = true) (n : Nat) :
    skipToGap last n gap samples = none := by
  unfold skipToGap
  rw [if_neg hgap]
  cases n with
  | zero => rfl
  | succ n =>
    cases samples with
    | nil => rfl
    | cons p rest =>
      cases rest with
      | nil => rfl
      | cons s rest =>
        dsimp only
        rw [if_neg (h p s rest rfl)]

theorem nextLength_zero {kind : Bool} {d : Int} (h : ¬ (kind && d != 0) = true) :
    (if kind = true then d else 0) = 0 := by
  by_contra hne
  cases kind with
  | false => exact hne rfl
  | true => exact h (bne_iff_ne.mpr hne)

/-- One turn of the loop of `sync_rec_buffer`. -/
theorem Reading.syncTurn {last : IrRemote} {n : Nat}
    (hnext : ∀ m, n = m + 1 → ∀ {past rest : List Int} {sum gap : Int} {b : Rbuf},
      Reading past rest sum b →
        SyncsTo (past ++ rest) (skipToGap last m gap rest) (syncLoop last m gap b))
    {past rest : List Int} {sum gap : Int} {b : Rbuf} (h : Reading past rest sum b) :
    SyncsTo (past ++ rest) (skipToGap last n gap rest) (syncLoop last n gap b) := by
  by_cases hgap : expectAtLeast last gap last.minRemainingGap = true
  · unfold skipToGap syncLoop
    rw [if_pos hgap, if_pos hgap]
    refine ⟨fun hn => absurd hn (Option.some_ne_none _), fun g ss hg => ?_⟩
    obtain ⟨rfl, rfl⟩ := Prod.mk.inj (Option.some.inj hg)
    exact ⟨rfl, past, sum, h, rfl⟩
  · cases rest with
    | nil =>
      have hend := h.noPulse 1000000
      rw [skipToGap_stop hgap (fun p s rest he => absurd he (List.cons_ne_nil p _).symm)]
      unfold syncLoop
      rw [if_neg hgap]
      dsimp only
      rw [if_pos hend]
      exact syncsTo_none _
    | cons p rest =>
      obtain ⟨b1, hp, hb1⟩ := h.nextPulse
      by_cases hpulse : (isPulse p && maskPulse p != 0) = true
      · obtain ⟨hkind, hlen⟩ := Bool.and_eq_true_iff.mp hpulse
        cases rest with
        | nil =>
          have hend := hb1.noSpace 1000000
          rw [skipToGap_stop hgap (fun p' s rest he =>
            absurd (List.cons.inj he).2 (List.cons_ne_nil s rest).symm)]
          unfold syncLoop
          rw [if_neg hgap, hp, hkind, if_pos rfl]
          dsimp only
          rw [if_neg (bne_iff_ne.mp hlen), if_pos hend]
          exact syncsTo_none _
        | cons s rest =>
          obtain ⟨b2, hs, hb2⟩ := hb1.nextSpace
          by_cases hspace : (isSpace s && s != 0) = true
          · obtain ⟨hkind', hlen'⟩ := Bool.and_eq_true_iff.mp hspace
            have hpast : past ++ [p] ++ [s] ++ rest = past ++ p :: s :: rest := by simp
            unfold skipToGap syncLoop
            rw [if_neg hgap, if_neg hgap, hp, hkind, if_pos rfl]
            dsimp only
            rw [if_neg (bne_iff_ne.mp hlen), hs, hkind', if_pos rfl]
            dsimp only
            rw [if_neg (bne_iff_ne.mp hlen')]
            cases n with
            | zero => exact syncsTo_none _
            | succ n =>
              have hrun : SyncsTo (past ++ [p] ++ [s] ++ rest) (skipToGap last n s rest)
                  (syncLoop last n s b2) := hnext n rfl hb2
              rw [hpast] at hrun
              dsimp only
              rw [if_pos (by rw [hkind, hkind', hlen, hlen']; rfl)]
              exact hrun
          · rw [skipToGap_stop hgap (fun p' s' rest' he hfit => hspace (by
              obtain ⟨-, he⟩ := List.cons.inj he
              obtain ⟨rfl, -⟩ := List.cons.inj he
              exact (Bool.and_eq_true_iff.mp hfit).2))]
            unfold syncLoop
            rw [if_neg hgap, hp, hkind, if_pos rfl]
            dsimp only
            rw [if_neg (bne_iff_ne.mp hlen), hs]
            dsimp only
            rw [if_pos (nextLength_zero hspace)]
            exact syncsTo_none _
      · rw [skipToGap_stop hgap (fun p' s rest' he hfit => hpulse (by
          obtain ⟨rfl, -⟩ := List.cons.inj he
          exact (Bool.and_eq_true_iff.mp hfit).1))]
        unfold syncLoop
        rw [if_neg hgap, hp]
        dsimp only
        rw [if_pos (nextLength_zero hpulse)]
        exact syncsTo_none _

/-- The loop of `sync_rec_buffer` over the samples. -/
theorem Reading.syncLoop (last : IrRemote) (n : Nat) {past rest : List Int} {sum gap : Int}
    {b : Rbuf} (h : Reading past rest sum b) :
    SyncsTo (past ++ rest) (skipToGap last n gap rest) (WinLirc.syncLoop last n gap b) := by
  induction n generalizing past rest sum gap b with
  | zero => exact Reading.syncTurn (fun m hm => absurd hm (Nat.succ_ne_zero m).symm) h
  | succ n ih =>
    refine Reading.syncTurn (fun m hm => ?_) h
    obtain rfl := Nat.succ.inj hm
    exact ih

theorem afterGap_space {x : Int} (h : (isSpace x && x != 0) = true) (lastRemote : Option IrRemote)
    (samples : List Int) :
    afterGap lastRemote (x :: samples) =
      match lastRemote with
      | none => some (x, samples)
      | some last => skipToGap last REC_SYNC x samples := by
  cases lastRemote with
  | none => rw [afterGap, if_pos h]
  | some last => rw [afterGap, if_pos h]

theorem afterGap_other {x : Int} (h : ¬ (isSpace x && x != 0) = true)
    (lastRemote : Option IrRemote) (samples : List Int) :
    afterGap lastRemote (x :: samples) = none := by
  cases lastRemote with
  | none => rw [afterGap, if_neg h]
  | some last => rw [afterGap, if_neg h]

/-- What `sync_rec_buffer` makes of the turns of its loop. -/
def afterTurns (last remote : IrRemote) (turns : Int × Rbuf) : Int × IrRemote × Rbuf :=
  if turns.1 = 0 then (0, remote, turns.2)
  else
    (turns.1,
      if hasToggleMask remote && !expectAtMost last turns.1 last.maxRemainingGap then
        { remote with toggleMaskState := 0, toggleCode := none }
      else remote,
      { turns.2 with sum := 0 })

theorem afterTurns_spec {samples : List Int} {found : Option (Int × List Int)} {turns : Int × Rbuf}
    (h : SyncsTo samples found turns) (hne : ∀ gap rest, found = some (gap, rest) → gap ≠ 0)
    (last remote : IrRemote) :
    (found = none → (afterTurns last remote turns).1 = 0) ∧
      ∀ gap rest, found = some (gap, rest) → (afterTurns last remote turns).1 = gap ∧ ∃ lead,
        Reading lead rest 0 (afterTurns last remote turns).2.2 ∧ lead ++ rest = samples := by
  obtain ⟨hnone, hsome⟩ := h
  unfold afterTurns
  constructor
  · intro hn
    rw [if_pos (hnone hn)]
  · intro gap rest hg
    obtain ⟨hfst, past, sum, hread, hpast⟩ := hsome gap rest hg
    rw [if_neg (by rw [hfst]; exact hne gap rest hg)]
    exact ⟨hfst, past, { hread with sum := rfl }, hpast⟩

theorem syncRecBuffer_failed {b : Rbuf} (h : (getNextSpace 1000000 b).1 = 0)
    (lastRemote : Option IrRemote) (remote : IrRemote) :
    (syncRecBuffer lastRemote remote b).1 = 0 := by
  unfold syncRecBuffer
  generalize REC_SYNC = n
  generalize getNextSpace 1000000 b = r at h ⊢
  obtain ⟨deltas, b1⟩ := r
  dsimp only at h ⊢
  rw [if_pos h]

theorem syncRecBuffer_first {b b1 : Rbuf} {x : Int} (hx : x ≠ 0)
    (h : getNextSpace 1000000 b = (x, b1)) (remote : IrRemote) :
    syncRecBuffer none remote b = (x, remote, { b1 with sum := 0 }) := by
  unfold syncRecBuffer
  generalize REC_SYNC = n
  rw [h]
  dsimp only
  rw [if_neg hx]

theorem syncRecBuffer_turns {b b1 : Rbuf} {x : Int} (hx : x ≠ 0)
    (h : getNextSpace 1000000 b = (x, b1)) {remote : IrRemote} (hrcmm : isRcmm remote = false)
    (last : IrRemote) :
    syncRecBuffer (some last) remote b = afterTurns last remote (syncLoop last REC_SYNC x b1) := by
  unfold syncRecBuffer
  -- the number of turns plays no part here
  generalize REC_SYNC = n
  rw [h]
  dsimp only
  rw [if_neg hx, hrcmm, if_neg Bool.false_ne_true]
  rfl

/-- **`sync_rec_buffer`** from the start of the samples. -/
theorem Reading.syncRecBuffer {lastRemote : Option IrRemote} {remote : IrRemote}
    (hrcmm : isRcmm remote = false) {samples : List Int} {b : Rbuf} (h : Reading [] samples 0 b) :
    (afterGap lastRemote samples = none →
      (WinLirc.syncRecBuffer lastRemote remote b).1 = 0) ∧
      ∀ gap rest, afterGap lastRemote samples = some (gap, rest) →
        (WinLirc.syncRecBuffer lastRemote remote b).1 = gap ∧ ∃ lead,
          Reading lead rest 0 (WinLirc.syncRecBuffer lastRemote remote b).2.2 ∧
            lead ++ rest = samples := by
  cases samples with
  | nil =>
    exact ⟨fun _ => syncRecBuffer_failed (h.noSpace 1000000) lastRemote remote,
      fun gap rest hg => absurd hg.symm (Option.some_ne_none _)⟩
  | cons x samples =>
    obtain ⟨b1, hs, hb1⟩ := h.nextSpace
    by_cases hspace : (isSpace x && x != 0) = true
    · obtain ⟨hkind, hlen⟩ := Bool.and_eq_true_iff.mp hspace
      have hx : x ≠ 0 := bne_iff_ne.mp hlen
      have hnext : getNextSpace 1000000 b = (x, b1) := by
        rw [hs, if_pos hkind]
      rw [afterGap_space hspace]
      cases lastRemote with
      | none =>
        rw [syncRecBuffer_first hx hnext remote]
        refine ⟨fun hn => absurd hn (Option.some_ne_none _), fun gap rest hg => ?_⟩
        obtain ⟨rfl, rfl⟩ := Prod.mk.inj (Option.some.inj hg)
        exact ⟨rfl, [x], { hb1 with sum := rfl }, rfl⟩
      | some last =>
        rw [syncRecBuffer_turns hx hnext hrcmm last]
        exact afterTurns_spec (Reading.syncLoop last REC_SYNC hb1)
          (fun gap rest hg => skipToGap_ne hx hg) last remote
    · rw [afterGap_other hspace]
      have hzero : (getNextSpace 1000000 b).1 = 0 := by
        rw [hs]
        exact nextLength_zero hspace
      exact ⟨fun _ => syncRecBuffer_failed hzero lastRemote remote,
        fun gap rest hg => absurd hg.symm (Option.some_ne_none _)⟩

end WinLirc
