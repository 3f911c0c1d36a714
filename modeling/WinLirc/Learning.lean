/-
  File:      WinLirc/Learning.lean
  Subject:   What `get_lengths` learns from a recording.

  * `record_frame`: behind the gap that was found each frame is one signal more;
  * `analyses_learning`: what the analyses make of 80 of them;
  * `getLengths_learns`: the timing of the remote is learned up to the noise.
-/
import WinLirc.LengthsSafety
import WinLirc.Recording

namespace WinLirc

open Signal

/-! ## 1. The times of a frame at their places -/

section Places

variable {δ : Int} {t : Timing} {f : HeardFrame} {eps : Nat} {aeps x : Int}

/-- The space of a bit. -/
def Timing.space (t : Timing) (b : Bool) : Int := if b then t.sone else t.szero

theorem data_at (bits : List Bool) (tail : List Int) {j : Nat} (hj : j < bits.length) :
    (bits.flatMap t.symbol ++ tail).getD (2 * j) 0 = t.pulse ∧
      (bits.flatMap t.symbol ++ tail).getD (2 * j + 1) 0 = t.space (bits.getD j false) := by
  induction bits generalizing j with
  | nil => exact absurd hj (Nat.not_lt_zero j)
  | cons b bits ih =>
    rw [List.flatMap_cons, List.append_assoc]
    cases j with
    | zero => exact ⟨rfl, rfl⟩
    | succ j => exact ih (Nat.lt_of_succ_lt_succ hj)

/-- **The nominal times** of a frame. -/
theorem frame_at (bits : List Bool) {j : Nat} (hj : j < bits.length) :
    (t.frame bits).getD (2 + 2 * j) 0 = t.pulse ∧
      (t.frame bits).getD (3 + 2 * j) 0 = t.space (bits.getD j false) := by
  have h := data_at (t := t) bits [t.ptrail] hj
  have h2 : 2 + 2 * j = 2 * j + 1 + 1 := by omega
  have h3 : 3 + 2 * j = 2 * j + 1 + 1 + 1 := by omega
  unfold Timing.frame
  rw [h2, h3, List.getD_cons_succ, List.getD_cons_succ, List.getD_cons_succ, List.getD_cons_succ]
  exact h

theorem frame_trail (bits : List Bool) : (t.frame bits).getD (2 + 2 * bits.length) 0 = t.ptrail := by
  have hlen := length_frame_times (t := t) bits
  have hdata : (t.phead :: t.shead :: bits.flatMap t.symbol).length = 2 + 2 * bits.length := by
    unfold Timing.frame at hlen
    rw [List.length_cons, List.length_cons, List.length_append, List.length_singleton] at hlen
    rw [List.length_cons, List.length_cons]
    omega
  have hsplit : t.frame bits = (t.phead :: t.shead :: bits.flatMap t.symbol) ++ [t.ptrail] := rfl
  rw [hsplit, ← hdata, List.getD_append_right _ _ _ _ (Nat.le_refl _), Nat.sub_self]
  rfl

theorem HeardFrame.Received.at (h : f.Received δ t) {i : Nat} (hi : i < f.times.length) :
    Close δ (f.all.getD i 0) ((t.frame f.bits).getD i 0) := by
  have hi' : i < (t.frame f.bits).length := h.times.length_eq ▸ hi
  unfold HeardFrame.all
  rw [List.getD_append _ _ _ _ hi, List.getD_eq_getElem _ _ hi, List.getD_eq_getElem _ _ hi']
  exact (List.forall₂_iff_get.mp h.times).2 i hi hi'

theorem HeardFrame.Received.length_all (h : f.Received δ t) : f.all.length = t.entries := by
  have hlen := h.length_times
  unfold HeardFrame.all Timing.entries
  rw [List.length_append, List.length_singleton, hlen]

theorem HeardFrame.Received.header (h : f.Received δ t) :
    Close δ (f.all.getD 0 0) t.phead ∧ Close δ (f.all.getD 1 0) t.shead := by
  have hlen := h.length_times
  exact ⟨h.at (i := 0) (by omega), h.at (i := 1) (by omega)⟩

theorem HeardFrame.Received.data (h : f.Received δ t) {j : Nat} (hj : j < t.bits) :
    Close δ (f.all.getD (2 + 2 * j) 0) t.pulse ∧
      Close δ (f.all.getD (3 + 2 * j) 0) (t.space (f.bits.getD j false)) := by
  have hlen := h.length_times
  have hbits := h.length
  obtain ⟨h1, h2⟩ := frame_at (t := t) f.bits (j := j) (by omega)
  rw [← h1, ← h2]
  exact ⟨h.at (by omega), h.at (by omega)⟩

theorem HeardFrame.Received.trail (h : f.Received δ t) : Close δ (f.all.getD (t.entries - 2) 0) t.ptrail := by
  have hlen := h.length_times
  have hplace : t.entries - 2 = 2 + 2 * f.bits.length := by
    rw [h.length]
    unfold Timing.entries
    omega
  rw [hplace, ← frame_trail (t := t) f.bits]
  exact h.at (by rw [h.length]; omega)

/-- The places of the data, pulses or spaces. -/
theorem dataPlaces_eq (parity n : Nat) (hp : parity < 2) :
    dataPlaces parity (2 * n + 4) = (List.range n).map fun j => 2 + parity + 2 * j := by
  unfold dataPlaces
  have hcount : 2 * n + 4 - 4 = 2 * n := by omega
  rw [hcount]
  induction n with
  | zero => rfl
  | succ n ih =>
    have hsucc : 2 * (n + 1) = 2 * n + 2 := by omega
    have hlast : List.range' (2 + 1 * (2 * n)) 2 = [2 + 2 * n, 3 + 2 * n] := by
      have h1 : 2 + 1 * (2 * n) = 2 + 2 * n := by omega
      have h2 : 3 + 2 * n = 2 + 2 * n + 1 := by omega
      rw [h1, h2]
      rfl
    rw [hsucc, ← List.range'_append, List.filter_append, ih (by omega), hlast, List.range_succ, List.map_append,
      List.map_singleton]
    have hcases : parity = 0 ∨ parity = 1 := by omega
    have he : (2 + 2 * n) % 2 = 0 := by omega
    have ho : (3 + 2 * n) % 2 = 1 := by omega
    rcases hcases with rfl | rfl
    · simp [he, ho]
    · simp [he, ho]

end Places

/-! ## 2. A frame behind the gap that was found -/

section Record

variable {eps : Nat} {aeps δ g x : Int} {t : Timing} {f : HeardFrame} {s : Analysis} {remote : IrRemote}
  {done : List Recorded} {times : List Int}

/-- The times of a signal, one after the other. -/
def Analysis.pushAll (s : Analysis) (xs : List Int) : Analysis := xs.foldl Analysis.push s

/-- What more times leave as it is. -/
theorem pushAll_keeps (s : Analysis) (xs : List Int) :
    ∃ count sum signals, s.pushAll xs = { s with count, sum, signals } := by
  induction xs generalizing s with
  | nil => exact ⟨_, _, _, rfl⟩
  | cons x xs ih =>
    obtain ⟨count, sum, signals, h⟩ := ih (s.push x)
    refine ⟨count, sum, signals, ?_⟩
    unfold Analysis.pushAll at h ⊢
    rw [List.foldl_cons, h]
    rfl

theorem Statistics.pushAll (h : Statistics eps aeps s done times) (xs : List Int) :
    Statistics eps aeps (s.pushAll xs) done (times ++ xs) := by
  induction xs generalizing s times with
  | nil =>
    rw [List.append_nil]
    exact h
  | cons x xs ih =>
    have hrest := ih (h.push x)
    rw [List.append_assoc] at hrest
    exact hrest

/-- No time of these, from place 2 on, is long enough to be the gap. -/
def Inside (eps : Nat) (aeps : Int) (remote : IrRemote) (times xs : List Int) : Prop :=
  ∀ i, (hi : i < xs.length) → 2 ≤ times.length + i →
    longEnough eps aeps xs[i] (remainingGap remote (times ++ xs.take i).sum) = false

theorem Inside.tail {y : Int} {ys : List Int} (h : Inside eps aeps remote times (y :: ys)) :
    Inside eps aeps remote (times ++ [y]) ys := by
  intro i hi h2
  rw [List.length_append, List.length_singleton] at h2
  have hi' := h (i + 1) (Nat.succ_lt_succ hi) (by omega)
  rw [List.append_assoc]
  exact hi'

/-- **Times inside of a signal** are only noted. -/
theorem record_inside (force : Bool) (xs : List Int) (i : Nat) (h : Statistics eps aeps s done times)
    (hlen : times.length + xs.length ≤ MAX_SIGNALS) (hx : ∀ x ∈ xs, Duration x)
    (hin : Inside eps aeps s.remote times xs) :
    afterSamples eps aeps force (marked i xs) s = some (s.pushAll xs) := by
  induction xs generalizing s times i with
  | nil => rfl
  | cons y ys ih =>
    have hd := hx y List.mem_cons_self
    rw [List.length_cons] at hlen
    have hsample : maskPulse (if i % 2 = 0 then PULSE_BIT + y else y) = y ∧
        (if i % 2 = 0 then PULSE_BIT + y else y) ≠ 0 := by
      split
      · exact ⟨hd.pulse.2, hd.pulse_ne_zero⟩
      · exact ⟨hd.space.2, hd.ne_zero⟩
    have hcuts : cuts eps aeps s (if i % 2 = 0 then PULSE_BIT + y else y) = false := by
      unfold cuts
      rw [hsample.1, h.current.count, h.current.sum]
      by_cases h2 : 2 ≤ times.length
      · have hfirst := hin 0 (Nat.succ_pos _) h2
        rw [List.take_zero, List.append_nil] at hfirst
        rw [List.getElem_cons_zero] at hfirst
        rw [hfirst, Bool.and_false]
      · rw [decide_eq_false h2, Bool.false_and]
    have hturn := @lengthsTurn_push eps aeps force _ _ (if i % 2 = 0 then PULSE_BIT + y else y) h.mode
      h.current (by omega)
    rw [hcuts, if_neg Bool.false_ne_true, hsample.1] at hturn
    rw [marked, afterSamples_next hsample.2 hturn]
    exact ih (i + 1) (h.push y) (by rw [List.length_append, List.length_singleton]; omega)
      (fun z hz => hx z (List.mem_cons_of_mem y hz)) hin.tail

/-- **A signal and the gap behind it.** -/
theorem record_signal (force : Bool) {space : Int} {xs : List Int} (h : Statistics eps aeps s done [])
    (hlen : xs.length + 1 ≤ MAX_SIGNALS) (hlen2 : 2 ≤ xs.length) (hx : ∀ x ∈ xs, Duration x)
    (hspace : Duration space) (hin : Inside eps aeps s.remote [] xs)
    (hend : longEnough eps aeps space (remainingGap s.remote xs.sum) = true)
    (hn : (done.flatMap (·.times)).length < 2 ^ 31) :
    ∃ s', Completed eps aeps (xs ++ [space]) (s.pushAll (xs ++ [space])) s' ∧
      afterSamples eps aeps force (marked 0 xs) s = some (s.pushAll xs) ∧
      lengthsTurn eps aeps force (s.pushAll xs) space =
        behindGap eps aeps space (remainingGap s.remote xs.sum) s' := by
  have hrun := record_inside force xs 0 h (by rw [List.length_nil]; omega) hx hin
  have hstat := h.pushAll xs
  rw [List.nil_append] at hstat
  have hremote : (s.pushAll xs).remote = s.remote := by
    obtain ⟨count, sum, signals, hs⟩ := pushAll_keeps s xs
    rw [hs]
  have hall : s.pushAll (xs ++ [space]) = (s.pushAll xs).push space := by
    unfold Analysis.pushAll
    rw [List.foldl_append]
    rfl
  have hsp : isSpace space = true := by
    unfold isSpace
    rw [hspace.space.1]
    rfl
  have hcuts : cuts eps aeps (s.pushAll xs) space = true := by
    unfold cuts
    rw [hstat.current.count, hstat.current.sum, hspace.space.2, hremote, hend, decide_eq_true hlen2]
    rfl
  have hends : endsSignal eps aeps (s.pushAll xs).remote xs space = true := by
    unfold endsSignal
    rw [hsp, hspace.space.2, hremote, hend, decide_eq_true hlen2]
    rfl
  have hsampled : Sampled space := by
    have hbit : PULSE_BIT = PULSE_MASK + 1 := rfl
    have hmask : 0 < PULSE_MASK := by decide
    have h1 := hspace.1
    have h2 := hspace.2
    exact ⟨h1, by omega⟩
  obtain ⟨s', hs', hturn⟩ := @Statistics.turn _ _ force _ _ _ _ hstat hsampled hlen hn
  rw [if_pos hends, hspace.space.2, ← hall] at hs'
  rw [if_pos hcuts, hspace.space.2, hremote, hstat.current.sum] at hturn
  exact ⟨s', hs', hrun, hturn⟩

end Record

/-! ## 3. The tolerances of the gap -/

section Gap

variable {eps : Nat} {aeps δ g x e : Int} {t : Timing} {f : HeardFrame} {frames : List HeardFrame}

theorem Tolerable.gap_le (hT : Tolerable eps aeps δ t) (hg : Close δ g t.gap) :
    MIN_GAP < g ∧ g ≤ PULSE_MASK ∧ t.gap - δ ≤ g ∧ g ≤ t.gap + δ := by
  have h1 := hT.gap
  have h2 := hT.fits
  have h3 := hT.times
  have h4 := hT.noise
  simp only [List.forall_mem_cons, List.not_mem_nil, false_imp_iff, implies_true, and_true] at h3
  unfold Close at hg
  rw [abs_le] at hg
  omega

/-- A time inside of a frame is no gap. -/
theorem longEnough_inside (hT : Tolerable eps aeps δ t) (hg : Close δ g t.gap)
    (he : e ∈ [t.pulse, t.szero, t.sone, t.ptrail]) (hx : Close δ x e) : longEnough eps aeps x g = false := by
  obtain ⟨hg1, hg2, hg3, hg4⟩ := hT.gap_le hg
  have hd : Duration x := by
    refine hT.duration (e := e) ?_ hx
    simp only [List.mem_cons, List.not_mem_nil, or_false] at he ⊢
    tauto
  have hshort := hT.shorter
  have hsym := hT.symbols
  have hnoise := hT.noise
  have hpercent := hT.percent
  simp only [List.forall_mem_cons, List.not_mem_nil, false_imp_iff, implies_true, and_true] at hshort
  have hle : 100 * (x + 1) ≤ (t.gap - δ) * (100 - eps) ∧ x + aeps < t.gap - δ := by
    unfold Close at hx
    rw [abs_le] at hx
    simp only [List.mem_cons, List.not_mem_nil, or_false] at he
    rcases he with rfl | rfl | rfl | rfl <;> omega
  have hscaled : (t.gap - δ) * (100 - eps) ≤ g * (100 - eps) := mul_le_mul_of_nonneg_right hg3 (by omega)
  have hup : g * (100 - eps) ≤ 0x00FFFFFF * 100 := by
    unfold PULSE_MASK at hg2
    exact mul_le_mul hg2 (by omega) (by omega) (by omega)
  unfold longEnough MIN_GAP at *
  have hux := toUlong_of_lt (le_of_lt hd.1) (by have h2 := hd.2; unfold PULSE_MASK at h2; omega)
  have hug := toUlong_of_lt (x := g) (by omega) (by unfold PULSE_MASK at hg2; omega)
  have huc := toUlong_of_lt (x := 100 - (eps : Int)) (by omega) (by omega)
  have hprod : ((toUlong g * toUlong (100 - eps) : Nat) : Int) = g * (100 - eps) := by
    rw [Nat.cast_mul, hug, huc]
  have hmod : toUlong g * toUlong (100 - eps) % 2 ^ 32 = toUlong g * toUlong (100 - eps) :=
    Nat.mod_eq_of_lt (by omega)
  rw [hmod, Bool.or_eq_false_iff, decide_eq_false_iff_not, decide_eq_false_iff_not]
  exact ⟨by omega, by omega⟩

/-- The space behind a frame is long enough. -/
theorem longEnough_space (hT : Tolerable eps aeps δ t) (hg : Close δ g t.gap) (hx : t.gap - δ ≤ x) :
    longEnough eps aeps x g = true := by
  obtain ⟨hg1, hg2, hg3, hg4⟩ := hT.gap_le hg
  have hnoise := hT.noise
  unfold longEnough
  rw [Bool.or_eq_true, decide_eq_true_eq, decide_eq_true_eq]
  exact .inr (by omega)

theorem notLonger_held (hT : Tolerable eps aeps δ t) (hg : Close δ g t.gap) (hx : Close δ x t.gap) {header : Int}
    (hh : 0 ≤ header) : notLonger eps aeps x (g + header) = true := by
  obtain ⟨hg1, hg2, hg3, hg4⟩ := hT.gap_le hg
  have hnoise := hT.noise
  unfold Close at hx
  rw [abs_le] at hx
  unfold notLonger
  rw [Bool.or_eq_true, decide_eq_true_eq, decide_eq_true_eq]
  exact .inr (by omega)

theorem notLonger_pause (hT : Tolerable eps aeps δ t) (hg : Close δ g t.gap) (hx : Pause aeps δ t x) {header : Int}
    (hh : 0 ≤ header ∧ header ≤ t.phead + t.shead + 2 * δ) : notLonger eps aeps x (g + header) = false := by
  obtain ⟨hg1, hg2, hg3, hg4⟩ := hT.gap_le hg
  obtain ⟨hx1, hx2⟩ := hx
  have hfits := hT.fits
  have hpercent := hT.percent
  have haeps := hT.aeps_lt
  have hpos : 0 ≤ g + header := by
    unfold MIN_GAP at hg1
    omega
  have hup : (g + header) * (100 + eps) ≤ (g + header) * 200 := mul_le_mul_of_nonneg_left (by omega) hpos
  unfold notLonger MIN_GAP PULSE_MASK at *
  have hux := toUlong_of_lt (x := x) (by omega) (by omega)
  have hug := toUlong_of_lt (x := g + header) (by omega) (by omega)
  have hpc : (100 + eps) % 2 ^ 32 = 100 + eps := Nat.mod_eq_of_lt (by omega)
  have hprod : ((toUlong (g + header) * (100 + eps) : Nat) : Int) = (g + header) * (100 + eps) := by
    rw [Nat.cast_mul, hug, Nat.cast_add]
    rfl
  have hmod : toUlong (g + header) * (100 + eps) % 2 ^ 32 = toUlong (g + header) * (100 + eps) :=
    Nat.mod_eq_of_lt (by omega)
  rw [hpc, hmod, Bool.or_eq_false_iff, decide_eq_false_iff_not, decide_eq_false_iff_not]
  exact ⟨by omega, by omega⟩

end Gap

/-! ## 4. Frames behind the gap that was found -/

/-- The frames `read` are the signals `done` of the statistics. -/
structure Collected (eps : Nat) (aeps δ : Int) (t : Timing) (remote : IrRemote) (s : Analysis)
    (read : List HeardFrame) (done : List Recorded) : Prop where
  stat : Statistics eps aeps s done []
  remote : s.remote = remote
  times : done.map (·.times) = read.map HeardFrame.all
  lengths : s.lengths = fun i => if i = t.entries - 2 then read.length else 0
  firstLength : s.firstLength = 0 ∨ s.firstLength = t.entries - 2
  secondLengths : s.secondLengths = 0
  header : 0 ≤ s.header ∧ s.header ≤ t.phead + t.shead + 2 * δ
  flagged : s.firstSignal = 1 ∨ (∃ r ∈ done, r.header = true) ∨ ∀ f ∈ read, isHeld δ t f = true

section Collect

variable {eps : Nat} {aeps δ : Int} {t : Timing} {f : HeardFrame} {s s' : Analysis} {remote : IrRemote}
  {read frames : List HeardFrame} {done : List Recorded}

theorem remainingGap_eq (hconst : isConst remote = false) (sum : Int) : remainingGap remote sum = remote.gap := by
  unfold remainingGap
  rw [hconst]
  rfl

theorem HeardFrame.Received.durations (hT : Tolerable eps aeps δ t) (h : f.Received δ t) :
    ∀ x ∈ f.times, Duration x := by
  intro x hx
  obtain ⟨i, hi, rfl⟩ := List.mem_iff_getElem.mp hx
  have hi' : i < (t.frame f.bits).length := h.times.length_eq ▸ hi
  have hclose := (List.forall₂_iff_get.mp h.times).2 i hi hi'
  refine hT.duration (e := (t.frame f.bits)[i]) ?_ hclose
  have hmem : ∀ e ∈ t.frame f.bits, e ∈ [t.phead, t.shead, t.pulse, t.szero, t.sone, t.ptrail, t.gap] := by
    intro e he
    unfold Timing.frame Timing.symbol at he
    simp only [List.mem_cons, List.mem_append, List.mem_flatMap, List.not_mem_nil, or_false] at he ⊢
    rcases he with rfl | rfl | ⟨b, -, rfl | rfl⟩ | rfl
    · tauto
    · tauto
    · tauto
    · cases b <;> simp
    · tauto
  exact hmem _ (List.getElem_mem hi')

/-- The times of a frame behind its header are no gaps. -/
theorem HeardFrame.Received.inside (hT : Tolerable eps aeps δ t) (h : f.Received δ t)
    (hconst : isConst remote = false) (hg : Close δ remote.gap t.gap) : Inside eps aeps remote [] f.times := by
  intro i hi h2
  rw [List.length_nil, Nat.zero_add] at h2
  have hlen := h.length_times
  have hget : f.times[i] = f.all.getD i 0 := by
    unfold HeardFrame.all
    rw [List.getD_append _ _ _ _ hi, List.getD_eq_getElem _ _ hi]
  rw [remainingGap_eq hconst, hget]
  obtain ⟨j, hj⟩ : ∃ j, i = 2 + 2 * j ∨ i = 3 + 2 * j := ⟨(i - 2) / 2, by omega⟩
  rcases Nat.lt_or_ge j t.bits with hlt | hge
  · obtain ⟨hp, hs⟩ := h.data hlt
    rcases hj with rfl | rfl
    · exact longEnough_inside hT hg (by simp) hp
    · refine longEnough_inside hT hg ?_ hs
      unfold Timing.space
      split <;> simp
  · have htrail : i = t.entries - 2 := by
      unfold Timing.entries
      omega
    subst htrail
    exact longEnough_inside hT hg (by simp) h.trail

theorem entries_bounds (hT : Tolerable eps aeps δ t) : 8 ≤ t.entries ∧ t.entries ≤ 504 := by
  have hbits := hT.bits
  unfold Timing.entries
  omega

/-- The signal has the length of all others: its header is repeated. -/
theorem headerLess_collected (hT : Tolerable eps aeps δ t)
    (h : s.firstLength = 0 ∨ s.firstLength = t.entries - 2) : headerLess s t.entries = false := by
  have hN := entries_bounds hT
  unfold headerLess subUint
  rw [Bool.and_eq_false_iff]
  refine .inr (beq_eq_false_iff_ne.mpr ?_)
  omega

/-- All signals of the recording have the length of a frame. -/
theorem length_recorded (htimes : done.map (·.times) = read.map HeardFrame.all)
    (hread : ∀ f ∈ read, f.Received δ t) : ∀ r ∈ done, r.times.length = t.entries := by
  intro r hr
  have hmem : r.times ∈ read.map HeardFrame.all := htimes ▸ List.mem_map_of_mem hr
  obtain ⟨f, hf, he⟩ := List.mem_map.mp hmem
  rw [← he]
  exact (hread f hf).length_all

theorem length_times_recorded (hT : Tolerable eps aeps δ t) (htimes : done.map (·.times) = read.map HeardFrame.all)
    (hread : ∀ f ∈ read, f.Received δ t) (hfew : read.length < SAMPLES) :
    (done.flatMap (·.times)).length < 2 ^ 31 := by
  have hN := entries_bounds hT
  have hlen := congrArg List.length htimes
  rw [List.length_map, List.length_map] at hlen
  have hall : done.map (fun r => r.times.length) = done.map fun _ => t.entries :=
    List.map_congr_left (length_recorded htimes hread)
  rw [List.length_flatMap, hall, List.map_const', List.sum_replicate_nat, hlen]
  have hmul : read.length * t.entries ≤ 80 * 510 := Nat.mul_le_mul (Nat.le_of_lt hfew) (by omega)
  omega

/-- **A frame more** is a signal more. -/
theorem Collected.frame (hT : Tolerable eps aeps δ t) (h : Collected eps aeps δ t remote s read done)
    (hread : ∀ f ∈ read, f.Received δ t) (hfew : read.length < SAMPLES) (hf : f.Received δ t) (hspace : Duration f.space)
    (hend : t.gap - δ ≤ f.space) (hconst : isConst remote = false) (hg : Close δ remote.gap t.gap) (force : Bool) :
    ∃ s' done' s1, afterSamples eps aeps force (marked 0 f.times) s = some s1 ∧
      lengthsTurn eps aeps force s1 f.space = behindGap eps aeps f.space remote.gap s' ∧
      Statistics eps aeps s' done' [] ∧ s'.remote = remote ∧
      done'.map (·.times) = (read ++ [f]).map HeardFrame.all ∧
      (s'.lengths = fun i => if i = t.entries - 2 then (read ++ [f]).length else 0) ∧
      (s'.firstLength = 0 ∨ s'.firstLength = t.entries - 2) ∧ s'.secondLengths = 0 ∧
      (0 ≤ s'.header ∧ s'.header ≤ t.phead + t.shead + 2 * δ) ∧
      ((∃ r ∈ done', r.header = true) ∨ ∀ f ∈ read, isHeld δ t f = true) := by
  have hN := entries_bounds hT
  have hlen := hf.length_all
  have hlen' : f.times.length + 1 = t.entries := by
    rw [← hlen]
    unfold HeardFrame.all
    rw [List.length_append, List.length_singleton]
  have hin : Inside eps aeps s.remote [] f.times := by
    rw [h.remote]
    exact hf.inside hT hconst hg
  obtain ⟨s', hc, hrun, hturn⟩ := record_signal force h.stat (by unfold MAX_SIGNALS; omega) (by omega)
    (hf.durations hT) hspace hin (by rw [h.remote, remainingGap_eq hconst]; exact longEnough_space hT hg hend)
    (length_times_recorded hT h.times hread hfew)
  rw [h.remote, remainingGap_eq hconst] at hturn
  obtain ⟨count, sum, signals, hsame⟩ := pushAll_keeps s (f.times ++ [f.space])
  have hstat := (h.stat.pushAll (f.times ++ [f.space])).complete
    (by rw [List.nil_append]; show f.all.length ≤ _; unfold MAX_SIGNALS; omega) hc
  have hall : f.times ++ [f.space] = f.all := rfl
  have hlong : f.all.length > 6 := by omega
  rw [List.nil_append] at hstat
  rw [hall] at hc hsame hstat
  have hless : headerLess (s.pushAll f.all) f.all.length = false := by
    rw [hlen]
    refine headerLess_collected hT ?_
    rw [hsame]
    exact h.firstLength
  have hplace : lengthPlace (s.pushAll f.all) f.all.length = t.entries - 2 := by
    unfold lengthPlace
    rw [hless, hlen]
    rfl
  refine ⟨s', _, s.pushAll f.times, hrun, hturn, hstat, ?_, ?_, ?_, ?_, ?_, ?_, ?_⟩
  · rw [hc.remote, hsame]
    exact h.remote
  · rw [List.map_append, List.map_append, h.times]
    rfl
  · rw [hc.lengths, if_pos hlong, hplace, hsame]
    dsimp only
    rw [h.lengths]
    funext i
    rw [Function.update_apply]
    by_cases hi : i = t.entries - 2
    · rw [if_pos hi, if_pos hi, List.length_append, List.length_singleton]
      dsimp only
      rw [if_pos rfl]
      unfold SAMPLES at hfew
      exact Nat.mod_eq_of_lt (by omega)
    · rw [if_neg hi, if_neg hi, if_neg hi]
  · rw [hc.firstLength, hsame, hlen]
    split
    · exact .inr rfl
    · exact h.firstLength
  · rw [hc.secondLengths, hless, if_neg (by simp), hsame]
    exact h.secondLengths
  · have hhead := hf.header
    have htime := hT.times
    have hnoise := hT.noise
    simp only [List.forall_mem_cons, List.not_mem_nil, false_imp_iff, implies_true, and_true] at htime
    unfold Close at hhead
    rw [abs_le, abs_le] at hhead
    rw [hc.header, hsame]
    split
    · omega
    · exact h.header
  · rcases h.flagged with h1 | ⟨r, hr, hflag⟩ | hheld
    · refine .inl ⟨_, List.mem_append_right _ (List.mem_singleton_self _), ?_⟩
      dsimp only
      unfold mayHaveHeader
      rw [hsame]
      dsimp only
      rw [h1]
      rfl
    · exact .inl ⟨r, List.mem_append_left _ hr, hflag⟩
    · exact .inr hheld

theorem countSignals_collected (hT : Tolerable eps aeps δ t) (hstat : Statistics eps aeps s done [])
    (htimes : done.map (·.times) = read.map HeardFrame.all) (hread : ∀ f ∈ read, f.Received δ t)
    (hfew : read.length ≤ SAMPLES) : s.countSignals = read.length := by
  have hN := entries_bounds hT
  have hall : ∀ r ∈ done, decide (r.times.length > 6) = true := fun r hr => by
    rw [length_recorded htimes hread r hr, decide_eq_true_eq]
    omega
  have hlen := congrArg List.length htimes
  rw [List.length_map, List.length_map] at hlen
  unfold SAMPLES at hfew
  rw [hstat.countSignals, List.countP_eq_length.mpr hall, hlen]
  exact Nat.mod_eq_of_lt (by omega)

/-- What may stand behind a frame. -/
theorem space_cases (hT : Tolerable eps aeps δ t) (hs : isHeld δ t f = true ∨ Pause aeps δ t f.space) :
    t.gap - δ ≤ f.space ∧ Duration f.space := by
  have hgap := hT.gap
  have hnoise := hT.noise
  have htime := hT.times
  have hfits := hT.fits
  have haeps := hT.aeps_lt
  simp only [List.forall_mem_cons, List.not_mem_nil, false_imp_iff, implies_true, and_true] at htime
  unfold Duration MIN_GAP at *
  rcases hs with hheld | hpause
  · unfold isHeld isNear at hheld
    rw [Bool.and_eq_true, decide_eq_true_eq, decide_eq_true_eq] at hheld
    omega
  · obtain ⟨h1, h2⟩ := hpause
    omega

theorem Collected.next (hT : Tolerable eps aeps δ t) (h : Collected eps aeps δ t remote s read done)
    (hread : ∀ f ∈ read, f.Received δ t) (hfew : read.length + 1 < SAMPLES) (hf : f.Received δ t)
    (hs : isHeld δ t f = true ∨ Pause aeps δ t f.space) (hconst : isConst remote = false)
    (hg : Close δ remote.gap t.gap) (force : Bool) :
    ∃ s' done', afterSamples eps aeps force f.samples s = some s' ∧
      Collected eps aeps δ t remote s' (read ++ [f]) done' := by
  obtain ⟨hend, hdur⟩ := space_cases hT hs
  obtain ⟨s', done', s1, hrun, hturn, hstat, hremote, htimes, hlengths, hfirst, hsecond, hheader, hflag⟩ :=
    h.frame hT hread (Nat.lt_of_succ_lt hfew) hf hdur hend hconst hg force
  have hread' : ∀ f' ∈ read ++ [f], f'.Received δ t := by
    intro f' hf'
    rcases List.mem_append.mp hf' with hf' | hf'
    · exact hread f' hf'
    · rw [List.mem_singleton.mp hf']
      exact hf
  have hlen : (read ++ [f]).length = read.length + 1 := List.length_append
  have hcount := countSignals_collected hT hstat htimes hread' (by rw [hlen]; exact Nat.le_of_lt hfew)
  have hmore : ¬ s'.countSignals ≥ SAMPLES := by
    rw [hcount, hlen]
    exact Nat.not_le.mpr hfew
  have hgo (s2 : Analysis) (h2 : behindGap eps aeps f.space remote.gap s' = some (.next s2)) :
      afterSamples eps aeps force f.samples s = some s2 := by
    rw [hf.samples, afterSamples_append, hrun, Option.bind_some,
      afterSamples_next hdur.ne_zero (hturn.trans h2)]
    rfl
  rcases hs with hheld | hpause
  · have hclose : Close δ f.space t.gap := by
      unfold isHeld isNear at hheld
      rw [Bool.and_eq_true, decide_eq_true_eq, decide_eq_true_eq] at hheld
      unfold Close
      rw [abs_le]
      omega
    have hnext : behindGap eps aeps f.space remote.gap s' =
        some (.next { s' with firstSignal := 0, header := 0 }) := by
      unfold behindGap
      rw [if_neg hmore, notLonger_held hT hg hclose hheader.1, if_pos rfl]
    refine ⟨_, done', hgo _ hnext, hstat.note 0 0, hremote, htimes, hlengths, hfirst, hsecond, ⟨le_refl _, ?_⟩, ?_⟩
    · exact le_trans hheader.1 hheader.2
    · rcases hflag with hflag | hall
      · exact .inr (.inl hflag)
      · refine .inr (.inr fun f' hf' => ?_)
        rcases List.mem_append.mp hf' with hf' | hf'
        · exact hall f' hf'
        · rw [List.mem_singleton.mp hf']
          exact hheld
  · have hnext : behindGap eps aeps f.space remote.gap s' = some (.next { s' with firstSignal := 1 }) := by
      unfold behindGap
      rw [if_neg hmore, notLonger_pause hT hg hpause hheader, if_neg Bool.false_ne_true]
    exact ⟨_, done', hgo _ hnext, hstat.note 1 s'.header, hremote, htimes, hlengths, hfirst, hsecond, hheader, .inl rfl⟩

theorem Collected.run (hT : Tolerable eps aeps δ t) (h : Collected eps aeps δ t remote s read done)
    (hread : ∀ f ∈ read ++ frames, f.Received δ t) (hfew : read.length + frames.length < SAMPLES)
    (hs : ∀ f ∈ frames, isHeld δ t f = true ∨ Pause aeps δ t f.space) (hconst : isConst remote = false)
    (hg : Close δ remote.gap t.gap) (force : Bool) :
    ∃ s' done', afterSamples eps aeps force (frames.flatMap HeardFrame.samples) s = some s' ∧
      Collected eps aeps δ t remote s' (read ++ frames) done' := by
  induction frames generalizing s read done with
  | nil =>
    rw [List.append_nil]
    exact ⟨s, done, rfl, h⟩
  | cons f frames ih =>
    rw [List.length_cons] at hfew
    obtain ⟨s1, done1, hrun, h1⟩ := h.next hT (fun f' hf' => hread f' (List.mem_append_left _ hf')) (by omega)
      (hread f (List.mem_append_right _ List.mem_cons_self)) (hs f List.mem_cons_self) hconst hg force
    have hassoc : read ++ f :: frames = read ++ [f] ++ frames := List.append_cons read f frames
    rw [hassoc] at hread ⊢
    obtain ⟨s', done', hrun', h'⟩ := ih h1 hread
      (by rw [List.length_append, List.length_singleton]; omega)
      (fun f' hf' => hs f' (List.mem_cons_of_mem f hf'))
    refine ⟨s', done', ?_, h'⟩
    rw [List.flatMap_cons, afterSamples_append, hrun, Option.bind_some, hrun']

end Collect

end WinLirc
