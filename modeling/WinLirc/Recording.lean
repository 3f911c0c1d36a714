/-
  File:      WinLirc/Recording.lean
  Subject:   What `get_lengths` makes of a recording of a remote control whose bits
             differ in their spaces.

  * A recording is silence and then keys that are held, frame after frame, every
    time of them heard with some noise. `Tolerable` is what the times of the
    remote and the tolerances of the recording must fulfil.
  * `search_recording`: the gap between the frames is found;
  * `record_frames`: each frame behind it is recorded as a signal.
-/
import WinLirc.CloseTimes
import WinLirc.Transmission

namespace WinLirc

open Signal

/-! ## 1. Frames and keys -/

/-- The times of a remote control whose bits differ in their spaces. -/
structure Timing where
  bits : Nat
  phead : Int
  shead : Int
  pulse : Int
  szero : Int
  sone : Int
  ptrail : Int
  gap : Int

namespace Timing

variable (t : Timing)

def symbol (b : Bool) : List Int := [t.pulse, if b then t.sone else t.szero]

/-- The times of a frame, without the gap behind it. -/
def frame (bits : List Bool) : List Int := t.phead :: t.shead :: (bits.flatMap t.symbol ++ [t.ptrail])

/-- The number of times of a frame and its gap. -/
def entries : Nat := 2 * t.bits + 4

end Timing

/-- A frame as it is heard: its bits, its times, and the space behind it. -/
structure HeardFrame where
  bits : List Bool
  times : List Int
  space : Int

namespace HeardFrame

def all (f : HeardFrame) : List Int := f.times ++ [f.space]

def total (f : HeardFrame) : Int := f.all.sum

def samples (f : HeardFrame) : List Int := marked 0 f.all

end HeardFrame

/-- A key that is held: frames with the gap between them, and a pause behind the
    last one. -/
structure Press where
  held : List HeardFrame
  last : HeardFrame

def Press.frames (p : Press) : List HeardFrame := p.held ++ [p.last]

section Conditions

variable (eps : Nat) (aeps δ : Int) (t : Timing)

/-- The tolerances tell the times of the remote apart, under a noise of `δ`. -/
structure Tolerable : Prop where
  percent : eps < 99
  noise : 0 ≤ δ ∧ 2 * δ < aeps
  bits : 2 ≤ t.bits ∧ t.bits ≤ 250
  times : ∀ x ∈ [t.phead, t.shead, t.pulse, t.szero, t.ptrail], δ < x
  symbols : t.szero + 2 * δ + 2 * aeps + 99 < t.sone
  spaces : 2 * (t.sone + δ) ≤ 5 * (t.shead - δ) ∧ t.sone + δ ≤ 100 * (t.szero - δ)
  header : 2 * (t.pulse + δ) ≤ t.phead - δ ∧ t.pulse + 2 * δ + aeps < t.phead
  short : t.shead + δ ≤ MIN_GAP ∧ t.sone + δ ≤ MIN_GAP
  shorter : ∀ x ∈ [t.pulse, t.sone, t.ptrail],
    100 * (x + δ + 1) ≤ (t.gap - δ) * (100 - eps) ∧ x + 2 * δ + aeps < t.gap
  gap : MIN_GAP < t.gap - δ
  fits : t.phead + t.shead + t.gap + 3 * δ ≤ PULSE_MASK

/-- Two times are the same up to the noise. -/
def Close (x e : Int) : Prop := |x - e| ≤ δ

instance (x e : Int) : Decidable (Close δ x e) := inferInstanceAs (Decidable (|x - e| ≤ δ))

/-- A frame of the remote; both kinds of bits are among its bits. -/
structure HeardFrame.Received (f : HeardFrame) : Prop where
  length : f.bits.length = t.bits
  total : f.total ≤ PULSE_MASK
  zeros : f.bits.count true ≤ 10 * f.bits.count false
  ones : f.bits.count false ≤ 10 * f.bits.count true
  times : List.Forall₂ (Close δ) f.times (t.frame f.bits)

/-- The space is longer than the gap, a header included. -/
def Pause (x : Int) : Prop := 2 * (t.gap + t.phead + t.shead + 3 * δ) + aeps < x ∧ x ≤ PULSE_MASK

instance (x : Int) : Decidable (Pause aeps δ t x) := instDecidableAnd

/-- A key that is held for two to 79 frames. -/
structure Press.Received (p : Press) : Prop where
  frames : ∀ f ∈ p.frames, f.Received δ t
  held : ∀ f ∈ p.held, Close δ f.space t.gap
  last : Pause aeps δ t p.last.space
  length : 1 ≤ p.held.length ∧ p.held.length ≤ 78

end Conditions

theorem marked_pair (x y : Int) (xs : List Int) :
    marked 0 (x :: y :: xs) = (PULSE_BIT + x) :: y :: marked 0 xs := by
  rw [marked, marked, marked_mod_two]
  rfl

/-! ## 2. A frame in the search for the gap -/

section Search

variable {eps : Nat} {aeps δ : Int} {force : Bool} {t : Timing} {s s' : Analysis} {x L H : Int}

/-- Durations that a driver reports. -/
def Duration (x : Int) : Prop := 0 < x ∧ x ≤ PULSE_MASK

theorem Duration.pulse (h : Duration x) : isPulse (PULSE_BIT + x) = true ∧ maskPulse (PULSE_BIT + x) = x :=
  ⟨isPulse_add (le_of_lt h.1) h.2, maskPulse_add (le_of_lt h.1) h.2⟩

theorem Duration.space (h : Duration x) : isPulse x = false ∧ maskPulse x = x :=
  ⟨isPulse_of_le (le_of_lt h.1) h.2, maskPulse_of_le (le_of_lt h.1) h.2⟩

theorem lengthsTurn_gap (hmode : s.mode = .gap) (data : Int) (hcount : s.count + 1 < 2 ^ 32) :
    lengthsTurn eps aeps force s data = gapTurn eps aeps force { s with count := s.count + 1 } data := by
  have hsucc : succUint s.count = s.count + 1 := Nat.mod_eq_of_lt hcount
  unfold lengthsTurn
  dsimp only
  rw [hmode, hsucc]

/-- The most samples that are read before the gap is found. -/
def searchLimit : Nat := SAMPLES * MAX_SIGNALS * 2

theorem search_pulse (hmode : s.mode = .gap) (hx : Duration x) (hcount : s.count + 1 ≤ searchLimit) :
    lengthsTurn eps aeps force s (PULSE_BIT + x) =
      some (.next { s with sum := s.sum + x, count := s.count + 1 }) := by
  have hc : s.count + 1 ≤ 81920 := hcount
  have hp := hx.pulse
  have hs : isSpace (PULSE_BIT + x) = false := by
    unfold isSpace
    rw [hp.1]
    rfl
  rw [lengthsTurn_gap hmode _ (by omega)]
  unfold gapTurn gapLimit
  dsimp only
  rw [hs, hp.2, if_neg (by simp), if_neg Bool.false_ne_true,
    if_neg (by unfold SAMPLES MAX_SIGNALS; omega)]

/-- The first space of a frame. -/
theorem search_firstSpace (hmode : s.mode = .gap) (hav : s.average = 0) (hx : Duration x) (hshort : x ≤ 100000)
    (hcount : s.count + 1 ≤ searchLimit) :
    lengthsTurn eps aeps force s x =
      some (.next { s with sum := s.sum + x, count := s.count + 1, average := x, maxspace := x }) := by
  have hc : s.count + 1 ≤ 81920 := hcount
  have hp := hx.space
  have hs : isSpace x = true := by
    unfold isSpace
    rw [hp.1]
    rfl
  rw [lengthsTurn_gap hmode _ (by omega)]
  unfold gapTurn gapLimit
  dsimp only
  rw [hs, hp.2, if_pos ⟨hav, rfl⟩, if_neg (by omega), if_neg (by unfold SAMPLES MAX_SIGNALS; omega)]

/-- The spaces of a frame so far. -/
structure Quiet (L H : Int) (s : Analysis) : Prop where
  mode : s.mode = .gap
  average : L ≤ s.average ∧ s.average ≤ MIN_GAP
  maxspace : 2 * H ≤ 5 * s.maxspace
  spaces : s.countSpaces ≤ 300

theorem nextAverage_quiet (hL : 0 < L) (h : Quiet L H s) (hx : L ≤ x ∧ x ≤ MIN_GAP) :
    ∃ a, nextAverage s x = some a ∧ L ≤ a ∧ a ≤ MIN_GAP := by
  obtain ⟨ha1, ha2⟩ := h.average
  have hk := h.spaces
  unfold MIN_GAP at *
  have hsucc : succUint s.countSpaces = s.countSpaces + 1 := Nat.mod_eq_of_lt (by omega)
  have hk0 : (0 : Int) ≤ s.countSpaces := Int.natCast_nonneg _
  have hk300 : (s.countSpaces : Int) ≤ 300 := by exact_mod_cast hk
  have hle1 : L * s.countSpaces ≤ s.average * s.countSpaces := mul_le_mul_of_nonneg_right ha1 hk0
  have hle2 : s.average * s.countSpaces ≤ 20000 * s.countSpaces := mul_le_mul_of_nonneg_right ha2 hk0
  have h0 : 0 ≤ L * s.countSpaces := mul_nonneg (le_of_lt hL) hk0
  have hnonneg : 0 ≤ s.average * s.countSpaces + x := by omega
  have hdiv : ((toUlong (s.average * s.countSpaces + x) / (s.countSpaces + 1) : Nat) : Int) =
      (s.average * s.countSpaces + x) / (s.countSpaces + 1) := by
    rw [Int.natCast_ediv, toUlong_of_lt hnonneg (by omega), Nat.cast_succ]
  have hlow : L ≤ (s.average * s.countSpaces + x) / (s.countSpaces + 1) := by
    refine (Int.le_ediv_iff_mul_le (by omega)).mpr ?_
    rw [mul_add, mul_one]
    omega
  have hhigh : (s.average * s.countSpaces + x) / (s.countSpaces + 1) ≤ 20000 := by
    refine Int.le_of_lt_add_one ((Int.ediv_lt_iff_lt_mul (by omega)).mpr ?_)
    omega
  refine ⟨(s.average * s.countSpaces + x) / (s.countSpaces + 1), ?_, hlow, hhigh⟩
  unfold nextAverage toLirc
  rw [hsucc, if_neg (Nat.succ_ne_zero _), hdiv]
  exact congrArg some (Int.bmod_eq_of_le (by omega) (by omega))

/-- A space that is no gap. -/
theorem search_space (hL : 0 < L) (hLH : H ≤ 100 * L) (h : Quiet L H s) (hk : s.countSpaces < 300)
    (hx : L ≤ x ∧ x ≤ H) (hH : H ≤ MIN_GAP) (hcount : s.count + 1 ≤ searchLimit) :
    ∃ a m, lengthsTurn eps aeps force s x =
      some (.next { s with
        sum := s.sum + x, count := s.count + 1, average := a, countSpaces := s.countSpaces + 1, maxspace := m }) ∧
      L ≤ a ∧ a ≤ MIN_GAP ∧ 2 * H ≤ 5 * m := by
  have hc : s.count + 1 ≤ 81920 := hcount
  have hxd : Duration x := ⟨by omega, by unfold MIN_GAP at hH; unfold PULSE_MASK; omega⟩
  have hp := hxd.space
  have hs : isSpace x = true := by
    unfold isSpace
    rw [hp.1]
    rfl
  obtain ⟨a, ha, hlow, hhigh⟩ := nextAverage_quiet hL h ⟨hx.1, le_trans hx.2 hH⟩
  have hav := h.average
  have hmax := h.maxspace
  have hsucc : succUint s.countSpaces = s.countSpaces + 1 := Nat.mod_eq_of_lt (by omega)
  refine ⟨a, if x > s.maxspace then x else s.maxspace, ?_, hlow, hhigh, ?_⟩
  · have hgap : isGap { s with count := s.count + 1, sum := s.sum + x } x = false := by
      unfold isGap
      dsimp only
      rw [Int.tdiv_eq_ediv_of_nonneg (by omega)]
      have h1 : ¬ x > MIN_GAP := by omega
      have h2 : ¬ x > 100 * s.average := by omega
      have h3 : ¬ x > 5 * s.maxspace / 2 := by omega
      simp [h1, h2, h3]
    rw [lengthsTurn_gap h.mode _ (by omega)]
    unfold gapTurn
    dsimp only
    rw [hs, hp.2, if_neg (by omega), if_pos rfl, hgap, if_neg Bool.false_ne_true]
    have hnext : nextAverage { s with count := s.count + 1, sum := s.sum + x } x = nextAverage s x := rfl
    rw [hnext, ha, Option.map_some, hsucc]
    unfold gapLimit
    rw [if_neg (by dsimp only; unfold SAMPLES MAX_SIGNALS; omega)]
  · split <;> omega

theorem afterSamples_next {data : Int} {rest : List Int} (hd : data ≠ 0)
    (h : lengthsTurn eps aeps force s data = some (.next s')) :
    afterSamples eps aeps force (data :: rest) s = afterSamples eps aeps force rest s' := by
  rw [afterSamples, if_neg hd, h]

theorem afterSamples_append (xs ys : List Int) (s : Analysis) :
    afterSamples eps aeps force (xs ++ ys) s =
      (afterSamples eps aeps force xs s).bind (afterSamples eps aeps force ys) := by
  induction xs generalizing s with
  | nil => rfl
  | cons x xs ih =>
    rw [List.cons_append, afterSamples, afterSamples]
    split
    · rfl
    · cases hturn : lengthsTurn eps aeps force s x with
      | none => rfl
      | some turn =>
        cases turn with
        | stop retval s1 => rfl
        | next s1 => exact ih s1

theorem Tolerable.duration (hT : Tolerable eps aeps δ t) {e : Int}
    (he : e ∈ [t.phead, t.shead, t.pulse, t.szero, t.sone, t.ptrail, t.gap]) (hx : Close δ x e) : Duration x := by
  have h1 := hT.times
  have h2 := hT.shorter
  have h3 := hT.symbols
  have h4 := hT.fits
  have h5 := hT.noise
  have h6 := hT.gap
  simp only [List.forall_mem_cons, List.not_mem_nil, false_imp_iff, implies_true, and_true] at h1 h2
  simp only [List.mem_cons, List.not_mem_nil, or_false] at he
  unfold Close at hx
  rw [abs_le] at hx
  unfold MIN_GAP at h6
  refine ⟨?_, ?_⟩
  all_goals
    rcases he with rfl | rfl | rfl | rfl | rfl | rfl | rfl <;> omega

theorem Duration.ne_zero (h : Duration x) : x ≠ 0 := ne_of_gt h.1

theorem Duration.pulse_ne_zero (h : Duration x) : PULSE_BIT + x ≠ 0 := by
  have hx := h.1
  unfold PULSE_BIT
  omega

/-- The times of the data and of the trailing pulse. -/
theorem search_data (hT : Tolerable eps aeps δ t) (hL : 0 < L) (hL' : L ≤ t.szero - δ)
    (hLH : t.sone + δ ≤ 100 * L) (bits : List Bool) {xs : List Int}
    (hxs : List.Forall₂ (Close δ) xs (bits.flatMap t.symbol ++ [t.ptrail])) (h : Quiet L (t.sone + δ) s)
    (hk : s.countSpaces + bits.length ≤ 300) (hcount : s.count + xs.length ≤ searchLimit) :
    ∃ a k m, afterSamples eps aeps force (marked 0 xs) s =
      some { s with
        sum := s.sum + xs.sum, count := s.count + xs.length, average := a, countSpaces := k, maxspace := m } ∧
      L ≤ a := by
  induction bits generalizing xs s with
  | nil =>
    obtain ⟨x, rest, hx, hrest, rfl⟩ := List.forall₂_cons_right_iff.mp hxs
    obtain rfl := List.forall₂_nil_right_iff.mp hrest
    have hd : Duration x := hT.duration (e := t.ptrail) (by simp) hx
    refine ⟨s.average, s.countSpaces, s.maxspace, ?_, h.average.1⟩
    have hone : marked 0 [x] = [PULSE_BIT + x] := rfl
    rw [hone, afterSamples_next hd.pulse_ne_zero (search_pulse h.mode hd hcount), afterSamples, List.sum_singleton]
    rfl
  | cons b bits ih =>
    rw [List.flatMap_cons, List.append_assoc] at hxs
    obtain ⟨p, rest0, hp, hrest0, rfl⟩ := List.forall₂_cons_right_iff.mp hxs
    obtain ⟨x, rest, hx, hrest, rfl⟩ := List.forall₂_cons_right_iff.mp hrest0
    rw [List.length_cons, List.length_cons] at hcount
    rw [List.length_cons] at hk
    have hdp : Duration p := hT.duration (e := t.pulse) (by simp) hp
    have hdx : Duration x := by
      cases b
      · exact hT.duration (e := t.szero) (by simp) hx
      · exact hT.duration (e := t.sone) (by simp) hx
    have hwithin : L ≤ x ∧ x ≤ t.sone + δ := by
      have hsym := hT.symbols
      have hnoise := hT.noise
      unfold Close at hx
      rw [abs_le] at hx
      cases b
      · rw [if_neg Bool.false_ne_true] at hx
        omega
      · rw [if_pos rfl] at hx
        omega
    have h1 : Quiet L (t.sone + δ) { s with sum := s.sum + p, count := s.count + 1 } :=
      ⟨h.mode, h.average, h.maxspace, h.spaces⟩
    obtain ⟨a, m, hturn, hlow, hhigh, hmax⟩ := @search_space eps aeps force _ _ _ _ hL hLH h1
      (by dsimp only; omega) hwithin hT.short.2 (by dsimp only; omega)
    have h2 : Quiet L (t.sone + δ) { s with
        sum := s.sum + p + x, count := s.count + 1 + 1, average := a, countSpaces := s.countSpaces + 1,
        maxspace := m } := ⟨h.mode, ⟨hlow, hhigh⟩, hmax, by dsimp only; omega⟩
    obtain ⟨a', k', m', hrun, ha'⟩ :=
      ih hrest h2 (by dsimp only; omega) (by dsimp only; omega)
    refine ⟨a', k', m', ?_, ha'⟩
    rw [marked_pair, afterSamples_next hdp.pulse_ne_zero (search_pulse h.mode hdp (by omega)),
      afterSamples_next hdx.ne_zero hturn, hrun]
    have hsum : s.sum + p + x + rest.sum = s.sum + (p :: x :: rest).sum := by
      rw [List.sum_cons, List.sum_cons]
      omega
    have hlen : s.count + 1 + 1 + rest.length = s.count + (p :: x :: rest).length := by
      rw [List.length_cons, List.length_cons]
      omega
    dsimp only
    rw [hsum, hlen]

end Search

/-! ## 3. The search for the gap -/

/-- The variables of the search behind these frames. -/
def searched (eps : Nat) (aeps : Int) (remote : IrRemote) (count : Nat) (read : List HeardFrame) : Analysis where
  remote := remote
  count := count
  first
    | .sum => addTimes eps aeps (read.map HeardFrame.total) []
    | .gap => addTimes eps aeps (read.map HeardFrame.space) []
    | _ => []

section Searched

variable {eps : Nat} {aeps δ : Int} {t : Timing} {remote : IrRemote} {count : Nat} {read : List HeardFrame}
  {f : HeardFrame}

theorem length_frame_times (bits : List Bool) : (t.frame bits).length = 2 * bits.length + 3 := by
  have hdata : (bits.flatMap t.symbol).length = 2 * bits.length := by
    induction bits with
    | nil => rfl
    | cons b bits ih =>
      rw [List.flatMap_cons, List.length_append, ih, List.length_cons]
      have hb : (t.symbol b).length = 2 := rfl
      omega
  unfold Timing.frame
  rw [List.length_cons, List.length_cons, List.length_append, hdata, List.length_singleton]

theorem HeardFrame.Received.length_times (h : f.Received δ t) : f.times.length = 2 * t.bits + 3 := by
  rw [h.times.length_eq, length_frame_times, h.length]

/-- The last time of a frame is a pulse, what follows is a space. -/
theorem HeardFrame.Received.samples (h : f.Received δ t) : f.samples = marked 0 f.times ++ [f.space] := by
  have hlen := h.length_times
  have hodd : ¬ (0 + f.times.length) % 2 = 0 := by omega
  unfold HeardFrame.samples HeardFrame.all
  rw [marked_append, marked, if_neg hodd]
  rfl

/-- The times of a frame leave no trace but their sum. -/
theorem search_times (hT : Tolerable eps aeps δ t) (hf : f.Received δ t)
    (hcount : count + f.times.length ≤ searchLimit) :
    ∃ a k m, afterSamples eps aeps false (marked 0 f.times) (searched eps aeps remote count read) =
      some { searched eps aeps remote count read with
        sum := f.times.sum, count := count + f.times.length, average := a, countSpaces := k, maxspace := m } ∧
      0 < a := by
  obtain ⟨p, rest0, hp, hrest0, htimes⟩ := List.forall₂_cons_right_iff.mp hf.times
  obtain ⟨x, rest, hx, hrest, rfl⟩ := List.forall₂_cons_right_iff.mp hrest0
  have hlen := hf.length_times
  have hbits := hT.bits
  have hlength := hf.length
  rw [htimes] at hcount hlen ⊢
  rw [List.length_cons, List.length_cons] at hcount hlen
  have hdp : Duration p := hT.duration (e := t.phead) (by simp) hp
  have hdx : Duration x := hT.duration (e := t.shead) (by simp) hx
  have htime := hT.times
  simp only [List.forall_mem_cons, List.not_mem_nil, false_imp_iff, implies_true, and_true] at htime
  have hspaces := hT.spaces
  have hshort := hT.short
  have hsym := hT.symbols
  have hnoise := hT.noise
  have hx' := hx
  unfold Close at hx'
  rw [abs_le] at hx'
  have h1 := @search_pulse eps aeps false (searched eps aeps remote count read) _
    rfl hdp (by show count + 1 ≤ _; omega)
  have h2 := @search_firstSpace eps aeps false
    { searched eps aeps remote count read with sum := 0 + p, count := count + 1 } _ rfl rfl hdx
    (by unfold MIN_GAP at hshort; omega) (by show count + 1 + 1 ≤ _; omega)
  have hquiet : Quiet (min (t.szero - δ) (t.shead - δ)) (t.sone + δ)
      { searched eps aeps remote count read with
        sum := 0 + p + x, count := count + 1 + 1, average := x, maxspace := x } := by
    refine ⟨rfl, ⟨?_, ?_⟩, ?_, Nat.zero_le _⟩
    all_goals dsimp only
    all_goals omega
  obtain ⟨a, k, m, hrun, ha⟩ := @search_data _ _ _ false _ _ (min (t.szero - δ) (t.shead - δ)) hT (by omega)
    (by omega) (by omega) f.bits _ hrest hquiet (by show 0 + f.bits.length ≤ 300; omega)
    (by show count + 1 + 1 + rest.length ≤ _; omega)
  refine ⟨a, k, m, ?_, by omega⟩
  rw [marked_pair]
  refine (afterSamples_next hdp.pulse_ne_zero h1).trans ((afterSamples_next hdx.ne_zero h2).trans (hrun.trans ?_))
  have hsum : 0 + p + x + rest.sum = (p :: x :: rest).sum := by
    rw [List.sum_cons, List.sum_cons]
    omega
  have hcnt : count + 1 + 1 + rest.length = count + (p :: x :: rest).length := by
    rw [List.length_cons, List.length_cons]
    omega
  dsimp only
  rw [hsum, hcnt]

theorem countsUpTo_searched (hn : read.length < 2 ^ 32) :
    CountsUpTo ((searched eps aeps remote count read).first .sum) read.length ∧
      CountsUpTo ((searched eps aeps remote count read).first .gap) read.length := by
  have hcounts (times : List Int) (h : times.length = read.length) :
      CountsUpTo (addTimes eps aeps times []) read.length := by
    have hadd := @countsUpTo_addTimes eps aeps _ _ times (countsUpTo_nil 0) (by omega)
    rwa [Nat.zero_add, h] at hadd
  exact ⟨hcounts _ (List.length_map _), hcounts _ (List.length_map _)⟩

/-- The lists behind one more frame. -/
theorem noteGap_searched (a m : Int) (k : Nat) (f : HeardFrame) (hn : read.length + 1 < 2 ^ 32) :
    noteGap eps aeps false { searched eps aeps remote count read with
      sum := f.total, average := a, countSpaces := k, maxspace := m } f.space =
      gapFound false { searched eps aeps remote count (read ++ [f]) with
        sum := f.total, average := a, countSpaces := k, maxspace := m } := by
  obtain ⟨hsum, hgap⟩ := @countsUpTo_searched eps aeps remote count read (Nat.lt_of_succ_lt hn)
  have hnote := (@noteGap_counts eps aeps false _ { searched eps aeps remote count read with
    sum := f.total, average := a, countSpaces := k, maxspace := m } f.space hsum hgap hn).1
  have hfirst : (({ searched eps aeps remote count read with
        sum := f.total, average := a, countSpaces := k, maxspace := m }.added eps aeps .sum f.total).added
      eps aeps .gap f.space).first = (searched eps aeps remote count (read ++ [f])).first := by
    funext kind
    unfold Analysis.added searched
    cases kind <;> simp [addTimes]
  refine hnote.trans (congrArg (gapFound false) ?_)
  exact congrArg (fun first => { searched eps aeps remote count (read ++ [f]) with
    sum := f.total, average := a, countSpaces := k, maxspace := m, first }) hfirst

/-- The variables when the gap was found. -/
def foundGap (eps : Nat) (aeps : Int) (remote : IrRemote) (read : List HeardFrame) : Analysis :=
  { searched eps aeps remote 0 read with mode := .haveGap }

theorem total_eq (f : HeardFrame) : f.total = f.times.sum + f.space := by
  unfold HeardFrame.total HeardFrame.all
  rw [List.sum_append, List.sum_singleton]

/-- **A frame in the search**: its gap is noted. -/
theorem search_frame (hT : Tolerable eps aeps δ t) (hf : f.Received δ t) (hgap : MIN_GAP < f.space)
    (hfit : f.space ≤ PULSE_MASK) (hcount : count + t.entries ≤ searchLimit) :
    ∃ a k m, afterSamples eps aeps false f.samples (searched eps aeps remote count read) =
      match noteGap eps aeps false { searched eps aeps remote (count + t.entries) read with
        sum := f.total, average := a, countSpaces := k, maxspace := m } f.space with
      | some (.next s) => some s
      | _ => none := by
  have hlen := hf.length_times
  have hentries : t.entries = f.times.length + 1 := by
    unfold Timing.entries
    omega
  have hlimit : count + t.entries ≤ 81920 := hcount
  have hd : Duration f.space := ⟨by unfold MIN_GAP at hgap; omega, hfit⟩
  have hs : isSpace f.space = true := by
    unfold isSpace
    rw [hd.space.1]
    rfl
  obtain ⟨a, k, m, hrun, ha⟩ := @search_times _ _ _ _ remote count read _ hT hf
    (by omega)
  refine ⟨a, k, m, ?_⟩
  rw [hf.samples, afterSamples_append, hrun, Option.bind_some, afterSamples, if_neg hd.ne_zero,
    lengthsTurn_gap rfl _ (by dsimp only; omega)]
  unfold gapTurn
  dsimp only
  have hisgap (s : Analysis) : isGap s f.space = true := by
    unfold isGap
    rw [decide_eq_true hgap]
    rfl
  rw [if_neg (by omega), if_pos hs, hisgap, if_pos rfl, hd.space.2, ← total_eq, hentries, Nat.add_assoc]
  rfl

theorem noteGap_goesOn (a m : Int) (k : Nat) (hn : read.length + 1 < 2 ^ 32)
    (hsums : manyTimes (addTimes eps aeps ((read ++ [f]).map HeardFrame.total) []) = none)
    (hgaps : manyTimes (addTimes eps aeps ((read ++ [f]).map HeardFrame.space) []) = none) :
    noteGap eps aeps false { searched eps aeps remote count read with
      sum := f.total, average := a, countSpaces := k, maxspace := m } f.space =
      some (.next (searched eps aeps remote count (read ++ [f]))) := by
  rw [noteGap_searched a m k f hn]
  unfold gapFound
  dsimp only
  have hs : (searched eps aeps remote count (read ++ [f])).first .sum =
      addTimes eps aeps ((read ++ [f]).map HeardFrame.total) [] := rfl
  have hg : (searched eps aeps remote count (read ++ [f])).first .gap =
      addTimes eps aeps ((read ++ [f]).map HeardFrame.space) [] := rfl
  rw [hs, hg, hsums, hgaps]
  rfl

theorem noteGap_found {scan : LengthClass} {g : Int} (a m : Int) (k : Nat) (hn : read.length + 1 < 2 ^ 32)
    (hsums : manyTimes (addTimes eps aeps ((read ++ [f]).map HeardFrame.total) []) = none)
    (hgaps : manyTimes (addTimes eps aeps ((read ++ [f]).map HeardFrame.space) []) = some scan)
    (hg : calcSignal scan = some g) :
    noteGap eps aeps false { searched eps aeps remote count read with
      sum := f.total, average := a, countSpaces := k, maxspace := m } f.space =
      some (.next (foundGap eps aeps { remote with gap := g } (read ++ [f]))) := by
  rw [noteGap_searched a m k f hn]
  unfold gapFound
  dsimp only
  have hs : (searched eps aeps remote count (read ++ [f])).first .sum =
      addTimes eps aeps ((read ++ [f]).map HeardFrame.total) [] := rfl
  have hgap : (searched eps aeps remote count (read ++ [f])).first .gap =
      addTimes eps aeps ((read ++ [f]).map HeardFrame.space) [] := rfl
  rw [hs, hgap, hsums, hgaps]
  dsimp only
  rw [hg]
  rfl

end Searched

/-! ## 4. The gap is found -/

section Found

variable {eps : Nat} {aeps δ : Int} {t : Timing} {remote : IrRemote} {frames read : List HeardFrame}
  {f : HeardFrame}

/-- The space behind the frame is the gap. -/
def isHeld (δ : Int) (t : Timing) (f : HeardFrame) : Bool := isNear (t.gap - δ) (t.gap + δ) f.space

/-- The frames of a recording: some of them with a gap behind them, the others with
    a pause, of which there are never more than there were gaps. -/
structure KeyRecording (eps : Nat) (aeps δ : Int) (t : Timing) (frames : List HeardFrame) : Prop where
  received : ∀ f ∈ frames, f.Received δ t
  spaces : ∀ f ∈ frames, isHeld δ t f = true ∨ Pause aeps δ t f.space
  held : ∀ n, ((frames.take n).countP fun f => !isHeld δ t f) ≤ (frames.take n).countP (isHeld δ t)
  varied : ∀ e ∈ frames.take 161, ((frames.take 161).countP fun f =>
    decide (e.total ≤ f.total) && decide (f.total ≤ e.total + (2 * aeps + 198))) ≤ SAMPLES
  small : Small (frames.flatMap HeardFrame.all)

theorem Tolerable.aeps_lt (hT : Tolerable eps aeps δ t) : 0 ≤ aeps ∧ aeps < PULSE_MASK := by
  have h1 := hT.shorter t.pulse (by simp)
  have h2 := hT.times t.phead (by simp)
  have h3 := hT.times t.shead (by simp)
  have h4 := hT.times t.pulse (by simp)
  have h5 := hT.noise
  have h6 := hT.fits
  omega

theorem Tolerable.window (hT : Tolerable eps aeps δ t) :
    Window aeps (max 99 (2 * aeps)) (t.gap - δ) (t.gap + δ) := by
  have h := hT.noise
  exact ⟨by omega, by omega, by omega⟩

theorem Tolerable.mergeable (hT : Tolerable eps aeps δ t) {x : Int} (h1 : 1 ≤ x) (h2 : x ≤ PULSE_MASK) :
    Mergeable eps aeps x := by
  have ha := hT.aeps_lt
  have he := hT.percent
  unfold PULSE_MASK at *
  refine ⟨h1, ?_, by omega⟩
  have hle : x * (100 + eps) ≤ 0x00FFFFFF * (100 + eps) := mul_le_mul_of_nonneg_right h2 (by omega)
  omega

/-- What is behind each frame, and all of it, in a sum that fits. -/
theorem small_frames (h : Small (frames.flatMap HeardFrame.all)) :
    Small (frames.map HeardFrame.total) ∧ Small (frames.map HeardFrame.space) := by
  have hmain : (∀ f ∈ frames, 0 ≤ f.total ∧ 0 ≤ f.space) ∧
      (frames.map HeardFrame.total).sum = (frames.flatMap HeardFrame.all).sum ∧
      (frames.map HeardFrame.space).sum ≤ (frames.flatMap HeardFrame.all).sum ∧
      frames.length ≤ (frames.flatMap HeardFrame.all).length := by
    have hnonneg := h.nonneg
    clear h
    induction frames with
    | nil => exact ⟨fun f hf => absurd hf List.not_mem_nil, rfl, le_refl _, Nat.le_refl _⟩
    | cons f frames ih =>
      rw [List.flatMap_cons] at hnonneg
      obtain ⟨h1, h2, h3, h4⟩ := ih fun x hx => hnonneg x (List.mem_append_right _ hx)
      have htimes : 0 ≤ f.times.sum := List.sum_nonneg fun x hx =>
        hnonneg x (List.mem_append_left _ (List.mem_append_left _ hx))
      have hspace : 0 ≤ f.space := hnonneg f.space
        (List.mem_append_left _ (List.mem_append_right _ (List.mem_singleton_self _)))
      have htotal := total_eq f
      have hall : f.all.sum = f.total := rfl
      have hlen : f.all.length = f.times.length + 1 := List.length_append
      rw [List.flatMap_cons, List.map_cons, List.map_cons, List.sum_cons, List.sum_cons, List.sum_append, h2,
        List.length_append, List.length_cons, hall]
      refine ⟨fun g hg => ?_, rfl, by omega, by omega⟩
      rcases List.mem_cons.mp hg with rfl | hg
      · exact ⟨by omega, hspace⟩
      · exact h1 g hg
  obtain ⟨h1, h2, h3, h4⟩ := hmain
  have hsum := h.sum
  have hlen := h.length
  constructor
  · refine ⟨fun x hx => ?_, by omega, by rw [List.length_map]; omega⟩
    obtain ⟨f, hf, rfl⟩ := List.mem_map.mp hx
    exact (h1 f hf).1
  · refine ⟨fun x hx => ?_, by omega, by rw [List.length_map]; omega⟩
    obtain ⟨f, hf, rfl⟩ := List.mem_map.mp hx
    exact (h1 f hf).2

theorem KeyRecording.space (hT : Tolerable eps aeps δ t) (h : KeyRecording eps aeps δ t frames) (hf : f ∈ frames) :
    MIN_GAP < f.space ∧ f.space ≤ f.total ∧ f.total ≤ PULSE_MASK := by
  have hgap := hT.gap
  have hnoise := hT.noise
  have htime := hT.times
  simp only [List.forall_mem_cons, List.not_mem_nil, false_imp_iff, implies_true, and_true] at htime
  have haeps := hT.aeps_lt
  have hle : f.space ≤ f.total := by
    rw [total_eq]
    have hnonneg : 0 ≤ f.times.sum := List.sum_nonneg fun x hx =>
      h.small.nonneg x (List.mem_flatMap.mpr ⟨f, hf, List.mem_append_left _ hx⟩)
    omega
  refine ⟨?_, hle, (h.received f hf).total⟩
  rcases h.spaces f hf with hheld | hpause
  · unfold isHeld isNear at hheld
    rw [Bool.and_eq_true, decide_eq_true_eq, decide_eq_true_eq] at hheld
    omega
  · have hlong := hpause.1
    unfold MIN_GAP at *
    omega

/-- The gaps lie close together, and apart from the pauses. -/
theorem KeyRecording.gaps (hT : Tolerable eps aeps δ t) (h : KeyRecording eps aeps δ t frames)
    (hread : read.Sublist frames) :
    Small (read.map HeardFrame.space) ∧
      Focused (max 99 (2 * aeps)) (t.gap - δ) (t.gap + δ) (addTimes eps aeps (read.map HeardFrame.space) []) := by
  have hsmall : Small (read.map HeardFrame.space) :=
    (small_frames h.small).2.subperm (hread.map _).subperm
  refine ⟨hsmall, focused_addTimes hT.window hT.percent hsmall (fun x hx => ?_) fun x hx => ?_⟩
  · obtain ⟨f, hf, rfl⟩ := List.mem_map.mp hx
    obtain ⟨h1, h2, h3⟩ := h.space hT (hread.subset hf)
    unfold MIN_GAP at h1
    exact hT.mergeable (by omega) (by omega)
  · obtain ⟨f, hf, rfl⟩ := List.mem_map.mp hx
    rcases h.spaces f (hread.subset hf) with hheld | hpause
    · unfold isHeld isNear at hheld
      rw [Bool.and_eq_true, decide_eq_true_eq, decide_eq_true_eq] at hheld
      exact .inl hheld
    · have hlong := hpause.1
      have hgap := hT.gap
      have hnoise := hT.noise
      have htime := hT.times
      simp only [List.forall_mem_cons, List.not_mem_nil, false_imp_iff, implies_true, and_true] at htime
      have hshort := hT.shorter t.pulse (by simp)
      unfold MIN_GAP at hgap
      exact .inr (.inr (by omega))

/-- **A class of the spaces** behind the frames: the gaps, or some of the pauses. -/
theorem KeyRecording.class_gap (hT : Tolerable eps aeps δ t) (h : KeyRecording eps aeps δ t frames)
    (hread : read.Sublist frames) {c : LengthClass} (hc : c ∈ addTimes eps aeps (read.map HeardFrame.space) []) :
    ((∃ part, ClassOf c part ∧ Small part ∧ c.Near (t.gap - δ) (t.gap + δ)) ∧ c.count = read.countP (isHeld δ t)) ∨
      c.count ≤ read.countP fun f => !isHeld δ t f := by
  have hW := hT.window
  obtain ⟨hsmall, hF⟩ := h.gaps hT hread
  have htally : Tally (addTimes eps aeps (read.map HeardFrame.space) []) (read.map HeardFrame.space) :=
    tally_addTimes hsmall
  have hcountP (p : Int → Bool) : (read.map HeardFrame.space).countP p = read.countP fun f => p f.space := by
    rw [List.countP_map]
    rfl
  rcases hF.apart c hc with hnear | hfar
  · obtain ⟨part, hp, hof⟩ := hF.class hW htally hc hnear
    refine .inl ⟨⟨part, hof, hsmall.subperm (hp.subperm.trans List.filter_sublist.subperm), hnear⟩, ?_⟩
    rw [hof.count, hp.length_eq, ← List.countP_eq_length_filter, hcountP]
    rfl
  · obtain ⟨part, rest, hp, hof⟩ := htally.class_of_mem hc
    have hnone : ∀ x ∈ part, (!isNear (t.gap - δ) (t.gap + δ) x) = true := by
      intro x hx
      have hfilter := List.filter_eq_nil_iff.mp (filter_far hW hof hfar) x hx
      rw [Bool.not_eq_true', Bool.eq_false_iff]
      exact hfilter
    refine .inr ?_
    have hle : part.length ≤ (read.map HeardFrame.space).countP fun x => !isNear (t.gap - δ) (t.gap + δ) x := by
      rw [← hp.countP_eq, List.countP_append, List.countP_eq_length.mpr hnone]
      exact Nat.le_add_right _ _
    rw [hof.count]
    exact le_trans hle (le_of_eq (hcountP _))

theorem manyTimes_none {classes : List LengthClass} (h : ∀ c ∈ classes, c.count ≤ SAMPLES) :
    manyTimes classes = none := by
  refine List.find?_eq_none.mpr fun c hc => ?_
  rw [decide_eq_true_eq]
  exact Nat.not_lt.mpr (h c hc)

/-- The sums up to the gaps differ too much to be taken for a constant length. -/
theorem KeyRecording.sums_differ (hT : Tolerable eps aeps δ t) (h : KeyRecording eps aeps δ t frames) {n : Nat}
    (hn : n ≤ 161) : manyTimes (addTimes eps aeps ((frames.take n).map HeardFrame.total) []) = none := by
  have hsmall : Small ((frames.take n).map HeardFrame.total) :=
    (small_frames h.small).1.subperm ((List.take_sublist n frames).map _).subperm
  have hfit : ∀ x ∈ (frames.take n).map HeardFrame.total, Mergeable eps aeps x := by
    intro x hx
    obtain ⟨f, hf, rfl⟩ := List.mem_map.mp hx
    obtain ⟨h1, h2, h3⟩ := h.space hT (List.mem_of_mem_take hf)
    unfold MIN_GAP at h1
    exact hT.mergeable (by omega) h3
  refine manyTimes_none fun c hc => ?_
  obtain ⟨hmin, hle⟩ := count_addTimes_le hT.percent hT.aeps_lt.1 hsmall hfit hc
  obtain ⟨e, he, hetotal⟩ := List.mem_map.mp hmin
  have hsub := List.take_sublist_take_left (l := frames) hn
  rw [List.countP_map, ← hetotal] at hle
  exact le_trans hle (le_trans hsub.countP_le (h.varied e (hsub.subset he)))

theorem countP_split {p : HeardFrame → Bool} (frames : List HeardFrame) :
    frames.countP p + frames.countP (fun f => !p f) = frames.length := by
  have h := List.length_eq_countP_add_countP p (l := frames)
  have hnot : (fun f => !p f) = fun f => decide (¬ p f = true) := by
    funext f
    cases p f <;> rfl
  rw [hnot]
  exact h.symm

/-- As long as there were no more than 80 gaps there were no more than 160 frames. -/
theorem KeyRecording.few (h : KeyRecording eps aeps δ t frames) {n : Nat} (hn : n ≤ frames.length)
    (hfew : (frames.take n).countP (isHeld δ t) ≤ SAMPLES) : n ≤ 160 := by
  have hsplit := countP_split (p := isHeld δ t) (frames.take n)
  have hheld := h.held n
  rw [List.length_take, Nat.min_eq_left hn] at hsplit
  unfold SAMPLES at hfew
  omega

theorem take_succ_get {n : Nat} (hn : n < frames.length) : frames.take (n + 1) = frames.take n ++ [frames[n]] :=
  List.take_succ_eq_append_getElem hn

/-- **The search goes on** as long as there were no more than 80 gaps. -/
theorem search_run (hT : Tolerable eps aeps δ t) (h : KeyRecording eps aeps δ t frames) (n : Nat)
    (hn : n ≤ frames.length) (hfew : (frames.take n).countP (isHeld δ t) ≤ SAMPLES) :
    afterSamples eps aeps false ((frames.take n).flatMap HeardFrame.samples) (searched eps aeps remote 1 []) =
      some (searched eps aeps remote (1 + n * t.entries) (frames.take n)) := by
  induction n with
  | zero =>
    rw [Nat.zero_mul]
    rfl
  | succ n ih =>
    have hlt : n < frames.length := hn
    have hle : (frames.take n).countP (isHeld δ t) ≤ (frames.take (n + 1)).countP (isHeld δ t) :=
      (List.take_sublist_take_left (Nat.le_succ n)).countP_le
    have hmem : frames[n] ∈ frames := List.getElem_mem hlt
    obtain ⟨hlong, hle1, hle2⟩ := h.space hT hmem
    have hshort := h.few hn hfew
    have hbits := hT.bits
    have hentries : t.entries ≤ 504 := by
      unfold Timing.entries
      omega
    have hmul : n * t.entries ≤ 159 * 504 := Nat.mul_le_mul (by omega) hentries
    have hread : (frames.take n).length + 1 < 2 ^ 32 := by
      rw [List.length_take]
      omega
    obtain ⟨a, k, m, hrun⟩ := @search_frame _ _ _ _ remote (1 + n * t.entries) (frames.take n) _
      hT (h.received _ hmem) hlong (by omega) (by unfold searchLimit SAMPLES MAX_SIGNALS; omega)
    have hsums := h.sums_differ hT (n := n + 1) (by omega)
    have hgaps : manyTimes (addTimes eps aeps ((frames.take (n + 1)).map HeardFrame.space) []) = none := by
      refine manyTimes_none fun c hc => ?_
      rcases h.class_gap hT (List.take_sublist _ _) hc with ⟨-, hcount⟩ | hcount
      · rw [hcount]
        exact hfew
      · exact le_trans hcount (le_trans (h.held (n + 1)) hfew)
    rw [take_succ_get hlt] at hsums hgaps ⊢
    rw [List.flatMap_append, afterSamples_append, ih (Nat.le_of_lt hlt) (le_trans hle hfew), Option.bind_some,
      List.flatMap_singleton, hrun, noteGap_goesOn a m k hread hsums hgaps]
    dsimp only
    rw [Nat.succ_mul, Nat.add_assoc]

/-- The 81st gap. -/
theorem KeyRecording.last_gap (h : KeyRecording eps aeps δ t frames) (hlen : 161 ≤ frames.length) :
    ∃ n, ∃ hn : n < frames.length, n ≤ 160 ∧ (frames.take n).countP (isHeld δ t) = SAMPLES ∧
      isHeld δ t frames[n] = true := by
  have hmany : ∃ m, SAMPLES < (frames.take m).countP (isHeld δ t) := by
    refine ⟨161, Nat.lt_of_not_le fun hfew => ?_⟩
    exact absurd (h.few hlen hfew) (by decide)
  have hm := Nat.find_spec hmany
  have hmin := fun k => @Nat.find_min _ _ hmany k
  generalize Nat.find hmany = m at hm hmin
  cases m with
  | zero => exact absurd hm (Nat.not_lt_zero _)
  | succ n =>
    have hfew := Nat.le_of_not_lt (hmin n (Nat.lt_succ_self n))
    have hlt : n < frames.length := by
      by_contra hge
      have hge := Nat.le_of_not_lt hge
      rw [List.take_of_length_le hge] at hfew
      rw [List.take_of_length_le (Nat.le_succ_of_le hge)] at hm
      omega
    rw [take_succ_get hlt, List.countP_append, List.countP_singleton] at hm
    refine ⟨n, hlt, h.few (Nat.le_of_lt hlt) hfew, ?_, ?_⟩
    · split at hm <;> omega
    · by_contra hno
      rw [if_neg hno] at hm
      omega

/-- **The gap is found** with the 81st gap between two frames. -/
theorem search_recording (hT : Tolerable eps aeps δ t) (h : KeyRecording eps aeps δ t frames)
    (hlen : 161 ≤ frames.length) :
    ∃ n g, ∃ hn : n < frames.length, n ≤ 160 ∧ isHeld δ t frames[n] = true ∧ Close δ g t.gap ∧
      afterSamples eps aeps false ((frames.take (n + 1)).flatMap HeardFrame.samples) (searched eps aeps remote 1 []) =
        some (foundGap eps aeps { remote with gap := g } (frames.take (n + 1))) := by
  obtain ⟨n, hn, h160, h80, hheld⟩ := h.last_gap hlen
  have hmem : frames[n] ∈ frames := List.getElem_mem hn
  obtain ⟨hlong, hle1, hle2⟩ := h.space hT hmem
  have hbits := hT.bits
  have hentries : t.entries ≤ 504 := by
    unfold Timing.entries
    omega
  have hmul : n * t.entries ≤ 160 * 504 := Nat.mul_le_mul h160 hentries
  have hread : (frames.take n).length + 1 < 2 ^ 32 := by
    rw [List.length_take]
    omega
  obtain ⟨a, k, m, hrun⟩ := @search_frame _ _ _ _ remote (1 + n * t.entries) (frames.take n) _
    hT (h.received _ hmem) hlong (by omega) (by unfold searchLimit SAMPLES MAX_SIGNALS; omega)
  have hsums := h.sums_differ hT (n := n + 1) (by omega)
  have hcount : (frames.take (n + 1)).countP (isHeld δ t) = 81 := by
    rw [take_succ_get hn, List.countP_append, List.countP_singleton, if_pos hheld, h80]
    rfl
  have hpauses : ((frames.take (n + 1)).countP fun f => !isHeld δ t f) ≤ SAMPLES := by
    rw [take_succ_get hn, List.countP_append, List.countP_singleton, hheld, Bool.not_true,
      if_neg Bool.false_ne_true, ← h80]
    exact h.held n
  obtain ⟨hsmall, hF⟩ := h.gaps hT (List.take_sublist (n + 1) frames)
  have hnear : ((frames.take (n + 1)).map HeardFrame.space).filter (isNear (t.gap - δ) (t.gap + δ)) ≠ [] := by
    refine List.ne_nil_of_mem (List.mem_filter.mpr ⟨List.mem_map_of_mem ?_, hheld⟩)
    rw [take_succ_get hn]
    exact List.mem_append_right _ (List.mem_singleton_self _)
  obtain ⟨c, hc, hcn⟩ := hF.exists_class hT.window (tally_addTimes hsmall) hnear
  cases hscan : manyTimes (addTimes eps aeps ((frames.take (n + 1)).map HeardFrame.space) []) with
  | none =>
    -- the class of the gaps has counted 81 of them
    have hfew := List.find?_eq_none.mp hscan c hc
    rw [decide_eq_true_eq] at hfew
    obtain ⟨part, hp, hof⟩ := hF.class hT.window (tally_addTimes hsmall) hc hcn
    rw [hof.count, hp.length_eq, ← List.countP_eq_length_filter, List.countP_map] at hfew
    exact absurd (lt_of_lt_of_eq (by decide : SAMPLES < 81) hcount.symm) hfew
  | some scan =>
    obtain ⟨hmem', hmany⟩ := manyTimes_count hscan
    rcases h.class_gap hT (List.take_sublist _ _) hmem' with ⟨⟨part, hof, hps, hin⟩, -⟩ | hle
    · obtain ⟨hg, hmin, hmax⟩ := calcSignal_classOf hof hps
      refine ⟨n, part.sum / part.length, hn, h160, hheld, ?_, ?_⟩
      · have h1 := hin.1
        have h2 := hin.2
        unfold Close
        rw [abs_le]
        omega
      · have hgo := @search_run _ _ _ _ remote _ hT h n (Nat.le_of_lt hn) (le_of_eq h80)
        rw [take_succ_get hn] at hscan hsums ⊢
        rw [List.flatMap_append, afterSamples_append, hgo, Option.bind_some, List.flatMap_singleton, hrun,
          noteGap_found a m k hread hsums hscan hg]
    · exact absurd hmany (Nat.not_lt.mpr (le_trans hle hpauses))

end Found

end WinLirc
