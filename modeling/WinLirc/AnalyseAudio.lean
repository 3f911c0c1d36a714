/-
  File:      WinLirc/AnalyseAudio.lean
  Subject:   `AnalyseAudio` of DLL/AudioCapture/AnalyseAudio.cpp: pulses and spaces
             from the samples of a sound card.

  `m_multiplyConstant` is the number 1000000 / frequency; a product with it becomes
  a `lirc_t` by `toLircT`. `data` are the samples that `setData` was given. The
  ring they wait in and `sendBuffer`, which wakes the thread that takes them out,
  change nothing of it and are left out.

  The sample counter goes back to 0 when it is above `maxCount`, and a pulse that
  lasts as long as that is cut off: its end is never given to `setData`.

  * `decodeSample_same`, `decodeSample_ends`: what one sample does, at the level of
    the one before it or at the other;
  * `Phase`: which kind of sample was the last one given to `setData`;
  * `decodeData_alternates`: the samples alternate and have durations in range
    exactly if no level that ends was too long for a `lirc_t`, and no pulse was cut
    off before another one;
  * `decodeData_short`: so it is as long as no level lasts 2 ^ 31 microseconds.
-/
import Mathlib.Data.List.Chain
import WinLirc.Durations
import WinLirc.Irdroid
import WinLirc.Signal.Runs

namespace WinLirc.AudioCapture

open Signal (forall_place_nil forall_place_snoc)
open Irdroid (orPulse)

/-! ## 1. The analyser -/

inductive SP where
  | positive
  | negative
  | automatic
deriving DecidableEq

/-- The arguments of the constructor. -/
structure Settings where
  frequency : Nat
  frequency_ge : 8000 ≤ frequency
  frequency_le : frequency ≤ 192000
  numberOfChannels : Int
  leftChannel : Bool
  noiseValue : Int
  signalPolarity : SP

structure AnalyseAudio where
  sampleCount : Nat := 0
  pulse : Bool := false
  inverted : Bool := false
  detected : Bool := false
  data : List Int := []

namespace Settings

variable (cfg : Settings)

/-- `m_numberOfChans`, a DWORD. -/
def numberOfChans : Nat := max 1 (min 2 (cfg.numberOfChannels % 2 ^ 32).toNat)

/-- `m_maxCount`: all ones by the whole part of 1000000 / frequency. -/
def maxCount : Nat := (2 ^ 32 - 1) / (1000000 / cfg.frequency)

/-- `m_sampleCount * m_multiplyConstant` as a `lirc_t`. -/
def microseconds (sampleCount : Nat) : Int := toLircT (sampleCount * 1000000 / cfg.frequency)

/-- The same, clamped. -/
def clamped (sampleCount : Nat) : Int :=
  if PULSE_MASK < cfg.microseconds sampleCount then PULSE_MASK else cfg.microseconds sampleCount

end Settings

def create (cfg : Settings) : AnalyseAudio :=
  match cfg.signalPolarity with
  | .positive => { inverted := false, detected := true }
  | .negative => { inverted := true, detected := true }
  | .automatic => { inverted := false, detected := false }

abbrev UCHAR := BitVec 8

def detectSignalPolarity (cfg : Settings) (s : AnalyseAudio) (sample : UCHAR) : AnalyseAudio :=
  if cfg.noiseValue < |(sample.toNat : Int) - 128| then
    { s with inverted := if 128 < sample.toNat then false else true, detected := true }
  else s

/-- Whether a sample is at the level of a pulse. -/
def changeToPulse (cfg : Settings) (inverted : Bool) (currentSample : UCHAR) : Bool :=
  if inverted then decide ((currentSample.toNat : Int) < 128 - cfg.noiseValue)
  else decide (128 + cfg.noiseValue < (currentSample.toNat : Int))

/-- "every so often we will reset" -/
def reset (cfg : Settings) (s : AnalyseAudio) : AnalyseAudio :=
  if cfg.maxCount < s.sampleCount then { s with sampleCount := 0, pulse := false } else s

/-- The state that the level of a sample is looked at in. -/
def ready (cfg : Settings) (s : AnalyseAudio) (currentSample : UCHAR) : AnalyseAudio :=
  reset cfg (if s.detected then s else detectSignalPolarity cfg s currentSample)

/-- What follows from the level. -/
def toLevel (cfg : Settings) (s : AnalyseAudio) (changeToPulse : Bool) : AnalyseAudio :=
  if changeToPulse then
    let s :=
      if !s.pulse then { s with sampleCount := 0, data := s.data ++ [cfg.clamped s.sampleCount] } else s
    { s with pulse := true }
  else
    let s :=
      if s.pulse then { s with sampleCount := 0, data := s.data ++ [orPulse (cfg.clamped s.sampleCount)] }
      else s
    { s with pulse := false }

/-- The body of the loop of `decodeData`. -/
def decodeSample (cfg : Settings) (s : AnalyseAudio) (currentSample : UCHAR) : AnalyseAudio :=
  let s := ready cfg s currentSample
  let s := toLevel cfg s (changeToPulse cfg s.inverted currentSample)
  { s with sampleCount := s.sampleCount + 1 }

/-- The samples of one channel, from byte `i` on. -/
def channelSamples (cfg : Settings) (data : Nat → UCHAR) (bytesRecorded : Nat) : Nat → Nat → List UCHAR
  | 0, _ => []
  | fuel + 1, i =>
    if i < bytesRecorded then
      (if 1 < cfg.numberOfChans ∧ !cfg.leftChannel then data (i + 1) else data i) ::
        channelSamples cfg data bytesRecorded fuel (i + cfg.numberOfChans)
    else []

/-- A buffer of the sound card. -/
structure WaveBuffer where
  data : Nat → UCHAR
  bytesRecorded : Nat

def WaveBuffer.samples (cfg : Settings) (b : WaveBuffer) : List UCHAR :=
  channelSamples cfg b.data b.bytesRecorded b.bytesRecorded 0

def decodeData (cfg : Settings) (s : AnalyseAudio) (b : WaveBuffer) : AnalyseAudio :=
  (b.samples cfg).foldl (decodeSample cfg) s

/-! ## 2. One sample -/

/-- The state after some samples. -/
def decoded (cfg : Settings) (samples : List UCHAR) : AnalyseAudio :=
  samples.foldl (decodeSample cfg) (create cfg)

/-- The level of a sample, with the polarity that it may have set. -/
def level (cfg : Settings) (s : AnalyseAudio) (x : UCHAR) : Bool :=
  changeToPulse cfg (if s.detected then s else detectSignalPolarity cfg s x).inverted x

/-- `m_pulse` after the counter was looked at. -/
def inPulse (cfg : Settings) (s : AnalyseAudio) : Bool := s.pulse && !decide (cfg.maxCount < s.sampleCount)

/-- `m_sampleCount` after it was looked at. -/
def counted (cfg : Settings) (s : AnalyseAudio) : Nat :=
  if cfg.maxCount < s.sampleCount then 0 else s.sampleCount

/-- What `setData` is given at the beginning of a pulse, or at its end. -/
def word (cfg : Settings) (toPulse : Bool) (sampleCount : Nat) : Int :=
  if toPulse then cfg.clamped sampleCount else orPulse (cfg.clamped sampleCount)

section Sample

variable {cfg : Settings} {s : AnalyseAudio} {x : UCHAR}

theorem detect_frame (cfg : Settings) (s : AnalyseAudio) (x : UCHAR) :
    (if s.detected then s else detectSignalPolarity cfg s x).pulse = s.pulse ∧
      (if s.detected then s else detectSignalPolarity cfg s x).sampleCount = s.sampleCount ∧
      (if s.detected then s else detectSignalPolarity cfg s x).data = s.data := by
  unfold detectSignalPolarity
  split
  · exact ⟨rfl, rfl, rfl⟩
  · split <;> exact ⟨rfl, rfl, rfl⟩

theorem ready_eq (cfg : Settings) (s : AnalyseAudio) (x : UCHAR) :
    (ready cfg s x).pulse = inPulse cfg s ∧ (ready cfg s x).sampleCount = counted cfg s ∧
      (ready cfg s x).data = s.data ∧
      changeToPulse cfg (ready cfg s x).inverted x = level cfg s x := by
  obtain ⟨hpulse, hcount, hdata⟩ := detect_frame cfg s x
  unfold ready reset inPulse counted level
  rw [hcount]
  by_cases hreset : cfg.maxCount < s.sampleCount
  · rw [if_pos hreset, if_pos hreset, decide_eq_true hreset, Bool.not_true, Bool.and_false]
    exact ⟨rfl, rfl, hdata, rfl⟩
  · rw [if_neg hreset, if_neg hreset, decide_eq_false hreset, Bool.not_false, Bool.and_true]
    exact ⟨hpulse, hcount, hdata, rfl⟩

theorem toLevel_same {toPulse : Bool} (h : toPulse = s.pulse) : toLevel cfg s toPulse = s := by
  subst h
  unfold toLevel
  cases hp : s.pulse with
  | false =>
    dsimp only
    rw [if_neg Bool.false_ne_true, if_neg Bool.false_ne_true, ← hp]
  | true =>
    rw [if_pos rfl, Bool.not_true, if_neg Bool.false_ne_true, ← hp]

theorem toLevel_ends {toPulse : Bool} (h : toPulse ≠ s.pulse) :
    toLevel cfg s toPulse =
      { s with
        sampleCount := 0
        pulse := toPulse
        data := s.data ++ [word cfg toPulse s.sampleCount] } := by
  unfold toLevel word
  cases toPulse with
  | false =>
    have hp : s.pulse = true := by
      cases hp : s.pulse with
      | false => exact absurd hp.symm h
      | true => rfl
    simp [hp]
  | true =>
    have hp : s.pulse = false := by
      cases hp : s.pulse with
      | false => rfl
      | true => exact absurd hp.symm h
    simp [hp]

/-- **A sample at the level that it was** changes the counter only. -/
theorem decodeSample_same (h : level cfg s x = inPulse cfg s) :
    (decodeSample cfg s x).pulse = level cfg s x ∧
      (decodeSample cfg s x).sampleCount = counted cfg s + 1 ∧ (decodeSample cfg s x).data = s.data := by
  obtain ⟨hpulse, hcount, hdata, hlevel⟩ := ready_eq cfg s x
  unfold decodeSample
  dsimp only
  rw [hlevel, toLevel_same (h.trans hpulse.symm), hpulse, hcount, hdata, h]
  exact ⟨rfl, rfl, rfl⟩

/-- **A sample at the other level** ends the level before it. -/
theorem decodeSample_ends (h : level cfg s x ≠ inPulse cfg s) :
    (decodeSample cfg s x).pulse = level cfg s x ∧ (decodeSample cfg s x).sampleCount = 1 ∧
      (decodeSample cfg s x).data = s.data ++ [word cfg (level cfg s x) (counted cfg s)] := by
  obtain ⟨hpulse, hcount, hdata, hlevel⟩ := ready_eq cfg s x
  unfold decodeSample
  dsimp only
  rw [hlevel, toLevel_ends fun he => h (he.trans hpulse), hcount, hdata]
  exact ⟨rfl, rfl, rfl⟩

end Sample

/-! ## 3. What `setData` is given -/

/-- The duration of a sample, its bit 24 taken away. -/
def duration (v : Int) : Int := if isPulse v then v - PULSE_BIT else v

/-- **The samples**: durations in range, and pulses and spaces in turn. -/
structure Alternates (data : List Int) : Prop where
  range : ∀ v ∈ data, 0 ≤ duration v ∧ duration v ≤ PULSE_MASK
  alternate : data.IsChain fun a b => isPulse a ≠ isPulse b

/-- Whether the last sample was a space. -/
def LastSpace (data : List Int) : Prop := ∃ v ∈ data.getLast?, isPulse v = false

section Word

variable {cfg : Settings} {n : Nat} {toPulse : Bool} {data : List Int} {v : Int}

theorem clamped_le (cfg : Settings) (n : Nat) : cfg.clamped n ≤ PULSE_MASK := by
  unfold Settings.clamped
  split <;> omega

theorem clamped_nonneg : 0 ≤ cfg.clamped n ↔ 0 ≤ cfg.microseconds n := by
  unfold Settings.clamped PULSE_MASK
  split <;> omega

/-- **A duration that is not negative** keeps what it is the duration of. -/
theorem word_range (h : 0 ≤ cfg.microseconds n) :
    isPulse (word cfg toPulse n) = !toPulse ∧ 0 ≤ duration (word cfg toPulse n) ∧
      duration (word cfg toPulse n) ≤ PULSE_MASK := by
  have h0 := clamped_nonneg.mpr h
  have h1 := clamped_le cfg n
  have hspace := isPulse_of_le h0 h1
  unfold word duration
  cases toPulse with
  | false =>
    rw [if_neg Bool.false_ne_true, orPulse, if_neg (by rw [hspace]; exact Bool.false_ne_true),
      isPulse_add h0 h1, if_pos rfl]
    refine ⟨rfl, ?_, ?_⟩ <;> omega
  | true =>
    rw [if_pos rfl, hspace, if_neg Bool.false_ne_true]
    exact ⟨rfl, h0, h1⟩

/-- A negative one has a negative duration. -/
theorem word_negative (h : cfg.microseconds n < 0) : duration (word cfg toPulse n) < 0 := by
  have h0 : cfg.clamped n < 0 := by
    by_contra hge
    exact absurd (clamped_nonneg.mp (Int.not_lt.mp hge)) (Int.not_le.mpr h)
  unfold word orPulse duration isPulse PULSE_BIT
  simp only [beq_iff_eq]
  split
  · split <;> omega
  · split
    · omega
    · split <;> omega

theorem alternates_snoc :
    Alternates (data ++ [v]) ↔
      Alternates data ∧ (0 ≤ duration v ∧ duration v ≤ PULSE_MASK) ∧
        ∀ a ∈ data.getLast?, isPulse a ≠ isPulse v := by
  constructor
  · intro h
    obtain ⟨hchain, -, hlast⟩ := List.isChain_append.mp h.alternate
    refine ⟨⟨fun a ha => h.range a (List.mem_append_left [v] ha), hchain⟩,
      h.range v (List.mem_append_right data List.mem_cons_self), fun a ha => hlast a ha v rfl⟩
  · intro h
    obtain ⟨hdata, hv, hlast⟩ := h
    refine ⟨fun a ha => ?_, List.isChain_append.mpr ⟨hdata.alternate, List.isChain_singleton v, ?_⟩⟩
    · rcases List.mem_append.mp ha with ha | ha
      · exact hdata.range a ha
      · rw [List.mem_singleton.mp ha]
        exact hv
    · intro a ha b hb
      obtain rfl : v = b := Option.some.inj hb
      exact hlast a ha

theorem lastSpace_snoc : LastSpace (data ++ [v]) ↔ isPulse v = false := by
  unfold LastSpace
  rw [List.getLast?_concat]
  constructor
  · intro h
    obtain ⟨a, ha, hspace⟩ := h
    obtain rfl : v = a := Option.some.inj ha
    exact hspace
  · intro h
    exact ⟨v, rfl, h⟩

/-- **A space** may come unless the last sample was one. -/
theorem alternates_space (hdata : Alternates data) (h : 0 ≤ cfg.microseconds n) :
    Alternates (data ++ [word cfg true n]) ↔ ¬ LastSpace data := by
  obtain ⟨hkind, hrange⟩ := @word_range cfg n true h
  rw [alternates_snoc, hkind]
  constructor
  · intro hx hlast
    obtain ⟨a, ha, hspace⟩ := hlast
    exact hx.2.2 a ha hspace
  · intro hlast
    exact ⟨hdata, hrange, fun a ha hspace => hlast ⟨a, ha, hspace⟩⟩

/-- **A pulse** may come if the last sample was a space. -/
theorem alternates_pulse (hdata : Alternates data) (h : 0 ≤ cfg.microseconds n) (hlast : LastSpace data) :
    Alternates (data ++ [word cfg false n]) := by
  obtain ⟨hkind, hrange⟩ := @word_range cfg n false h
  refine alternates_snoc.mpr ⟨hdata, hrange, fun a ha => ?_⟩
  obtain ⟨b, hb, hspace⟩ := hlast
  obtain rfl : b = a := Option.some.inj (hb.symm.trans ha)
  rw [hkind, hspace]
  exact Bool.false_ne_true

end Word

/-! ## 4. A run -/

/-- A pulse that is cut off when the next sample comes. -/
def CutOff (cfg : Settings) (s : AnalyseAudio) : Prop := s.pulse = true ∧ cfg.maxCount < s.sampleCount

/-- No pulse was cut off so far. -/
def NoCut (cfg : Settings) (samples : List UCHAR) : Prop :=
  ∀ before after, samples = before ++ after → ¬ CutOff cfg (decoded cfg before)

/-- A level that ends was not too long: its duration is no negative `lirc_t`. -/
def Fits (cfg : Settings) (s : AnalyseAudio) (x : UCHAR) : Prop :=
  s.sampleCount ≤ cfg.maxCount → level cfg s x ≠ s.pulse → 0 ≤ cfg.microseconds s.sampleCount

/-- Each level that ends fits, and no pulse comes behind one that was cut off. -/
def LevelsFit (cfg : Settings) (samples : List UCHAR) : Prop :=
  ∀ before x after, samples = before ++ x :: after →
    Fits cfg (decoded cfg before) x ∧ (level cfg (decoded cfg before) x = true → NoCut cfg before)

/-- What is known of the last sample: it is a space during a pulse and behind one
    that was cut off, and no space else. -/
structure Phase (cfg : Settings) (samples : List UCHAR) : Prop where
  pulse : (decoded cfg samples).pulse = true → LastSpace (decoded cfg samples).data
  space : NoCut cfg samples → LastSpace (decoded cfg samples).data → (decoded cfg samples).pulse = true
  cut : ¬ NoCut cfg samples → LastSpace (decoded cfg samples).data ∧
    ((decoded cfg samples).pulse = true → cfg.maxCount < (decoded cfg samples).sampleCount)

section Run

variable {cfg : Settings} {samples : List UCHAR} {x : UCHAR}

theorem decoded_snoc (cfg : Settings) (samples : List UCHAR) (x : UCHAR) :
    decoded cfg (samples ++ [x]) = decodeSample cfg (decoded cfg samples) x := by
  rw [decoded, List.foldl_append]
  rfl

theorem noCut_snoc :
    NoCut cfg (samples ++ [x]) ↔ NoCut cfg samples ∧ ¬ CutOff cfg (decoded cfg (samples ++ [x])) := by
  constructor
  · intro h
    refine ⟨fun before after he => h before (after ++ [x]) ?_, h _ [] (List.append_nil _).symm⟩
    rw [he, List.append_assoc]
  · intro h before after he
    rcases List.eq_nil_or_concat after with rfl | ⟨after, y, rfl⟩
    · rw [List.append_nil] at he
      rw [← he]
      exact h.2
    · rw [List.concat_eq_append, ← List.append_assoc] at he
      exact h.1 before after (List.append_inj' he rfl).1

theorem levelsFit_nil (cfg : Settings) : LevelsFit cfg [] :=
  @forall_place_nil UCHAR fun before x _ =>
    Fits cfg (decoded cfg before) x ∧ (level cfg (decoded cfg before) x = true → NoCut cfg before)

theorem levelsFit_snoc :
    LevelsFit cfg (samples ++ [x]) ↔
      LevelsFit cfg samples ∧ Fits cfg (decoded cfg samples) x ∧
        (level cfg (decoded cfg samples) x = true → NoCut cfg samples) :=
  forall_place_snoc

/-- The pulse that goes on is the one that it was, if none was cut off. -/
theorem inPulse_eq {s : AnalyseAudio} (h : ¬ CutOff cfg s) : inPulse cfg s = s.pulse := by
  unfold inPulse
  cases hp : s.pulse with
  | false => rfl
  | true =>
    rw [decide_eq_false fun hlt => h ⟨hp, hlt⟩]
    rfl

theorem noCut_self (h : NoCut cfg samples) : ¬ CutOff cfg (decoded cfg samples) :=
  h samples [] (List.append_nil samples).symm

theorem microseconds_zero (cfg : Settings) : cfg.microseconds 0 = 0 := by
  unfold Settings.microseconds
  rw [Nat.zero_mul, Nat.zero_div]
  rfl

/-- What fits is no negative duration, after the counter was looked at. -/
theorem fits_iff {s : AnalyseAudio} (h : level cfg s x ≠ inPulse cfg s) :
    Fits cfg s x ↔ 0 ≤ cfg.microseconds (counted cfg s) := by
  unfold Fits counted
  by_cases hreset : cfg.maxCount < s.sampleCount
  · rw [if_pos hreset]
    refine ⟨fun _ => ?_, fun _ hle => absurd hreset (Nat.not_lt.mpr hle)⟩
    exact Int.le_of_eq (microseconds_zero cfg).symm
  · rw [if_neg hreset]
    have hpulse : inPulse cfg s = s.pulse := inPulse_eq fun hcut => hreset hcut.2
    rw [hpulse] at h
    exact ⟨fun hx => hx (Nat.not_lt.mp hreset) h, fun hx _ _ => hx⟩

theorem inPulse_true {s : AnalyseAudio} : inPulse cfg s = true ↔ s.pulse = true ∧ ¬ cfg.maxCount < s.sampleCount := by
  unfold inPulse
  rw [Bool.and_eq_true, Bool.not_eq_true', decide_eq_false_iff_not]

/-- **One sample**: the samples go on to alternate exactly if it fits. -/
theorem alternates_step (hdata : Alternates (decoded cfg samples).data) (hphase : Phase cfg samples) :
    Alternates (decoded cfg (samples ++ [x])).data ↔
      Fits cfg (decoded cfg samples) x ∧
        (level cfg (decoded cfg samples) x = true → NoCut cfg samples) := by
  rw [decoded_snoc]
  by_cases h : level cfg (decoded cfg samples) x = inPulse cfg (decoded cfg samples)
  · rw [(decodeSample_same h).2.2]
    refine iff_of_true hdata ⟨fun hle hne => ?_, fun hl => ?_⟩
    · have hsame := inPulse_eq fun hcut => Nat.not_le.mpr hcut.2 hle
      exact absurd (h.trans hsame) hne
    · obtain ⟨hpulse, hin⟩ := inPulse_true.mp (h ▸ hl)
      by_contra hcut
      exact hin ((hphase.cut hcut).2 hpulse)
  · rw [(decodeSample_ends h).2.2, fits_iff h]
    by_cases hfits : 0 ≤ cfg.microseconds (counted cfg (decoded cfg samples))
    · rw [and_iff_right hfits]
      cases hl : level cfg (decoded cfg samples) x with
      | true =>
        rw [alternates_space hdata hfits]
        constructor
        · intro hlast _
          by_contra hcut
          exact hlast (hphase.cut hcut).1
        · intro hno hlast
          have hpulse := hphase.space (hno rfl) hlast
          rw [hl, inPulse_eq (noCut_self (hno rfl)), hpulse] at h
          exact h rfl
      | false =>
        have hin : inPulse cfg (decoded cfg samples) = true := by
          rw [hl] at h
          exact Bool.of_not_eq_false (Ne.symm h)
        have hlast := hphase.pulse (inPulse_true.mp hin).1
        exact iff_of_true (alternates_pulse hdata hfits hlast) fun hx => nomatch hx
    · refine iff_of_false (fun hx => ?_) fun hx => hfits hx.1
      have hneg := @word_negative cfg _ (level cfg (decoded cfg samples) x) (Int.not_le.mp hfits)
      exact absurd (alternates_snoc.mp hx).2.1.1 (Int.not_le.mpr hneg)

/-- What `setData` was given before alternates too. -/
theorem alternates_front {s : AnalyseAudio} (h : Alternates (decodeSample cfg s x).data) :
    Alternates s.data := by
  by_cases hl : level cfg s x = inPulse cfg s
  · rw [(decodeSample_same hl).2.2] at h
    exact h
  · rw [(decodeSample_ends hl).2.2] at h
    exact (alternates_snoc.mp h).1

/-- The phase goes on as long as samples fit. -/
theorem phase_step (hphase : Phase cfg samples) (hfits : Fits cfg (decoded cfg samples) x)
    (hcut : level cfg (decoded cfg samples) x = true → NoCut cfg samples) :
    Phase cfg (samples ++ [x]) := by
  have hpulse : (decoded cfg (samples ++ [x])).pulse = true →
      LastSpace (decoded cfg (samples ++ [x])).data := by
    rw [decoded_snoc]
    intro hp
    by_cases h : level cfg (decoded cfg samples) x = inPulse cfg (decoded cfg samples)
    · rw [(decodeSample_same h).2.2]
      rw [(decodeSample_same h).1] at hp
      exact hphase.pulse (inPulse_true.mp (h ▸ hp)).1
    · rw [(decodeSample_ends h).1] at hp
      rw [(decodeSample_ends h).2.2, lastSpace_snoc, (word_range ((fits_iff h).mp hfits)).1, hp]
      rfl
  refine ⟨hpulse, fun hno hlast => ?_, fun hno => ?_⟩
  · have hfront := (noCut_snoc.mp hno).1
    rw [decoded_snoc] at hlast ⊢
    by_cases h : level cfg (decoded cfg samples) x = inPulse cfg (decoded cfg samples)
    · rw [(decodeSample_same h).2.2] at hlast
      rw [(decodeSample_same h).1, h, inPulse_eq (noCut_self hfront)]
      exact hphase.space hfront hlast
    · rw [(decodeSample_ends h).2.2, lastSpace_snoc, (word_range ((fits_iff h).mp hfits)).1] at hlast
      rw [(decodeSample_ends h).1]
      simpa using hlast
  · by_cases hfront : NoCut cfg samples
    · have hlast : CutOff cfg (decoded cfg (samples ++ [x])) := by
        by_contra hlast
        exact hno (noCut_snoc.mpr ⟨hfront, hlast⟩)
      exact ⟨hpulse hlast.1, fun _ => hlast.2⟩
    · -- behind a pulse that was cut off, and still on the level of a space
      obtain ⟨hspace, hlong⟩ := hphase.cut hfront
      have hl : level cfg (decoded cfg samples) x = false := Bool.eq_false_iff.mpr fun hl => hfront (hcut hl)
      have hin : inPulse cfg (decoded cfg samples) = false := by
        refine Bool.eq_false_iff.mpr fun hin => ?_
        obtain ⟨hp, hshort⟩ := inPulse_true.mp hin
        exact hshort (hlong hp)
      have h := hl.trans hin.symm
      rw [decoded_snoc, (decodeSample_same h).2.2, (decodeSample_same h).1, hl]
      exact ⟨hspace, fun hp => nomatch hp⟩

theorem phase_create (cfg : Settings) : Phase cfg [] := by
  have hpulse : (create cfg).pulse = false := by
    unfold create
    split <;> rfl
  have hdata : (create cfg).data = [] := by
    unfold create
    split <;> rfl
  have hnone : ¬ LastSpace (create cfg).data := by
    rw [hdata]
    intro hx
    obtain ⟨v, hv, -⟩ := hx
    exact nomatch hv
  have hcut : NoCut cfg [] := by
    intro before after he
    obtain ⟨rfl, -⟩ := List.append_eq_nil_iff.mp he.symm
    intro hcut
    exact nomatch hpulse.symm.trans hcut.1
  refine ⟨fun hp => ?_, fun _ hx => absurd hx hnone, fun hx => absurd hcut hx⟩
  exact nomatch hpulse.symm.trans hp

/-- **All samples.** -/
theorem decoded_alternates (cfg : Settings) (samples : List UCHAR) :
    (Alternates (decoded cfg samples).data ↔ LevelsFit cfg samples) ∧
      (LevelsFit cfg samples → Phase cfg samples) := by
  induction samples using List.reverseRecOn with
  | nil =>
    have hdata : (decoded cfg []).data = [] := by
      show (create cfg).data = []
      unfold create
      split <;> rfl
    refine ⟨iff_of_true ⟨?_, ?_⟩ (levelsFit_nil cfg), fun _ => phase_create cfg⟩
    · rw [hdata]
      exact fun v hv => absurd hv List.not_mem_nil
    · rw [hdata]
      exact List.IsChain.nil
  | append_singleton samples x ih =>
    obtain ⟨hiff, hphase⟩ := ih
    constructor
    · rw [levelsFit_snoc]
      constructor
      · intro h
        have hfront : Alternates (decoded cfg samples).data := by
          rw [decoded_snoc] at h
          exact alternates_front h
        have hfit := hiff.mp hfront
        exact ⟨hfit, (alternates_step hfront (hphase hfit)).mp h⟩
      · intro h
        exact (alternates_step (hiff.mpr h.1) (hphase h.1)).mpr h.2
    · intro h
      obtain ⟨hfit, hfits, hcut⟩ := levelsFit_snoc.mp h
      exact phase_step (hphase hfit) hfits hcut

end Run

/-! ## 5. The buffers of the sound card -/

def decodeAll (cfg : Settings) (buffers : List WaveBuffer) : AnalyseAudio :=
  buffers.foldl (decodeData cfg) (create cfg)

section Buffers

variable {cfg : Settings} {buffers : List WaveBuffer} {samples : List UCHAR}

theorem decodeAll_eq (cfg : Settings) (buffers : List WaveBuffer) :
    decodeAll cfg buffers = decoded cfg (buffers.flatMap (·.samples cfg)) := by
  rw [decoded, List.foldl_flatMap]
  rfl

/-- No level so far has lasted 2 ^ 31 microseconds. -/
def Short (cfg : Settings) (samples : List UCHAR) : Prop :=
  ∀ before after, samples = before ++ after →
    (decoded cfg before).sampleCount * 1000000 < 2 ^ 31 * cfg.frequency

/-- The counter is not looked at as too large before. -/
theorem le_maxCount {n : Nat} (h : n * 1000000 < 2 ^ 31 * cfg.frequency) : n ≤ cfg.maxCount := by
  have hge := cfg.frequency_ge
  have hle := cfg.frequency_le
  have hfreq : 0 < cfg.frequency := by omega
  have hwhole : 0 < 1000000 / cfg.frequency := Nat.div_pos (by omega) hfreq
  refine (Nat.le_div_iff_mul_le hwhole).mpr ?_
  have hmul : n * (1000000 / cfg.frequency) * cfg.frequency ≤ n * 1000000 := by
    rw [Nat.mul_assoc]
    exact Nat.mul_le_mul_left n (Nat.div_mul_le_self 1000000 cfg.frequency)
  have hlt : n * (1000000 / cfg.frequency) < 2 ^ 31 :=
    Nat.lt_of_mul_lt_mul_right (Nat.lt_of_le_of_lt hmul h)
  omega

theorem levelsFit_of_short (h : Short cfg samples) : LevelsFit cfg samples := by
  intro before x after he
  have hfreq : 0 < cfg.frequency := Nat.lt_of_lt_of_le (by decide) cfg.frequency_ge
  constructor
  · intro _ _
    have hlt : (decoded cfg before).sampleCount * 1000000 / cfg.frequency < 2 ^ 31 :=
      (Nat.div_lt_iff_lt_mul hfreq).mpr (h before (x :: after) he)
    unfold Settings.microseconds
    rw [toLircT_of_lt hlt]
    exact Int.natCast_nonneg _
  · intro _ front back hsplit hcut
    have hfront := h front (back ++ x :: after) (by
      rw [he, hsplit, List.append_assoc])
    exact Nat.not_lt.mpr (le_maxCount hfront) hcut.2

/-- **Short levels**: no recording in which each of them ends in time goes wrong. -/
theorem decodeData_short (h : Short cfg (buffers.flatMap (·.samples cfg))) :
    Alternates (decodeAll cfg buffers).data := by
  rw [decodeAll_eq]
  exact (decoded_alternates cfg _).1.mpr (levelsFit_of_short h)

/-- **The samples of a recording**, for every frequency, noise value, polarity and
    number of channels. -/
theorem decodeData_alternates (cfg : Settings) (buffers : List WaveBuffer) :
    Alternates (decodeAll cfg buffers).data ↔ LevelsFit cfg (buffers.flatMap (·.samples cfg)) := by
  rw [decodeAll_eq]
  exact (decoded_alternates cfg _).1

/-- A polarity that is known stays what it is. -/
theorem decodeSample_polarity {s : AnalyseAudio} (x : UCHAR) (h : s.detected = true) :
    (decodeSample cfg s x).detected = true ∧ (decodeSample cfg s x).inverted = s.inverted := by
  have hready : (ready cfg s x).detected = true ∧ (ready cfg s x).inverted = s.inverted := by
    rw [ready, if_pos h, reset]
    split <;> exact ⟨h, rfl⟩
  have hlevel : ∀ toPulse, (toLevel cfg (ready cfg s x) toPulse).detected = (ready cfg s x).detected ∧
      (toLevel cfg (ready cfg s x) toPulse).inverted = (ready cfg s x).inverted := by
    intro toPulse
    unfold toLevel
    split
    · dsimp only
      split <;> exact ⟨rfl, rfl⟩
    · dsimp only
      split <;> exact ⟨rfl, rfl⟩
  obtain ⟨h1, h2⟩ := hlevel (changeToPulse cfg (ready cfg s x).inverted x)
  exact ⟨h1.trans hready.1, h2.trans hready.2⟩

/-- A mono buffer of one level. -/
theorem channelSamples_const (hmono : cfg.numberOfChans = 1) (x : UCHAR) {n fuel i : Nat} (h : n - i ≤ fuel) :
    channelSamples cfg (fun _ => x) n fuel i = List.replicate (n - i) x := by
  induction fuel generalizing i with
  | zero =>
    rw [Nat.le_zero.mp h]
    rfl
  | succ fuel ih =>
    unfold channelSamples
    rw [hmono]
    by_cases hi : i < n
    · obtain ⟨k, hk⟩ : ∃ k, n - i = k + 1 := ⟨n - i - 1, by omega⟩
      have hrest : n - (i + 1) = k := by omega
      rw [if_pos hi, ih (by omega), hk, hrest, List.replicate_succ, if_neg fun hx => Nat.lt_irrefl 1 hx.1]
    · rw [if_neg hi, Nat.sub_eq_zero_of_le (Nat.not_lt.mp hi)]
      rfl

/-- The recording of one pulse: 8000 Hz, mono, as it comes. -/
def telephone : Settings where
  frequency := 8000
  frequency_ge := Nat.le_refl 8000
  frequency_le := by omega
  numberOfChannels := 1
  leftChannel := true
  noiseValue := 16
  signalPolarity := .positive

theorem telephone_level {s : AnalyseAudio} (hdet : s.detected = true) (hinv : s.inverted = false) :
    level telephone s 255 = true := by
  rw [level, if_pos hdet, changeToPulse, hinv, if_neg Bool.false_ne_true]
  decide

/-- **A long pulse** up to where it is cut off. -/
theorem telephone_pulse {k : Nat} (hk : k ≤ telephone.maxCount) :
    (decoded telephone (List.replicate (k + 1) 255)).detected = true ∧
      (decoded telephone (List.replicate (k + 1) 255)).inverted = false ∧
      (decoded telephone (List.replicate (k + 1) 255)).pulse = true ∧
      (decoded telephone (List.replicate (k + 1) 255)).sampleCount = k + 1 ∧
      (decoded telephone (List.replicate (k + 1) 255)).data = [0] := by
  induction k with
  | zero =>
    have hlevel := @telephone_level (create telephone) rfl rfl
    have hends : level telephone (create telephone) 255 ≠ inPulse telephone (create telephone) := by
      rw [hlevel]
      exact Bool.noConfusion
    obtain ⟨h1, h2, h3⟩ := decodeSample_ends hends
    obtain ⟨h4, h5⟩ := @decodeSample_polarity telephone (create telephone) 255 rfl
    refine ⟨h4, h5, h1.trans hlevel, h2, h3.trans ?_⟩
    have hzero : telephone.clamped 0 = 0 := by
      rw [Settings.clamped, microseconds_zero]
      exact if_neg (by decide)
    have hcounted : counted telephone (create telephone) = 0 := if_neg (Nat.not_lt_zero _)
    rw [hlevel, hcounted, word, if_pos rfl, hzero]
    rfl
  | succ k ih =>
    obtain ⟨hdet, hinv, hpulse, hcount, hdata⟩ := ih (Nat.le_of_succ_le hk)
    rw [List.replicate_succ', decoded_snoc]
    have hlevel := telephone_level hdet hinv
    have hshort : ¬ telephone.maxCount < (decoded telephone (List.replicate (k + 1) 255)).sampleCount := by
      rw [hcount]
      exact Nat.not_lt.mpr hk
    have hin := inPulse_true.mpr ⟨hpulse, hshort⟩
    obtain ⟨h1, h2, h3⟩ := decodeSample_same (hlevel.trans hin.symm)
    obtain ⟨h4, h5⟩ := @decodeSample_polarity telephone _ 255 hdet
    refine ⟨h4, h5.trans hinv, h1.trans hlevel, h2.trans ?_, h3.trans hdata⟩
    rw [counted, if_neg hshort, hcount]

/-- A pulse of more than an hour makes two spaces without a pulse between them. -/
theorem decodeData_alternates_cut :
    ¬ ∀ (cfg : Settings) (buffers : List WaveBuffer), Alternates (decodeAll cfg buffers).data := by
  intro h
  have hbuffer : (WaveBuffer.mk (fun _ => 255) (telephone.maxCount + 2)).samples telephone =
      List.replicate (telephone.maxCount + 1 + 1) 255 :=
    channelSamples_const rfl 255 (Nat.le_refl _)
  have hall := h telephone [⟨fun _ => 255, telephone.maxCount + 2⟩]
  obtain ⟨hdet, hinv, hpulse, hcount, hdata⟩ := telephone_pulse (Nat.le_refl telephone.maxCount)
  have hlong : telephone.maxCount <
      (decoded telephone (List.replicate (telephone.maxCount + 1) 255)).sampleCount := by
    rw [hcount]
    exact Nat.lt_succ_self _
  rw [decodeAll_eq, List.flatMap_singleton, hbuffer, List.replicate_succ',
    (decoded_alternates _ _).1] at hall
  have hplace := hall (List.replicate (telephone.maxCount + 1) 255) 255 [] rfl
  exact hplace.2 (telephone_level hdet hinv) _ [] (List.append_nil _).symm ⟨hpulse, hlong⟩

end Buffers

end WinLirc.AudioCapture
