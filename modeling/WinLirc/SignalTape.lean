/-
  File:      WinLirc/SignalTape.lean
  Subject:   What the statistics of `get_lengths` count.

  The loop cuts the samples behind the gap that it found into signals and forgets the
  signals: what is left are lists of classes, a histogram and counters.

  * `Tape` keeps the signals, with what the loop knew when each of them ended.
  * `Noted` says what each list, `lengths[]` and each counter are of the signals of a
    tape; the times of the signal that is not yet complete are in `signals[]` and in
    `sum` only.
  * `getLengths_statistics`: a run is a search up to the sample with which the gap is
    found, and behind it the tape of the samples.
-/
import WinLirc.LengthsRun

namespace WinLirc

/-! ## 1. Signals and tapes -/

/-- A signal that was complete: its times, the gap at the end; whether it was the
    first one behind a pause (1) or not (0), or neither was known (-1); and the
    entries, without its gap, of the last one before it that was, 0 before any. -/
structure Note where
  times : List Int
  firstSignal : Int
  firstLength : Nat
  deriving DecidableEq, Repr

namespace Note

def long (r : Note) : Bool := decide (r.times.length > 6)

/-- A long signal that is the first one behind a pause. -/
def isFirst (r : Note) : Bool := r.long && r.firstSignal == 1

/-- A long signal behind another one, two entries shorter than the first one: its
    header is not repeated. -/
def isSecond (r : Note) : Bool := r.long && r.firstSignal == 0 && r.times.length == r.firstLength

/-- The first two times may be a header. -/
def header (r : Note) : Bool :=
  r.firstSignal == 1 || (decide (r.firstLength > 2) && r.times.length != r.firstLength)

/-- The number of its entries without the gap, those of a header that is not
    repeated included. -/
def place (r : Note) : Nat := if r.isSecond then r.times.length else r.times.length - 2

def recorded (r : Note) : Recorded := ⟨r.header, r.times⟩

end Note

/-- The samples behind the gap that was found: the signals that are complete, the
    times since, and what is known of the signal they belong to. -/
structure Tape where
  signals : List Note := []
  times : List Int := []
  firstSignal : Int := -1
  firstLength : Nat := 0
  header : Int := 0

namespace Tape

/-- The signal with the times of the tape. -/
def note (t : Tape) : Note := ⟨t.times, t.firstSignal, t.firstLength⟩

/-- One more time of the signal. -/
def push (t : Tape) (x : Int) : Tape := { t with times := t.times ++ [x] }

/-- The signal is complete. -/
def close (t : Tape) : Tape :=
  { t with
    signals := t.signals ++ [t.note]
    times := []
    firstLength := if t.note.isFirst then t.times.length - 2 else t.firstLength
    header := if t.note.isFirst then t.times.getD 0 0 + t.times.getD 1 0 else t.header }

section Step

variable (eps : Nat) (aeps : Int) (remote : IrRemote)

/-- A sample is one more time of the signal; a space as long as the gap completes it. -/
def take (t : Tape) (data : Int) : Tape :=
  if endsSignal eps aeps remote t.times data then (t.push (maskPulse data)).close
  else t.push (maskPulse data)

/-- Behind a time that is not longer than the gap and a header no pause was. -/
def behind (t : Tape) (time remaining : Int) : Tape :=
  if notLonger eps aeps time (remaining + t.header) then { t with firstSignal := 0, header := 0 }
  else { t with firstSignal := 1 }

/-- The sample, a pulse or a space, is as long as the gap. -/
def asLong (t : Tape) (data : Int) : Bool :=
  decide (t.times.length ≥ 2) && longEnough eps aeps (maskPulse data) (remainingGap remote t.times.sum)

/-- One more sample. -/
def step (t : Tape) (data : Int) : Tape :=
  if t.asLong eps aeps remote data then
    (t.take eps aeps remote data).behind eps aeps (maskPulse data) (remainingGap remote t.times.sum)
  else t.take eps aeps remote data

end Step

/-- All its times. -/
def all (t : Tape) : List Int := t.signals.flatMap (·.times) ++ t.times

theorem all_push (t : Tape) (x : Int) : (t.push x).all = t.all ++ [x] := by
  unfold all push
  rw [List.append_assoc]

theorem all_close (t : Tape) : t.close.all = t.all := by
  unfold all close note
  dsimp only
  rw [List.flatMap_append, List.flatMap_singleton, List.append_nil]

section Step

variable {eps : Nat} {aeps : Int} {remote : IrRemote}

theorem all_take (t : Tape) (data : Int) : (t.take eps aeps remote data).all = t.all ++ [maskPulse data] := by
  unfold take
  split
  · rw [all_close, all_push]
  · exact all_push t _

theorem length_take (t : Tape) (data : Int) :
    (t.take eps aeps remote data).times.length ≤ t.times.length + 1 := by
  unfold take
  split
  · exact Nat.zero_le _
  · exact Nat.le_of_eq List.length_append

theorem behind_times (t : Tape) (time remaining : Int) :
    (t.behind eps aeps time remaining).signals = t.signals ∧ (t.behind eps aeps time remaining).times = t.times := by
  unfold behind
  split
  · exact ⟨rfl, rfl⟩
  · exact ⟨rfl, rfl⟩

/-- One more sample is one more time. -/
theorem all_step (t : Tape) (data : Int) :
    (t.step eps aeps remote data).all = t.all ++ [maskPulse data] ∧
      (t.step eps aeps remote data).times.length ≤ t.times.length + 1 := by
  have hall := @all_take eps aeps remote t data
  have hlen := @length_take eps aeps remote t data
  unfold step
  split
  · obtain ⟨hs, ht⟩ := @behind_times eps aeps (t.take eps aeps remote data) (maskPulse data)
      (remainingGap remote t.times.sum)
    unfold all at hall ⊢
    rw [hs, ht]
    exact ⟨hall, hlen⟩
  · exact ⟨hall, hlen⟩

end Step

end Tape

/-- What was found of the gap: the remote, and the lists of the gaps and sums. -/
structure SameGap (s s' : Analysis) : Prop where
  remote : s'.remote = s.remote
  sums : s'.first .sum = s.first .sum
  gaps : s'.first .gap = s.first .gap

theorem SameGap.trans {s s' s'' : Analysis} (h : SameGap s s') (h' : SameGap s' s'') : SameGap s s'' :=
  ⟨h'.remote.trans h.remote, h'.sums.trans h.sums, h'.gaps.trans h.gaps⟩

/-- **The statistics of a tape.** -/
structure Noted (eps : Nat) (aeps : Int) (s : Analysis) (t : Tape) : Prop where
  stat : Statistics eps aeps s (t.signals.map Note.recorded) t.times
  firstSignal : s.firstSignal = t.firstSignal
  header : s.header = t.header
  firstLength : s.firstLength = t.firstLength
  lengths : ∀ i, s.lengths i = (t.signals.countP fun r => r.long && r.place == i) % 2 ^ 32
  firstLengths : s.firstLengths = t.signals.countP Note.isFirst % 2 ^ 32
  secondLengths : s.secondLengths = t.signals.countP Note.isSecond % 2 ^ 32

/-- What the loop is left with at a sample behind the tape: a signal that is too
    long, or enough of them, and what the analyses make of their statistics. -/
def Left (eps : Nat) (aeps : Int) (s : Analysis) (t : Tape) (data : Int) (retval : Bool) (s' : Analysis) : Prop :=
  (t.times.length = MAX_SIGNALS ∧ retval = false) ∨
    ∃ s1, Noted eps aeps s1 (t.take eps aeps s.remote data) ∧ SameGap s s1 ∧ SAMPLES ≤ s1.countSignals ∧
      analyses eps aeps s1 = some (retval, s')

/-! ## 2. One sample -/

section Noted

variable {eps : Nat} {aeps : Int} {force : Bool} {s s' : Analysis} {t : Tape} {data : Int}

theorem FoundGap.noted {n : Nat} (h : FoundGap n s) (hn : n ≤ 2 ^ 31) : Noted eps aeps s {} :=
  ⟨h.statistics hn, h.firstSignal, h.header, h.firstLength, h.lengths, h.firstLengths, h.secondLengths⟩

theorem Noted.push (h : Noted eps aeps s t) (x : Int) : Noted eps aeps (s.push x) (t.push x) :=
  ⟨h.stat.push x, h.firstSignal, h.header, h.firstLength, h.lengths, h.firstLengths, h.secondLengths⟩

/-- What the loop asks of its variables it asks of the signal. -/
theorem Noted.mayHaveHeader (h : Noted eps aeps s t) (h2 : 2 ≤ t.times.length) :
    WinLirc.mayHaveHeader s = t.note.header := by
  have hf := h.stat.firstLength
  unfold WinLirc.mayHaveHeader Note.header Tape.note
  dsimp only
  rw [h.firstSignal, h.stat.current.count, h.firstLength] at *
  by_cases hlong : t.firstLength > 2
  · have hsub : subUint t.firstLength 2 = t.firstLength - 2 := by
      unfold subUint
      omega
    have hiff : (subUint t.firstLength 2 != t.times.length - 2) = (t.times.length != t.firstLength) := by
      rw [hsub, Bool.eq_iff_iff, bne_iff_ne, bne_iff_ne]
      omega
    rw [hiff]
  · rw [decide_eq_false hlong, Bool.false_and, Bool.false_and]

theorem Noted.isFirst (h : Noted eps aeps s t) :
    (t.times.length > 6 ∧ s.firstSignal = 1) ↔ t.note.isFirst = true := by
  unfold Note.isFirst Note.long Tape.note
  rw [h.firstSignal, Bool.and_eq_true, decide_eq_true_eq, beq_iff_eq]

theorem Noted.headerLess (h : Noted eps aeps s t) (hlong : t.times.length > 6) (ht : t.times.length ≤ MAX_SIGNALS) :
    WinLirc.headerLess s t.times.length = t.note.isSecond := by
  have hf := h.stat.firstLength
  have hiff : (subUint s.firstLength 2 == t.times.length - 2) = (t.times.length == t.firstLength) := by
    rw [Bool.eq_iff_iff, beq_iff_eq, beq_iff_eq, h.firstLength] at *
    unfold subUint MAX_SIGNALS at *
    omega
  unfold WinLirc.headerLess Note.isSecond Note.long Tape.note
  rw [h.firstSignal, hiff, decide_eq_true hlong, Bool.true_and]

theorem Noted.isSecond (h : Noted eps aeps s t) (ht : t.times.length ≤ MAX_SIGNALS) :
    (t.times.length > 6 ∧ WinLirc.headerLess s t.times.length = true) ↔ t.note.isSecond = true := by
  by_cases hlong : t.times.length > 6
  · rw [h.headerLess hlong ht]
    exact and_iff_right hlong
  · unfold Note.isSecond Note.long Tape.note
    rw [decide_eq_false hlong]
    simp [hlong]

/-- The entry of `lengths` that counts the signal is that of its place. -/
theorem Noted.counts (h : Noted eps aeps s t) (ht : t.times.length ≤ MAX_SIGNALS) (i : Nat) :
    (if t.times.length > 6 then
        Function.update s.lengths (lengthPlace s t.times.length) (succUint (s.lengths (lengthPlace s t.times.length)))
      else s.lengths) i =
      if t.note.long && t.note.place == i then succUint (s.lengths i) else s.lengths i := by
  have hnote : t.note.long = decide (t.times.length > 6) := rfl
  rw [hnote]
  by_cases hlong : t.times.length > 6
  · have hplace : lengthPlace s t.times.length = t.note.place := by
      unfold lengthPlace Note.place
      rw [h.headerLess hlong ht]
      rfl
    rw [if_pos hlong, decide_eq_true hlong, Bool.true_and, hplace, Function.update_apply]
    by_cases hi : i = t.note.place
    · rw [if_pos hi, hi, beq_self_eq_true, if_pos rfl]
    · rw [if_neg hi, if_neg (by simpa using Ne.symm hi)]
  · rw [if_neg hlong, decide_eq_false hlong, Bool.false_and, if_neg Bool.false_ne_true]

/-- **A signal that is complete** is one more of the tape. -/
theorem Noted.close (h : Noted eps aeps s t) (h2 : 2 ≤ t.times.length) (ht : t.times.length ≤ MAX_SIGNALS)
    (hc : Completed eps aeps t.times s s') : Noted eps aeps s' t.close := by
  constructor
  case stat =>
    have hstat := h.stat.complete ht hc
    rw [h.mayHaveHeader h2] at hstat
    unfold Tape.close
    rw [List.map_append, List.map_singleton]
    exact hstat
  case firstSignal => exact hc.firstSignal.trans h.firstSignal
  case header =>
    rw [hc.header]
    exact if_congr h.isFirst rfl h.header
  case firstLength =>
    rw [hc.firstLength]
    exact if_congr h.isFirst rfl h.firstLength
  case lengths =>
    intro i
    rw [hc.lengths, h.counts ht i]
    exact succUint_countP _ (fun r => r.long && r.place == i) _ t.note (h.lengths i)
  case firstLengths =>
    rw [hc.firstLengths, if_congr h.isFirst rfl rfl]
    exact succUint_countP _ Note.isFirst _ t.note h.firstLengths
  case secondLengths =>
    rw [hc.secondLengths, if_congr (h.isSecond ht) rfl rfl]
    exact succUint_countP _ Note.isSecond _ t.note h.secondLengths

theorem Noted.take (h : Noted eps aeps s t) (ht : t.times.length < MAX_SIGNALS)
    (hs' : if endsSignal eps aeps s.remote t.times data then
        Completed eps aeps (t.times ++ [maskPulse data]) (s.push (maskPulse data)) s'
      else s' = s.push (maskPulse data)) :
    Noted eps aeps s' (t.take eps aeps s.remote data) ∧ SameGap s s' := by
  unfold Tape.take
  by_cases hends : endsSignal eps aeps s.remote t.times data = true
  · rw [if_pos hends] at hs' ⊢
    have hlen : 2 ≤ t.times.length := by
      unfold endsSignal at hends
      rw [Bool.and_eq_true, Bool.and_eq_true, decide_eq_true_eq] at hends
      exact hends.1.2
    have hpush : (t.push (maskPulse data)).times.length = t.times.length + 1 := List.length_append
    exact ⟨(h.push _).close (by omega) (by omega) hs', hs'.remote, hs'.first .sum, hs'.first .gap⟩
  · rw [if_neg hends] at hs' ⊢
    subst hs'
    exact ⟨h.push _, rfl, rfl, rfl⟩

theorem Noted.behind (h : Noted eps aeps s t) {time remaining : Int}
    (hturn : behindGap eps aeps time remaining s = some (.next s')) :
    Noted eps aeps s' (t.behind eps aeps time remaining) ∧ SameGap s s' := by
  have hlonger : notLonger eps aeps time (remaining + s.header) = notLonger eps aeps time (remaining + t.header) := by
    rw [h.header]
  unfold behindGap at hturn
  unfold Tape.behind
  rw [hlonger] at hturn
  split at hturn
  · obtain ⟨r, -, hr⟩ := Option.map_eq_some_iff.mp hturn
    exact absurd hr LengthsTurn.noConfusion
  · split at hturn
    · next hnot =>
      obtain rfl := LengthsTurn.next.inj (Option.some.inj hturn)
      rw [if_pos hnot]
      exact ⟨⟨h.stat.note 0 0, rfl, rfl, h.firstLength, h.lengths, h.firstLengths, h.secondLengths⟩, rfl, rfl, rfl⟩
    · next hpause =>
      obtain rfl := LengthsTurn.next.inj (Option.some.inj hturn)
      rw [if_neg hpause]
      exact ⟨⟨h.stat.note 1 s.header, rfl, h.header, h.firstLength, h.lengths, h.firstLengths, h.secondLengths⟩,
        rfl, rfl, rfl⟩

/-- **A turn behind the gap that was found** takes the sample. -/
theorem Noted.turn (h : Noted eps aeps s t) (ht : t.times.length < MAX_SIGNALS) (hn : t.all.length < 2 ^ 31)
    (hd : Sampled data) :
    ∃ s1, Noted eps aeps s1 (t.take eps aeps s.remote data) ∧ SameGap s s1 ∧
      lengthsTurn eps aeps force s data =
        if t.asLong eps aeps s.remote data then
          behindGap eps aeps (maskPulse data) (remainingGap s.remote t.times.sum) s1
        else some (.next s1) := by
  have htotal : ((t.signals.map Note.recorded).flatMap (·.times)).length < 2 ^ 31 := by
    rw [List.flatMap_map]
    exact Nat.lt_of_le_of_lt (List.sublist_append_left _ _).length_le hn
  obtain ⟨s1, hs1, hspec⟩ := @Statistics.turn _ _ force _ _ _ _ h.stat hd ht htotal
  obtain ⟨htake, hgap⟩ := h.take ht hs1
  have hcuts : cuts eps aeps s data = t.asLong eps aeps s.remote data := by
    unfold cuts Tape.asLong
    rw [h.stat.current.count, h.stat.current.sum]
  rw [hcuts, h.stat.current.sum] at hspec
  exact ⟨s1, htake, hgap, hspec⟩

/-- **A sample behind the gap that was found** is the next one of the tape. -/
theorem Noted.next (h : Noted eps aeps s t) (ht : t.times.length ≤ MAX_SIGNALS) (hn : t.all.length < 2 ^ 31)
    (hd : Sampled data) (hturn : lengthsTurn eps aeps force s data = some (.next s')) :
    Noted eps aeps s' (t.step eps aeps s.remote data) ∧ SameGap s s' ∧
      (t.step eps aeps s.remote data).times.length ≤ MAX_SIGNALS := by
  have hlt : t.times.length < MAX_SIGNALS := by
    refine Nat.lt_of_le_of_ne ht fun he => ?_
    obtain ⟨s1, hs1⟩ := @lengthsTurn_tooLong eps aeps force _ _ data h.stat.mode h.stat.current he
    rw [hs1] at hturn
    exact absurd (Option.some.inj hturn) LengthsTurn.noConfusion
  obtain ⟨s1, htake, hgap, hspec⟩ := @Noted.turn _ _ force _ _ _ h hlt hn hd
  have hlen := (@Tape.all_step eps aeps s.remote t data).2
  have hstep : Noted eps aeps s' (t.step eps aeps s.remote data) ∧ SameGap s s' := by
    rw [hspec] at hturn
    unfold Tape.step
    split at hturn
    · next hlong =>
      obtain ⟨hbehind, hgap'⟩ := htake.behind hturn
      rw [if_pos hlong]
      exact ⟨hbehind, hgap.trans hgap'⟩
    · next hlong =>
      obtain rfl := LengthsTurn.next.inj (Option.some.inj hturn)
      rw [if_neg hlong]
      exact ⟨htake, hgap⟩
  exact ⟨hstep.1, hstep.2, Nat.le_trans hlen hlt⟩

/-- **A sample with which the loop is left.** -/
theorem Noted.left {retval : Bool} (h : Noted eps aeps s t) (ht : t.times.length ≤ MAX_SIGNALS)
    (hn : t.all.length < 2 ^ 31) (hd : Sampled data)
    (hturn : lengthsTurn eps aeps force s data = some (.stop retval s')) : Left eps aeps s t data retval s' := by
  rcases Nat.lt_or_eq_of_le ht with hlt | he
  · obtain ⟨s1, htake, hgap, hspec⟩ := @Noted.turn _ _ force _ _ _ h hlt hn hd
    rw [hspec] at hturn
    split at hturn
    · unfold behindGap at hturn
      split at hturn
      · next hmany =>
        obtain ⟨⟨retval', s2⟩, hanalyses, hstop⟩ := Option.map_eq_some_iff.mp hturn
        obtain ⟨rfl, rfl⟩ := LengthsTurn.stop.inj hstop
        exact .inr ⟨s1, htake, hgap, hmany, hanalyses⟩
      · split at hturn
        all_goals exact absurd (Option.some.inj hturn) LengthsTurn.noConfusion
    · exact absurd (Option.some.inj hturn) LengthsTurn.noConfusion
  · obtain ⟨s1, hs1⟩ := @lengthsTurn_tooLong eps aeps force _ _ data h.stat.mode h.stat.current he
    obtain ⟨rfl, -⟩ := LengthsTurn.stop.inj (Option.some.inj (hs1.symm.trans hturn))
    exact .inl ⟨he, rfl⟩

end Noted

/-! ## 3. Runs -/

section Runs

variable {eps : Nat} {aeps : Int} {force : Bool} {s s' : Analysis} {t : Tape} {samples : List Int}

/-- **The samples behind the gap that was found** are those of the tape. -/
theorem Noted.run (h : Noted eps aeps s t) (ht : t.times.length ≤ MAX_SIGNALS)
    (hn : t.all.length + samples.length < 2 ^ 31) (hd : ∀ data ∈ samples, Sampled data)
    (hrun : afterSamples eps aeps force samples s = some s') :
    Noted eps aeps s' (samples.foldl (Tape.step eps aeps s.remote) t) ∧ SameGap s s' ∧
      (samples.foldl (Tape.step eps aeps s.remote) t).times.length ≤ MAX_SIGNALS ∧
      (samples.foldl (Tape.step eps aeps s.remote) t).all.length < 2 ^ 31 := by
  induction samples generalizing s t with
  | nil =>
    obtain rfl := Option.some.inj hrun
    exact ⟨h, ⟨rfl, rfl, rfl⟩, ht, hn⟩
  | cons data samples ih =>
    rw [List.length_cons] at hn
    obtain ⟨s1, hturn, hrest⟩ := afterSamples_cons hrun
    obtain ⟨hnext, hgap, hlen⟩ := h.next ht (by omega) (hd data List.mem_cons_self) hturn
    have hsize := congrArg List.length (@Tape.all_step eps aeps s.remote t data).1
    rw [List.length_append, List.length_singleton] at hsize
    have hall := ih hnext hlen (by omega) (fun x hx => hd x (List.mem_cons_of_mem data hx)) hrest
    rw [hgap.remote] at hall
    exact ⟨hall.1, hgap.trans hall.2.1, hall.2.2⟩

/-- **The statistics of a run** that found the gap: up to a sample it was searched
    for, with that sample it was found, and behind it the statistics are those of the
    tape of the samples; with the next one the analyses are made of them, if the loop
    is left at all. -/
theorem getLengths_statistics (remote : IrRemote) (hd : ∀ data ∈ samples, Sampled data)
    (hn : samples.length < 2 ^ 31) (hrun : afterSamples eps aeps force samples { remote } = some s)
    (hmode : s.mode = .haveGap) :
    ∃ before data behind s0 s1, samples = before ++ data :: behind ∧
      afterSamples eps aeps force before { remote } = some s0 ∧ s0.mode = .gap ∧
      lengthsTurn eps aeps force s0 data = some (.next s1) ∧ s1.mode = .haveGap ∧ SameGap s1 s ∧
      Noted eps aeps s (behind.foldl (Tape.step eps aeps s.remote) {}) ∧
      ∀ next retval s', Sampled next → lengthsTurn eps aeps force s next = some (.stop retval s') →
        Left eps aeps s (behind.foldl (Tape.step eps aeps s.remote) {}) next retval s' := by
  have hstart : ∃ n, Searching n { remote } ∧ n + samples.length < 2 ^ 31 :=
    ⟨0, searching_start remote, by omega⟩
  obtain ⟨n, hsearch, hn'⟩ := hstart
  generalize ({ remote } : Analysis) = start at hrun hsearch
  clear hn
  induction samples generalizing start n with
  | nil =>
    obtain rfl := Option.some.inj hrun
    exact absurd (hmode.symm.trans hsearch.mode) (by decide)
  | cons data samples ih =>
    rw [List.length_cons] at hn'
    obtain ⟨s1, hturn, hrest⟩ := afterSamples_cons hrun
    have hd' := fun x hx => hd x (List.mem_cons_of_mem data hx)
    obtain ⟨t, hspec, hnext⟩ := @Searching.turn eps aeps force _ _ data hsearch (by omega)
    obtain rfl := Option.some.inj (hturn.symm.trans hspec)
    rcases hnext s1 rfl with hsearch' | hfound
    · obtain ⟨before, last, behind, s0, s2, rfl, hbefore, hsearched⟩ := ih hd' (n + 1) (by omega) s1 hrest hsearch'
      refine ⟨data :: before, last, behind, s0, s2, rfl, ?_, hsearched⟩
      rw [afterSamples, if_neg (Int.ne_of_gt (hd data List.mem_cons_self).1), hturn]
      exact hbefore
    · obtain ⟨hnoted, hgap, hlen, hsize⟩ :=
        (hfound.noted (by omega)).run (Nat.zero_le _) (by show 0 + _ < _; omega) hd' hrest
      rw [← hgap.remote] at hnoted hlen hsize
      exact ⟨[], data, samples, start, s1, rfl, rfl, hsearch.mode, hturn, hfound.mode, hgap, hnoted,
        fun next retval s' hnext hstop => hnoted.left hlen hsize hnext hstop⟩

end Runs

/-- Three bits and a trailing pulse, behind a header or without it. -/
def dataSamples (gap : Int) : List Int :=
  [PULSE_BIT + 560, 560, PULSE_BIT + 560, 1690, PULSE_BIT + 560, 560, PULSE_BIT + 560, gap]

def frameSamples (gap : Int) : List Int := [PULSE_BIT + 9000, 4500] ++ dataSamples gap

/-- A key that is held, and released; it is pressed again, once with a header and once
    without, then a repeat frame, and another frame begins. -/
def pressedSamples : List Int :=
  frameSamples 200000 ++ frameSamples 40000 ++ dataSamples 40000 ++
    [PULSE_BIT + 9000, 2250, PULSE_BIT + 560, 40000, PULSE_BIT + 9000]

def keptSamples : List Int := 100001 :: (List.replicate 81 (frameSamples 40000)).flatten ++ pressedSamples

/-- The frame behind the pause is the first one, the one behind it has no header. -/
example : ((pressedSamples.foldl (Tape.step 30 100 { gap := 40000 }) {}).signals.map fun r =>
    (r.times.length, r.isFirst, r.isSecond, r.place)) =
    [(10, false, false, 8), (10, true, false, 8), (8, false, true, 8), (4, false, false, 2)] := by
  decide +kernel

theorem getLengths_statistics_keptSamples :
    ∃ s, afterSamples 30 100 false keptSamples { remote := {} } = some s ∧
      ∃ before data behind s0 s1, keptSamples = before ++ data :: behind ∧
        afterSamples 30 100 false before { remote := {} } = some s0 ∧ s0.mode = .gap ∧
        lengthsTurn 30 100 false s0 data = some (.next s1) ∧ s1.mode = .haveGap ∧ SameGap s1 s ∧
        Noted 30 100 s (behind.foldl (Tape.step 30 100 s.remote) {}) ∧
        ∀ next retval s', Sampled next → lengthsTurn 30 100 false s next = some (.stop retval s') →
          Left 30 100 s (behind.foldl (Tape.step 30 100 s.remote) {}) next retval s' := by
  have hmode : (afterSamples 30 100 false keptSamples { remote := {} }).map (·.mode) = some .haveGap := by
    decide +kernel
  obtain ⟨s, hrun, hs⟩ := Option.map_eq_some_iff.mp hmode
  have hsampled : ∀ data ∈ keptSamples, 0 < data ∧ data < 2 * PULSE_BIT := by decide +kernel
  exact ⟨s, hrun, getLengths_statistics {} hsampled (by decide +kernel) hrun hs⟩

end WinLirc
