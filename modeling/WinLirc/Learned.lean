/-
  File:      WinLirc/Learned.lean
  Subject:   What `get_lengths` learns from a recording.

  * the analyses, one after the other, of the statistics of 80 frames;
  * `getLengths_learns`: the timing of the remote is learned up to the noise.
-/
import Mathlib.Data.Bool.Count
import WinLirc.Learning

namespace WinLirc

open Signal

/-! ## 1. The lists of 80 frames -/

section Lists

variable {eps : Nat} {aeps δ : Int} {t : Timing} {s : Analysis} {read : List HeardFrame} {done : List Recorded}
  {kind : LengthKind} {e : Int}

/-- The statistics of frames of a remote. -/
structure FrameStatistics (eps : Nat) (aeps δ : Int) (t : Timing) (s : Analysis) (read : List HeardFrame)
    (done : List Recorded) : Prop where
  stat : Statistics eps aeps s done []
  times : done.map (·.times) = read.map HeardFrame.all
  received : ∀ f ∈ read, f.Received δ t
  small : Small (read.flatMap HeardFrame.all)
  nonempty : read ≠ []

theorem FrameStatistics.frame (h : FrameStatistics eps aeps δ t s read done) {r : Recorded} (hr : r ∈ done) :
    ∃ f ∈ read, f.all = r.times := by
  have hmem : r.times ∈ read.map HeardFrame.all := h.times ▸ List.mem_map_of_mem hr
  obtain ⟨f, hf, he⟩ := List.mem_map.mp hmem
  exact ⟨f, hf, he⟩

theorem FrameStatistics.small_done (h : FrameStatistics eps aeps δ t s read done) :
    Small (done.flatMap (·.times)) := by
  have hflat : done.flatMap (·.times) = read.flatMap HeardFrame.all := by
    rw [List.flatMap_def, List.flatMap_def, h.times]
  rw [hflat]
  exact h.small

/-- A list of times that are all the same up to the noise has one class, whose
    signal is that time. -/
theorem FrameStatistics.single (hT : Tolerable eps aeps δ t) (h : FrameStatistics eps aeps δ t s read done)
    (hsum : kind ≠ .sum) (hgap : kind ≠ .gap) (hne : ∃ r ∈ done, timesOf r.header r.times kind ≠ [])
    (he : e ∈ [t.phead, t.shead, t.pulse, t.szero, t.sone, t.ptrail, t.gap])
    (hclose : ∀ r ∈ done, ∀ x ∈ timesOf r.header r.times kind, Close δ x e) :
    ∃ c x, s.first kind = [c] ∧ calcSignal c = some x ∧ Close δ x e ∧ Counted c := by
  have hsmall := timesIn_small h.small_done kind
  have hall : ∀ x ∈ timesIn done kind, Close δ x e := by
    intro x hx
    obtain ⟨r, hr, hx⟩ := List.mem_flatMap.mp hx
    exact hclose r hr x hx
  have hnoise := hT.noise
  have hfit : ∀ x ∈ timesIn done kind, Mergeable eps aeps x := fun x hx => by
    have hd := hT.duration he (hall x hx)
    exact hT.mergeable hd.1 hd.2
  have hne' : timesIn done kind ≠ [] := by
    obtain ⟨r, hr, hr'⟩ := hne
    intro hnil
    exact hr' (List.flatMap_eq_nil_iff.mp hnil r hr)
  have hin : ∀ x ∈ timesIn done kind, e - δ ≤ x ∧ x ≤ e + δ := by
    intro x hx
    have hc := hall x hx
    unfold Close at hc
    rw [abs_le] at hc
    omega
  obtain ⟨c, hc, hof⟩ := @single_addTimes _ _ (e - δ) (e + δ) _ (by omega) hT.percent hsmall hne' hfit hin
  obtain ⟨hx, hmin, hmax⟩ := calcSignal_classOf hof hsmall
  have h1 := hin _ hof.least
  have h2 := hin _ hof.most
  refine ⟨c, _, ?_, hx, ?_, _, hof, hsmall⟩
  · rw [h.stat.first kind hsum hgap]
    exact hc
  · unfold Close
    rw [abs_le]
    omega

theorem FrameStatistics.length (h : FrameStatistics eps aeps δ t s read done) {r : Recorded} (hr : r ∈ done) :
    r.times.length = t.entries := length_recorded h.times h.received r hr

/-- The times of a frame that its bits are in. -/
theorem timesOf_data (header : Bool) {times : List Int} (hlen : times.length = t.entries) (h2 : 2 ≤ t.bits) :
    timesOf header times .pulse = (List.range t.bits).map (fun j => times.getD (2 + 2 * j) 0) ∧
      timesOf header times .space = (List.range t.bits).map (fun j => times.getD (3 + 2 * j) 0) := by
  have hlong : times.length > 6 := by
    rw [hlen]
    unfold Timing.entries
    omega
  simp only [timesOf, placesOf]
  rw [if_pos hlong, if_pos hlong, hlen]
  unfold Timing.entries
  rw [dataPlaces_eq 0 _ (by omega), dataPlaces_eq 1 _ (by omega), List.map_map, List.map_map]
  exact ⟨rfl, rfl⟩

theorem FrameStatistics.exists_done (h : FrameStatistics eps aeps δ t s read done) : ∃ r, r ∈ done := by
  refine List.exists_mem_of_ne_nil done fun hnil => h.nonempty ?_
  have hlen := congrArg List.length h.times
  rw [hnil, List.map_nil, List.length_map] at hlen
  exact List.length_eq_zero_iff.mp hlen.symm

theorem FrameStatistics.pulse (hT : Tolerable eps aeps δ t) (h : FrameStatistics eps aeps δ t s read done) :
    ∃ c x, s.first .pulse = [c] ∧ calcSignal c = some x ∧ Close δ x t.pulse ∧ Counted c := by
  have hbits := hT.bits
  obtain ⟨r, hr⟩ := h.exists_done
  refine h.single hT (by decide) (by decide) ⟨r, hr, ?_⟩ (by simp) fun r hr x hx => ?_
  · rw [(timesOf_data r.header (h.length hr) hbits.1).1]
    exact List.ne_nil_of_mem (List.mem_map_of_mem (List.mem_range.mpr (by omega : 0 < t.bits)))
  · rw [(timesOf_data r.header (h.length hr) hbits.1).1] at hx
    obtain ⟨j, hj, rfl⟩ := List.mem_map.mp hx
    obtain ⟨f, hf, he⟩ := h.frame hr
    rw [← he]
    exact ((h.received f hf).data (List.mem_range.mp hj)).1

theorem FrameStatistics.trail (hT : Tolerable eps aeps δ t) (h : FrameStatistics eps aeps δ t s read done) :
    ∃ c x, s.first .trail = [c] ∧ calcSignal c = some x ∧ Close δ x t.ptrail ∧ Counted c := by
  have hN := entries_bounds hT
  have htimes (r : Recorded) (hr : r ∈ done) :
      timesOf r.header r.times .trail = [r.times.getD (t.entries - 2) 0] := by
    simp only [timesOf, placesOf]
    rw [h.length hr, if_pos (by omega)]
    rfl
  obtain ⟨r, hr⟩ := h.exists_done
  refine h.single hT (by decide) (by decide) ⟨r, hr, ?_⟩ (by simp) fun r hr x hx => ?_
  · rw [htimes r hr]
    exact List.cons_ne_nil _ _
  · rw [htimes r hr, List.mem_singleton] at hx
    obtain ⟨f, hf, he⟩ := h.frame hr
    rw [hx, ← he]
    exact (h.received f hf).trail

/-- The times of the header, if they were taken for one. -/
theorem FrameStatistics.header (hT : Tolerable eps aeps δ t) (h : FrameStatistics eps aeps δ t s read done)
    (hflag : ∃ r ∈ done, r.header = true) :
    (∃ c x, s.first .headerp = [c] ∧ calcSignal c = some x ∧ Close δ x t.phead ∧ Counted c) ∧
      ∃ c x, s.first .headers = [c] ∧ calcSignal c = some x ∧ Close δ x t.shead ∧ Counted c := by
  have hN := entries_bounds hT
  have htimes (r : Recorded) (hr : r ∈ done) :
      timesOf r.header r.times .headerp = (if r.header then [r.times.getD 0 0] else []) ∧
        timesOf r.header r.times .headers = (if r.header then [r.times.getD 1 0] else []) := by
    have hlen := h.length hr
    have hno : r.times.length ≠ 6 := by omega
    have hlong : r.times.length > 6 := by omega
    cases hh : r.header <;> simp [timesOf, placesOf, hno, hlong]
  obtain ⟨r, hr, hh⟩ := hflag
  constructor
  · refine h.single hT (by decide) (by decide) ⟨r, hr, ?_⟩ (by simp) fun r hr x hx => ?_
    · rw [(htimes r hr).1, hh]
      exact List.cons_ne_nil _ _
    · rw [(htimes r hr).1] at hx
      split at hx
      · obtain ⟨f, hf, he⟩ := h.frame hr
        rw [List.mem_singleton.mp hx, ← he]
        exact (h.received f hf).header.1
      · exact absurd hx List.not_mem_nil
  · refine h.single hT (by decide) (by decide) ⟨r, hr, ?_⟩ (by simp) fun r hr x hx => ?_
    · rw [(htimes r hr).2, hh]
      exact List.cons_ne_nil _ _
    · rw [(htimes r hr).2] at hx
      split at hx
      · obtain ⟨f, hf, he⟩ := h.frame hr
        rw [List.mem_singleton.mp hx, ← he]
        exact (h.received f hf).header.2
      · exact absurd hx List.not_mem_nil

end Lists

/-! ## 2. The spaces of the bits -/

section Spaces

variable {eps : Nat} {aeps δ : Int} {t : Timing} {s : Analysis} {read : List HeardFrame} {done : List Recorded}
  {f : HeardFrame}

/-- The spaces of the bits of a frame. -/
def HeardFrame.spaces (t : Timing) (f : HeardFrame) : List Int :=
  (List.range t.bits).map fun j => f.all.getD (3 + 2 * j) 0

theorem FrameStatistics.timesIn_space (hT : Tolerable eps aeps δ t) (h : FrameStatistics eps aeps δ t s read done) :
    timesIn done .space = read.flatMap (HeardFrame.spaces t) := by
  have hbits := hT.bits
  have hdone : timesIn done .space =
      (done.map (·.times)).flatMap fun times => (List.range t.bits).map fun j => times.getD (3 + 2 * j) 0 := by
    unfold timesIn
    rw [List.flatMap_map]
    exact List.flatMap_congr fun r hr => (timesOf_data r.header (h.length hr) hbits.1).2
  rw [hdone, h.times, List.flatMap_map]
  rfl

/-- A space is that of a one or that of a zero, as the bit is. -/
theorem near_bit (hT : Tolerable eps aeps δ t) (h : f.Received δ t) {j : Nat} (hj : j < t.bits) :
    isNear (t.space (!f.bits.getD j false) - δ) (t.space (!f.bits.getD j false) + δ)
        (f.all.getD (3 + 2 * j) 0) = false ∧
      isNear (t.space (f.bits.getD j false) - δ) (t.space (f.bits.getD j false) + δ)
        (f.all.getD (3 + 2 * j) 0) = true := by
  have hclose := (h.data hj).2
  have hsym := hT.symbols
  have hnoise := hT.noise
  unfold Close at hclose
  rw [abs_le] at hclose
  unfold isNear
  rw [Bool.and_eq_true, decide_eq_true_eq, decide_eq_true_eq, Bool.and_eq_false_iff, decide_eq_false_iff_not,
    decide_eq_false_iff_not]
  unfold Timing.space at hclose ⊢
  generalize f.bits.getD j false = b at hclose ⊢
  cases b
  · simp only [Bool.not_false, if_true, Bool.false_eq_true, if_false] at hclose ⊢
    omega
  · simp only [Bool.not_true, if_true, Bool.false_eq_true, if_false] at hclose ⊢
    omega

/-- As many spaces of a kind as bits. -/
theorem count_spaces (hT : Tolerable eps aeps δ t) (h : f.Received δ t) (b : Bool) :
    (f.spaces t).countP (isNear (t.space b - δ) (t.space b + δ)) = f.bits.count b := by
  have hbits : f.bits = (List.range t.bits).map fun j => f.bits.getD j false := by
    refine List.ext_getElem (by simp [h.length]) fun i h1 h2 => ?_
    rw [List.getElem_map, List.getElem_range, List.getD_eq_getElem _ _ h1]
  unfold HeardFrame.spaces
  conv_rhs => rw [hbits]
  rw [List.countP_map, List.count_eq_countP, List.countP_map]
  refine List.countP_congr fun j hj => ?_
  obtain ⟨hno, hyes⟩ := near_bit hT h (List.mem_range.mp hj)
  dsimp only [Function.comp_apply]
  by_cases hb : f.bits.getD j false = b
  · rw [hb] at hyes
    rw [hyes, hb, beq_self_eq_true]
  · have hnot : (!f.bits.getD j false) = b := by
      generalize f.bits.getD j false = a at hb ⊢
      cases a <;> cases b <;> simp at hb ⊢
    rw [hnot] at hno
    rw [hno, beq_eq_false_iff_ne.mpr hb]

/-- As many spaces of a kind as bits, over all frames. -/
theorem FrameStatistics.count_space (hT : Tolerable eps aeps δ t) (h : FrameStatistics eps aeps δ t s read done)
    (b : Bool) :
    ((timesIn done .space).filter (isNear (t.space b - δ) (t.space b + δ))).length =
      (read.map fun f => f.bits.count b).sum := by
  rw [h.timesIn_space hT, ← List.countP_eq_length_filter, List.countP_flatMap]
  refine congrArg List.sum (List.map_congr_left fun f hf => ?_)
  exact count_spaces hT (h.received f hf) b

theorem sum_count_le {read : List HeardFrame} {b b' : Bool}
    (h : ∀ f ∈ read, f.bits.count b ≤ 10 * f.bits.count b') :
    (read.map fun f => f.bits.count b).sum ≤ 10 * (read.map fun f => f.bits.count b').sum := by
  induction read with
  | nil => exact Nat.le_refl 0
  | cons f read ih =>
    have h1 := h f List.mem_cons_self
    have h2 := ih fun g hg => h g (List.mem_cons_of_mem f hg)
    rw [List.map_cons, List.map_cons, List.sum_cons, List.sum_cons]
    omega

/-- Every frame has both kinds of bits. -/
theorem count_bits_pos (hT : Tolerable eps aeps δ t) (h : f.Received δ t) (b : Bool) : 0 < f.bits.count b := by
  have hbits := hT.bits
  have hlen := h.length
  have h1 := h.zeros
  have h2 := h.ones
  have hsum := List.count_false_add_count_true f.bits
  cases b <;> omega

/-- **The spaces of the bits** come into two classes, the rarer one with no less
    than a tenth of the other. -/
theorem FrameStatistics.space (hT : Tolerable eps aeps δ t) (h : FrameStatistics eps aeps δ t s read done) :
    ∃ c d x y, (s.first .space = [c, d] ∨ s.first .space = [d, c]) ∧
      (calcSignal c = some x ∧ Close δ x t.szero ∧ Counted c) ∧
      (calcSignal d = some y ∧ Close δ y t.sone ∧ Counted d) ∧
      c.count ≤ 10 * d.count ∧ d.count ≤ 10 * c.count := by
  have hsmall := timesIn_small h.small_done .space
  have hnoise := hT.noise
  have hsym := hT.symbols
  have hcount (b : Bool) := h.count_space hT b
  have hclose : ∀ x ∈ timesIn done .space, Close δ x t.szero ∨ Close δ x t.sone := by
    rw [h.timesIn_space hT]
    intro x hx
    obtain ⟨f, hf, hx⟩ := List.mem_flatMap.mp hx
    obtain ⟨j, hj, rfl⟩ := List.mem_map.mp hx
    have hd := ((h.received f hf).data (List.mem_range.mp hj)).2
    unfold Timing.space at hd
    split at hd
    · exact .inr hd
    · exact .inl hd
  have hin : ∀ x ∈ timesIn done .space,
      (t.szero - δ ≤ x ∧ x ≤ t.szero + δ) ∨ (t.sone - δ ≤ x ∧ x ≤ t.sone + δ) := by
    intro x hx
    have hc := hclose x hx
    unfold Close at hc
    rw [abs_le, abs_le] at hc
    omega
  have hfit : ∀ x ∈ timesIn done .space, Mergeable eps aeps x := by
    intro x hx
    have hd : Duration x := (hclose x hx).elim (hT.duration (by simp)) (hT.duration (by simp))
    exact hT.mergeable hd.1 hd.2
  have hpos (b : Bool) : 0 < (read.map fun f => f.bits.count b).sum := by
    obtain ⟨f, hf⟩ := List.exists_mem_of_ne_nil read h.nonempty
    exact Nat.lt_of_lt_of_le (count_bits_pos hT (h.received f hf) b) (List.single_le_sum (by simp) _
      (List.mem_map_of_mem hf))
  have hne (b : Bool) : (timesIn done .space).filter (isNear (t.space b - δ) (t.space b + δ)) ≠ [] := by
    intro hnil
    have hc := hcount b
    rw [hnil] at hc
    exact absurd (hpos b) (by rw [← hc]; decide)
  obtain ⟨c, d, hlist, hc, hd⟩ := @pair_addTimes eps aeps (t.szero - δ) (t.szero + δ) (t.sone - δ)
    (t.sone + δ) _ (by omega) (by omega) (by omega) hT.percent hsmall
    (hne false) (hne true) hfit hin
  have hsc := hsmall.subperm (List.filter_sublist (p := isNear (t.szero - δ) (t.szero + δ))).subperm
  have hsd := hsmall.subperm (List.filter_sublist (p := isNear (t.sone - δ) (t.sone + δ))).subperm
  obtain ⟨hx, hx1, hx2⟩ := calcSignal_classOf hc hsc
  obtain ⟨hy, hy1, hy2⟩ := calcSignal_classOf hd hsd
  have hnear (lo hi y : Int) (hy : y ∈ (timesIn done .space).filter (isNear lo hi)) : lo ≤ y ∧ y ≤ hi := by
    have hyn := (List.mem_filter.mp hy).2
    unfold isNear at hyn
    rw [Bool.and_eq_true, decide_eq_true_eq, decide_eq_true_eq] at hyn
    exact hyn
  have hcl := hnear _ _ _ hc.least
  have hcm := hnear _ _ _ hc.most
  have hdl := hnear _ _ _ hd.least
  have hdm := hnear _ _ _ hd.most
  have hc0 : c.count = (read.map fun f => f.bits.count false).sum := hc.count.trans (hcount false)
  have hd0 : d.count = (read.map fun f => f.bits.count true).sum := hd.count.trans (hcount true)
  refine ⟨c, d, _, _, ?_, ⟨hx, ?_, _, hc, hsc⟩, ⟨hy, ?_, _, hd, hsd⟩, ?_, ?_⟩
  · rw [h.stat.first .space (by decide) (by decide)]
    exact hlist
  · unfold Close
    rw [abs_le]
    omega
  · unfold Close
    rw [abs_le]
    omega
  · rw [hc0, hd0]
    exact sum_count_le fun f hf => (h.received f hf).ones
  · rw [hc0, hd0]
    exact sum_count_le fun f hf => (h.received f hf).zeros

end Spaces

/-! ## 3. The analyses -/

section Analyses

variable {eps : Nat} {aeps x y p : Int} {s : Analysis} {c d : LengthClass} {lengths : Nat → Nat} {m k : Nat}

theorem schemeLoop_append (is js : List Nat) (r : Nat × Nat) :
    schemeLoop lengths (is ++ js) r = schemeLoop lengths js (schemeLoop lengths is r) := by
  induction is generalizing r with
  | nil => rfl
  | cons i is ih => exact ih _

/-- Lengths that no signal has change nothing. -/
theorem schemeLoop_zero {is : List Nat} (h : ∀ i ∈ is, lengths i = 0) {r : Nat × Nat} (hr : r.2 < 2 ^ 32) :
    schemeLoop lengths is r = r := by
  induction is with
  | nil => rfl
  | cons i is ih =>
    rw [schemeLoop, h i List.mem_cons_self, if_neg (Nat.not_lt_zero _), Nat.add_zero, Nat.mod_eq_of_lt hr]
    exact ih fun j hj => h j (List.mem_cons_of_mem i hj)

/-- **All signals have the same length**: it tells bits by their spaces. -/
theorem getScheme_same (hm : 1 ≤ m ∧ m < MAX_SIGNALS) (hk : 0 < k ∧ k < 2 ^ 25)
    (hl : s.lengths = fun i => if i = m then k else 0) : getScheme s = some (spaceEncScheme (m + 1) s) := by
  have hsplit : List.range' 1 (MAX_SIGNALS - 1) =
      List.range' 1 (m - 1) ++ ([m] ++ List.range' (m + 1) (MAX_SIGNALS - 1 - m)) := by
    have hmid : 1 + 1 * (m - 1) = m := by omega
    have hrest : [m] ++ List.range' (m + 1) (MAX_SIGNALS - 1 - m) = List.range' m (MAX_SIGNALS - m) := by
      have hlen : MAX_SIGNALS - m = MAX_SIGNALS - 1 - m + 1 := by omega
      rw [hlen, List.range'_succ]
      rfl
    have hall := @List.range'_append 1 (m - 1) (MAX_SIGNALS - m) 1
    have hlen : m - 1 + (MAX_SIGNALS - m) = MAX_SIGNALS - 1 := by omega
    rw [hmid, hlen] at hall
    rw [hrest, hall]
  have hfirst : ∀ i ∈ List.range' 1 (m - 1), s.lengths i = 0 := by
    intro i hi
    have hlt := (List.mem_range'_1.mp hi).2
    rw [hl]
    exact if_neg (by omega)
  have hlast : ∀ i ∈ List.range' (m + 1) (MAX_SIGNALS - 1 - m), s.lengths i = 0 := by
    intro i hi
    have hge := (List.mem_range'_1.mp hi).1
    rw [hl]
    exact if_neg (by omega)
  have hat : s.lengths m = k := by
    rw [hl]
    exact if_pos rfl
  have hzero : s.lengths 0 = 0 := by
    rw [hl]
    exact if_neg (by omega)
  have hloop : schemeLoop s.lengths (List.range' 1 (MAX_SIGNALS - 1)) (0, 0) = (m, k) := by
    rw [hsplit, schemeLoop_append, schemeLoop_zero hfirst (by decide), schemeLoop_append]
    have hone : schemeLoop s.lengths [m] (0, 0) = (m, k) := by
      rw [schemeLoop, schemeLoop, hat, hzero, if_pos hk.1, Nat.zero_add, Nat.mod_eq_of_lt (by omega)]
    rw [hone, schemeLoop_zero hlast (by dsimp only; omega)]
  unfold getScheme
  rw [hloop]
  dsimp only
  rw [if_pos]
  rw [hat]
  exact percentOf_le k (by decide)

theorem getMaxLength_single (c : LengthClass) : getMaxLength [c] = some (0, c, c.count) := rfl

theorem getHeaderLength_single (hp : s.first .headerp = [c]) (hs : s.first .headers = [d])
    (hc : calcSignal c = some x) (hd : calcSignal d = some y) (hrep : s.secondLengths = 0) :
    getHeaderLength s = some (true, s.onRemote fun r => { r with phead := x, shead := y }) := by
  unfold getHeaderLength
  rw [hp, getMaxLength_single]
  dsimp only
  rw [if_pos (percentOf_le _ (by decide)), hs, getMaxLength_single, Option.bind_eq_bind, Option.bind_some]
  dsimp only
  rw [if_pos (percentOf_le _ (by decide)), hc, hd, hrep]
  rfl

theorem getTrailLength_single (hb : isBiphase s.remote = false) (ht : s.first .trail = [c])
    (hc : calcSignal c = some x) :
    getTrailLength s = some (true, s.onRemote fun r => { r with ptrail := x }) := by
  unfold getTrailLength
  rw [hb, if_neg Bool.false_ne_true, ht, getMaxLength_single, Option.bind_eq_bind, Option.bind_some]
  dsimp only
  rw [if_pos (percentOf_le _ (by decide)), hc]
  rfl

theorem getLeadLength_none (hb : isBiphase s.remote = false) : getLeadLength eps aeps s = some (true, s) := by
  unfold getLeadLength
  rw [hb]
  rfl

theorem getRepeatLength_none (h3 : s.count3repeats = 0) (h5 : s.count5repeats = 0) :
    getRepeatLength s = some (true, s) := by
  unfold getRepeatLength
  rw [h3, h5]
  rfl

/-- The largest of two classes, and the other one. -/
theorem getMaxLength_pair (c d : LengthClass) (hc : c.count < 2 ^ 31) (hd : d.count < 2 ^ 31) :
    ∃ i, ∃ max other : LengthClass, getMaxLength [c, d] = some (i, max, c.count + d.count) ∧
      [c, d].eraseIdx i = [other] ∧ other.count ≤ max.count ∧
      (max = c ∧ other = d ∨ max = d ∧ other = c) := by
  have hsum : (c.count + d.count) % 2 ^ 32 = c.count + d.count := Nat.mod_eq_of_lt (by omega)
  unfold getMaxLength maxLoop maxLoop
  dsimp only
  rw [hsum]
  split
  · next hgt => exact ⟨1, d, c, rfl, rfl, Nat.le_of_lt hgt, .inr ⟨rfl, rfl⟩⟩
  · next hle => exact ⟨0, c, d, rfl, rfl, Nat.le_of_not_lt hle, .inl ⟨rfl, rfl⟩⟩

/-- The remote whose bits are known. -/
def withSymbols (eps : Nat) (aeps p x y : Int) (r : IrRemote) : IrRemote :=
  { r with eps := toLirc eps, aeps, pone := p, sone := y, pzero := p, szero := x }

theorem percentOf_bound (n percent : Nat) : 100 * percentOf n percent ≤ n * percent := by
  unfold percentOf
  have hmod : n * percent % 2 ^ 32 ≤ n * percent := Nat.mod_le _ _
  omega

theorem isBiphase_symbols (r : IrRemote) (eps aeps pone sone pzero szero : Int) :
    isBiphase { r with eps, aeps, pone, sone, pzero, szero } = isBiphase r := rfl

theorem isBiphase_withSymbols (r : IrRemote) : isBiphase (withSymbols eps aeps p x y r) = isBiphase r := by
  unfold withSymbols
  exact isBiphase_symbols r (toLirc eps) aeps p y p x

theorem isBiphase_tolerances (r : IrRemote) (eps aeps : Int) : isBiphase { r with eps, aeps } = isBiphase r := rfl

/-- **Bits that differ in their spaces.** -/
theorem getDataLength_spaces (hb : isBiphase s.remote = false) (hp : s.first .pulse = [c])
    (hc : calcSignal c = some p) {c0 c1 : LengthClass}
    (hs : s.first .space = [c0, c1] ∨ s.first .space = [c1, c0]) (hx : calcSignal c0 = some x)
    (hy : calcSignal c1 = some y) (hxy : x ≤ y) (h0 : c0.count < 2 ^ 31) (h1 : c1.count < 2 ^ 31)
    (h01 : c0.count ≤ 10 * c1.count) (h10 : c1.count ≤ 10 * c0.count) :
    ∃ s' : Analysis, getDataLength eps aeps s =
      (countBits (s.first .signalLength) (dropHeader (withSymbols eps aeps p x y s.remote))).map fun r =>
        (true, { s' with remote := r }) := by
  have hpair : ∃ i, ∃ max other : LengthClass, getMaxLength (s.first .space) = some (i, max, c0.count + c1.count) ∧
      (s.first .space).eraseIdx i = [other] ∧ other.count ≤ max.count ∧
      (max = c0 ∧ other = c1 ∨ max = c1 ∧ other = c0) := by
    rcases hs with hs | hs
    · rw [hs]
      exact getMaxLength_pair c0 c1 h0 h1
    · rw [hs, Nat.add_comm]
      obtain ⟨i, max, other, h1, h2, h3, h4⟩ := getMaxLength_pair c1 c0 h1 h0
      exact ⟨i, max, other, h1, h2, h3, h4.symm⟩
  obtain ⟨i, max, other, hmax, herase, hle, hwhich⟩ := hpair
  have hsum : c0.count + c1.count ≤ 2 * max.count ∧ max.count ≤ 10 * other.count := by
    rcases hwhich with ⟨rfl, rfl⟩ | ⟨rfl, rfl⟩ <;> omega
  have hbit : max.count ≥ percentOf (c0.count + c1.count) TH_IS_BIT := by
    have hle := percentOf_bound (c0.count + c1.count) TH_IS_BIT
    unfold TH_IS_BIT at *
    omega
  have hother : ¬ other.count < percentOf max.count TH_IS_BIT := by
    have hle := percentOf_bound max.count TH_IS_BIT
    unfold TH_IS_BIT at *
    omega
  have hsecondP : secondClass [] c.count = none := rfl
  have hsecondS : secondClass [other] max.count = some other := by
    unfold secondClass
    rw [getMaxLength_single]
    exact if_neg hother
  have hsymbols : spaceSymbols c max other { s.remote with eps := toLirc eps, aeps } =
      some (withSymbols eps aeps p x y s.remote) := by
    unfold spaceSymbols withSymbols
    rcases hwhich with ⟨rfl, rfl⟩ | ⟨rfl, rfl⟩
    · rw [hc, hx, hy, Option.bind_eq_bind, Option.bind_some, Option.bind_some, Option.bind_some,
        max_eq_right hxy, min_eq_left hxy]
    · rw [hc, hx, hy, Option.bind_eq_bind, Option.bind_some, Option.bind_some, Option.bind_some,
        max_eq_left hxy, min_eq_right hxy]
  have hdata : dataSymbols c none max (some other) { s.remote with eps := toLirc eps, aeps } =
      some (some (withSymbols eps aeps p x y s.remote)) := by
    unfold dataSymbols
    rw [isBiphase_tolerances, hb, if_neg Bool.false_ne_true]
    dsimp only
    rw [hsymbols]
    rfl
  refine ⟨(s.unlink .pulse 0).unlink .space i, ?_⟩
  unfold getDataLength
  rw [hp, getMaxLength_single, Option.bind_eq_bind, Option.bind_some]
  dsimp only
  rw [if_pos (percentOf_le _ (by decide)), Analysis.unlink_of_ne _ _ (by decide), hmax, Option.bind_some]
  dsimp only
  rw [if_pos hbit, Analysis.unlink_self, hp, List.eraseIdx_cons_zero, hsecondP, Analysis.unlink_self,
    Analysis.unlink_of_ne _ _ (by decide), herase, hsecondS]
  refine (congrArg (fun o => Option.bind o _) hdata).trans ?_
  rw [Option.bind_some]
  dsimp only
  rw [Analysis.onRemote_first, Analysis.unlink_of_ne _ _ (by decide), Analysis.unlink_of_ne _ _ (by decide)]
  cases countBits (s.first .signalLength) (dropHeader (withSymbols eps aeps p x y s.remote)) with
  | none => rfl
  | some r => rfl

/-- A header that is longer than a bit stays one. -/
theorem dropHeader_keep {r : IrRemote} (hb : isBiphase r = false) (h1 : expect r r.phead r.pone = false)
    (h0 : expect r r.phead r.pzero = false) : dropHeader r = r := by
  unfold dropHeader
  split
  · dsimp only
    rw [hb, h1, h0]
    simp [hb]
  · rfl

theorem countBits_spaces {r : IrRemote} (classes : List LengthClass) (hb : isBiphase r = false)
    (hh : hasHeader r = true) (ht : 0 < r.ptrail) {n : Nat} (hbits : r.bits = 2 * n + 3) :
    countBits classes r = some { r with bits := n } := by
  have hn : (r.bits - 2 + 1 - 2).tdiv 2 = n := by
    rw [hbits, Int.tdiv_eq_ediv_of_nonneg (by omega)]
    omega
  unfold countBits
  rw [hb, if_neg Bool.false_ne_true, hh, if_pos rfl, if_pos ht, hn]

end Analyses

/-! ## 4. The remote that is learned -/

/-- The remote whose timing is `t`. -/
def learned (eps : Nat) (aeps : Int) (r : IrRemote) (t : Timing) : IrRemote :=
  { setProtocol SPACE_ENC r with
    bits := t.bits
    eps := eps
    aeps := aeps
    phead := t.phead
    shead := t.shead
    pone := t.pulse
    sone := t.sone
    pzero := t.pulse
    szero := t.szero
    ptrail := t.ptrail
    gap := t.gap }

/-- The same timing up to the noise. -/
structure Timing.Near (δ : Int) (t' t : Timing) : Prop where
  bits : t'.bits = t.bits
  phead : Close δ t'.phead t.phead
  shead : Close δ t'.shead t.shead
  pulse : Close δ t'.pulse t.pulse
  szero : Close δ t'.szero t.szero
  sone : Close δ t'.sone t.sone
  ptrail : Close δ t'.ptrail t.ptrail
  gap : Close δ t'.gap t.gap

/-- A remote that nothing is known of yet. -/
structure Unknown (r : IrRemote) : Prop where
  const : isConst r = false
  rc6 : r.rc6Mask = 0
  repeats : hasRepeat r = false

section Learned

variable {eps : Nat} {aeps δ : Int} {t : Timing} {s : Analysis} {read : List HeardFrame} {done : List Recorded}
  {remote : IrRemote}

theorem isBiphase_spaceEnc {r : IrRemote} (h : r.rc6Mask = 0) : isBiphase (setProtocol SPACE_ENC r) = false := by
  have hprotocol : protocol (setProtocol SPACE_ENC r) = SPACE_ENC := by
    have h0 : ~~~IR_PROTOCOL_MASK &&& IR_PROTOCOL_MASK = 0 := by decide
    have h1 : SPACE_ENC &&& IR_PROTOCOL_MASK = SPACE_ENC := by decide
    unfold protocol setProtocol
    dsimp only
    rw [BitVec.and_or_distrib_right, BitVec.and_assoc, h0, h1]
    simp
  have hrc6 : (setProtocol SPACE_ENC r).rc6Mask = 0 := h
  unfold isBiphase isRc5 isRc6
  rw [hprotocol, hrc6]
  decide

theorem toLirc_small {n : Nat} (h : n < 99) : toLirc n = n := by
  unfold toLirc
  exact Int.bmod_eq_of_le (by omega) (by omega)

/-- The header pulse that was learned is no bit. -/
theorem expect_header (hT : Tolerable eps aeps δ t) {r : IrRemote} {x y : Int} (he : r.eps = eps)
    (ha : r.aeps = aeps) (hx : Close δ x t.phead) (hy : Close δ y t.pulse) : expect r x y = false := by
  obtain ⟨h1, h2⟩ := hT.header
  have htime := hT.times
  have hnoise := hT.noise
  have hpercent := hT.percent
  simp only [List.forall_mem_cons, List.not_mem_nil, false_imp_iff, implies_true, and_true] at htime
  unfold Close at hx hy
  rw [abs_le] at hx hy
  have hpos : 0 < y := by omega
  have hnonneg : 0 ≤ y * eps := mul_nonneg (le_of_lt hpos) (Int.natCast_nonneg _)
  have hscaled : y * eps ≤ y * 98 := mul_le_mul_of_nonneg_left (by omega) (le_of_lt hpos)
  unfold expect
  rw [he, ha, Int.tdiv_eq_ediv_of_nonneg hnonneg, Bool.or_eq_false_iff, decide_eq_false_iff_not,
    decide_eq_false_iff_not]
  omega

/-- **What the analyses make of frames** of a remote. -/
theorem analyses_learned (hT : Tolerable eps aeps δ t) (h : FrameStatistics eps aeps δ t s read done)
    (hr : Unknown remote) (hremote : s.remote = remote) (hgap : Close δ remote.gap t.gap)
    (hlengths : s.lengths = fun i => if i = t.entries - 2 then read.length else 0) (hread : read.length < 2 ^ 25)
    (hflag : ∃ r ∈ done, r.header = true) (hsecond : s.secondLengths = 0) :
    ∃ t' s', t'.Near δ t ∧ analyses eps aeps s = some (true, s') ∧ s'.remote = learned eps aeps remote t' := by
  have hN := entries_bounds hT
  have hbits := hT.bits
  have htime := hT.times
  have hnoise := hT.noise
  have hsym := hT.symbols
  simp only [List.forall_mem_cons, List.not_mem_nil, false_imp_iff, implies_true, and_true] at htime
  obtain ⟨cp, p, hp, hcp, hpc, -⟩ := h.pulse hT
  obtain ⟨ct, trail, ht, hct, htc, -⟩ := h.trail hT
  obtain ⟨⟨ch, head, hh, hch, hhc, -⟩, cs, shead, hs, hcs, hsc, -⟩ := h.header hT hflag
  obtain ⟨c0, c1, x, y, hspace, ⟨hx, hxc, hC0⟩, ⟨hy, hyc, hC1⟩, h01, h10⟩ := h.space hT
  -- the statistics of frames have no repeats
  have hrepeats (n : Nat) (hn : n ≠ t.entries) : done.countP (fun r => decide (r.times.length = n)) = 0 :=
    List.countP_eq_zero.mpr fun r hr => by
      rw [h.length hr, decide_eq_true_eq]
      exact Ne.symm hn
  have h3 : s.count3repeats = 0 := by
    rw [h.stat.count3repeats, hrepeats 4 (by omega), Nat.zero_mod]
  have h5 : s.count5repeats = 0 := by
    rw [h.stat.count5repeats, hrepeats 6 (by omega), Nat.zero_mod]
  have hpos : 0 < read.length := List.length_pos_iff.mpr h.nonempty
  have hscheme := getScheme_same (by unfold MAX_SIGNALS; omega) ⟨hpos, hread⟩ hlengths
  have hb : isBiphase (spaceEncScheme (t.entries - 2 + 1) s).remote = false := by
    refine isBiphase_spaceEnc ?_
    show s.remote.rc6Mask = 0
    rw [hremote]
    exact hr.rc6
  have hheader := @getHeaderLength_single _ _ (spaceEncScheme (t.entries - 2 + 1) s) _ _ hh hs hch hcs hsecond
  have htrail := @getTrailLength_single _
    ((spaceEncScheme (t.entries - 2 + 1) s).onRemote fun r => { r with phead := head, shead := shead }) _ hb ht hct
  generalize hs3 : ((spaceEncScheme (t.entries - 2 + 1) s).onRemote fun r =>
    { r with phead := head, shead := shead }).onRemote (fun r => { r with ptrail := trail }) = s3 at htrail
  have hfirst : s3.first = s.first := by
    rw [← hs3]
    rfl
  have hb3 : isBiphase s3.remote = false := by
    rw [← hs3]
    exact hb
  have hlead := @getLeadLength_none eps aeps _ hb3
  have hrepeat := @getRepeatLength_none s3 (by rw [← hs3]; exact h3) (by rw [← hs3]; exact h5)
  obtain ⟨s4, hdata⟩ := @getDataLength_spaces eps aeps _ _ _ _ _ hb3 (by rw [hfirst]; exact hp) hcp _ _
    (by rw [hfirst]; exact hspace) hx hy (by unfold Close at hxc hyc; rw [abs_le] at hxc hyc; omega)
    hC0.count_lt hC1.count_lt h01 h10
  -- the remote with its symbols
  have hr5 : withSymbols eps aeps p x y s3.remote =
      { learned eps aeps remote ⟨t.bits, head, shead, p, x, y, trail, remote.gap⟩ with
        bits := (2 * t.bits + 3 : Nat) } := by
    have hplaces : t.entries - 2 + 1 = 2 * t.bits + 3 := by
      unfold Timing.entries
      omega
    rw [← hs3, ← hremote, hplaces]
    unfold withSymbols learned
    rw [toLirc_small hT.percent]
    rfl
  have hb5 : isBiphase (withSymbols eps aeps p x y s3.remote) = false := (isBiphase_withSymbols s3.remote).trans hb3
  have hhead : hasHeader (withSymbols eps aeps p x y s3.remote) = true := by
    rw [hr5]
    unfold hasHeader learned Close at *
    rw [abs_le] at hhc hsc
    rw [Bool.and_eq_true, decide_eq_true_eq, decide_eq_true_eq]
    dsimp only
    omega
  have htrail5 : 0 < (withSymbols eps aeps p x y s3.remote).ptrail := by
    rw [hr5]
    unfold learned Close at *
    rw [abs_le] at htc
    dsimp only
    omega
  have hkeep : dropHeader (withSymbols eps aeps p x y s3.remote) = withSymbols eps aeps p x y s3.remote := by
    refine dropHeader_keep hb5 ?_ ?_
    all_goals
      rw [hr5]
      exact expect_header hT rfl rfl hhc hpc
  have hcount := countBits_spaces (s.first .signalLength) hb5 hhead htrail5 (n := t.bits) (by rw [hr5]; rfl)
  rw [hfirst, hkeep, hcount, Option.map_some] at hdata
  refine ⟨⟨t.bits, head, shead, p, x, y, trail, remote.gap⟩,
    { s4 with remote := { withSymbols eps aeps p x y s3.remote with bits := t.bits } },
    ⟨rfl, hhc, hsc, hpc, hxc, hyc, htc, hgap⟩, ?_, ?_⟩
  · unfold analyses nextAnalysis
    rw [hscheme, Option.bind_eq_bind, Option.bind_some, hheader, Option.bind_eq_bind, Option.bind_some]
    dsimp only
    rw [if_pos rfl, htrail, Option.bind_some]
    dsimp only
    rw [if_pos rfl, hlead, Option.bind_some]
    dsimp only
    rw [if_pos rfl, hrepeat, Option.bind_some]
    dsimp only
    rw [if_pos rfl, hdata]
  · dsimp only
    rw [hr5]
    rfl

end Learned

/-! ## 5. The recording -/

section Presses

variable {eps : Nat} {aeps δ : Int} {t : Timing} {presses : List Press} {p : Press}

/-- The frames of keys that were held, one after the other. -/
def framesOf (presses : List Press) : List HeardFrame := presses.flatMap Press.frames

theorem not_isHeld_of_pause (hT : Tolerable eps aeps δ t) {f : HeardFrame} (h : Pause aeps δ t f.space) :
    isHeld δ t f = false := by
  have hlong := h.1
  have hgap := hT.gap
  have htime := hT.times
  have hnoise := hT.noise
  have haeps := hT.aeps_lt
  simp only [List.forall_mem_cons, List.not_mem_nil, false_imp_iff, implies_true, and_true] at htime
  unfold MIN_GAP at hgap
  unfold isHeld isNear
  rw [Bool.and_eq_false_iff, decide_eq_false_iff_not, decide_eq_false_iff_not]
  omega

theorem isHeld_of_close {f : HeardFrame} (h : Close δ f.space t.gap) : isHeld δ t f = true := by
  unfold Close at h
  rw [abs_le] at h
  unfold isHeld isNear
  rw [Bool.and_eq_true, decide_eq_true_eq, decide_eq_true_eq]
  omega

/-- A part of a key that does not reach its pause. -/
theorem count_held (h : p.Received aeps δ t) {n : Nat} (hn : n ≤ p.held.length) (rest : List HeardFrame) :
    ((p.frames ++ rest).take n).countP (fun f => !isHeld δ t f) = 0 := by
  refine List.countP_eq_zero.mpr fun f hf => ?_
  have hsplit : p.frames ++ rest = p.held ++ (p.last :: rest) := by
    unfold Press.frames
    rw [List.append_assoc]
    rfl
  rw [hsplit, List.take_append_of_le_length hn] at hf
  rw [isHeld_of_close (h.held f (List.mem_of_mem_take hf))]
  decide

/-- A key and then more. -/
theorem take_press (n : Nat) (rest : List HeardFrame) :
    (p.frames ++ rest).take (p.held.length + 1 + n) = p.frames ++ rest.take n := by
  have hlen : p.frames.length = p.held.length + 1 := List.length_append
  rw [← hlen, List.take_length_add_append]

/-- There are never more pauses than gaps. -/
theorem pauses_le (hT : Tolerable eps aeps δ t) (h : ∀ p ∈ presses, p.Received aeps δ t) (n : Nat) :
    ((framesOf presses).take n).countP (fun f => !isHeld δ t f) ≤
      ((framesOf presses).take n).countP (isHeld δ t) := by
  induction presses generalizing n with
  | nil =>
    unfold framesOf
    rw [List.flatMap_nil, List.take_nil]
    exact Nat.le_refl _
  | cons p presses ih =>
    have hp := h p List.mem_cons_self
    have hcons : framesOf (p :: presses) = p.frames ++ framesOf presses := rfl
    rw [hcons]
    rcases Nat.lt_or_ge p.held.length n with hlt | hge
    · obtain ⟨m, rfl⟩ : ∃ m, n = p.held.length + 1 + m := ⟨n - (p.held.length + 1), by omega⟩
      have hrest := ih (fun q hq => h q (List.mem_cons_of_mem p hq)) m
      have hheld : p.held.countP (isHeld δ t) = p.held.length :=
        List.countP_eq_length.mpr fun f hf => isHeld_of_close (hp.held f hf)
      have hnone : p.held.countP (fun f => !isHeld δ t f) = 0 :=
        List.countP_eq_zero.mpr fun f hf => by
          rw [isHeld_of_close (hp.held f hf)]
          decide
      have hlast := not_isHeld_of_pause hT hp.last
      have hone := hp.length
      rw [take_press, List.countP_append, List.countP_append]
      unfold Press.frames
      rw [List.countP_append, List.countP_append, hheld, hnone, List.countP_singleton, List.countP_singleton, hlast]
      simp only [Bool.not_false, if_true, Bool.false_eq_true, if_false]
      omega
    · rw [count_held hp hge]
      exact Nat.zero_le _

/-- Among 79 frames there is a pause. -/
theorem exists_pause (hT : Tolerable eps aeps δ t) (h : ∀ p ∈ presses, p.Received aeps δ t) {n : Nat}
    (hn : n + 79 ≤ (framesOf presses).length) :
    ∃ f ∈ ((framesOf presses).drop n).take 79, isHeld δ t f = false := by
  induction presses generalizing n with
  | nil => exact absurd hn (by unfold framesOf; simp)
  | cons p presses ih =>
    have hp := h p List.mem_cons_self
    have hcons : framesOf (p :: presses) = p.frames ++ framesOf presses := rfl
    have hlen : p.frames.length = p.held.length + 1 := List.length_append
    rw [hcons, List.length_append, hlen] at hn
    rw [hcons]
    rcases Nat.lt_or_ge p.held.length n with hlt | hge
    · obtain ⟨m, rfl⟩ : ∃ m, n = p.frames.length + m := ⟨n - p.frames.length, by omega⟩
      rw [List.drop_length_add_append]
      exact ih (fun q hq => h q (List.mem_cons_of_mem p hq)) (by omega)
    · have hshort := hp.length
      refine ⟨p.last, ?_, not_isHeld_of_pause hT hp.last⟩
      have hdrop : (p.frames ++ framesOf presses).drop n = p.held.drop n ++ (p.last :: framesOf presses) := by
        unfold Press.frames
        rw [List.append_assoc, List.drop_append_of_le_length hge]
        rfl
      rw [hdrop, List.take_append]
      refine List.mem_append_right _ ?_
      rw [List.length_drop]
      obtain ⟨k, hk⟩ : ∃ k, 79 - (p.held.length - n) = k + 1 := ⟨78 - (p.held.length - n), by omega⟩
      rw [hk, List.take_succ_cons]
      exact List.mem_cons_self

/-- The conditions on a recording of keys that are held one after the other. -/
structure Pressed (eps : Nat) (aeps δ : Int) (t : Timing) (presses : List Press) : Prop where
  tolerable : Tolerable eps aeps δ t
  received : ∀ p ∈ presses, p.Received aeps δ t
  many : 241 ≤ (framesOf presses).length
  varied : ∀ e ∈ (framesOf presses).take 161, (((framesOf presses).take 161).countP fun f =>
    decide (e.total ≤ f.total) && decide (f.total ≤ e.total + (2 * aeps + 198))) ≤ SAMPLES
  small : Small ((framesOf presses).flatMap HeardFrame.all)

theorem Pressed.frame (h : Pressed eps aeps δ t presses) {f : HeardFrame} (hf : f ∈ framesOf presses) :
    f.Received δ t ∧ (isHeld δ t f = true ∨ Pause aeps δ t f.space) := by
  obtain ⟨p, hp, hfp⟩ := List.mem_flatMap.mp hf
  have hrec := h.received p hp
  refine ⟨hrec.frames f hfp, ?_⟩
  rcases List.mem_append.mp hfp with hheld | hlast
  · exact .inl (isHeld_of_close (hrec.held f hheld))
  · rw [List.mem_singleton.mp hlast]
    exact .inr hrec.last

theorem Pressed.recording (h : Pressed eps aeps δ t presses) : KeyRecording eps aeps δ t (framesOf presses) :=
  ⟨fun _ hf => (h.frame hf).1, fun _ hf => (h.frame hf).2, pauses_le h.tolerable h.received, h.varied, h.small⟩

end Presses

/-! ## 6. The remote is learned -/

section Learns

variable {eps : Nat} {aeps δ : Int} {t : Timing} {presses : List Press} {remote : IrRemote} {silence : Int}
  {s s' : Analysis} {read : List HeardFrame}

theorem lengthsLoop_after {force : Bool} {xs ys : List Int} (h : afterSamples eps aeps force xs s = some s') :
    lengthsLoop eps aeps force (xs ++ ys) s = lengthsLoop eps aeps force ys s' := by
  induction xs generalizing s with
  | nil =>
    obtain rfl := Option.some.inj h
    rfl
  | cons x xs ih =>
    have hne : x ≠ 0 := by
      rintro rfl
      exact nomatch h
    obtain ⟨s1, hturn, hrest⟩ := afterSamples_cons h
    rw [List.cons_append, lengthsLoop, if_neg hne, hturn]
    exact ih hrest

/-- The silence in front of the first key. -/
theorem search_silence (hs : 100000 < silence ∧ silence ≤ PULSE_MASK) :
    afterSamples eps aeps false [silence] { remote } = some (searched eps aeps remote 1 []) := by
  have hd : Duration silence := ⟨by omega, hs.2⟩
  have hsp : isSpace silence = true := by
    unfold isSpace
    rw [hd.space.1]
    rfl
  have hturn : lengthsTurn eps aeps false { remote } silence = some (.next (searched eps aeps remote 1 [])) := by
    rw [lengthsTurn_gap rfl _ (by show 0 + 1 < 2 ^ 32; decide)]
    unfold gapTurn
    dsimp only
    rw [if_pos ⟨rfl, hsp⟩, if_pos hs.1]
    have hfirst : (searched eps aeps remote 1 []).first = fun _ => [] := by
      funext kind
      cases kind <;> rfl
    unfold searched at hfirst ⊢
    dsimp only at hfirst
    rw [hfirst]
  rw [afterSamples_next hd.ne_zero hturn]
  rfl

/-- The statistics start when the gap is found. -/
theorem collected_start (hT : Tolerable eps aeps δ t) (hread : read.length < 2 ^ 31) :
    Collected eps aeps δ t remote (foundGap eps aeps remote read) [] [] := by
  have htime := hT.times
  have hnoise := hT.noise
  simp only [List.forall_mem_cons, List.not_mem_nil, false_imp_iff, implies_true, and_true] at htime
  have hempty (kind : LengthKind) (hs : kind ≠ .sum) (hg : kind ≠ .gap) :
      (foundGap eps aeps remote read).first kind = [] := by
    cases kind <;> first | rfl | exact absurd rfl hs | exact absurd rfl hg
  have hgaps (kind : LengthKind) (hk : kind = .sum ∨ kind = .gap) :
      CountsUpTo ((foundGap eps aeps remote read).first kind) read.length := by
    obtain ⟨hsum, hgap⟩ := @countsUpTo_searched eps aeps remote 0 read (by omega)
    rcases hk with rfl | rfl
    · exact hsum
    · exact hgap
  have hfound : FoundGap read.length (foundGap eps aeps remote read) :=
    ⟨⟨hempty, hgaps, rfl, rfl, rfl, rfl, rfl, fun _ => rfl, rfl, rfl, rfl⟩, rfl, rfl, rfl⟩
  have hstat : Statistics eps aeps (foundGap eps aeps remote read) [] [] := hfound.statistics (Nat.le_of_lt hread)
  refine ⟨hstat, rfl, rfl, ?_, .inl rfl, rfl, ⟨le_refl _, ?_⟩, .inr (.inr fun f hf => absurd hf List.not_mem_nil)⟩
  · funext i
    rw [List.length_nil, ite_self]
    rfl
  · show (0 : Int) ≤ _
    omega

theorem unknown_gap (hr : Unknown remote) (g : Int) : Unknown { remote with gap := g } :=
  ⟨hr.const, hr.rc6, hr.repeats⟩

/-- **80 frames** behind the gap that was found. -/
theorem record_frames (h : Pressed eps aeps δ t presses) (hr : Unknown remote)
    (hg : Close δ remote.gap t.gap) {n : Nat} (hn : n ≤ 160) (hread : read.length < 2 ^ 31)
    (hs : s = foundGap eps aeps remote read) :
    ∃ t' s', t'.Near δ t ∧ s'.remote = learned eps aeps remote t' ∧
      lengthsLoop eps aeps false (((framesOf presses).drop (n + 1)).flatMap HeardFrame.samples) s =
        some (true, s') := by
  have hT := h.tolerable
  have hmany := h.many
  have hmem (m : Nat) : ∀ f ∈ ((framesOf presses).drop (n + 1)).take m, f ∈ framesOf presses :=
    fun f hf => List.mem_of_mem_drop (List.mem_of_mem_take hf)
  have hlen : (((framesOf presses).drop (n + 1)).take 79).length = 79 := by
    rw [List.length_take, List.length_drop]
    omega
  -- the first 79 frames
  obtain ⟨s1, done1, hrun1, h1⟩ := @Collected.run _ _ _ _ _ _ _
    (((framesOf presses).drop (n + 1)).take 79) _ hT (@collected_start _ _ _ _ remote read hT hread)
    (fun f hf => (h.frame (hmem 79 f hf)).1)
    (by rw [hlen, List.length_nil]; decide) (fun f hf => (h.frame (hmem 79 f hf)).2) hr.const hg false
  rw [List.nil_append] at h1
  -- the last one
  have hlast : n + 80 < (framesOf presses).length := by omega
  have hlastMem : (framesOf presses)[n + 80] ∈ framesOf presses := List.getElem_mem hlast
  have hget : ((framesOf presses).drop (n + 1)).drop 79 =
      (framesOf presses)[n + 80] :: (framesOf presses).drop (n + 81) := by
    rw [List.drop_drop, List.drop_eq_getElem_cons hlast]
  generalize hf : (framesOf presses)[n + 80] = f at hlastMem hget
  obtain ⟨hrec, hspaces⟩ := h.frame hlastMem
  obtain ⟨hend, hdur⟩ := space_cases hT hspaces
  obtain ⟨s2, done2, s3, hrun2, hturn, hstat, hremote, htimes, hlengths, hfirst, hsecond, hheader, hflag⟩ :=
    h1.frame hT (fun f' hf' => (h.frame (hmem 79 f' hf')).1) (by rw [hlen]; decide) hrec hdur hend hr.const hg false
  generalize hread80 : ((framesOf presses).drop (n + 1)).take 79 = read79 at *
  have hlen80 : (read79 ++ [f]).length = 80 := by
    rw [List.length_append, hlen]
    rfl
  have hrec80 : ∀ f' ∈ read79 ++ [f], f'.Received δ t := by
    intro f' hf'
    rcases List.mem_append.mp hf' with hf' | hf'
    · exact (h.frame (hmem 79 f' (hread80 ▸ hf'))).1
    · rw [List.mem_singleton.mp hf']
      exact hrec
  have hflag' : ∃ r ∈ done2, r.header = true := by
    refine hflag.resolve_right fun hall => ?_
    obtain ⟨f', hf', hno⟩ := exists_pause hT h.received (n := n + 1) (by omega)
    rw [hread80] at hf'
    rw [hall f' hf'] at hno
    exact nomatch hno
  have hsublist : (read79 ++ [f]).Sublist (framesOf presses) := by
    have hsplit : read79 ++ [f] ++ (framesOf presses).drop (n + 81) = (framesOf presses).drop (n + 1) := by
      rw [List.append_assoc, ← hread80]
      exact (congrArg _ hget.symm).trans (List.take_append_drop 79 _)
    exact (List.sublist_append_left _ _).trans (hsplit ▸ List.drop_sublist _ _)
  have hfs : FrameStatistics eps aeps δ t s2 (read79 ++ [f]) done2 :=
    ⟨hstat, htimes, hrec80, h.small.subperm (hsublist.flatMap _).subperm, by simp⟩
  obtain ⟨t', s', hnear, hanalyses, hlearned⟩ := analyses_learned hT hfs hr hremote hg hlengths
    (by rw [hlen80]; decide) hflag' hsecond
  refine ⟨t', s', hnear, hlearned, ?_⟩
  have hcount := countSignals_collected hT hstat htimes hrec80 (by rw [hlen80]; decide)
  have hbehind : behindGap eps aeps f.space remote.gap s2 = some (.stop true s') := by
    unfold behindGap
    rw [if_pos (by rw [hcount, hlen80]; decide), hanalyses]
    rfl
  have hsplit : ((framesOf presses).drop (n + 1)).flatMap HeardFrame.samples =
      read79.flatMap HeardFrame.samples ++ (marked 0 f.times ++ (f.space ::
        ((framesOf presses).drop (n + 81)).flatMap HeardFrame.samples)) := by
    conv_lhs => rw [← List.take_append_drop 79 ((framesOf presses).drop (n + 1)), hread80, hget]
    rw [List.flatMap_append, List.flatMap_cons, hrec.samples, List.append_assoc]
    rfl
  rw [hsplit, hs, lengthsLoop_after hrun1, lengthsLoop_after hrun2, lengthsLoop, if_neg hdur.ne_zero, hturn, hbehind]

/-- The loop of `get_lengths` over a recording of keys that are held. -/
theorem lengthsLoop_learned (h : Pressed eps aeps δ t presses) (hr : Unknown remote)
    (hs : 100000 < silence ∧ silence ≤ PULSE_MASK) :
    ∃ t' s', t'.Near δ t ∧ s'.remote = learned eps aeps remote t' ∧
      lengthsLoop eps aeps false (silence :: (framesOf presses).flatMap HeardFrame.samples) { remote } =
        some (true, s') := by
  obtain ⟨n, g, hn, h160, hheld, hg, hsearch⟩ := @search_recording _ _ _ _ remote _ h.tolerable h.recording
    (Nat.le_trans (by decide) h.many)
  have hread : ((framesOf presses).take (n + 1)).length < 2 ^ 31 := by
    rw [List.length_take]
    omega
  obtain ⟨t', s', hnear, hlearned, hloop⟩ := @record_frames _ _ _ _ _ { remote with gap := g } _
    ((framesOf presses).take (n + 1)) h (unknown_gap hr g) hg _ h160 hread rfl
  have hsplit : silence :: (framesOf presses).flatMap HeardFrame.samples =
      [silence] ++ (((framesOf presses).take (n + 1)).flatMap HeardFrame.samples ++
        ((framesOf presses).drop (n + 1)).flatMap HeardFrame.samples) := by
    rw [← List.flatMap_append, List.take_append_drop]
    rfl
  refine ⟨t', s', hnear, hlearned.trans rfl, ?_⟩
  rw [hsplit, lengthsLoop_after (search_silence hs), lengthsLoop_after hsearch, hloop]

/-- **The learner learns**: from a recording of keys that are held, `get_lengths`
    finds the timing of the remote up to the noise, and its number of bits. -/
theorem getLengths_learns (h : Pressed eps aeps δ t presses) (hr : Unknown remote)
    (hs : 100000 < silence ∧ silence ≤ PULSE_MASK) :
    ∃ t', t'.Near δ t ∧
      getLengths eps aeps false remote (silence :: (framesOf presses).flatMap HeardFrame.samples) =
        some (true, learned eps aeps remote t') := by
  obtain ⟨t', s', hnear, hlearned, hloop⟩ := lengthsLoop_learned h hr hs
  refine ⟨t', hnear, ?_⟩
  unfold getLengths
  rw [hloop, Option.map_some]
  dsimp only
  rw [hlearned]

end Learns

/-- A remote with four bits. -/
def smallTiming : Timing :=
  { bits := 4, phead := 4500, shead := 4500, pulse := 500, szero := 500, sone := 1600, ptrail := 500, gap := 30000 }

/-- A key of it, held for two frames. -/
def smallPress (bits : List Bool) : Press :=
  let times := 4505 :: 4495 :: (bits.flatMap fun b => [495, if b then 1605 else 498]) ++ [510]
  { held := [⟨bits, times, 30005⟩], last := ⟨bits, times, 80000⟩ }

/-- Three of its keys, each of them pressed again and again. -/
def smallPresses : List Press :=
  List.replicate 40 (smallPress [true, false, false, false]) ++
    List.replicate 40 (smallPress [true, true, false, false]) ++
    List.replicate 41 (smallPress [true, true, true, false])

theorem tolerable_smallTiming : Tolerable 30 100 10 smallTiming := by
  constructor <;> decide

/-- The bits of the three keys. -/
def smallKeys : List (List Bool) :=
  [[true, false, false, false], [true, true, false, false], [true, true, true, false]]

theorem received_smallPress : ∀ bits ∈ smallKeys, (smallPress bits).Received 100 10 smallTiming := by
  have hframes : ∀ bits ∈ smallKeys, ∀ f ∈ (smallPress bits).frames,
      f.bits.length = 4 ∧ f.total ≤ PULSE_MASK ∧ f.bits.count true ≤ 10 * f.bits.count false ∧
        f.bits.count false ≤ 10 * f.bits.count true ∧
        List.Forall₂ (Close 10) f.times (smallTiming.frame f.bits) := by decide +kernel
  have hspaces : ∀ bits ∈ smallKeys, (∀ f ∈ (smallPress bits).held, Close 10 f.space 30000) ∧
      Pause 100 10 smallTiming (smallPress bits).last.space := by decide +kernel
  intro bits hb
  refine ⟨fun f hf => ?_, (hspaces bits hb).1, (hspaces bits hb).2, Nat.le_refl 1, Nat.succ_le_succ (Nat.zero_le _)⟩
  obtain ⟨h1, h2, h3, h4, h5⟩ := hframes bits hb f hf
  exact ⟨h1, h2, h3, h4, h5⟩

theorem mem_smallPresses {p : Press} (h : p ∈ smallPresses) : ∃ bits ∈ smallKeys, p = smallPress bits := by
  rcases List.mem_append.mp h with h | h
  · rcases List.mem_append.mp h with h | h
    · exact ⟨_, by decide, (List.mem_replicate.mp h).2⟩
    · exact ⟨_, by decide, (List.mem_replicate.mp h).2⟩
  · exact ⟨_, by decide, (List.mem_replicate.mp h).2⟩

theorem pressed_smallPresses : Pressed 30 100 10 smallTiming smallPresses := by
  refine ⟨tolerable_smallTiming, fun p hp => ?_, by decide +kernel, by decide +kernel,
    ⟨by decide +kernel, by decide +kernel, by decide +kernel⟩⟩
  obtain ⟨bits, hb, rfl⟩ := mem_smallPresses hp
  exact received_smallPress bits hb

/-- 242 frames of it are enough. -/
theorem getLengths_learns_smallTiming :
    ∃ t', t'.Near 10 smallTiming ∧
      getLengths 30 100 false {} (100001 :: (framesOf smallPresses).flatMap HeardFrame.samples) =
        some (true, learned 30 100 {} t') :=
  getLengths_learns pressed_smallPresses ⟨by decide, rfl, by decide⟩ ⟨by decide, by decide⟩

end WinLirc
