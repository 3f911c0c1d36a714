/-
  File:      WinLirc/Listen.lean
  Subject:   The receive buffer as a listener.

  The buffer shifts samples in from the hardware, moves its read position
  back and forth, and defers a pulse or a space in `pendingp`, `pendings`. For
  a decoder only one thing matters: WHAT IS STILL TO BE HEARD.

  * `View w h pp ps b`: of the samples on the wire `w`, buffer `b` has still to
    read the signal `h`; `View.read`, `View.unget1`, `View.unget2`;
  * `Listen acc w tail ops pp ps h b`: what is still to be heard is what was
    emitted by the calls that are deferred (`pend`) and those still expected
    (`ops`), in front of `tail`. Every decoding helper that is called with the
    call that comes next takes it off (`Listen.pulse`, `Listen.space`, ...).

  `acc d e` says which heard time `d` may stand for an emitted time `e`.
-/
import WinLirc.Encoder
import WinLirc.Receive

namespace WinLirc

open Signal

/-! ## 1. Samples -/

/-- The sample of an emission: a pulse is marked by its bit. -/
def sample (e : Emission) : Int :=
  match e.1 with
  | .pulse => PULSE_BIT + e.2
  | .space => e.2

/-- Every time of the signal fits a sample. -/
def Sound (h : List Emission) : Prop := ∀ e ∈ h, 0 < e.2 ∧ e.2 ≤ PULSE_MASK

theorem Sound.tail {e : Emission} {h : List Emission} (hs : Sound (e :: h)) : Sound h :=
  fun f hf => hs f (List.mem_cons_of_mem _ hf)

theorem maskPulse_sample {e : Emission} (h : 0 < e.2 ∧ e.2 ≤ PULSE_MASK) :
    maskPulse (sample e) = e.2 := by
  obtain ⟨l, d⟩ := e
  cases l with
  | pulse => exact maskPulse_add (Int.le_of_lt h.1) h.2
  | space => exact maskPulse_of_le (Int.le_of_lt h.1) h.2

theorem isPulse_sample {e : Emission} (h : 0 < e.2 ∧ e.2 ≤ PULSE_MASK) :
    isPulse (sample e) = decide (e.1 = .pulse) := by
  obtain ⟨l, d⟩ := e
  cases l with
  | pulse => exact isPulse_add (Int.le_of_lt h.1) h.2
  | space => exact isPulse_of_le (Int.le_of_lt h.1) h.2

theorem sample_ne_zero {e : Emission} (h : 0 < e.2 ∧ e.2 ≤ PULSE_MASK) : sample e ≠ 0 := by
  obtain ⟨l, d⟩ := e
  obtain ⟨h0, -⟩ := h
  replace h0 : 0 < d := h0
  cases l with
  | pulse =>
    show PULSE_BIT + d ≠ 0
    unfold PULSE_BIT
    omega
  | space =>
    show d ≠ 0
    omega

/-! ## 2. Reading and going back -/

/-- What the hardware delivers around one frame: the samples up to the gap
    behind the frame, the samples after it, and the time of the frame with
    that gap. -/
structure Wire where
  tape : List Int
  extra : List Int
  sum : Int

/-- `h` is the end of the tape. -/
def Wire.EndsWith (w : Wire) (h : List Emission) : Prop := ∃ past, w.tape = past ++ h.map sample

/-- **`b` has still to read `h`.** -/
structure View (w : Wire) (h : List Emission) (pp ps : Int) (b : Rbuf) : Prop where
  tape : b.data ++ b.input = w.tape ++ w.extra
  suffix : ∃ past, w.tape = past ++ h.map sample ∧ b.rptr = past.length ∧
    past.length ≤ b.data.length
  room : w.tape.length ≤ RBUF_SIZE
  cap : b.data.length ≤ RBUF_SIZE
  sound : Sound h
  pendingp : b.pendingp = pp
  pendings : b.pendings = ps
  sum : b.sum + total h = w.sum

theorem View.endsWith {w : Wire} {h : List Emission} {pp ps : Int} {b : Rbuf}
    (hv : View w h pp ps b) : w.EndsWith h := by
  obtain ⟨past, ht, -⟩ := hv.suffix
  exact ⟨past, ht⟩

theorem View.deferSpace {w : Wire} {h : List Emission} {pp ps : Int} {b : Rbuf}
    (hv : View w h pp ps b) (x : Int) : View w h pp x (setPendingSpace x b) :=
  { hv with pendings := rfl }

theorem View.deferPulse {w : Wire} {h : List Emission} {pp ps : Int} {b : Rbuf}
    (hv : View w h pp ps b) (x : Int) : View w h x ps (setPendingPulse x b) :=
  { hv with pendingp := rfl }

/-- The sample at the read position is the next one on the tape. -/
theorem sample_at {data input past more : List Int} {x : Int} (h : data ++ input = past ++ x :: more)
    (hlt : past.length < data.length) : data.getD past.length 0 = x := by
  have h1 : (data ++ input)[past.length]? = some x := by
    rw [h]
    simp
  rw [List.getElem?_append_left hlt] at h1
  rw [List.getD_eq_getElem?_getD, h1]
  rfl

/-- **Reading** takes the next sample, wherever it still is. -/
theorem View.read {w : Wire} {e : Emission} {h : List Emission} {pp ps : Int} {b : Rbuf}
    (hv : View w (e :: h) pp ps b) :
    ∃ b', (∀ m, getNextRecBuffer m b = (sample e, b')) ∧ View w h pp ps b' := by
  obtain ⟨past, ht, hr, hle⟩ := hv.suffix
  have he := hv.sound e List.mem_cons_self
  have hmask := maskPulse_sample he
  have hne := sample_ne_zero he
  have hsum := hv.sum
  rw [total_cons] at hsum
  have htape := hv.tape
  rw [ht, List.map_cons, List.append_assoc, List.cons_append] at htape
  have hroom := hv.room
  have hlen : past.length < RBUF_SIZE := by
    rw [ht, List.length_append, List.map_cons, List.length_cons] at hroom
    omega
  have hpast : w.tape = (past ++ [sample e]) ++ h.map sample := by rw [ht]; simp
  have hrn : ¬ b.rptr < 0 := by omega
  by_cases hlt : past.length < b.data.length
  · have hx : b.sample b.rptr = sample e := by
      rw [Rbuf.sample, if_pos (by omega), hr, Int.toNat_natCast]
      exact sample_at htape hlt
    refine ⟨{ b with sum := b.sum + e.2, rptr := b.rptr + 1 }, fun m => ?_, ?_⟩
    · unfold getNextRecBuffer
      rw [if_pos (by rw [Rbuf.wptr]; omega)]
      simp only [hx, hmask]
    · exact ⟨hv.tape, ⟨past ++ [sample e], hpast, by simp [hr], by simp; omega⟩, hv.room, hv.cap,
        hv.sound.tail, hv.pendingp, hv.pendings, by show b.sum + e.2 + total h = _; omega⟩
  · have heq : b.data.length = past.length := by omega
    have hin : b.data = past ∧ b.input = sample e :: (h.map sample ++ w.extra) :=
      List.append_inj htape heq
    obtain ⟨hd, hi⟩ := hin
    refine ⟨{ b with
      data := b.data ++ [sample e], input := h.map sample ++ w.extra,
      sum := b.sum + e.2, rptr := b.rptr + 1 }, fun m => ?_, ?_⟩
    · unfold getNextRecBuffer
      rw [if_neg (by rw [Rbuf.wptr]; omega), if_pos (by rw [Rbuf.wptr]; omega), hi]
      have hx : Rbuf.sample { b with
          data := b.data ++ [sample e], input := h.map sample ++ w.extra } b.rptr = sample e := by
        rw [Rbuf.sample, if_pos (by omega), hr, Int.toNat_natCast, ← heq]
        simp
      simp only [if_neg hne, hx, hmask]
    · refine ⟨?_, ⟨past ++ [sample e], hpast, by simp [hr], by simp [heq]⟩, hv.room, ?_,
        hv.sound.tail, hv.pendingp, hv.pendings, by show b.sum + e.2 + total h = _; omega⟩
      · rw [← hv.tape, hi]
        simp
      · simp
        omega

/-- The last sample that was read. -/
theorem View.last {w : Wire} {e : Emission} {h : List Emission} {pp ps : Int} {b : Rbuf}
    (hv : View w h pp ps b) (hw : w.EndsWith (e :: h)) :
    ∃ past, w.tape = past ++ (e :: h).map sample ∧ b.rptr = past.length + 1 ∧
      past.length < b.data.length ∧ b.sample past.length = sample e := by
  obtain ⟨past', ht', hr, hle⟩ := hv.suffix
  obtain ⟨past, ht⟩ := hw
  have hlen : past'.length = past.length + 1 := by
    have h1 := congrArg List.length ht
    rw [ht'] at h1
    simp at h1
    omega
  refine ⟨past, ht, by omega, by omega, ?_⟩
  have htape := hv.tape
  rw [ht, List.map_cons, List.append_assoc, List.cons_append] at htape
  rw [Rbuf.sample, if_pos (by omega), Int.toNat_natCast]
  exact sample_at htape (by omega)

/-- **Going back one sample.** -/
theorem View.unget1 {w : Wire} {e : Emission} {h : List Emission} {pp ps : Int} {b : Rbuf}
    (hv : View w h pp ps b) (hw : w.EndsWith (e :: h)) (he : 0 < e.2 ∧ e.2 ≤ PULSE_MASK) :
    View w (e :: h) pp ps (ungetRecBuffer 1 b) := by
  obtain ⟨past, ht, hr, hlt, hx⟩ := hv.last hw
  have hrp : b.rptr - ((1 : Nat) : Int) = past.length := by omega
  have hsum := hv.sum
  have hb : ungetRecBuffer 1 b = { b with rptr := past.length, sum := b.sum - e.2 } := by
    unfold ungetRecBuffer
    rw [if_pos (.inl rfl), if_neg (by decide)]
    simp only [hrp]
    have hs : Rbuf.sample { b with rptr := (past.length : Int) } past.length = sample e := hx
    rw [hs, maskPulse_sample he]
  rw [hb]
  exact ⟨hv.tape, ⟨past, ht, rfl, Nat.le_of_lt hlt⟩, hv.room, hv.cap,
    fun f hf => (List.mem_cons.mp hf).elim (fun h => h ▸ he) (hv.sound f), hv.pendingp, hv.pendings,
    by rw [total_cons]; show b.sum - e.2 + (e.2 + total h) = _; omega⟩

/-- **Going back two samples.** -/
theorem View.unget2 {w : Wire} {e f : Emission} {h : List Emission} {pp ps : Int} {b : Rbuf}
    (hv : View w h pp ps b) (hw : w.EndsWith (e :: f :: h)) (hs : Sound [e, f]) :
    View w (e :: f :: h) pp ps (ungetRecBuffer 2 b) := by
  have he := hs e (by simp)
  have hf := hs f (by simp)
  have hw1 : w.EndsWith (f :: h) := by
    obtain ⟨past, ht⟩ := hw
    exact ⟨past ++ [sample e], by rw [ht]; simp⟩
  obtain ⟨past, ht, hr, hlt, hx⟩ := hv.last hw1
  have hv1 := hv.unget1 hw1 hf
  obtain ⟨past0, ht0, hr0, hlt0, hx0⟩ := hv1.last hw
  have hlen : past.length = past0.length + 1 := by
    have h1 := congrArg List.length ht
    rw [ht0] at h1
    simp at h1
    omega
  have hrp : b.rptr - ((2 : Nat) : Int) = past0.length := by omega
  have hx0' : b.sample past0.length = sample e := by
    have hdata : (ungetRecBuffer 1 b).data = b.data := rfl
    rw [Rbuf.sample, hdata] at hx0
    exact hx0
  have hx' : b.sample ((past0.length : Int) + 1) = sample f := by
    have hc : (past0.length : Int) + 1 = past.length := by omega
    rw [hc]
    exact hx
  have hb : ungetRecBuffer 2 b =
      { b with rptr := past0.length, sum := b.sum - e.2 - f.2 } := by
    unfold ungetRecBuffer
    rw [if_pos (.inr rfl), if_pos rfl]
    simp only [hrp]
    have h1 : Rbuf.sample { b with rptr := (past0.length : Int) } past0.length = sample e := hx0'
    have h2 (s : Int) : Rbuf.sample { b with rptr := (past0.length : Int), sum := s }
        ((past0.length : Int) + 1) = sample f := hx'
    rw [h1, h2, maskPulse_sample he, maskPulse_sample hf]
  rw [hb]
  have hsum := hv.sum
  refine ⟨hv.tape, ⟨past0, ht0, rfl, Nat.le_of_lt hlt0⟩, hv.room, hv.cap, ?_, hv.pendingp,
    hv.pendings, ?_⟩
  · intro g hg
    rcases List.mem_cons.mp hg with rfl | hg
    · exact he
    · rcases List.mem_cons.mp hg with rfl | hg
      · exact hf
      · exact hv.sound g hg
  · rw [total_cons, total_cons]
    show b.sum - e.2 - f.2 + (e.2 + (f.2 + total h)) = _
    omega

/-! ## 3. The next pulse, the next space -/

section Next

variable {w : Wire} {l : Level} {d : Int} {h : List Emission} {pp ps : Int} {b : Rbuf}

theorem View.nextPulse (hv : View w ((l, d) :: h) pp ps b) :
    ∃ b', (∀ m, getNextPulse m b = (if l = .pulse then d else 0, b')) ∧ View w h pp ps b' := by
  obtain ⟨b', hread, hv'⟩ := hv.read
  have he := hv.sound (l, d) List.mem_cons_self
  refine ⟨b', fun m => ?_, hv'⟩
  unfold getNextPulse
  rw [hread]
  simp only [if_neg (sample_ne_zero he), isPulse_sample he, maskPulse_sample he]
  cases l <;> rfl

theorem View.nextSpace (hv : View w ((l, d) :: h) pp ps b) :
    ∃ b', (∀ m, getNextSpace m b = (if l = .space then d else 0, b')) ∧ View w h pp ps b' := by
  obtain ⟨b', hread, hv'⟩ := hv.read
  have he := hv.sound (l, d) List.mem_cons_self
  refine ⟨b', fun m => ?_, hv'⟩
  unfold getNextSpace
  rw [hread]
  simp only [if_neg (sample_ne_zero he), isSpace, isPulse_sample he]
  cases l <;> rfl

variable {remote : IrRemote}

/-- **A deferred space** is heard on its own. -/
theorem View.syncSpace (hv : View w ((.space, d) :: h) pp ps b) (hps : 0 < ps)
    (he : expect remote d ps = true) :
    ∃ b', syncPendingSpace remote b = (true, b') ∧ View w h pp 0 b' := by
  obtain ⟨b', hnext, hv'⟩ := hv.nextSpace
  have hd := (hv.sound (.space, d) List.mem_cons_self).1
  refine ⟨setPendingSpace 0 b', ?_, hv'.deferSpace 0⟩
  unfold syncPendingSpace
  rw [if_pos (by rw [hv.pendings]; exact hps), hnext]
  have hd0 : d ≠ 0 := by omega
  simp [hd0, hv'.pendings, he]

/-- **A deferred pulse** is heard on its own. -/
theorem View.syncPulse (hv : View w ((.pulse, d) :: h) pp ps b) (hpp : 0 < pp)
    (he : expect remote d pp = true) :
    ∃ b', syncPendingPulse remote b = (true, b') ∧ View w h 0 ps b' := by
  obtain ⟨b', hnext, hv'⟩ := hv.nextPulse
  have hd := (hv.sound (.pulse, d) List.mem_cons_self).1
  refine ⟨setPendingPulse 0 b', ?_, hv'.deferPulse 0⟩
  unfold syncPendingPulse
  rw [if_pos (by rw [hv.pendingp]; exact hpp), hnext]
  have hd0 : d ≠ 0 := by omega
  simp [hd0, hv'.pendingp, he]

/-- **A pulse on its own**: what `expectpulse` answers for any length. -/
theorem View.pulse (remote : IrRemote) (hv : View w ((.pulse, d) :: h) 0 0 b) :
    ∃ b', (∀ x, expectpulse remote x b = (expect remote d x, b')) ∧ View w h 0 0 b' := by
  obtain ⟨b', hnext, hv'⟩ := hv.nextPulse
  have hd := (hv.sound (.pulse, d) List.mem_cons_self).1
  have hd0 : d ≠ 0 := by omega
  refine ⟨b', fun x => ?_, hv'⟩
  unfold expectpulse
  rw [syncPendingSpace_none (by rw [hv.pendings])]
  simp only [hnext, if_true, if_neg hd0, hv'.pendingp, gt_iff_lt, Int.lt_irrefl, if_false]

theorem View.space (remote : IrRemote) (hv : View w ((.space, d) :: h) 0 0 b) :
    ∃ b', (∀ x, expectspace remote x b = (expect remote d x, b')) ∧ View w h 0 0 b' := by
  obtain ⟨b', hnext, hv'⟩ := hv.nextSpace
  have hd := (hv.sound (.space, d) List.mem_cons_self).1
  have hd0 : d ≠ 0 := by omega
  refine ⟨b', fun x => ?_, hv'⟩
  unfold expectspace
  rw [syncPendingPulse_none (by rw [hv.pendingp])]
  simp only [hnext, if_true, if_neg hd0, hv'.pendings, gt_iff_lt, Int.lt_irrefl, if_false]

/-- **A pulse behind a deferred one**: they are heard as one. -/
theorem View.pulse_merged (remote : IrRemote) (hv : View w ((.pulse, pp + d) :: h) pp 0 b) (hpp : 0 < pp)
    (hd : 0 ≤ d) :
    ∃ b', (∀ x, expect remote d x = true → expectpulse remote x b = (true, b')) ∧
      View w h 0 0 b' := by
  obtain ⟨b', hnext, hv'⟩ := hv.nextPulse
  have hd0 : pp + d ≠ 0 := by omega
  refine ⟨setPendingPulse 0 b', fun x hx => ?_, hv'.deferPulse 0⟩
  unfold expectpulse
  rw [syncPendingSpace_none (by rw [hv.pendings])]
  have hle : ¬ pp > pp + d := by omega
  have hsub : pp + d - pp = d := by omega
  simp only [hnext, if_true, if_neg hd0, hv'.pendingp, gt_iff_lt, hpp, if_neg hle, hsub, hx]
  rfl

theorem View.space_merged (remote : IrRemote) (hv : View w ((.space, ps + d) :: h) 0 ps b) (hps : 0 < ps)
    (hd : 0 ≤ d) :
    ∃ b', (∀ x, expect remote d x = true → expectspace remote x b = (true, b')) ∧
      View w h 0 0 b' := by
  obtain ⟨b', hnext, hv'⟩ := hv.nextSpace
  have hd0 : ps + d ≠ 0 := by omega
  refine ⟨setPendingSpace 0 b', fun x hx => ?_, hv'.deferSpace 0⟩
  unfold expectspace
  rw [syncPendingPulse_none (by rw [hv.pendingp])]
  have hle : ¬ ps > ps + d := by omega
  have hsub : ps + d - ps = d := by omega
  simp only [hnext, if_true, if_neg hd0, hv'.pendings, gt_iff_lt, hps, if_neg hle, hsub, hx]
  rfl

/-- `expectpulse` and `expectspace` first hear what is deferred. -/
theorem expectpulse_of_sync {b b' : Rbuf} (x : Int) (h : syncPendingSpace remote b = (true, b'))
    (hp : b'.pendings ≤ 0) :
    expectpulse remote x b = expectpulse remote x b' := by
  unfold expectpulse
  rw [h, syncPendingSpace_none hp]

theorem expectspace_of_sync {b b' : Rbuf} (x : Int) (h : syncPendingPulse remote b = (true, b'))
    (hp : b'.pendingp ≤ 0) :
    expectspace remote x b = expectspace remote x b' := by
  unfold expectspace
  rw [h, syncPendingPulse_none hp]

end Next

/-! ## 4. What was emitted and is not heard yet -/

/-- The calls that are deferred. -/
def pend (pp ps : Int) : List Emission :=
  (if 0 < pp then [(.pulse, pp)] else []) ++ (if 0 < ps then [(.space, ps)] else [])

@[simp] theorem pend_zero : pend 0 0 = [] := rfl

theorem pend_space {ps : Int} (h : 0 < ps) : pend 0 ps = [(.space, ps)] := by simp [pend, h]

theorem pend_pulse {pp : Int} (h : 0 < pp) : pend pp 0 = [(.pulse, pp)] := by simp [pend, h]

/-- **`b` has still to hear** the deferred calls and `ops`, in front of
    `tail`: the signal `h`. -/
structure Listen (acc : Int → Int → Prop) (w : Wire) (tail ops : List Emission) (pp ps : Int)
    (h : List Emission) (b : Rbuf) : Prop where
  view : View w h pp ps b
  heard : Heard acc tail (pend pp ps ++ ops) h

/-- `expect` accepts what `acc` accepts. -/
def Accepts (remote : IrRemote) (acc : Int → Int → Prop) : Prop :=
  ∀ d e, 0 ≤ e → acc d e → 0 ≤ d ∧ expect remote d e = true

/-- A tolerant remote accepts every time for itself. -/
theorem accepts_eq {remote : IrRemote} (h : Tolerant remote) : Accepts remote (· = ·) := by
  rintro d e he rfl
  exact ⟨he, expect_self h he⟩

/-- The level of the next call, or of `tail`. -/
def nextLevel (ops tail : List Emission) : Option Level := (ops ++ tail).head?.map Prod.fst

@[simp] theorem nextLevel_cons (e : Emission) (ops tail : List Emission) :
    nextLevel (e :: ops) tail = some e.1 := rfl

@[simp] theorem nextLevel_nil (e : Emission) (tail : List Emission) :
    nextLevel [] (e :: tail) = some e.1 := rfl

section Take

variable {acc : Int → Int → Prop} {remote : IrRemote} {w : Wire} {tail ops h : List Emission}
  {x pp ps : Int} {b : Rbuf}

theorem Listen.deferSpace (hL : Listen acc w tail ((.space, x) :: ops) 0 0 h b) (hx : 0 < x) :
    Listen acc w tail ops 0 x h (setPendingSpace x b) := by
  refine ⟨hL.view.deferSpace x, ?_⟩
  rw [pend_space hx]
  exact hL.heard

theorem Listen.deferPulse (hL : Listen acc w tail ((.pulse, x) :: ops) 0 0 h b) (hx : 0 < x) :
    Listen acc w tail ops x 0 h (setPendingPulse x b) := by
  refine ⟨hL.view.deferPulse x, ?_⟩
  rw [pend_pulse hx]
  exact hL.heard

/-- **A deferred space in front of a pulse** is heard on its own. -/
theorem Listen.syncSpace (hacc : Accepts remote acc) (hL : Listen acc w tail ops 0 ps h b)
    (hps : 0 ≤ ps) (hn : nextLevel ops tail ≠ some .space) :
    ∃ h' b', syncPendingSpace remote b = (true, b') ∧ Listen acc w tail ops 0 0 h' b' := by
  by_cases hp : 0 < ps
  · have hh := hL.heard
    rw [pend_space hp] at hh
    obtain ⟨d, h', rfl, hd, hh'⟩ := hh.split_ne hn
    obtain ⟨b', hs, hv⟩ := hL.view.syncSpace hp (hacc d ps hps hd).2
    exact ⟨h', b', hs, hv, hh'⟩
  · have h0 : ps = 0 := by omega
    subst h0
    exact ⟨h, b, syncPendingSpace_none (by rw [hL.view.pendings]), hL⟩

/-- **A deferred pulse in front of a space** is heard on its own. -/
theorem Listen.syncPulse (hacc : Accepts remote acc) (hL : Listen acc w tail ops pp 0 h b)
    (hpp : 0 ≤ pp) (hn : nextLevel ops tail ≠ some .pulse) :
    ∃ h' b', syncPendingPulse remote b = (true, b') ∧ Listen acc w tail ops 0 0 h' b' := by
  by_cases hp : 0 < pp
  · have hh := hL.heard
    rw [pend_pulse hp] at hh
    obtain ⟨d, h', rfl, hd, hh'⟩ := hh.split_ne hn
    obtain ⟨b', hs, hv⟩ := hL.view.syncPulse hp (hacc d pp hpp hd).2
    exact ⟨h', b', hs, hv, hh'⟩
  · have h0 : pp = 0 := by omega
    subst h0
    exact ⟨h, b, syncPendingPulse_none (by rw [hL.view.pendingp]), hL⟩

/-- **The next call is a pulse of its own**: some time that `acc` accepts is
    heard, and `expectpulse` compares it. -/
theorem Listen.pulse (hacc : Accepts remote acc)
    (hL : Listen acc w tail ((.pulse, x) :: ops) 0 ps h b) (hps : 0 ≤ ps)
    (hn : nextLevel ops tail ≠ some .pulse) :
    ∃ d h' b', acc d x ∧ (∀ y, expectpulse remote y b = (expect remote d y, b')) ∧
      Listen acc w tail ops 0 0 h' b' ∧ w.EndsWith ((.pulse, d) :: h') ∧
      (0 < d ∧ d ≤ PULSE_MASK) := by
  obtain ⟨h₁, b₁, hs, hL₁⟩ := hL.syncSpace hacc hps (by simp)
  obtain ⟨d, h', rfl, hd, hh'⟩ := hL₁.heard.split_ne hn
  obtain ⟨b', he, hv⟩ := hL₁.view.pulse remote
  refine ⟨d, h', b', hd, fun y => ?_, ⟨hv, hh'⟩, hL₁.view.endsWith,
    hL₁.view.sound _ List.mem_cons_self⟩
  rw [expectpulse_of_sync y hs (by rw [hL₁.view.pendings]), he]

theorem Listen.space (hacc : Accepts remote acc)
    (hL : Listen acc w tail ((.space, x) :: ops) pp 0 h b) (hpp : 0 ≤ pp)
    (hn : nextLevel ops tail ≠ some .space) :
    ∃ d h' b', acc d x ∧ (∀ y, expectspace remote y b = (expect remote d y, b')) ∧
      Listen acc w tail ops 0 0 h' b' ∧ w.EndsWith ((.space, d) :: h') ∧
      (0 < d ∧ d ≤ PULSE_MASK) := by
  obtain ⟨h₁, b₁, hs, hL₁⟩ := hL.syncPulse hacc hpp (by simp)
  obtain ⟨d, h', rfl, hd, hh'⟩ := hL₁.heard.split_ne hn
  obtain ⟨b', he, hv⟩ := hL₁.view.space remote
  refine ⟨d, h', b', hd, fun y => ?_, ⟨hv, hh'⟩, hL₁.view.endsWith,
    hL₁.view.sound _ List.mem_cons_self⟩
  rw [expectspace_of_sync y hs (by rw [hL₁.view.pendingp]), he]

/-- **`expectpulse` takes the next call off**, whatever is deferred. -/
theorem Listen.expectpulse (hacc : Accepts remote acc)
    (hL : Listen acc w tail ((.pulse, x) :: ops) pp ps h b) (hx : 0 ≤ x) (hpp : 0 ≤ pp)
    (hps : 0 ≤ ps) (hone : pp = 0 ∨ ps = 0) (hn : nextLevel ops tail ≠ some .pulse) :
    ∃ h' b', expectpulse remote x b = (true, b') ∧ Listen acc w tail ops 0 0 h' b' := by
  by_cases hp : 0 < pp
  · have h0 : ps = 0 := by omega
    subst h0
    have hh := hL.heard
    rw [pend_pulse hp] at hh
    obtain ⟨d, h', rfl, hh'⟩ := hh.split_eq (by simp)
    obtain ⟨d', h'', he, hd, hh''⟩ := hh'.split_ne hn
    obtain ⟨rfl, rfl⟩ : d = d' ∧ h' = h'' := by simpa using he
    have hok := hacc d x hx hd
    obtain ⟨b', hb', hv⟩ := hL.view.pulse_merged remote hp hok.1
    exact ⟨h', b', hb' x hok.2, hv, hh''⟩
  · have h0 : pp = 0 := by omega
    subst h0
    obtain ⟨d, h', b', hd, he, hL', -⟩ := hL.pulse hacc hps hn
    exact ⟨h', b', by rw [he, (hacc d x hx hd).2], hL'⟩

/-- **`expectspace` takes the next call off**, whatever is deferred. -/
theorem Listen.expectspace (hacc : Accepts remote acc)
    (hL : Listen acc w tail ((.space, x) :: ops) pp ps h b) (hx : 0 ≤ x) (hpp : 0 ≤ pp)
    (hps : 0 ≤ ps) (hone : pp = 0 ∨ ps = 0) (hn : nextLevel ops tail ≠ some .space) :
    ∃ h' b', expectspace remote x b = (true, b') ∧ Listen acc w tail ops 0 0 h' b' := by
  by_cases hp : 0 < ps
  · have h0 : pp = 0 := by omega
    subst h0
    have hh := hL.heard
    rw [pend_space hp] at hh
    obtain ⟨d, h', rfl, hh'⟩ := hh.split_eq (by simp)
    obtain ⟨d', h'', he, hd, hh''⟩ := hh'.split_ne hn
    obtain ⟨rfl, rfl⟩ : d = d' ∧ h' = h'' := by simpa using he
    have hok := hacc d x hx hd
    obtain ⟨b', hb', hv⟩ := hL.view.space_merged remote hp hok.1
    exact ⟨h', b', hb' x hok.2, hv, hh''⟩
  · have h0 : ps = 0 := by omega
    subst h0
    obtain ⟨d, h', b', hd, he, hL', -⟩ := hL.space hacc hpp hn
    exact ⟨h', b', by rw [he, (hacc d x hx hd).2], hL'⟩

/-! ## 5. The parts of a frame -/

/-- **The header**: its space is deferred, or heard at once where the flag
    `NO_HEAD_REP` asks for a decision. -/
theorem Listen.getHeader (hacc : Accepts remote acc)
    (hL : Listen acc w tail ((.pulse, remote.phead) :: (.space, remote.shead) :: ops) 0 0 h b)
    (hrcmm : isRcmm remote = false) (hbo : isBo remote = false) (hh : hasHeader remote = true)
    (hflag : hasFlag remote NO_HEAD_REP = true → nextLevel ops tail ≠ some .space ∧
      ∀ d, acc d remote.shead → expect remote remote.shead d = true) :
    ∃ h' b' ps, getHeader remote b = (true, b') ∧ 0 ≤ ps ∧ Listen acc w tail ops 0 ps h' b' := by
  obtain ⟨hp0, hs0⟩ : 0 < remote.phead ∧ 0 < remote.shead := by
    simpa [hasHeader] using hh
  obtain ⟨h₁, b₁, he, hL₁⟩ := hL.expectpulse hacc (Int.le_of_lt hp0) (Int.le_refl 0)
    (Int.le_refl 0) (.inl rfl) (by simp)
  unfold WinLirc.getHeader
  rw [if_neg (by simp [hrcmm]), if_neg (by simp [hbo]), if_neg (by omega), he]
  by_cases hf : hasFlag remote NO_HEAD_REP = true
  · obtain ⟨hn, hexp⟩ := hflag hf
    obtain ⟨d, h₂, hd1, hd2, hh₂⟩ := hL₁.heard.split_ne hn
    subst hd1
    have hd0 := (hL₁.view.sound (.space, d) List.mem_cons_self).1
    obtain ⟨b₂, hnext, hv₂⟩ := hL₁.view.nextSpace
    have hne : d ≠ 0 := by omega
    refine ⟨h₂, b₂, 0, ?_, Int.le_refl 0, hv₂, hh₂⟩
    simp [hf, hnext, hne, hexp d hd2]
  · refine ⟨h₁, _, remote.shead, ?_, Int.le_of_lt hs0, hL₁.deferSpace hs0⟩
    simp [hf]

/-- **The part in front of the frame**, where no repeat frame is expected. -/
theorem Listen.frontHeader (hacc : Accepts remote acc) (sync : Int)
    (hL : Listen acc w tail (headerSignal remote ++ ops) 0 0 h b)
    (hrcmm : isRcmm remote = false) (hbo : isBo remote = false)
    (hflag : hasHeader remote = true → hasFlag remote NO_HEAD_REP = true →
      nextLevel ops tail ≠ some .space ∧ ∀ d, acc d remote.shead → expect remote remote.shead d = true) :
    ∃ h' b' ps, frontHeader remote sync b = (.frame sync (hasHeader remote), b') ∧ 0 ≤ ps ∧
      Listen acc w tail ops 0 ps h' b' := by
  unfold WinLirc.frontHeader headerSignal at *
  by_cases hh : hasHeader remote = true
  · rw [if_pos hh] at hL
    obtain ⟨h', b', ps, he, hps, hL'⟩ := hL.getHeader hacc hrcmm hbo hh (hflag hh)
    refine ⟨h', b', ps, ?_, hps, hL'⟩
    rw [if_pos hh, he, hh]
  · rw [if_neg hh] at hL
    refine ⟨h, b, 0, ?_, Int.le_refl 0, hL⟩
    have hf : hasHeader remote = false := by simpa using hh
    rw [if_neg hh, hf]

/-- **The lead pulse** is deferred. -/
theorem Listen.getLead (hacc : Accepts remote acc)
    (hL : Listen acc w tail (leadSignal remote ++ ops) 0 ps h b) (hps : 0 ≤ ps)
    (hlead : 0 ≤ remote.plead) :
    ∃ h' b' ps', getLead remote b = (true, b') ∧ 0 ≤ ps' ∧ (remote.plead = 0 ∨ ps' = 0) ∧
      Listen acc w tail ops remote.plead ps' h' b' := by
  unfold WinLirc.getLead leadSignal at *
  by_cases h0 : remote.plead = 0
  · rw [if_neg (by simp [h0])] at hL
    rw [if_pos h0, h0]
    exact ⟨h, b, ps, rfl, hps, .inl rfl, hL⟩
  · rw [if_pos h0] at hL
    rw [if_neg h0]
    obtain ⟨h₁, b₁, he, hL₁⟩ := hL.syncSpace hacc hps (by simp)
    rw [he]
    exact ⟨h₁, _, 0, rfl, Int.le_refl 0, .inr rfl, hL₁.deferPulse (by omega)⟩

/-- **The trailing pulse**, or the pulse that is still deferred. -/
theorem Listen.getTrail (hacc : Accepts remote acc)
    (hL : Listen acc w tail (trailSignal remote ++ ops) pp ps h b) (hpp : 0 ≤ pp) (hps : 0 ≤ ps)
    (hone : pp = 0 ∨ ps = 0) (htrail : 0 ≤ remote.ptrail) (hn : nextLevel ops tail ≠ some .pulse) :
    ∃ h' b' ps', getTrail remote b = (true, b') ∧ 0 ≤ ps' ∧ (remote.ptrail ≠ 0 → ps' = 0) ∧
      Listen acc w tail ops 0 ps' h' b' := by
  unfold WinLirc.getTrail trailSignal at *
  by_cases h0 : remote.ptrail = 0
  · rw [if_neg (by simp [h0])] at hL
    simp only [h0, ne_eq, not_true_eq_false, if_false]
    by_cases hp : 0 < pp
    · have hps0 : ps = 0 := by omega
      subst hps0
      obtain ⟨h₁, b₁, he, hL₁⟩ := hL.syncPulse hacc hpp hn
      refine ⟨h₁, b₁, 0, ?_, Int.le_refl 0, fun _ => rfl, hL₁⟩
      rw [if_pos (by rw [hL.view.pendingp]; exact hp), he]
    · have hpp0 : pp = 0 := by omega
      subst hpp0
      refine ⟨h, b, ps, ?_, hps, fun hne => hne.elim, hL⟩
      rw [if_neg (by rw [hL.view.pendingp]; exact hp)]
  · rw [if_pos h0] at hL
    obtain ⟨h₁, b₁, he, hL₁⟩ := hL.expectpulse hacc htrail hpp hps hone hn
    refine ⟨h₁, b₁, 0, ?_, Int.le_refl 0, fun _ => rfl, hL₁⟩
    simp only [ne_eq, h0, not_false_eq_true, if_true, he]
    rw [if_neg (by rw [hL₁.view.pendingp]; exact Int.lt_irrefl 0)]

/-- **The foot.** -/
theorem Listen.getFoot (hacc : Accepts remote acc)
    (hL : Listen acc w tail (footSignal remote) 0 ps h b) (hps : 0 ≤ ps)
    (hn : nextLevel [] tail ≠ some .pulse) :
    ∃ h' b' ps', (if hasFoot remote then getFoot remote b else (true, b)) = (true, b') ∧ 0 ≤ ps' ∧
      (ps = 0 → ps' = 0) ∧ Listen acc w tail [] 0 ps' h' b' := by
  unfold footSignal at hL
  by_cases hf : hasFoot remote = true
  · obtain ⟨hp0, hs0⟩ : 0 < remote.pfoot ∧ 0 < remote.sfoot := by
      simpa [hasFoot] using hf
    rw [if_pos hf] at hL
    obtain ⟨h₁, b₁, he₁, hL₁⟩ := hL.expectspace hacc (Int.le_of_lt hs0) (Int.le_refl 0) hps
      (.inl rfl) (by simp)
    obtain ⟨h₂, b₂, he₂, hL₂⟩ := hL₁.expectpulse hacc (Int.le_of_lt hp0) (Int.le_refl 0)
      (Int.le_refl 0) (.inl rfl) hn
    refine ⟨h₂, b₂, 0, ?_, Int.le_refl 0, fun _ => rfl, hL₂⟩
    rw [if_pos hf, WinLirc.getFoot, he₁]
    exact he₂
  · rw [if_neg hf] at hL
    exact ⟨h, b, ps, by rw [if_neg hf], hps, id, hL⟩

/-- What is heard once everything of the frame is taken off: the gap, with the
    space that was deferred. -/
theorem Listen.rest {g : Int} {t : List Emission}
    (hL : Listen acc w ((.space, g) :: t) [] 0 ps h b) (hps : 0 ≤ ps) :
    h = (.space, ps + g) :: t := by
  have hh := hL.heard
  have hnil {u : List Emission} (hu : Heard acc ((.space, g) :: t) [] u) :
      u = (.space, g) :: t := by
    cases hu
    rfl
  by_cases hp : 0 < ps
  · rw [pend_space hp, List.append_nil] at hh
    obtain ⟨x, h', rfl, hh'⟩ := hh.split_eq rfl
    obtain ⟨⟨-, rfl⟩, rfl⟩ := List.cons.inj (hnil hh') |>.imp Prod.mk.inj id
    rfl
  · have h0 : ps = 0 := by omega
    subst h0
    rw [hnil hh, Int.zero_add]

/-- **The gap** is heard, not taken. -/
theorem Listen.getGap {g gap : Int} {t : List Emission}
    (hL : Listen acc w ((.space, g) :: t) [] 0 ps h b) (hps : 0 ≤ ps)
    (hgap : expectAtLeast remote (ps + g) gap = true) :
    ∃ b', getGap remote gap b = (true, b') ∧ View w ((.space, ps + g) :: t) 0 ps b' := by
  have hr := hL.rest hps
  subst hr
  obtain ⟨b₁, hread, hv₁⟩ := hL.view.read
  have he := hL.view.sound (.space, ps + g) List.mem_cons_self
  refine ⟨ungetRecBuffer 1 b₁, ?_, hv₁.unget1 hL.view.endsWith he⟩
  unfold WinLirc.getGap
  rw [hread]
  simp only [if_neg (sample_ne_zero he), isSpace, isPulse_sample he]
  have hs : sample (.space, ps + g) = ps + g := rfl
  simp [hs, hgap]

end Take

end WinLirc
