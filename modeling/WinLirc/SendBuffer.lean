/-
  File:      WinLirc/SendBuffer.lean
  Subject:   What the send buffer makes of a frame, for every list of calls.

  * between two frames the buffer is `Settled`: nothing pending, nothing lost;
  * within a frame it holds the normal form of the calls so far, the last run
    still pending (`Held`, `held_emit`), or it has overflowed;
  * at the end of a frame the pulse that is pending is written and a pending
    space is kept back for the gap (`Flushed`, `leaves_audible`,
    `leaves_sendSignals`);
  * with the gap the buffer is settled again (`flush_gap`).

  The encoders call with times that are not negative; a call of no time
  records nothing. An empty buffer ignores what comes before the first pulse
  (`audible`).
-/
import WinLirc.Encoder

namespace WinLirc

open Signal

/-! ## 1. Runs -/

/-- The runs of a signal that last. -/
def runs (s : List Emission) : List Emission := (coalesce s).filter (fun e => decide (0 < e.2))

/-- The runs that a replay has closed: all but the last one. -/
def closed (s : List Emission) : List Emission :=
  (coalesce s).dropLast.filter (fun e => decide (0 < e.2))

/-- How long the last run is open at level `l`. -/
def openRun (s : List Emission) (l : Level) : Int :=
  match (coalesce s).getLast? with
  | none => 0
  | some (l', d) => if l' = l then d else 0

@[simp] theorem closed_nil : closed [] = [] := rfl

@[simp] theorem closed_singleton (e : Emission) : closed [e] = [] := rfl

@[simp] theorem openRun_nil (l : Level) : openRun [] l = 0 := rfl

theorem closed_of_snoc {s u : List Emission} {e : Emission} (h : coalesce s = u ++ [e]) :
    closed s = u.filter (fun e => decide (0 < e.2)) := by
  rw [closed, h, List.dropLast_concat]

theorem openRun_of_snoc {s u : List Emission} {l' : Level} {d : Int} (l : Level)
    (h : coalesce s = u ++ [(l', d)]) : openRun s l = if l' = l then d else 0 := by
  rw [openRun, h, List.getLast?_concat]

/-- A signal that says something has a last run. -/
theorem coalesce_snoc_of_ne_nil {s : List Emission} (h : s ≠ []) :
    ∃ u l d, coalesce s = u ++ [(l, d)] := by
  rcases List.eq_nil_or_concat (coalesce s) with hc | ⟨u, e, hc⟩
  · exact absurd (coalesce_eq_nil.mp hc) h
  · exact ⟨u, e.1, e.2, by simpa using hc⟩

/-- **One more call** of the level that is open keeps the closed runs. -/
theorem closed_snoc_same {s u : List Emission} {l : Level} {d : Int} (d' : Int)
    (h : coalesce s = u ++ [(l, d)]) : closed (s ++ [(l, d')]) = closed s := by
  rw [closed_of_snoc h, closed_of_snoc (coalesce_snoc_same d' h)]

/-- **One call** of the other level closes the run that is open. -/
theorem closed_snoc_ne {s u : List Emission} {l l' : Level} {d : Int} (d' : Int)
    (h : coalesce s = u ++ [(l, d)]) (hl : l ≠ l') :
    closed (s ++ [(l', d')]) = closed s ++ (if 0 < d then [(l, d)] else []) := by
  have h2 : coalesce (s ++ [(l', d')]) = (u ++ [(l, d)]) ++ [(l', d')] := by
    rw [coalesce_snoc_ne d' h hl]
    simp
  rw [closed_of_snoc h, closed_of_snoc h2, List.filter_append]
  by_cases he : 0 < d <;> simp [he]

theorem length_closed_snoc (s : List Emission) (e : Emission) :
    (closed s).length ≤ (closed (s ++ [e])).length := by
  obtain ⟨l', d'⟩ := e
  by_cases hs : s = []
  · subst hs
    simp
  · obtain ⟨u, l, d, h⟩ := coalesce_snoc_of_ne_nil hs
    by_cases hl : l = l'
    · subst hl
      rw [closed_snoc_same d' h]
    · rw [closed_snoc_ne d' h hl, List.length_append]
      omega

/-- No time of the signal is negative. -/
def NonNeg (s : List Emission) : Prop := ∀ e ∈ s, 0 ≤ e.2

theorem NonNeg.coalesce {s : List Emission} (h : NonNeg s) : NonNeg (coalesce s) := by
  induction s with
  | nil => exact h
  | cons e t ih =>
    have he : 0 ≤ e.2 := h e List.mem_cons_self
    have ht := ih fun f hf => h f (List.mem_cons_of_mem e hf)
    rw [coalesce_cons]
    cases hc : Signal.coalesce t with
    | nil => simpa [merge, NonNeg] using he
    | cons g u =>
      obtain ⟨l, d⟩ := g
      rw [hc] at ht
      have hd : 0 ≤ d := ht (l, d) List.mem_cons_self
      have hu : NonNeg u := fun f hf => ht f (List.mem_cons_of_mem _ hf)
      intro f hf
      by_cases hl : e.1 = l
      · simp only [merge, hl, if_true, List.mem_cons] at hf
        rcases hf with rfl | hf
        · exact Int.add_nonneg he hd
        · exact hu f hf
      · simp only [merge, hl, if_false, List.mem_cons] at hf
        rcases hf with rfl | rfl | hf
        · exact he
        · exact hd
        · exact hu f hf

theorem openRun_nonneg {s : List Emission} (h : NonNeg s) (l : Level) : 0 ≤ openRun s l := by
  by_cases hs : s = []
  · subst hs
    simp
  · obtain ⟨u, l', d, hc⟩ := coalesce_snoc_of_ne_nil hs
    rw [openRun_of_snoc l hc]
    have hd : 0 ≤ d := h.coalesce (l', d) (by rw [hc]; simp)
    split <;> omega

/-! ## 2. What the buffer holds -/

/-- A buffer between two frames. -/
structure Settled (b : Sbuf) : Prop where
  pendingp : b.pendingp = 0
  pendings : b.pendings = 0
  tooLong : b.tooLong = false

/-- **`b` holds the signal `s`** on top of `b₀`: its closed runs are in the
    buffer, the open one is pending. -/
structure Held (b₀ : Sbuf) (s : List Emission) (b : Sbuf) : Prop where
  data : b.data = b₀.data ++ closed s
  pendingp : b.pendingp = openRun s .pulse
  pendings : b.pendings = openRun s .space
  sum : b.sum = b₀.sum + total (closed s)
  tooLong : b.tooLong = false

theorem Settled.held {b : Sbuf} (h : Settled b) : Held b [] b where
  data := by simp
  pendingp := by simp [h.pendingp]
  pendings := by simp [h.pendings]
  sum := by simp
  tooLong := h.tooLong

/-- `s` is not silent on `b₀`: an empty buffer ignores the spaces before the
    first pulse. -/
def Audible (b₀ : Sbuf) (s : List Emission) : Prop :=
  b₀.data ≠ [] ∨ ∀ e, s.head? = some e → e.1 = .pulse ∧ 0 < e.2

theorem Audible.of_append {b₀ : Sbuf} {s t : List Emission} (h : Audible b₀ (s ++ t)) :
    Audible b₀ s := by
  rcases h with h | h
  · exact .inl h
  · refine .inr fun e he => h e ?_
    rw [List.head?_append, he]
    rfl

theorem addSendBuffer_of_lt {b : Sbuf} (l : Level) (d : Int) (h : b.data.length < WBUF_SIZE) :
    addSendBuffer l d b = { b with sum := b.sum + d, data := b.data ++ [(l, d)] } := by
  rw [addSendBuffer, Sbuf.wptr, if_pos h]

theorem addSendBuffer_tooLong {b : Sbuf} (l : Level) (d : Int) (h : ¬ b.data.length < WBUF_SIZE) :
    (addSendBuffer l d b).tooLong = true := by
  rw [addSendBuffer, Sbuf.wptr, if_neg h]

/-- The first run of a signal lasts at least as long as its first call. -/
theorem coalesce_first {l : Level} {d : Int} {t : List Emission} (h : NonNeg t) :
    ∃ x v, coalesce ((l, d) :: t) = (l, x) :: v ∧ d ≤ x := by
  rw [coalesce_cons]
  cases hc : coalesce t with
  | nil => exact ⟨d, [], rfl, Int.le_refl d⟩
  | cons f v =>
    obtain ⟨l', d'⟩ := f
    have hd' : 0 ≤ d' := h.coalesce (l', d') (by rw [hc]; exact List.mem_cons_self)
    by_cases hl : l = l'
    · refine ⟨d + d', v, by simp [merge, hl], ?_⟩
      omega
    · exact ⟨d, (l', d') :: v, by simp [merge, hl], Int.le_refl d⟩

/-- Once a pulse was heard, no space is ignored. -/
theorem Held.heard {b₀ b : Sbuf} {s : List Emission} {d : Int} (hb : Held b₀ s b) (hn : NonNeg s)
    (ha : Audible b₀ (s ++ [(.space, d)])) : ¬ (b.wptr = 0 ∧ b.pendingp = 0) := by
  rintro ⟨hw, hp⟩
  rw [Sbuf.wptr, hb.data, List.length_append] at hw
  rcases ha with h | h
  · have := List.length_pos_iff.mpr h
    omega
  · cases s with
    | nil => simpa using (h (.space, d) rfl).1
    | cons e s =>
      obtain ⟨l, x⟩ := e
      obtain ⟨rfl, hx⟩ : l = .pulse ∧ 0 < x := h (l, x) rfl
      have hs : NonNeg s := fun f hf => hn f (List.mem_cons_of_mem _ hf)
      obtain ⟨y, v, hc, hy⟩ := coalesce_first (l := .pulse) (d := x) hs
      have hy0 : 0 < y := by omega
      rw [hb.pendingp] at hp
      cases v with
      | nil =>
        have hc' : coalesce ((Level.pulse, x) :: s) = [] ++ [(.pulse, y)] := hc
        rw [openRun_of_snoc _ hc', if_pos rfl] at hp
        omega
      | cons f v =>
        rw [closed, hc] at hw
        simp [hy0] at hw

/-- The pending field of a level. -/
def Sbuf.pending (l : Level) (b : Sbuf) : Int :=
  match l with
  | .pulse => b.pendingp
  | .space => b.pendings

theorem Held.pending {b₀ b : Sbuf} {s : List Emission} (hb : Held b₀ s b) (l : Level) :
    b.pending l = openRun s l := by
  cases l
  · exact hb.pendingp
  · exact hb.pendings

def Sbuf.setPending (l : Level) (d : Int) (b : Sbuf) : Sbuf :=
  match l with
  | .pulse => { b with pendingp := d }
  | .space => { b with pendings := d }

@[simp] theorem setPending_data (l : Level) (d : Int) (b : Sbuf) :
    (b.setPending l d).data = b.data := by
  cases l <;> rfl

@[simp] theorem setPending_sum (l : Level) (d : Int) (b : Sbuf) :
    (b.setPending l d).sum = b.sum := by
  cases l <;> rfl

@[simp] theorem setPending_tooLong (l : Level) (d : Int) (b : Sbuf) :
    (b.setPending l d).tooLong = b.tooLong := by
  cases l <;> rfl

@[simp] theorem pending_setPending (l : Level) (d : Int) (b : Sbuf) :
    (b.setPending l d).pending l = d := by
  cases l <;> rfl

def Level.other : Level → Level
  | .pulse => .space
  | .space => .pulse

theorem Level.eq_other_of_ne {l l' : Level} (h : l' ≠ l) : l' = l.other := by
  cases l <;> cases l' <;> simp_all [Level.other]

/-- **Both calls work alike**: they lengthen the open run, or close the one of
    the other level first. -/
theorem emitOne_eq (l : Level) (d : Int) (b : Sbuf)
    (h : l = .space → ¬ (b.wptr = 0 ∧ b.pendingp = 0)) :
    emitOne (l, d) b =
      if 0 < b.pending l then b.setPending l (b.pending l + d)
      else if 0 < b.pending l.other then
        ((addSendBuffer l.other (b.pending l.other) b).setPending l.other 0).setPending l d
      else b.setPending l d := by
  cases l with
  | pulse =>
    simp only [emitOne, sendPulse, Sbuf.pending, Sbuf.setPending, Level.other, gt_iff_lt]
    by_cases h1 : 0 < b.pendingp
    · simp [h1]
    · by_cases h2 : 0 < b.pendings <;> simp [h1, h2]
  | space =>
    simp only [emitOne, sendSpace, Sbuf.pending, Sbuf.setPending, Level.other, gt_iff_lt,
      if_neg (h rfl)]
    by_cases h1 : 0 < b.pendings
    · simp [h1]
    · by_cases h2 : 0 < b.pendingp <;> simp [h1, h2]

/-- The fields of a buffer whose pending pulse and space are set. -/
theorem held_setPending {b₀ b : Sbuf} {s : List Emission} (l : Level) (d : Int)
    (hdata : b.data = b₀.data ++ closed s) (hsum : b.sum = b₀.sum + total (closed s))
    (hlong : b.tooLong = false) (hl : openRun s l = d)
    (ho : b.pending l.other = openRun s l.other) : Held b₀ s (b.setPending l d) := by
  subst hl
  cases l with
  | pulse => exact ⟨hdata, rfl, ho, hsum, hlong⟩
  | space => exact ⟨hdata, ho, rfl, hsum, hlong⟩

theorem Level.other_ne (l : Level) : l.other ≠ l := by
  cases l <;> simp [Level.other]

/-- The open run of a level just called. -/
theorem openRun_snoc_same {s u : List Emission} {l : Level} {d : Int} (d' : Int)
    (h : coalesce s = u ++ [(l, d)]) :
    openRun (s ++ [(l, d')]) l = d + d' ∧ openRun (s ++ [(l, d')]) l.other = 0 := by
  have h2 := coalesce_snoc_same d' h
  rw [openRun_of_snoc _ h2, openRun_of_snoc _ h2]
  simp [(Level.other_ne l).symm]

theorem openRun_snoc_ne {s u : List Emission} {l l' : Level} {d : Int} (d' : Int)
    (h : coalesce s = u ++ [(l, d)]) (hl : l ≠ l') :
    openRun (s ++ [(l', d')]) l' = d' ∧ openRun (s ++ [(l', d')]) l'.other = 0 := by
  have h2 : coalesce (s ++ [(l', d')]) = (u ++ [(l, d)]) ++ [(l', d')] := by
    rw [coalesce_snoc_ne d' h hl]
    simp
  rw [openRun_of_snoc _ h2, openRun_of_snoc _ h2]
  simp [(Level.other_ne l').symm]

/-- **One call on top of a held signal** is held, or does not fit. -/
theorem Held.emitOne {b₀ b : Sbuf} {s : List Emission} {l : Level} {d : Int}
    (hb : Held b₀ s b) (hn : NonNeg s) (ha : Audible b₀ (s ++ [(l, d)]))
    (hfit : b₀.data.length + (closed s).length ≤ WBUF_SIZE) :
    if b₀.data.length + (closed (s ++ [(l, d)])).length ≤ WBUF_SIZE then
      Held b₀ (s ++ [(l, d)]) (emitOne (l, d) b)
    else (WinLirc.emitOne (l, d) b).tooLong = true := by
  have heard : l = .space → ¬ (b.wptr = 0 ∧ b.pendingp = 0) := by
    rintro rfl
    exact hb.heard hn ha
  rw [emitOne_eq l d b heard]
  by_cases hs : s = []
  · -- nothing is open yet
    subst hs
    have h1 : openRun [(l, d)] l = d := by simp [openRun]
    have h2 : openRun [(l, d)] l.other = 0 := by simp [openRun, (Level.other_ne l).symm]
    have hp (k : Level) : b.pending k = 0 := hb.pending k
    rw [List.nil_append, closed_singleton, closed_nil] at *
    rw [if_pos hfit, hp, hp, if_neg (Int.lt_irrefl 0), if_neg (Int.lt_irrefl 0)]
    exact held_setPending l d (by simpa using hb.data) (by simpa using hb.sum) hb.tooLong h1
      (by rw [h2, hb.pending, openRun_nil])
  · obtain ⟨u, l', x, hc⟩ := coalesce_snoc_of_ne_nil hs
    have hx : 0 ≤ x := hn.coalesce (l', x) (by rw [hc]; simp)
    by_cases hl : l' = l
    · -- the open run gets longer
      subst hl
      obtain ⟨h1, h2⟩ := openRun_snoc_same d hc
      have hp : b.pending l' = x := by rw [hb.pending, openRun_of_snoc _ hc, if_pos rfl]
      have ho : b.pending l'.other = 0 := by
        rw [hb.pending, openRun_of_snoc _ hc, if_neg (Level.other_ne l').symm]
      rw [closed_snoc_same d hc, if_pos hfit, hp, ho]
      have hdata : b.data = b₀.data ++ closed (s ++ [(l', d)]) := by
        rw [closed_snoc_same d hc, hb.data]
      have hsum : b.sum = b₀.sum + total (closed (s ++ [(l', d)])) := by
        rw [closed_snoc_same d hc, hb.sum]
      by_cases hx0 : 0 < x
      · rw [if_pos hx0]
        exact held_setPending l' (x + d) hdata hsum hb.tooLong h1 (by rw [h2, ho])
      · rw [if_neg hx0, if_neg (by omega)]
        refine held_setPending l' d hdata hsum hb.tooLong ?_ (by rw [h2, ho])
        omega
    · -- the open run is closed
      obtain ⟨h1, h2⟩ := openRun_snoc_ne d hc hl
      have hl' : l' = l.other := Level.eq_other_of_ne hl
      have hp : b.pending l = 0 := by rw [hb.pending, openRun_of_snoc _ hc, if_neg hl]
      have ho : b.pending l.other = x := by
        rw [hb.pending, openRun_of_snoc _ hc, if_pos hl']
      have hcl := closed_snoc_ne d hc hl
      rw [hp, ho, if_neg (Int.lt_irrefl 0)]
      by_cases hx0 : 0 < x
      · rw [if_pos hx0] at hcl ⊢
        have hlen : (closed (s ++ [(l, d)])).length = (closed s).length + 1 := by simp [hcl]
        have hw : b.data.length = b₀.data.length + (closed s).length := by simp [hb.data]
        split
        · rename_i hle
          rw [addSendBuffer_of_lt _ _ (by omega)]
          refine held_setPending l d ?_ ?_ ?_ h1 ?_
          · simp [hcl, hl', hb.data]
          · simp [hcl, hb.sum, Int.add_assoc]
          · simp [hb.tooLong]
          · rw [h2, pending_setPending]
        · rename_i hle
          simpa using addSendBuffer_tooLong l.other x (b := b) (by omega)
      · rw [if_neg hx0, List.append_nil] at hcl
        rw [if_neg hx0, hcl, if_pos hfit]
        refine held_setPending l d (by rw [hcl, hb.data]) (by rw [hcl, hb.sum]) hb.tooLong h1 ?_
        rw [h2, ho]
        omega

theorem tooLong_emitOne {e : Emission} {b : Sbuf} (h : b.tooLong = true) :
    (emitOne e b).tooLong = true := by
  have hadd (l : Level) (d : Int) : (addSendBuffer l d b).tooLong = true := by
    unfold addSendBuffer
    split <;> simp [h]
  obtain ⟨l, d⟩ := e
  cases l with
  | pulse =>
    simp only [emitOne, sendPulse]
    split_ifs <;> simp [h, hadd]
  | space =>
    simp only [emitOne, sendSpace]
    split_ifs <;> simp [h, hadd]

/-- What is lost stays lost. -/
theorem tooLong_emit {es : List Emission} {b : Sbuf} (h : b.tooLong = true) :
    (emit es b).tooLong = true := by
  induction es generalizing b with
  | nil => exact h
  | cons e es ih => exact ih (tooLong_emitOne h)

/-- **A replay is held**, or does not fit. -/
theorem held_emit {b₀ : Sbuf} {es : List Emission} (hb : Settled b₀)
    (hcap : b₀.data.length ≤ WBUF_SIZE) (hn : NonNeg es) (ha : Audible b₀ es) :
    if b₀.data.length + (closed es).length ≤ WBUF_SIZE then Held b₀ es (emit es b₀)
    else (emit es b₀).tooLong = true := by
  induction es using List.reverseRecOn with
  | nil =>
    rw [closed_nil, if_pos (by simpa using hcap)]
    exact hb.held
  | append_singleton s e ih =>
    have hs := ih (fun f hf => hn f (List.mem_append_left _ hf)) ha.of_append
    rw [emit_append]
    show if _ then Held b₀ (s ++ [e]) (emitOne e (emit s b₀)) else _
    split at hs
    · rename_i hfit
      exact hs.emitOne (fun f hf => hn f (List.mem_append_left _ hf)) ha hfit
    · rename_i hfit
      have hlen := length_closed_snoc s e
      rw [if_neg (by omega)]
      exact tooLong_emit hs

/-! ## 3. From the last call of a frame to its gap -/

/-- The first half of `sync_send_buffer` and of `flush_send_buffer`. -/
def flushPulse (b : Sbuf) : Sbuf :=
  if b.pendingp > 0 then { addSendBuffer .pulse b.pendingp b with pendingp := 0 } else b

/-- The second half of `sync_send_buffer`, on the entries. -/
def dropSpace (data : List Emission) : List Emission :=
  if data.length > 0 ∧ data.length % 2 = 0 then data.dropLast else data

theorem syncSendBuffer_eq (b : Sbuf) :
    syncSendBuffer b = { flushPulse b with data := dropSpace (flushPulse b).data } := by
  have h : syncSendBuffer b =
      if (flushPulse b).wptr > 0 ∧ (flushPulse b).wptr % 2 = 0 then
        { flushPulse b with data := (flushPulse b).data.dropLast }
      else flushPulse b := rfl
  rw [h]
  unfold dropSpace Sbuf.wptr
  split <;> rfl

/-- The entries a frame leaves in front of its gap. -/
def flushed (s : List Emission) : List Emission :=
  closed s ++ (if 0 < openRun s .pulse then [(.pulse, openRun s .pulse)] else [])

/-- **`b` is a frame of the entries `F` with the space `h` pending**, on top
    of `b₀`; `cut` is what the encoder has taken off `sum`. -/
structure Flushed (b₀ : Sbuf) (F : List Emission) (h cut : Int) (b : Sbuf) : Prop where
  data : b.data = b₀.data ++ F
  pendingp : b.pendingp = 0
  pendings : b.pendings = h
  sum : b.sum = b₀.sum + total F - cut
  tooLong : b.tooLong = false

/-- `b` is such a frame, or it does not fit. -/
structure Leaves (b₀ : Sbuf) (F : List Emission) (h cut : Int) (b : Sbuf) : Prop where
  fits : b₀.data.length + F.length ≤ WBUF_SIZE → Flushed b₀ F h cut b
  overflows : WBUF_SIZE < b₀.data.length + F.length → b.tooLong = true

/-- **A replay, its last pulse written.** -/
theorem leaves_emit {b₀ : Sbuf} {es : List Emission} (hb : Settled b₀)
    (hcap : b₀.data.length ≤ WBUF_SIZE) (hn : NonNeg es) (ha : Audible b₀ es) :
    Leaves b₀ (flushed es) (openRun es .space) 0 (flushPulse (emit es b₀)) := by
  have hheld := held_emit hb hcap hn ha
  have hlen : (flushed es).length =
      (closed es).length + (if 0 < openRun es .pulse then 1 else 0) := by
    unfold flushed
    split <;> simp
  by_cases hfit : b₀.data.length + (closed es).length ≤ WBUF_SIZE
  · rw [if_pos hfit] at hheld
    have hw : (emit es b₀).data.length = b₀.data.length + (closed es).length := by
      simp [hheld.data]
    unfold flushPulse
    rw [hheld.pendingp]
    by_cases hp : 0 < openRun es .pulse
    · rw [if_pos hp] at hlen ⊢
      refine ⟨fun hle => ?_, fun hlt => ?_⟩
      · rw [hlen] at hle
        rw [addSendBuffer_of_lt _ _ (by omega)]
        exact ⟨by simp [flushed, hheld.data, hp], rfl, hheld.pendings,
          by simp [flushed, hheld.sum, hp, Int.add_assoc], hheld.tooLong⟩
      · rw [hlen] at hlt
        exact addSendBuffer_tooLong _ _ (by omega)
    · have hp0 : openRun es .pulse = 0 := Int.le_antisymm (by omega) (openRun_nonneg hn _)
      rw [if_neg hp] at hlen ⊢
      refine ⟨fun _ => ?_, fun hlt => ?_⟩
      · exact ⟨by simp [flushed, hheld.data, hp], hheld.pendingp.trans hp0, hheld.pendings,
          by simp [flushed, hheld.sum, hp], hheld.tooLong⟩
      · omega
  · rw [if_neg hfit] at hheld
    refine ⟨fun hle => by omega, fun _ => ?_⟩
    unfold flushPulse
    split
    · have hadd : (addSendBuffer .pulse (emit es b₀).pendingp (emit es b₀)).tooLong = true := by
        unfold addSendBuffer
        split <;> simp [hheld]
      exact hadd
    · exact hheld

/-- A call that an empty buffer ignores. -/
def silent (e : Emission) : Bool := e.1 == .space || e.2 == 0

/-- What of a frame reaches the buffer: an empty one ignores everything before
    the first pulse. -/
def audible (data es : List Emission) : List Emission :=
  if data = [] then es.dropWhile silent else es

theorem emit_dropWhile {b : Sbuf} (hd : b.data = []) (hb : Settled b) (es : List Emission) :
    emit es b = emit (es.dropWhile silent) b := by
  induction es with
  | nil => rfl
  | cons e es ih =>
    by_cases he : silent e = true
    · rw [List.dropWhile_cons_of_pos he, ← ih, emit_cons]
      congr 1
      obtain ⟨l, d⟩ := e
      cases l with
      | space => simp [emitOne, sendSpace, Sbuf.wptr, hd, hb.pendingp]
      | pulse =>
        have hd0 : d = 0 := by simpa [silent] using he
        obtain ⟨data, tl, bi, pp, ps, sum⟩ := b
        obtain ⟨hp, hs, -⟩ := hb
        simp only at hp hs
        subst hd0 hp hs
        rfl
    · rw [List.dropWhile_cons_of_neg he]

theorem emit_audible {b₀ : Sbuf} (hb : Settled b₀) (es : List Emission) :
    emit es b₀ = emit (audible b₀.data es) b₀ := by
  unfold audible
  split
  · rename_i hd
    exact emit_dropWhile hd hb es
  · rfl

theorem audible_sublist (data es : List Emission) : (audible data es).Sublist es := by
  unfold audible
  split
  · exact List.dropWhile_sublist _
  · exact List.Sublist.refl _

theorem audible_nonNeg {data es : List Emission} (hn : NonNeg es) :
    NonNeg (audible data es) := fun e he => hn e ((audible_sublist data es).subset he)

theorem audible_audible (b₀ : Sbuf) {es : List Emission} (hn : NonNeg es) :
    Audible b₀ (audible b₀.data es) := by
  unfold Audible
  by_cases hd : b₀.data = []
  · refine .inr fun e he => ?_
    have hne : 0 ≤ e.2 := audible_nonNeg hn e (List.mem_of_mem_head? he)
    rw [audible, if_pos hd] at he
    have hp := List.head?_dropWhile_not silent es
    rw [he] at hp
    obtain ⟨l, d⟩ := e
    cases l with
    | space => simp [silent] at hp
    | pulse =>
      have hd0 : d ≠ 0 := by simpa [silent] using hp
      have hd1 : 0 ≤ d := hne
      refine ⟨rfl, ?_⟩
      show 0 < d
      omega
  · exact .inl hd

/-- **What `send_code` or `send_repeat` leave**, whatever the buffer held. -/
theorem leaves_audible {b₀ : Sbuf} {es : List Emission} (hb : Settled b₀)
    (hcap : b₀.data.length ≤ WBUF_SIZE) (hn : NonNeg es) :
    Leaves b₀ (flushed (audible b₀.data es)) (openRun (audible b₀.data es) .space) 0
      (flushPulse (emit es b₀)) := by
  rw [emit_audible hb es]
  exact leaves_emit hb hcap (audible_nonNeg hn) (audible_audible _ hn)

/-- The signal of a raw code. -/
def rawSignalFrom : Nat → List Int → List Emission
  | _, [] => []
  | i, s :: signals => (rawLevel i, s) :: rawSignalFrom (i + 1) signals

def rawSignal (signals : List Int) : List Emission := rawSignalFrom 0 signals

@[simp] theorem length_rawSignalFrom (i : Nat) (signals : List Int) :
    (rawSignalFrom i signals).length = signals.length := by
  induction signals generalizing i with
  | nil => rfl
  | cons s signals ih => rw [rawSignalFrom, List.length_cons, ih, List.length_cons]

theorem tooLong_sendSignalsFrom {i : Nat} {signals : List Int} {b : Sbuf} (h : b.tooLong = true) :
    (sendSignalsFrom i signals b).tooLong = true := by
  induction signals generalizing i b with
  | nil => exact h
  | cons s signals ih =>
    refine ih ?_
    unfold addSendBuffer
    split <;> simp [h]

theorem leaves_sendSignalsFrom {b₀ : Sbuf} (hb : Settled b₀) (hcap : b₀.data.length ≤ WBUF_SIZE)
    (i : Nat) (signals : List Int) :
    Leaves b₀ (rawSignalFrom i signals) 0 0 (sendSignalsFrom i signals b₀) := by
  induction signals generalizing i b₀ with
  | nil =>
    refine ⟨fun _ => ?_, fun hlt => ?_⟩
    · exact ⟨by simp [rawSignalFrom, sendSignalsFrom], hb.pendingp, hb.pendings,
        by simp [rawSignalFrom, sendSignalsFrom], hb.tooLong⟩
    · rw [rawSignalFrom, List.length_nil] at hlt
      omega
  | cons s signals ih =>
    rw [sendSignalsFrom, rawSignalFrom]
    by_cases hlt : b₀.data.length < WBUF_SIZE
    · rw [addSendBuffer_of_lt _ _ hlt]
      obtain ⟨h1, h2⟩ := @ih { b₀ with sum := b₀.sum + s, data := b₀.data ++ [(rawLevel i, s)] }
        ⟨hb.pendingp, hb.pendings, hb.tooLong⟩ (by simp; omega) (i + 1)
      simp only [List.length_append, List.length_singleton] at h1 h2
      refine ⟨fun hle => ?_, fun hgt => ?_⟩
      · rw [List.length_cons] at hle
        have h := h1 (by omega)
        exact ⟨by simp [h.data], h.pendingp, h.pendings, by simp [h.sum, Int.add_assoc], h.tooLong⟩
      · rw [List.length_cons] at hgt
        exact h2 (by omega)
    · refine ⟨fun hle => ?_, fun _ => ?_⟩
      · rw [List.length_cons] at hle
        omega
      · exact tooLong_sendSignalsFrom (addSendBuffer_tooLong _ _ hlt)

theorem Leaves.flushPulse {b₀ b : Sbuf} {F : List Emission} {h cut : Int}
    (hl : Leaves b₀ F h cut b) (hb : b.pendingp = 0) : Leaves b₀ F h cut (flushPulse b) := by
  rw [WinLirc.flushPulse, if_neg (by omega)]
  exact hl

/-- What the encoder takes off `sum` changes nothing else. -/
theorem flushPulse_cut (b : Sbuf) (c : Int) :
    flushPulse { b with sum := b.sum - c } =
      { flushPulse b with sum := (flushPulse b).sum - c } := by
  have h (x : Int) : b.sum - c + x = b.sum + x - c := by omega
  unfold flushPulse addSendBuffer Sbuf.wptr
  split_ifs <;> simp [h]

theorem Leaves.cut {b₀ b : Sbuf} {F : List Emission} {h c : Int} (hl : Leaves b₀ F h 0 b) :
    Leaves b₀ F h c { b with sum := b.sum - c } := by
  refine ⟨fun hle => ?_, hl.overflows⟩
  obtain ⟨h1, h2, h3, h4, h5⟩ := hl.fits hle
  refine ⟨h1, h2, h3, ?_, h5⟩
  show b.sum - c = _
  omega

theorem pendingp_sendSignalsFrom (i : Nat) (signals : List Int) (b : Sbuf) :
    (sendSignalsFrom i signals b).pendingp = b.pendingp := by
  induction signals generalizing i b with
  | nil => rfl
  | cons s signals ih =>
    rw [sendSignalsFrom, ih]
    unfold addSendBuffer
    split <;> rfl

/-- **What `send_signals` leaves.** -/
theorem leaves_sendSignals {b₀ : Sbuf} (hb : Settled b₀) (hcap : b₀.data.length ≤ WBUF_SIZE)
    (signals : List Int) :
    Leaves b₀ (rawSignal signals) 0 0 (flushPulse (sendSignals signals b₀)) := by
  refine (leaves_sendSignalsFrom hb hcap 0 signals).flushPulse ?_
  rw [pendingp_sendSignalsFrom, hb.pendingp]

/-! ## 4. The gap -/

theorem length_dropSpace (data : List Emission) :
    (dropSpace data).length = if data.length > 0 ∧ data.length % 2 = 0 then data.length - 1
      else data.length := by
  unfold dropSpace
  split <;> simp

theorem dropSpace_eq_nil {data : List Emission} : dropSpace data = [] ↔ data = [] := by
  rw [← List.length_eq_zero_iff, ← List.length_eq_zero_iff, length_dropSpace]
  split <;> omega

/-- The entries once the gap is written: `data` those in front of it, `h` the
    space that was pending. -/
def closeFrame (data : List Emission) (h g : Int) : List Emission :=
  if data = [] then [] else dropSpace data ++ [(.space, h + g)]

theorem length_closeFrame (data : List Emission) (h g : Int) :
    (closeFrame data h g).length = data.length + data.length % 2 := by
  unfold closeFrame
  split
  · rename_i hd
    simp [hd]
  · rename_i hd
    have hpos := List.length_pos_iff.mpr hd
    rw [List.length_append, length_dropSpace, List.length_singleton]
    split <;> omega

/-- **The end of a frame**: with its gap in the buffer nothing is pending. -/
theorem flush_gap {b₀ b : Sbuf} {F : List Emission} {h g cut : Int} (hF : Flushed b₀ F h cut b)
    (hfit : b₀.data.length + F.length ≤ WBUF_SIZE) (hg : 0 < g) (hh : 0 ≤ h)
    (he : b₀.data ++ F = [] → h = 0) :
    let b' := flushSendBuffer (sendSpace g { b with data := dropSpace b.data })
    b'.data = closeFrame (b₀.data ++ F) h g ∧ Settled b' := by
  obtain ⟨data, tl, bi, pp, ps, sum⟩ := b
  obtain ⟨rfl, rfl, rfl, -, rfl⟩ := hF
  replace hh : 0 ≤ ps := hh
  unfold closeFrame
  by_cases hd : b₀.data ++ F = []
  · have hp : ps = 0 := he hd
    subst hp
    simp only [hd, if_true]
    exact ⟨rfl, rfl, rfl, rfl⟩
  · have hpos := List.length_pos_iff.mpr hd
    have hlen := length_dropSpace (b₀.data ++ F)
    have hodd : (dropSpace (b₀.data ++ F)).length < WBUF_SIZE := by
      unfold WBUF_SIZE at *
      rw [List.length_append] at hpos hlen
      split at hlen <;> omega
    have hne : dropSpace (b₀.data ++ F) ≠ [] := mt dropSpace_eq_nil.mp hd
    rw [if_neg hd]
    by_cases hp : 0 < ps
    · have hpg : 0 < ps + g := by omega
      simp [sendSpace, Sbuf.wptr, hne, hp, flushSendBuffer, hpg, addSendBuffer, hodd]
      exact ⟨rfl, rfl, rfl⟩
    · have hp0 : ps = 0 := by omega
      subst hp0
      simp [sendSpace, Sbuf.wptr, hne, flushSendBuffer, hg, addSendBuffer, hodd]
      exact ⟨rfl, rfl, rfl⟩

/-- An empty buffer stays empty only under a frame without a pulse. -/
theorem audible_eq_nil_of_flushed (b₀ : Sbuf) {es : List Emission} (hn : NonNeg es)
    (h : b₀.data ++ flushed (audible b₀.data es) = []) : audible b₀.data es = [] := by
  obtain ⟨hd, hf⟩ := List.append_eq_nil_iff.mp h
  have ha := audible_audible b₀ hn
  have hna := @audible_nonNeg b₀.data es hn
  generalize audible b₀.data es = s at *
  cases s with
  | nil => rfl
  | cons e s =>
    exfalso
    rcases ha with ha | ha
    · exact ha hd
    · obtain ⟨l, d⟩ := e
      obtain ⟨rfl, hd0⟩ : l = .pulse ∧ 0 < d := ha (l, d) rfl
      obtain ⟨y, v, hc, hy⟩ := coalesce_first (l := .pulse) (d := d)
        (fun f hf => hna f (List.mem_cons_of_mem _ hf))
      have hy0 : 0 < y := by omega
      rw [flushed] at hf
      cases v with
      | nil =>
        have hc' : coalesce ((Level.pulse, d) :: s) = [] ++ [(.pulse, y)] := hc
        rw [openRun_of_snoc _ hc', if_pos rfl, if_pos hy0] at hf
        simp at hf
      | cons f v =>
        rw [closed, hc] at hf
        simp [hy0] at hf

end WinLirc
