/-
  File:      WinLirc/Cursor.lean
  Subject:   The receive buffer as a place on the samples.

  What `expectpulse` and `expectspace` answer depends on the samples, on the
  place among them and on what is deferred there, not on how far the buffer
  has recorded them.

  * `Cursor` is a place with what is deferred, `Cursor.hear` an expected level
    there; it ends in a `Sight`: no sample, another level, or this one.
  * `At w c b`: buffer `b` is at `c` of the samples `w`. A read goes on
    (`At.read`) or finds nothing (`At.silent`), `unget_rec_buffer` goes back
    over what was read (`At.back`).
  * `Sight.Shows`: an answer of the source is what the samples show. It holds
    for every helper (`At.sync`, `At.hear`, `At.hearIf`).
-/
import WinLirc.Receive
import WinLirc.SendBuffer

namespace WinLirc

/-! ## 1. A place on the samples -/

/-- The time of a sample as a pulse or as a space; 0 if it is none. -/
def levelTime (l : Level) (data : Int) : Int :=
  match l with
  | .pulse => if isPulse data then maskPulse data else 0
  | .space => if isSpace data then data else 0

/-- `time` stands for `ex`, behind the part `pending` that was deferred. -/
def timeFits (remote : IrRemote) (pending ex time : Int) : Bool :=
  if time = 0 then false
  else if pending > 0 then decide (pending ≤ time) && expect remote (time - pending) ex
  else expect remote time ex

theorem Level.other_other (l : Level) : l.other.other = l := by
  cases l with
  | pulse => rfl
  | space => rfl

structure Cursor where
  pos : Nat
  pendingp : Int
  pendings : Int
  deriving DecidableEq, Repr

/-- What the samples show of a level: nothing is there, another level is (`c`
    is the place behind it), or this one. -/
inductive Sight where
  | nothing
  | refused (c : Cursor)
  | taken (c : Cursor)
  deriving DecidableEq, Repr

namespace Sight

def andThen (h : Sight) (f : Cursor → Sight) : Sight :=
  match h with
  | .taken c => f c
  | h => h

end Sight

namespace Cursor

def pending (l : Level) (c : Cursor) : Int :=
  match l with
  | .pulse => c.pendingp
  | .space => c.pendings

def defer (l : Level) (x : Int) (c : Cursor) : Cursor :=
  match l with
  | .pulse => { c with pendingp := x }
  | .space => { c with pendings := x }

def next (c : Cursor) : Cursor := { c with pos := c.pos + 1 }

def back (count : Nat) (c : Cursor) : Cursor := { c with pos := c.pos - count }

/-- `sync_pending_pulse` and `sync_pending_space`; `t` are the samples. -/
def sync (remote : IrRemote) (t : Nat → Int) (l : Level) (c : Cursor) : Sight :=
  if c.pending l > 0 then
    if t c.pos = 0 then .nothing
    else if timeFits remote 0 (c.pending l) (levelTime l (t c.pos)) then .taken (c.next.defer l 0)
    else .refused c.next
  else .taken c

/-- The level itself, when nothing of the other one is deferred. -/
def read (remote : IrRemote) (t : Nat → Int) (l : Level) (ex : Int) (c : Cursor) : Sight :=
  if t c.pos = 0 then .nothing
  else if timeFits remote (c.pending l) ex (levelTime l (t c.pos)) then
    .taken (if c.pending l > 0 then c.next.defer l 0 else c.next)
  else .refused c.next

/-- `expectpulse` and `expectspace`. -/
def hear (remote : IrRemote) (t : Nat → Int) (l : Level) (ex : Int) (c : Cursor) : Sight :=
  (c.sync remote t l.other).andThen (read remote t l ex)

/-- A level with a time of its own. -/
def hearIf (remote : IrRemote) (t : Nat → Int) (l : Level) (time ex : Int) (c : Cursor) : Sight :=
  if time > 0 then c.hear remote t l ex else .taken c

end Cursor

/-! ## 2. What a level reads -/

section Place

variable {remote : IrRemote} {t : Nat → Int} {l : Level} {ex : Int} {c c' : Cursor}

theorem Cursor.sync_done (h : c.pending l ≤ 0) : c.sync remote t l = .taken c :=
  if_neg (Int.not_lt.mpr h)

theorem Cursor.pending_next (l : Level) (c : Cursor) : c.next.pending l = c.pending l := by
  cases l with
  | pulse => rfl
  | space => rfl

theorem Cursor.back_two (h : c.back 1 = c'.next) : c.back 2 = c' ∧ 2 ≤ c.pos := by
  obtain ⟨pos, pp, ps⟩ := c
  obtain ⟨pos', pp', ps'⟩ := c'
  obtain ⟨hpos, rfl, rfl⟩ := Cursor.mk.inj h
  have hlt : 2 ≤ pos := by
    dsimp only at hpos
    omega
  refine ⟨?_, hlt⟩
  unfold back
  dsimp only at hpos ⊢
  rw [show pos - 2 = pos' by omega]

/-- **What a deferred level leaves**: it is deferred no more, and the other one
    as it was. -/
theorem Cursor.sync_taken (h : c.sync remote t l = .taken c') :
    c'.pending l ≤ 0 ∧ c'.pending l.other = c.pending l.other ∧ (c' = c ∨ c.pos < c'.pos) := by
  unfold sync at h
  split at h
  · split at h
    · exact nomatch h
    · split at h
      · obtain rfl := Sight.taken.inj h
        cases l with
        | pulse => exact ⟨Int.le_refl _, rfl, .inr (Nat.lt_succ_self _)⟩
        | space => exact ⟨Int.le_refl _, rfl, .inr (Nat.lt_succ_self _)⟩
      · exact nomatch h
  · next hp =>
    obtain rfl := Sight.taken.inj h
    exact ⟨Int.not_lt.mp hp, rfl, .inl rfl⟩

/-- Behind the deferred level the same is heard. -/
theorem Cursor.hear_sync (h : c.sync remote t l.other = .taken c') :
    c'.hear remote t l ex = c.hear remote t l ex := by
  unfold hear
  rw [h, sync_done (sync_taken h).1]

/-- **A level that is refused** has been read last, and before it a deferred one
    or none. -/
theorem Cursor.hear_refused (h : c.hear remote t l ex = .refused c') :
    c.pos < c'.pos ∧ (c'.back 1 = c ∨ c.sync remote t l.other = .taken (c'.back 1)) := by
  unfold hear at h
  cases hs : c.sync remote t l.other with
  | nothing =>
    rw [hs] at h
    exact nomatch h
  | refused c₁ =>
    rw [hs] at h
    obtain rfl := Sight.refused.inj h
    have hc : c₁ = c.next := by
      unfold sync at hs
      split at hs
      · split at hs
        · exact nomatch hs
        · split at hs
          · exact nomatch hs
          · exact (Sight.refused.inj hs).symm
      · exact nomatch hs
    rw [hc]
    exact ⟨Nat.lt_succ_self _, .inl rfl⟩
  | taken c₁ =>
    rw [hs] at h
    have hpos : c.pos ≤ c₁.pos := by
      rcases (sync_taken hs).2.2 with rfl | hlt
      · exact Nat.le_refl _
      · exact Nat.le_of_lt hlt
    change c₁.read remote t l ex = _ at h
    unfold read at h
    split at h
    · exact nomatch h
    · split at h
      · exact nomatch h
      · obtain rfl := Sight.refused.inj h
        exact ⟨Nat.lt_succ_of_le hpos, .inr rfl⟩

/-- **A level that is taken** was read last, and before it a deferred one or
    none. -/
theorem Cursor.hear_taken (h : c.hear remote t l ex = .taken c') :
    ∃ c₁, c.sync remote t l.other = .taken c₁ ∧
      c' = if c₁.pending l > 0 then c₁.next.defer l 0 else c₁.next := by
  unfold hear at h
  cases hs : c.sync remote t l.other with
  | nothing =>
    rw [hs] at h
    exact nomatch h
  | refused c₁ =>
    rw [hs] at h
    exact nomatch h
  | taken c₁ =>
    rw [hs] at h
    refine ⟨c₁, rfl, ?_⟩
    change c₁.read remote t l ex = _ at h
    unfold read at h
    split at h
    · exact nomatch h
    · split at h
      · exact (Sight.taken.inj h).symm
      · exact nomatch h

theorem Cursor.hearIf_pos {time : Int} (h : time > 0) (l : Level) (ex : Int) (c : Cursor) :
    c.hearIf remote t l time ex = c.hear remote t l ex := if_pos h

theorem Cursor.hearIf_refused {l : Level} {time ex : Int}
    (h : c.hearIf remote t l time ex = .refused c') :
    time > 0 ∧ c.hear remote t l ex = .refused c' := by
  unfold hearIf at h
  split at h
  · next hp => exact ⟨hp, h⟩
  · exact nomatch h

end Place

/-! ## 3. The buffer at a place -/

/-- What a buffer reads: the samples, how many of them fit, and the sum before
    the first one. -/
structure Recording where
  samples : List Int
  limit : Nat
  base : Int
  deriving DecidableEq, Repr

/-- The sample at position `i`; 0 if there is none to be read. -/
def Recording.sample (w : Recording) (i : Nat) : Int :=
  if i < w.limit then w.samples.getD i 0 else 0

/-- The time of the first `n` samples. -/
def timeOf (samples : List Int) (n : Nat) : Int := ((samples.take n).map maskPulse).sum

/-- **`b` is at `c`** of the samples `w`. -/
structure At (w : Recording) (c : Cursor) (b : Rbuf) : Prop where
  samples : b.data ++ b.input = w.samples
  limit : max b.wptr RBUF_SIZE = w.limit
  pos : b.rptr = c.pos
  recorded : c.pos ≤ b.wptr
  pendingp : b.pendingp = c.pendingp
  pendings : b.pendings = c.pendings
  sum : b.sum = w.base + timeOf w.samples c.pos

theorem timeOf_succ {samples : List Int} {n : Nat} (h : n < samples.length) :
    timeOf samples (n + 1) = timeOf samples n + maskPulse (samples.getD n 0) := by
  unfold timeOf
  rw [List.take_succ_eq_append_getElem h, List.map_append, List.sum_append,
    List.getD_eq_getElem _ _ h]
  simp

section Buffer

variable {w : Recording} {c : Cursor} {b : Rbuf}

/-- What is recorded at position `i` is the sample there. -/
theorem At.sample (h : At w c b) {i : Nat} (hi : i < b.wptr) :
    b.sample i = w.samples.getD i 0 ∧ i < w.samples.length ∧ i < w.limit := by
  unfold Rbuf.sample
  rw [if_pos (Int.natCast_nonneg i), Int.toNat_natCast, ← h.samples, ← h.limit]
  refine ⟨?_, ?_, ?_⟩
  · rw [List.getD_append _ _ _ _ hi]
  · rw [List.length_append]
    exact Nat.lt_add_right _ hi
  · exact Nat.lt_of_lt_of_le hi (Nat.le_max_left _ _)

/-- The sample at the read position. -/
theorem At.here (h : At w c b) (hr : b.rptr < b.wptr) :
    c.pos < b.wptr ∧ b.sample b.rptr = w.sample c.pos := by
  rw [h.pos] at hr ⊢
  have hlt : c.pos < b.wptr := Int.ofNat_lt.mp hr
  obtain ⟨hval, -, hlim⟩ := h.sample hlt
  rw [hval, Recording.sample, if_pos hlim]
  exact ⟨hlt, rfl⟩

/-- Behind what is recorded comes the sample the hardware delivers next. -/
theorem At.coming (h : At w c b) (hr : ¬ b.rptr < b.wptr) :
    c.pos = b.wptr ∧
      w.sample c.pos = if b.wptr < RBUF_SIZE then b.input.headD 0 else 0 := by
  have hpos : c.pos = b.wptr := by
    have := h.pos
    have := h.recorded
    omega
  refine ⟨hpos, ?_⟩
  unfold Recording.sample
  rw [← h.limit, ← h.samples, hpos]
  by_cases hroom : b.wptr < RBUF_SIZE
  · rw [if_pos hroom, if_pos (Nat.lt_of_lt_of_le hroom (Nat.le_max_right _ _)), Rbuf.wptr,
      List.getD_append_right _ _ _ _ (Nat.le_refl _), Nat.sub_self]
    cases b.input with
    | nil => rfl
    | cons x rest => rfl
  · rw [if_neg hroom, Nat.max_eq_left (Nat.not_lt.mp hroom), if_neg (Nat.lt_irrefl _)]

/-- The place behind the sample that was read. -/
theorem At.step (h : At w c b) {b' : Rbuf} (hx : w.sample c.pos ≠ 0)
    (hsamples : b'.data ++ b'.input = w.samples) (hlimit : max b'.wptr RBUF_SIZE = w.limit)
    (hrecorded : c.pos < b'.wptr)
    (hrest : b'.rptr = b.rptr + 1 ∧ b'.pendingp = b.pendingp ∧ b'.pendings = b.pendings)
    (hsum : b'.sum = b.sum + maskPulse (w.sample c.pos)) : At w c.next b' := by
  obtain ⟨hpos, hpp, hps⟩ := hrest
  have hlen : c.pos < w.samples.length := by
    rw [← hsamples, List.length_append]
    exact Nat.lt_add_right _ hrecorded
  have hval : w.sample c.pos = w.samples.getD c.pos 0 := by
    unfold Recording.sample at hx ⊢
    split at hx
    · next hlt => rw [if_pos hlt]
    · exact absurd rfl hx
  refine ⟨hsamples, hlimit, ?_, hrecorded, hpp.trans h.pendingp, hps.trans h.pendings, ?_⟩
  · rw [hpos, h.pos]
    rfl
  · rw [hsum, h.sum, hval]
    show _ = w.base + timeOf w.samples (c.pos + 1)
    rw [timeOf_succ hlen, Int.add_assoc]

/-- **A read** goes on by one sample. -/
theorem At.read (h : At w c b) (hx : w.sample c.pos ≠ 0) (m : Int) :
    (getNextRecBuffer m b).1 = w.sample c.pos ∧ At w c.next (getNextRecBuffer m b).2 := by
  unfold getNextRecBuffer
  by_cases hr : b.rptr < b.wptr
  · rw [if_pos hr]
    obtain ⟨hlt, hval⟩ := h.here hr
    exact ⟨hval, h.step hx h.samples h.limit hlt ⟨rfl, rfl, rfl⟩ (by rw [hval])⟩
  · obtain ⟨hpos, hval⟩ := h.coming hr
    rw [if_neg hr]
    rw [hval] at hx
    split at hx
    · next hroom =>
      rw [if_pos hroom] at hval ⊢
      have hsamples := h.samples
      have hlimit := h.limit
      cases hin : b.input with
      | nil =>
        rw [hin] at hx
        exact absurd rfl hx
      | cons x rest =>
        rw [hin] at hx hval hsamples
        change w.sample c.pos = x at hval
        have hread : Rbuf.sample { b with data := b.data ++ [x], input := rest } b.rptr = x := by
          unfold Rbuf.sample
          rw [h.pos, hpos, if_pos (Int.natCast_nonneg _), Int.toNat_natCast]
          simp [Rbuf.wptr]
        dsimp only
        rw [if_neg (show x ≠ 0 from hx), hread]
        refine ⟨hval.symm, h.step (by rw [hval]; exact hx) ?_ ?_ ?_ ⟨rfl, rfl, rfl⟩ (by rw [hval])⟩
        · rw [← hsamples]
          simp
        · rw [← hlimit]
          unfold Rbuf.wptr at hroom ⊢
          simp only [List.length_append, List.length_cons, List.length_nil]
          omega
        · rw [hpos]
          unfold Rbuf.wptr
          simp
    · exact absurd rfl hx

/-- Where no sample is to be read, a read answers 0. -/
theorem At.silent (h : At w c b) (hx : w.sample c.pos = 0) (m : Int) :
    (getNextRecBuffer m b).1 = 0 := by
  unfold getNextRecBuffer
  by_cases hr : b.rptr < b.wptr
  · rw [if_pos hr]
    exact (h.here hr).2.trans hx
  · obtain ⟨hpos, hval⟩ := h.coming hr
    rw [if_neg hr]
    split
    · next hroom =>
      rw [if_pos hroom, hx] at hval
      cases hin : b.input with
      | nil => rfl
      | cons x rest =>
        rw [hin] at hval
        dsimp only
        rw [if_pos (show x = 0 from hval.symm)]
    · rfl

theorem At.timeOf_read (h : At w c b) {i : Nat} (hi : i < c.pos) :
    timeOf w.samples (i + 1) = timeOf w.samples i + maskPulse (b.sample i) := by
  obtain ⟨hval, hlen, -⟩ := h.sample (Nat.lt_of_lt_of_le hi h.recorded)
  rw [timeOf_succ hlen, hval]

/-- **Going back** over samples that were read. -/
theorem At.back (h : At w c b) {count : Nat} (hcount : count = 1 ∨ count = 2)
    (hle : count ≤ c.pos) : At w (c.back count) (ungetRecBuffer count b) := by
  obtain ⟨pos, pp, ps⟩ := c
  obtain ⟨i, rfl⟩ := Nat.exists_eq_add_of_le' hle
  have hrptr : b.rptr - (count : Int) = i := by
    have := h.pos
    dsimp only at this
    omega
  have hback : Cursor.back count ⟨i + count, pp, ps⟩ = ⟨i, pp, ps⟩ := by
    unfold Cursor.back
    rw [Nat.add_sub_cancel]
  have hsum := h.sum
  unfold ungetRecBuffer
  rw [if_pos hcount, hrptr, hback]
  have hrecorded : i ≤ b.wptr := Nat.le_trans (Nat.le_add_right _ _) h.recorded
  rcases hcount with rfl | rfl
  · rw [h.timeOf_read (Nat.lt_succ_self i)] at hsum
    refine ⟨h.samples, h.limit, rfl, hrecorded, h.pendingp, h.pendings, ?_⟩
    change b.sum - maskPulse (b.sample i) = w.base + timeOf w.samples i
    omega
  · have htwo := h.timeOf_read (i := i + 1) (Nat.lt_succ_self _)
    rw [h.timeOf_read (i := i) (Nat.lt_add_of_pos_right Nat.two_pos)] at htwo
    refine ⟨h.samples, h.limit, rfl, hrecorded, h.pendingp, h.pendings, ?_⟩
    change b.sum - maskPulse (b.sample i) - maskPulse (b.sample ((i : Int) + 1)) =
      w.base + timeOf w.samples i
    rw [htwo] at hsum
    push_cast at hsum
    omega

end Buffer

/-! ## 4. The source's helpers at a place -/

def setPending (l : Level) (x : Int) (b : Rbuf) : Rbuf :=
  match l with
  | .pulse => setPendingPulse x b
  | .space => setPendingSpace x b

def getNextLevel (l : Level) (maxusec : Int) (b : Rbuf) : Int × Rbuf :=
  match l with
  | .pulse => getNextPulse maxusec b
  | .space => getNextSpace maxusec b

def syncPending (l : Level) (remote : IrRemote) (b : Rbuf) : Bool × Rbuf :=
  match l with
  | .pulse => syncPendingPulse remote b
  | .space => syncPendingSpace remote b

def expectLevel (l : Level) (remote : IrRemote) (exdelta : Int) (b : Rbuf) : Bool × Rbuf :=
  match l with
  | .pulse => expectpulse remote exdelta b
  | .space => expectspace remote exdelta b

/-- What is deferred of a level in the buffer. -/
def Rbuf.pending (l : Level) (b : Rbuf) : Int :=
  match l with
  | .pulse => b.pendingp
  | .space => b.pendings

theorem getNextLevel_eq (l : Level) (m : Int) (b : Rbuf) :
    getNextLevel l m b = (levelTime l (getNextRecBuffer m b).1, (getNextRecBuffer m b).2) := by
  cases l with
  | pulse =>
    unfold getNextLevel getNextPulse levelTime
    generalize getNextRecBuffer m b = x
    obtain ⟨data, b'⟩ := x
    dsimp only
    split
    · next h0 =>
      rw [h0]
      rfl
    · cases isPulse data with
      | true => rfl
      | false => rfl
  | space =>
    unfold getNextLevel getNextSpace levelTime
    generalize getNextRecBuffer m b = x
    obtain ⟨data, b'⟩ := x
    dsimp only
    split
    · next h0 =>
      rw [h0]
      rfl
    · cases isSpace data with
      | true => rfl
      | false => rfl

/-- A deferred level that does not fit leads to the same end as none. -/
theorem timeFits_sync (remote : IrRemote) (ex time : Int) (b b' : Rbuf) :
    (if time = 0 then (false, b) else if !expect remote time ex then (false, b) else (true, b')) =
      if timeFits remote 0 ex time then (true, b') else (false, b) := by
  unfold timeFits
  by_cases h0 : time = 0
  · rw [if_pos h0, if_pos h0, if_neg Bool.false_ne_true]
  · rw [if_neg h0, if_neg h0, if_neg (Int.lt_irrefl 0)]
    cases expect remote time ex with
    | true => rfl
    | false => rfl

/-- So does a level that does not fit, with a part deferred or none. -/
theorem timeFits_level (remote : IrRemote) (pending ex time : Int) (b b' : Rbuf) :
    (if time = 0 then (false, b)
      else if pending > 0 then
        if pending > time then (false, b)
        else if !expect remote (time - pending) ex then (false, b)
        else (true, b')
      else (expect remote time ex, b)) =
    if timeFits remote pending ex time then (true, if pending > 0 then b' else b)
    else (false, b) := by
  unfold timeFits
  by_cases h0 : time = 0
  · rw [if_pos h0, if_pos h0, if_neg Bool.false_ne_true]
  · rw [if_neg h0, if_neg h0]
    by_cases hp : pending > 0
    · rw [if_pos hp, if_pos hp, if_pos hp]
      by_cases hle : pending > time
      · rw [if_pos hle, decide_eq_false (Int.not_le.mpr hle), Bool.false_and,
          if_neg Bool.false_ne_true]
      · rw [if_neg hle, decide_eq_true (Int.not_lt.mp hle), Bool.true_and]
        cases expect remote (time - pending) ex with
        | true => rfl
        | false => rfl
    · rw [if_neg hp, if_neg hp, if_neg hp]
      cases expect remote time ex with
      | true => rfl
      | false => rfl

theorem syncPending_eq (l : Level) (remote : IrRemote) (b : Rbuf) :
    syncPending l remote b =
      if b.pending l > 0 then
        let r := getNextLevel l (b.pending l) b
        if timeFits remote 0 (r.2.pending l) r.1 then (true, setPending l 0 r.2) else (false, r.2)
      else (true, b) := by
  dsimp only
  rw [← timeFits_sync]
  cases l with
  | pulse => rfl
  | space => rfl

theorem expectLevel_eq (l : Level) (remote : IrRemote) (ex : Int) (b : Rbuf) :
    expectLevel l remote ex b =
      match syncPending l.other remote b with
      | (false, b) => (false, b)
      | (true, b) =>
        let r := getNextLevel l (b.pending l + ex) b
        if timeFits remote (r.2.pending l) ex r.1 then
          (true, if r.2.pending l > 0 then setPending l 0 r.2 else r.2)
        else (false, r.2) := by
  simp only [← timeFits_level]
  cases l with
  | pulse => rfl
  | space => rfl

/-- **The source's answer** `r` is what the samples show. -/
def Sight.Shows (w : Recording) (h : Sight) (r : Bool × Rbuf) : Prop :=
  match h with
  | .nothing => r.1 = false
  | .refused c => r.1 = false ∧ At w c r.2
  | .taken c => r.1 = true ∧ At w c r.2

theorem At.shows {w : Recording} {c : Cursor} {b : Rbuf} (h : At w c b) :
    (Sight.taken c).Shows w (true, b) := ⟨rfl, h⟩

section Helpers

variable {w : Recording} {c : Cursor} {b : Rbuf} {remote : IrRemote}

theorem At.pending (h : At w c b) (l : Level) : b.pending l = c.pending l := by
  cases l with
  | pulse => exact h.pendingp
  | space => exact h.pendings

theorem At.defer (h : At w c b) (l : Level) (x : Int) : At w (c.defer l x) (setPending l x b) := by
  cases l with
  | pulse => exact { h with pendingp := rfl }
  | space => exact { h with pendings := rfl }

/-- **The next level**: its time, and the place behind it. -/
theorem At.getNextLevel (h : At w c b) (l : Level) (m : Int) :
    (getNextLevel l m b).1 = levelTime l (w.sample c.pos) ∧
      (w.sample c.pos ≠ 0 → At w c.next (getNextLevel l m b).2) := by
  rw [getNextLevel_eq]
  by_cases hx : w.sample c.pos = 0
  · rw [hx]
    exact ⟨congrArg (levelTime l) (h.silent hx m), fun hne => absurd rfl hne⟩
  · obtain ⟨hval, hat⟩ := h.read hx m
    exact ⟨congrArg (levelTime l) hval, fun _ => hat⟩

theorem levelTime_zero (l : Level) : levelTime l 0 = 0 := by
  cases l with
  | pulse => rfl
  | space => rfl

theorem timeFits_zero (pending ex : Int) : timeFits remote pending ex 0 = false := rfl

theorem At.sync (h : At w c b) (remote : IrRemote) (l : Level) :
    (c.sync remote w.sample l).Shows w (syncPending l remote b) := by
  obtain ⟨htime, hnext⟩ := h.getNextLevel l (b.pending l)
  rw [syncPending_eq]
  unfold Cursor.sync
  rw [← h.pending l]
  split
  · next hp =>
    dsimp only
    rw [htime]
    split
    · next hx =>
      rw [hx, levelTime_zero, timeFits_zero, if_neg Bool.false_ne_true]
      rfl
    · next hx =>
      have hat := hnext hx
      rw [hat.pending l, Cursor.pending_next, h.pending l]
      split
      · exact ⟨rfl, hat.defer l 0⟩
      · exact ⟨rfl, hat⟩
  · exact ⟨rfl, h⟩

theorem At.hear (h : At w c b) (l : Level) (ex : Int) :
    (c.hear remote w.sample l ex).Shows w (expectLevel l remote ex b) := by
  have hsync := h.sync remote l.other
  rw [expectLevel_eq]
  unfold Cursor.hear
  generalize syncPending l.other remote b = r at hsync ⊢
  obtain ⟨ok, b'⟩ := r
  cases hs : c.sync remote w.sample l.other with
  | nothing =>
    rw [hs] at hsync
    cases hsync
    rfl
  | refused c' =>
    rw [hs] at hsync
    obtain ⟨rfl, hat⟩ := hsync
    exact ⟨rfl, hat⟩
  | taken c' =>
    rw [hs] at hsync
    obtain ⟨rfl, hat⟩ := hsync
    obtain ⟨htime, hnext⟩ := hat.getNextLevel l (b'.pending l + ex)
    show (c'.read remote w.sample l ex).Shows w _
    unfold Cursor.read
    dsimp only
    rw [htime]
    split
    · next hx =>
      rw [hx, levelTime_zero, timeFits_zero, if_neg Bool.false_ne_true]
      rfl
    · next hx =>
      have hat := hnext hx
      rw [hat.pending l, Cursor.pending_next]
      split
      · refine ⟨rfl, ?_⟩
        split
        · exact hat.defer l 0
        · exact hat
      · exact ⟨rfl, hat⟩

theorem At.hearIf (h : At w c b) (l : Level) (time ex : Int) :
    (c.hearIf remote w.sample l time ex).Shows w
      (if time > 0 then expectLevel l remote ex b else (true, b)) := by
  unfold Cursor.hearIf
  split
  · exact h.hear l ex
  · exact ⟨rfl, h⟩

end Helpers

end WinLirc
