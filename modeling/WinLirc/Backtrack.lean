/-
  File:      WinLirc/Backtrack.lean
  Subject:   How the bit loop of `get_data` takes a failed one back.

  Where `expectone` fails, the loop calls `expectzero`. In between `expectone`
  goes back by one sample if its first level failed, by two if its second one
  did. It may have read fewer (the samples were over) or more (a deferred level
  came first), and what was deferred and heard is not deferred again.

  * `Cursor.one` and `Cursor.zero` are the two on a place of the samples
    (`At.one`, `At.zero`).
  * `Cursor.takesBack`: a failed one takes back what it has read. Then a zero
    hears what it would have heard before the one (`Cursor.takenBack`).
  * `bitLoop_transparent`: so it is in every run of the loop whose turns all
    take back what they have read.
-/
import WinLirc.Cursor
import WinLirc.Biphase

namespace WinLirc

/-! ## 1. A one and a zero -/

/-- The factor of a biphase level: two for a double bit of RC6. -/
def rc6Factor (remote : IrRemote) (bit : Int) : Int := if rc6Bit remote bit then 2 else 1

namespace Sight

/-- A failed one goes back by `count` samples. -/
def back (count : Nat) : Sight → Sight
  | .refused c => .refused (c.back count)
  | h => h

/-- The level is there, or another one is, and `p` holds of the place behind it. -/
def takenOr (p : Cursor → Bool) : Sight → Bool
  | .nothing => false
  | .refused c => p c
  | .taken _ => true

end Sight

namespace Cursor

/-- `expectone`. -/
def one (remote : IrRemote) (t : Nat → Int) (bit : Int) (c : Cursor) : Sight :=
  if isBiphase remote then
    ((c.hearIf remote t .space remote.sone (rc6Factor remote bit * remote.sone)).back 1).andThen
      fun c => .taken (c.defer .pulse (rc6Factor remote bit * remote.pone))
  else if isSpaceFirst remote then
    ((c.hearIf remote t .space remote.sone remote.sone).back 1).andThen
      fun c => (c.hearIf remote t .pulse remote.pone remote.pone).back 2
  else
    ((c.hearIf remote t .pulse remote.pone remote.pone).back 1).andThen
      fun c =>
        if remote.ptrail > 0 then (c.hearIf remote t .space remote.sone remote.sone).back 2
        else .taken (c.defer .space remote.sone)

/-- `expectzero`, up to the place where a failed one is left. -/
def zero (remote : IrRemote) (t : Nat → Int) (bit : Int) (c : Cursor) : Sight :=
  if isBiphase remote then
    (c.hear remote t .pulse (rc6Factor remote bit * remote.pzero)).andThen
      fun c => .taken (c.defer .space (rc6Factor remote bit * remote.szero))
  else if isSpaceFirst remote then
    (c.hearIf remote t .space remote.szero remote.szero).andThen
      fun c => c.hearIf remote t .pulse remote.pzero remote.pzero
  else
    (c.hear remote t .pulse remote.pzero).andThen
      fun c =>
        if remote.ptrail > 0 then c.hear remote t .space remote.szero
        else .taken (c.defer .space remote.szero)

/-- **What a failed one takes back is what it has read**: its reads all find a
    sample, and

    * biphase: it is the first one that failed;
    * space first: if the space failed, it is the first one or a zero begins with
      the same deferred pulse, and if the pulse behind it failed, no space was
      deferred, and a deferred pulse is one a zero begins with;
    * else: if the space behind the pulse failed, no pulse was deferred.

    Where the first level of a one takes no time, its second one is there. -/
def takesBack (remote : IrRemote) (t : Nat → Int) (bit : Int) (c : Cursor) : Bool :=
  if isBiphase remote then
    (c.hearIf remote t .space remote.sone (rc6Factor remote bit * remote.sone)).takenOr
      fun c' => c'.pos == c.pos + 1
  else if isSpaceFirst remote then
    match c.hearIf remote t .space remote.sone remote.sone with
    | .nothing => false
    | .refused c' => decide (remote.szero > 0) || c'.pos == c.pos + 1
    | .taken c' =>
      (c'.hearIf remote t .pulse remote.pone remote.pone).takenOr fun _ =>
        decide (remote.sone > 0) && decide (c.pendings ≤ 0) &&
          (decide (remote.szero > 0) || decide (c.pendingp ≤ 0))
  else
    match c.hearIf remote t .pulse remote.pone remote.pone with
    | .nothing => false
    | .refused _ => true
    | .taken c' =>
      if remote.ptrail > 0 then
        (c'.hearIf remote t .space remote.sone remote.sone).takenOr fun _ =>
          decide (remote.pone > 0) && decide (c.pendingp ≤ 0)
      else true

end Cursor

section Place

variable {remote : IrRemote} {t : Nat → Int} {bit : Int} {c c' : Cursor}

/-- A zero whose first level is a pulse begins with the deferred space. -/
theorem Cursor.zero_sync_space (hf : isBiphase remote = true ∨ isSpaceFirst remote = false)
    (h : c.sync remote t .space = .taken c') : c'.zero remote t bit = c.zero remote t bit := by
  have hhear : ∀ ex, c'.hear remote t .pulse ex = c.hear remote t .pulse ex :=
    fun ex => hear_sync (l := .pulse) h
  unfold zero
  rw [hhear, hhear]
  rcases hf with hf | hf
  · rw [if_pos hf, if_pos hf]
  · rw [hf, if_neg Bool.false_ne_true, if_neg Bool.false_ne_true]

/-- A zero whose first level is a space begins with the deferred pulse. -/
theorem Cursor.zero_sync_pulse (hb : isBiphase remote = false) (hf : isSpaceFirst remote = true)
    (hs : remote.szero > 0) (h : c.sync remote t .pulse = .taken c') :
    c'.zero remote t bit = c.zero remote t bit := by
  have hhear : c'.hear remote t .space remote.szero = c.hear remote t .space remote.szero :=
    hear_sync (l := .space) h
  unfold zero
  rw [hb, hf, if_neg Bool.false_ne_true, if_neg Bool.false_ne_true, if_pos rfl, if_pos rfl,
    hearIf_pos hs, hearIf_pos hs, hhear]

/-- Where the first level fails, a zero goes on from what is taken back. -/
theorem Cursor.zero_first (bit : Int) {l : Level} {ex : Int} (h : c.hear remote t l ex = .refused c')
    (hz : c'.pos = c.pos + 1 ∨ ∀ c₁, c.sync remote t l.other = .taken c₁ →
      c₁.zero remote t bit = c.zero remote t bit) :
    (c'.back 1).zero remote t bit = c.zero remote t bit := by
  rcases (hear_refused h).2 with hc | hs
  · rw [hc]
  · rcases hz with hpos | hz
    · rcases (sync_taken hs).2.2 with hc | hlt
      · rw [hc]
      · have hback : (c'.back 1).pos = c'.pos - 1 := rfl
        omega
    · exact hz _ hs

/-- **Where the second level fails**, two samples are taken back: up to the one
    behind what was deferred. -/
theorem Cursor.second_back {l : Level} {ex ex' : Int} {c₂ : Cursor}
    (h : c.hear remote t l ex = .taken c') (hl : c.pending l ≤ 0)
    (h' : c'.hear remote t l.other ex' = .refused c₂) :
    c.sync remote t l.other = .taken (c₂.back 2) ∧ 2 ≤ c₂.pos := by
  obtain ⟨c₁, hs, hc'⟩ := hear_taken h
  obtain ⟨-, hpend, -⟩ := sync_taken hs
  rw [l.other_other] at hpend
  rw [if_neg (by omega)] at hc'
  subst hc'
  have hdone : c₁.next.pending l ≤ 0 := by
    rw [pending_next]
    omega
  obtain ⟨-, hback⟩ := hear_refused h'
  rw [l.other_other, sync_done hdone] at hback
  have hback : c₂.back 1 = c₁.next := hback.elim id fun h => (Sight.taken.inj h).symm
  obtain ⟨hc, hpos⟩ := back_two hback
  rw [hc]
  exact ⟨hs, hpos⟩

theorem Sight.takenOr_cases {p : Cursor → Bool} {h : Sight} (hp : h.takenOr p = true) :
    (∃ c, h = .taken c) ∨ ∃ c, h = .refused c ∧ p c = true := by
  cases h with
  | nothing => exact nomatch hp
  | refused c => exact .inr ⟨c, rfl, hp⟩
  | taken c => exact .inl ⟨c, rfl⟩

variable (remote t bit c) in
/-- The one is heard, or a zero hears what it would have heard before the one. -/
def Cursor.TakenBack : Prop :=
  (∃ c', c.one remote t bit = .taken c') ∨
    ∃ c', c.one remote t bit = .refused c' ∧ c'.zero remote t bit = c.zero remote t bit

/-- Where the pulse of a one fails behind its space. -/
theorem Cursor.takesBack_pulse (hb : isBiphase remote = false) (hf : isSpaceFirst remote = true)
    (h : c.takesBack remote t bit = true) {c₂ : Cursor}
    (hc : c.hearIf remote t .space remote.sone remote.sone = .taken c')
    (hc₂ : c'.hearIf remote t .pulse remote.pone remote.pone = .refused c₂) :
    c.sync remote t .pulse = .taken (c₂.back 2) ∧ 2 ≤ c₂.pos ∧
      (remote.szero > 0 ∨ c.pendingp ≤ 0) := by
  unfold takesBack at h
  rw [hb, hf, if_neg Bool.false_ne_true, if_pos rfl, hc] at h
  dsimp only at h
  rw [hc₂] at h
  change (_ && _ && _) = true at h
  simp only [Bool.and_eq_true, Bool.or_eq_true, decide_eq_true_iff] at h
  obtain ⟨⟨hs, hps⟩, hz⟩ := h
  rw [hearIf_pos hs] at hc
  obtain ⟨h₁, hpos⟩ := second_back hc hps (hearIf_refused hc₂).2
  exact ⟨h₁, hpos, hz⟩

/-- Where the space of a one fails behind its pulse. -/
theorem Cursor.takesBack_space (hb : isBiphase remote = false) (hf : isSpaceFirst remote = false)
    (hp : remote.ptrail > 0) (h : c.takesBack remote t bit = true) {c₂ : Cursor}
    (hc : c.hearIf remote t .pulse remote.pone remote.pone = .taken c')
    (hc₂ : c'.hearIf remote t .space remote.sone remote.sone = .refused c₂) :
    c.sync remote t .space = .taken (c₂.back 2) ∧ 2 ≤ c₂.pos := by
  unfold takesBack at h
  rw [hb, hf, if_neg Bool.false_ne_true, if_neg Bool.false_ne_true, hc] at h
  dsimp only at h
  rw [if_pos hp, hc₂] at h
  change (_ && _) = true at h
  rw [Bool.and_eq_true, decide_eq_true_iff, decide_eq_true_iff] at h
  rw [hearIf_pos h.1] at hc
  exact second_back hc h.2 (hearIf_refused hc₂).2

theorem Cursor.takenBack_biphase (hb : isBiphase remote = true)
    (h : c.takesBack remote t bit = true) : c.TakenBack remote t bit := by
  unfold takesBack at h
  unfold TakenBack one
  rw [if_pos hb] at h ⊢
  rcases Sight.takenOr_cases h with ⟨c', hc⟩ | ⟨c', hc, hpos⟩
  · rw [hc]
    exact .inl ⟨_, rfl⟩
  · have hz := zero_first bit (hearIf_refused hc).2 (.inl (beq_iff_eq.mp hpos))
    rw [hc]
    exact .inr ⟨c'.back 1, rfl, hz⟩

theorem Cursor.takenBack_spaceFirst (hb : isBiphase remote = false)
    (hf : isSpaceFirst remote = true) (h : c.takesBack remote t bit = true) :
    c.TakenBack remote t bit := by
  have ht := h
  have hsync : remote.szero > 0 → ∀ c₁, c.sync remote t .pulse = .taken c₁ →
      c₁.zero remote t bit = c.zero remote t bit :=
    fun hs c₁ h₁ => zero_sync_pulse hb hf hs h₁
  unfold takesBack at h
  unfold TakenBack one
  rw [hb, hf, if_neg Bool.false_ne_true, if_pos rfl] at h
  rw [hb, hf, if_neg Bool.false_ne_true, if_pos rfl]
  cases hc : c.hearIf remote t .space remote.sone remote.sone with
  | nothing =>
    rw [hc] at h
    exact nomatch h
  | refused c' =>
    rw [hc, Bool.or_eq_true, decide_eq_true_iff, beq_iff_eq] at h
    have hz := zero_first bit (hearIf_refused hc).2 (h.symm.imp id fun hs => hsync hs)
    exact .inr ⟨c'.back 1, rfl, hz⟩
  | taken c' =>
    rw [hc] at h
    rcases Sight.takenOr_cases h with ⟨c₂, hc₂⟩ | ⟨c₂, hc₂, -⟩
    · exact .inl ⟨c₂, congrArg (Sight.back 2) hc₂⟩
    · obtain ⟨h₁, -, hz⟩ := takesBack_pulse hb hf ht hc hc₂
      refine .inr ⟨c₂.back 2, congrArg (Sight.back 2) hc₂, ?_⟩
      rcases hz with hz | hpp
      · exact hsync hz _ h₁
      · rw [← Sight.taken.inj ((sync_done (l := .pulse) hpp).symm.trans h₁)]

theorem Cursor.takenBack_pulseFirst (hb : isBiphase remote = false)
    (hf : isSpaceFirst remote = false) (h : c.takesBack remote t bit = true) :
    c.TakenBack remote t bit := by
  have ht := h
  have hsync : ∀ c₁, c.sync remote t .space = .taken c₁ →
      c₁.zero remote t bit = c.zero remote t bit :=
    fun c₁ h₁ => zero_sync_space (.inr hf) h₁
  unfold takesBack at h
  unfold TakenBack one
  rw [hb, hf, if_neg Bool.false_ne_true, if_neg Bool.false_ne_true] at h
  rw [hb, hf, if_neg Bool.false_ne_true, if_neg Bool.false_ne_true]
  cases hc : c.hearIf remote t .pulse remote.pone remote.pone with
  | nothing =>
    rw [hc] at h
    exact nomatch h
  | refused c' =>
    have hz := zero_first bit (hearIf_refused hc).2 (.inr hsync)
    exact .inr ⟨c'.back 1, rfl, hz⟩
  | taken c' =>
    rw [hc] at h
    change (∃ c₂, (if remote.ptrail > 0 then _ else _) = _) ∨
      ∃ c₂, (if remote.ptrail > 0 then _ else _) = _ ∧ _
    change (if remote.ptrail > 0 then _ else _) = _ at h
    split at h
    · next hp =>
      rw [if_pos hp]
      rcases Sight.takenOr_cases h with ⟨c₂, hc₂⟩ | ⟨c₂, hc₂, -⟩
      · exact .inl ⟨c₂, congrArg (Sight.back 2) hc₂⟩
      · obtain ⟨h₁, -⟩ := takesBack_space hb hf hp ht hc hc₂
        exact .inr ⟨c₂.back 2, congrArg (Sight.back 2) hc₂, hsync _ h₁⟩
    · next hp =>
      rw [if_neg hp]
      exact .inl ⟨_, rfl⟩

/-- **A failed one is taken back.** -/
theorem Cursor.takenBack (h : c.takesBack remote t bit = true) : c.TakenBack remote t bit := by
  cases hb : isBiphase remote with
  | true => exact takenBack_biphase hb h
  | false =>
    cases hf : isSpaceFirst remote with
    | true => exact takenBack_spaceFirst hb hf h
    | false => exact takenBack_pulseFirst hb hf h

end Place

/-! ## 2. The source's one and zero -/

section Helpers

variable {w : Recording} {c : Cursor} {b : Rbuf} {remote : IrRemote}

/-- The first level of a one, and what is taken back where it fails. -/
theorem Sight.shows_back {h : Sight} {count : Nat} (hcount : count = 1 ∨ count = 2)
    (hle : ∀ c, h = .refused c → count ≤ c.pos) {f : Cursor → Sight} {g : Rbuf → Bool × Rbuf}
    (hf : ∀ c b, h = .taken c → At w c b → (f c).Shows w (g b)) :
    ∀ r : Bool × Rbuf, h.Shows w r → ((h.back count).andThen f).Shows w
      (match r with
      | (false, b) => (false, ungetRecBuffer count b)
      | (true, b) => g b) := by
  intro r hr
  obtain ⟨ok, b⟩ := r
  cases h with
  | nothing =>
    cases hr
    rfl
  | refused c =>
    obtain ⟨hok, hat⟩ := hr
    cases hok
    exact ⟨rfl, hat.back hcount (hle c rfl)⟩
  | taken c =>
    obtain ⟨hok, hat⟩ := hr
    cases hok
    exact hf c b rfl hat

theorem Sight.andThen_taken (h : Sight) : h.andThen .taken = h := by
  cases h with
  | nothing => rfl
  | refused c => rfl
  | taken c => rfl

/-- The last level of a one. -/
theorem Sight.shows_backLast {h : Sight} (hle : ∀ c, h = .refused c → 2 ≤ c.pos) :
    ∀ r : Bool × Rbuf, h.Shows w r → (h.back 2).Shows w
      (match r with
      | (false, b) => (false, ungetRecBuffer 2 b)
      | (true, b) => (true, b)) := by
  rw [← (h.back 2).andThen_taken]
  exact shows_back (.inr rfl) hle fun _ _ _ hat => hat.shows

theorem Cursor.refused_pos {t : Nat → Int} {c' : Cursor} {l : Level} {time ex : Int}
    (h : c.hearIf remote t l time ex = .refused c') : 1 ≤ c'.pos :=
  Nat.lt_of_le_of_lt (Nat.zero_le _) (hear_refused (hearIf_refused h).2).1

/-- **`expectone`** hears a one, or takes it back. -/
theorem At.one (h : At w c b) {bit : Int} (ht : c.takesBack remote w.sample bit = true) :
    (c.one remote w.sample bit).Shows w (expectone remote bit b) := by
  unfold Cursor.one expectone
  cases hb : isBiphase remote with
  | true =>
    rw [if_pos rfl, if_pos rfl]
    exact Sight.shows_back (.inl rfl) (fun _ hc => Cursor.refused_pos hc)
      (fun _ _ _ hat => (hat.defer .pulse _).shows) _ (h.hearIf .space _ _)
  | false =>
    rw [if_neg Bool.false_ne_true, if_neg Bool.false_ne_true]
    cases hf : isSpaceFirst remote with
    | true =>
      rw [if_pos rfl, if_pos rfl]
      refine Sight.shows_back (.inl rfl) (fun _ hc => Cursor.refused_pos hc) (fun c' b' hc hat => ?_)
        _ (h.hearIf .space _ _)
      exact Sight.shows_backLast (fun _ hc₂ => (Cursor.takesBack_pulse hb hf ht hc hc₂).2.1) _
        (hat.hearIf .pulse _ _)
    | false =>
      rw [if_neg Bool.false_ne_true, if_neg Bool.false_ne_true]
      refine Sight.shows_back (.inl rfl) (fun _ hc => Cursor.refused_pos hc) (fun c' b' hc hat => ?_)
        _ (h.hearIf .pulse _ _)
      split
      · next hp =>
        exact Sight.shows_backLast (fun _ hc₂ => (Cursor.takesBack_space hb hf hp ht hc hc₂).2) _
          (hat.hearIf .space _ _)
      · exact (hat.defer .space _).shows

/-- The source accepts where the level is there, and is then at its end. -/
def Sight.Answers (w : Recording) (h : Sight) (r : Bool × Rbuf) : Prop :=
  match h with
  | .taken c => r.1 = true ∧ At w c r.2
  | _ => r.1 = false

theorem Sight.Shows.answers {h : Sight} {r : Bool × Rbuf} (hr : h.Shows w r) : h.Answers w r := by
  cases h with
  | nothing => exact hr
  | refused c => exact hr.1
  | taken c => exact hr

/-- The first level of a zero. -/
theorem Sight.answers_back {h : Sight} {count : Nat} {f : Cursor → Sight} {g : Rbuf → Bool × Rbuf}
    (hf : ∀ c b, At w c b → (f c).Answers w (g b)) :
    ∀ r : Bool × Rbuf, h.Shows w r → (h.andThen f).Answers w
      (match r with
      | (false, b) => (false, ungetRecBuffer count b)
      | (true, b) => g b) := by
  intro r hr
  obtain ⟨ok, b⟩ := r
  cases h with
  | nothing =>
    cases hr
    rfl
  | refused c =>
    obtain ⟨hok, -⟩ := hr
    cases hok
    rfl
  | taken c =>
    obtain ⟨hok, hat⟩ := hr
    cases hok
    exact hf c b hat

/-- The last level of a zero. -/
theorem Sight.answers_backLast {h : Sight} {count : Nat} :
    ∀ r : Bool × Rbuf, h.Shows w r → h.Answers w
      (match r with
      | (false, b) => (false, ungetRecBuffer count b)
      | (true, b) => (true, b)) := by
  rw [← h.andThen_taken]
  intro r hr
  rw [h.andThen_taken] at hr
  exact answers_back (fun _ _ hat => hat.shows.answers) r hr

/-- **`expectzero`** accepts what the samples show. -/
theorem At.zero (h : At w c b) (bit : Int) :
    (c.zero remote w.sample bit).Answers w (expectzero remote bit b) := by
  unfold Cursor.zero expectzero
  cases hb : isBiphase remote with
  | true =>
    rw [if_pos rfl, if_pos rfl]
    exact Sight.answers_back (fun _ _ hat => (hat.defer .space _).shows.answers) _ (h.hear .pulse _)
  | false =>
    rw [if_neg Bool.false_ne_true, if_neg Bool.false_ne_true]
    cases hf : isSpaceFirst remote with
    | true =>
      rw [if_pos rfl, if_pos rfl]
      exact Sight.answers_back
        (fun _ _ hat => Sight.answers_backLast _ (hat.hearIf .pulse _ _)) _ (h.hearIf .space _ _)
    | false =>
      rw [if_neg Bool.false_ne_true, if_neg Bool.false_ne_true]
      refine Sight.answers_back (fun c' b' hat => ?_) _ (h.hear .pulse _)
      split
      · exact Sight.answers_backLast _ (hat.hear .space _)
      · exact (hat.defer .space _).shows.answers

end Helpers

/-! ## 3. A turn of the bit loop -/

/-- What buffer `b` reads. -/
def Rbuf.recording (b : Rbuf) : Recording where
  samples := b.data ++ b.input
  limit := max b.wptr RBUF_SIZE
  base := b.sum - timeOf (b.data ++ b.input) b.rptr.toNat

def Rbuf.cursor (b : Rbuf) : Cursor := ⟨b.rptr.toNat, b.pendingp, b.pendings⟩

/-- A turn of the bit loop, as `expectone` is called. -/
structure BitTurn where
  remote : IrRemote
  bit : Int
  buf : Rbuf
  deriving DecidableEq, Repr

/-- The turns of `getBits`. -/
def bitTurns : Nat → Int → IrRemote → Rbuf → List BitTurn
  | 0, _, _, _ => []
  | n + 1, bit, remote, b =>
    let remote := goldstarOne remote bit
    ⟨remote, bit, b⟩ ::
      match expectone remote bit b with
      | (true, b) => bitTurns n (bit + 1) remote b
      | (false, b) =>
        match expectzero remote bit b with
        | (true, b) => bitTurns n (bit + 1) remote b
        | (false, _) => []

namespace BitTurn

/-- The buffer is at a place of what it recorded, and a failed one takes back
    there what it has read. -/
structure TakesBack (turn : BitTurn) : Prop where
  inside : 0 ≤ turn.buf.rptr ∧ turn.buf.rptr ≤ turn.buf.wptr
  takes : turn.buf.cursor.takesBack turn.remote turn.buf.recording.sample turn.bit = true

/-- The place of the buffer, its sum and what is deferred there. -/
def place (b : Rbuf) : Int × Int × Int × Int := (b.rptr, b.sum, b.pendingp, b.pendings)

/-- **Backtracking is transparent**: behind a failed one, a zero is accepted or
    rejected, and left, as if the one had not been tried. -/
def Transparent (turn : BitTurn) : Prop :=
  let one := expectone turn.remote turn.bit turn.buf
  let after := expectzero turn.remote turn.bit one.2
  let before := expectzero turn.remote turn.bit turn.buf
  one.1 = false → after.1 = before.1 ∧ (after.1 = true → place after.2 = place before.2)

end BitTurn

theorem Rbuf.at_cursor {b : Rbuf} (h : 0 ≤ b.rptr ∧ b.rptr ≤ b.wptr) : At b.recording b.cursor b where
  samples := rfl
  limit := rfl
  pos := (Int.toNat_of_nonneg h.1).symm
  recorded := Int.toNat_le.mpr h.2
  pendingp := rfl
  pendings := rfl
  sum := (Int.sub_add_cancel _ _).symm

theorem At.recording_eq {w : Recording} {c : Cursor} {b : Rbuf} (h : At w c b) :
    b.recording = w ∧ b.cursor = c := by
  have hpos : b.rptr.toNat = c.pos := by
    rw [h.pos, Int.toNat_natCast]
  obtain ⟨samples, limit, base⟩ := w
  obtain ⟨pos, pp, ps⟩ := c
  have hsum := h.sum
  refine ⟨?_, ?_⟩
  · unfold Rbuf.recording
    rw [hpos, h.limit, h.samples, hsum, Int.add_sub_cancel]
  · unfold Rbuf.cursor
    rw [hpos, h.pendingp, h.pendings]

theorem At.place_eq {w : Recording} {c : Cursor} {b b' : Rbuf} (h : At w c b) (h' : At w c b') :
    BitTurn.place b = BitTurn.place b' := by
  unfold BitTurn.place
  rw [h.pos, h.sum, h.pendingp, h.pendings, h'.pos, h'.sum, h'.pendingp, h'.pendings]

/-- Two answers to what the samples show. -/
theorem Sight.Answers.agree {w : Recording} {h : Sight} {r r' : Bool × Rbuf} (hr : h.Answers w r)
    (hr' : h.Answers w r') :
    r.1 = r'.1 ∧ (r.1 = true → ∃ c, At w c r.2 ∧ At w c r'.2) := by
  cases h with
  | nothing => exact ⟨hr.trans hr'.symm, fun ht => absurd (hr.symm.trans ht) Bool.false_ne_true⟩
  | refused c => exact ⟨hr.trans hr'.symm, fun ht => absurd (hr.symm.trans ht) Bool.false_ne_true⟩
  | taken c => exact ⟨hr.1.trans hr'.1.symm, fun _ => ⟨c, hr.2, hr'.2⟩⟩

/-- **A turn** at a place where a failed one takes back what it has read: the
    one is heard, or a zero tried before and behind it is answered alike. -/
theorem At.turn {w : Recording} {c : Cursor} {b b' : Rbuf} {remote : IrRemote} {bit : Int}
    (h : At w c b) (h' : At w c b') (ht : c.takesBack remote w.sample bit = true) :
    (∃ c', (expectone remote bit b).1 = true ∧ (expectone remote bit b').1 = true ∧
      At w c' (expectone remote bit b).2 ∧ At w c' (expectone remote bit b').2) ∨
    ((expectone remote bit b).1 = false ∧ (expectone remote bit b').1 = false ∧
      ∃ z : Sight, z.Answers w (expectzero remote bit (expectone remote bit b).2) ∧
        z.Answers w (expectzero remote bit b')) := by
  have hone := h.one ht
  have hone' := h'.one ht
  rcases Cursor.takenBack ht with ⟨c', hc⟩ | ⟨c', hc, hz⟩
  · rw [hc] at hone hone'
    exact .inl ⟨c', hone.1, hone'.1, hone.2, hone'.2⟩
  · rw [hc] at hone hone'
    refine .inr ⟨hone.1, hone'.1, c.zero remote w.sample bit, ?_, h'.zero bit⟩
    rw [← hz]
    exact hone.2.zero bit

theorem BitTurn.TakesBack.transparent {turn : BitTurn} (h : turn.TakesBack) : turn.Transparent := by
  have hat := Rbuf.at_cursor h.inside
  unfold Transparent
  dsimp only
  intro hfail
  rcases hat.turn hat h.takes with ⟨c', hone, -⟩ | ⟨-, -, z, hafter, hbefore⟩
  · exact absurd (hfail.symm.trans hone) Bool.false_ne_true
  · obtain ⟨hsame, hplace⟩ := hafter.agree hbefore
    refine ⟨hsame, fun ht => ?_⟩
    obtain ⟨c', h₁, h₂⟩ := hplace ht
    exact h₁.place_eq h₂

/-! ## 4. The bit loop -/

/-- The bit loop in which every zero is tried where its one was. -/
def freshBits : Nat → Int → IrCode → IrRemote → Rbuf → IrCode × IrRemote × Rbuf
  | 0, _, code, remote, b => (code, remote, b)
  | n + 1, bit, code, remote, b =>
    let code := code <<< 1
    let remote := goldstarOne remote bit
    match expectone remote bit b with
    | (true, b) => freshBits n (bit + 1) (code ||| 1) remote b
    | (false, _) =>
      match expectzero remote bit b with
      | (true, b) => freshBits n (bit + 1) (code ||| 0) remote b
      | (false, b) => (irFail, remote, b)

/-- Two ends of the loop: one code, one remote and, unless it failed, one
    place. -/
def SameEnd (r r' : IrCode × IrRemote × Rbuf) : Prop :=
  r.1 = r'.1 ∧ r.2.1 = r'.2.1 ∧
    (r.1 ≠ irFail → BitTurn.place r.2.2 = BitTurn.place r'.2.2)

/-- **The loop** from two buffers at one place. -/
theorem At.getBits {w : Recording} {c : Cursor} {b b' : Rbuf} (h : At w c b) (h' : At w c b')
    (n : Nat) (bit : Int) (code : IrCode) (remote : IrRemote)
    (hturns : ∀ turn ∈ bitTurns n bit remote b, turn.TakesBack) :
    SameEnd (WinLirc.getBits n bit code remote b) (freshBits n bit code remote b') := by
  induction n generalizing c b b' bit code remote with
  | zero => exact ⟨rfl, rfl, fun _ => h.place_eq h'⟩
  | succ n ih =>
    rw [WinLirc.getBits, freshBits]
    rw [bitTurns] at hturns
    obtain ⟨hfirst, hrest⟩ := List.forall_mem_cons.mp hturns
    have htakes := hfirst.takes
    obtain ⟨hw, hc⟩ := h.recording_eq
    dsimp only at htakes
    rw [hw, hc] at htakes
    have hturn := h.turn h' htakes
    generalize goldstarOne remote bit = remote at hrest hturn ⊢
    generalize expectone remote bit b = one at hrest hturn ⊢
    generalize expectone remote bit b' = one' at hturn ⊢
    obtain ⟨ok, b₁⟩ := one
    obtain ⟨ok', b₁'⟩ := one'
    rcases hturn with ⟨c', hok, hok', hat, hat'⟩ | ⟨hok, hok', z, hz, hz'⟩
    · cases hok
      cases hok'
      exact ih hat hat' _ _ _ hrest
    · cases hok
      cases hok'
      obtain ⟨hsame, hplace⟩ := hz.agree hz'
      dsimp only at hrest hsame hplace ⊢
      generalize expectzero remote bit b₁ = zero at hrest hsame hplace ⊢
      generalize expectzero remote bit b' = zero' at hsame hplace ⊢
      obtain ⟨ok, b₂⟩ := zero
      obtain ⟨ok', b₂'⟩ := zero'
      cases hsame
      cases ok with
      | false => exact ⟨rfl, rfl, fun hne => absurd rfl hne⟩
      | true =>
        obtain ⟨c', hat, hat'⟩ := hplace rfl
        exact ih hat hat' _ _ _ hrest

instance : DecidablePred BitTurn.TakesBack := fun _ =>
  decidable_of_iff (_ ∧ _) ⟨fun h => ⟨h.1, h.2⟩, fun h => ⟨h.inside, h.takes⟩⟩

instance : DecidablePred BitTurn.Transparent := fun turn => by
  unfold BitTurn.Transparent
  infer_instance

/-- **Backtracking is transparent** in every run of the bit loop whose failed
    ones take back what they have read: in every turn a zero is answered as if
    its one had not been tried, and so the loop ends as the one in which no one
    is taken back. -/
theorem bitLoop_transparent (n : Nat) (bit : Int) (code : IrCode) (remote : IrRemote) (b : Rbuf)
    (hturns : ∀ turn ∈ bitTurns n bit remote b, turn.TakesBack) :
    (∀ turn ∈ bitTurns n bit remote b, turn.Transparent) ∧
      SameEnd (getBits n bit code remote b) (freshBits n bit code remote b) := by
  refine ⟨fun turn hturn => (hturns turn hturn).transparent, ?_⟩
  cases n with
  | zero => exact ⟨rfl, rfl, fun _ => rfl⟩
  | succ n =>
    have hat := Rbuf.at_cursor (hturns ⟨_, bit, b⟩ List.mem_cons_self).inside
    exact hat.getBits hat (n + 1) bit code remote hturns

/-- An RC5 frame behind its lead pulse: `samples` are to come. -/
def behindLead (samples : List Int) : Rbuf :=
  { data := [100000], rptr := 1, pendingp := 889, input := samples }

def rc5Pulse (d : Int) : Int := PULSE_BIT + d

/-- The bits 1, 1, 0. -/
theorem bitLoop_transparent_rc5 :
    (∀ turn ∈ bitTurns 3 0 rc5Remote (behindLead
        [rc5Pulse 889, 889, rc5Pulse 889, 889, rc5Pulse 1778, 100000]), turn.Transparent) ∧
      SameEnd
        (getBits 3 0 0 rc5Remote (behindLead
          [rc5Pulse 889, 889, rc5Pulse 889, 889, rc5Pulse 1778, 100000]))
        (freshBits 3 0 0 rc5Remote (behindLead
          [rc5Pulse 889, 889, rc5Pulse 889, 889, rc5Pulse 1778, 100000])) :=
  bitLoop_transparent 3 0 0 rc5Remote _ (by decide)

/-- The bits 1, 1, and nothing behind them: the pulse of the second one is
    taken back, and passes for a zero. -/
theorem bitLoop_transparent_cut :
    ∃ turn ∈ bitTurns 3 0 rc5Remote (behindLead [rc5Pulse 889, 889, rc5Pulse 889, 889, rc5Pulse 889]),
      ¬ turn.Transparent := by
  decide

end WinLirc
