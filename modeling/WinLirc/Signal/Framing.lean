/-
  File:      WinLirc/Signal/Framing.lean
  Subject:   Frames of a stream that comes in chunks (general library).

  `Framing.next` is the first frame of a buffer with its size, `none` if more has
  to come first. An early frame is taken before all of it is there.

  * `parse` takes the frames of a buffer; it goes through a stream in pieces
    (`parse_append`);
  * `feed` parses each chunk behind what the one before has left, and begins at
    the next chunk where an early frame reaches beyond the end of its own;
  * `feed_iff`: no place inside a frame is looked at as the beginning of one
    exactly if no chunk ends inside an early frame, and then the frames are
    those of the whole stream (`feed_frames`).
-/
import Mathlib.Data.List.Basic

namespace Signal

variable {α β : Type*}

structure Framing (α β : Type*) where
  next : List α → Option (β × Nat)
  early : β → Prop
  nil : next [] = none
  pos : ∀ {l b n}, next l = some (b, n) → 0 < n
  stable : ∀ {l b n} m, next l = some (b, n) → next (l ++ m) = some (b, n)
  whole : ∀ {l b n}, next l = some (b, n) → ¬ early b → n ≤ l.length
  waits : ∀ {l m b n}, l ≠ [] → next l = none → next (l ++ m) = some (b, n) →
    ¬ early b ∧ l.length < n

/-- A frame with its place in the stream. -/
structure Placed (β : Type*) where
  start : Nat
  size : Nat
  frame : β

/-- The place is inside the frame, behind its beginning. -/
def Placed.Inside (p : Placed β) (i : Nat) : Prop := p.start < i ∧ i < p.start + p.size

/-- The frames of a buffer, the place behind the last one, and what is left. -/
structure Parse (α β : Type*) where
  frames : List (Placed β)
  stop : Nat
  rest : List α

namespace Parse

/-- Some frames in front. -/
def prepend (front : List (Placed β)) (r : Parse α β) : Parse α β :=
  { r with frames := front ++ r.frames }

/-- The places that were taken for the beginning of a frame. -/
def looked (r : Parse α β) : List Nat :=
  r.frames.map (·.start) ++ match r.rest with
    | [] => []
    | _ :: _ => [r.stop]

end Parse

namespace Framing

variable (fr : Framing α β)

/-- At most `fuel` frames, the first one at `start`. -/
def parseFrom : Nat → Nat → List α → Parse α β
  | 0, start, l => ⟨[], start, l⟩
  | fuel + 1, start, l =>
    match fr.next l with
    | none => ⟨[], start, l⟩
    | some (b, n) => (parseFrom fuel (start + n) (l.drop n)).prepend [⟨start, n, b⟩]

def parse (start : Nat) (l : List α) : Parse α β := fr.parseFrom l.length start l

/-- What comes of some chunks. -/
structure Feed (α β : Type*) where
  frames : List (Placed β)
  looked : List Nat
  rest : List α

/-- The chunks one after the other; `rest` is left from those before and stands
    at `start`. -/
def feed : Nat → List α → List (List α) → Feed α β
  | _, rest, [] => ⟨[], [], rest⟩
  | start, rest, chunk :: chunks =>
    let r := fr.parse start (rest ++ chunk)
    let f := feed (start + (rest ++ chunk).length - r.rest.length) r.rest chunks
    ⟨r.frames ++ f.frames, r.looked ++ f.looked, f.rest⟩

/-! ## 1. One buffer -/

section Parse

variable {fr} {start n : Nat} {l m : List α} {b : β} {p q : Placed β}

theorem next_length (h : fr.next l = some (b, n)) : 0 < l.length := by
  refine List.length_pos_iff.mpr fun hl => ?_
  rw [hl, fr.nil] at h
  exact nomatch h

theorem parseFrom_enough {fuel : Nat} (h : l.length ≤ fuel) :
    fr.parseFrom fuel start l = fr.parse start l := by
  induction fuel using Nat.strongRecOn generalizing start l with
  | _ fuel ih =>
    unfold parse
    cases fuel with
    | zero => rw [Nat.le_zero.mp h]
    | succ fuel =>
      cases hn : fr.next l with
      | none =>
        cases hl : l.length with
        | zero => simp [parseFrom, hn]
        | succ k => simp [parseFrom, hn]
      | some r =>
        obtain ⟨b, n⟩ := r
        have hpos := fr.pos hn
        have hlen := next_length hn
        obtain ⟨k, hk⟩ : ∃ k, l.length = k + 1 := ⟨l.length - 1, by omega⟩
        have hdrop : (l.drop n).length ≤ k := by
          rw [List.length_drop]
          omega
        rw [hk, parseFrom, parseFrom, hn]
        dsimp only
        rw [ih fuel (Nat.lt_succ_self fuel) (by omega), ih k (by omega) hdrop]

theorem parse_none (h : fr.next l = none) : fr.parse start l = ⟨[], start, l⟩ := by
  unfold parse
  cases hl : l.length with
  | zero => rfl
  | succ k => rw [parseFrom, h]

theorem parse_some (h : fr.next l = some (b, n)) :
    fr.parse start l = (fr.parse (start + n) (l.drop n)).prepend [⟨start, n, b⟩] := by
  have hlen := next_length h
  obtain ⟨k, hk⟩ : ∃ k, l.length = k + 1 := ⟨l.length - 1, by omega⟩
  have hpos := fr.pos h
  have hdrop : (l.drop n).length ≤ k := by
    rw [List.length_drop]
    omega
  unfold parse
  rw [hk, parseFrom, h]
  dsimp only
  rw [parseFrom_enough hdrop]
  rfl

/-- A property of what is parsed, frame by frame. -/
theorem parse_induct (fr : Framing α β) {P : Nat → List α → Prop}
    (none : ∀ start l, fr.next l = none → P start l)
    (some : ∀ start l b n, fr.next l = some (b, n) → P (start + n) (l.drop n) → P start l)
    (start : Nat) (l : List α) : P start l := by
  induction hk : l.length using Nat.strongRecOn generalizing start l with
  | _ k ih =>
    cases hn : fr.next l with
    | none => exact none start l hn
    | some r =>
      obtain ⟨b, n⟩ := r
      refine some start l b n hn (ih _ ?_ _ _ rfl)
      have hpos := fr.pos hn
      have hlen := next_length hn
      rw [List.length_drop]
      omega

/-- Nothing is left that could be taken. -/
theorem next_rest (start : Nat) (l : List α) : fr.next (fr.parse start l).rest = none := by
  induction start, l using fr.parse_induct with
  | none start l h => rw [parse_none h, h]
  | some start l b n h ih => rw [parse_some h]; exact ih

/-- How far the last frame reaches beyond the end of the buffer. -/
def behind (fr : Framing α β) (start : Nat) (l : List α) : Nat :=
  (fr.parse start l).stop + (fr.parse start l).rest.length - (start + l.length)

/-- The parse goes on in front of what is left, or behind the end. -/
theorem stop_rest (start : Nat) (l : List α) :
    (fr.parse start l).stop + (fr.parse start l).rest.length = start + l.length + fr.behind start l ∧
      (0 < fr.behind start l → (fr.parse start l).rest = []) := by
  unfold behind
  induction start, l using fr.parse_induct with
  | none start l h =>
    rw [parse_none h]
    exact ⟨by simp, fun hpos => by simp at hpos⟩
  | some start l b n h ih =>
    rw [parse_some h]
    obtain ⟨ih1, ih2⟩ := ih
    rw [List.length_drop] at ih1 ih2
    show (fr.parse (start + n) (l.drop n)).stop + _ = _ ∧ (_ → (fr.parse (start + n) (l.drop n)).rest = [])
    dsimp only [Parse.prepend]
    by_cases hle : n ≤ l.length
    · refine ⟨by omega, fun hpos => ih2 (by omega)⟩
    · have hrest : (fr.parse (start + n) (l.drop n)).rest = [] := by
        rw [List.drop_eq_nil_of_le (by omega), parse_none fr.nil]
      exact ⟨by omega, fun _ => hrest⟩

/-- **A buffer in two pieces**: the parse of the first one is gone on with. -/
theorem parse_append (start : Nat) (l m : List α) :
    fr.parse start (l ++ m) =
      (fr.parse (fr.parse start l).stop
        ((fr.parse start l).rest ++ m.drop (fr.behind start l))).prepend
        (fr.parse start l).frames := by
  unfold behind
  induction start, l using fr.parse_induct with
  | none start l h =>
    rw [parse_none h]
    simp [Parse.prepend]
  | some start l b n h ih =>
    have hdrop : (l ++ m).drop n = l.drop n ++ m.drop (n - l.length) := List.drop_append
    rw [parse_some (fr.stable m h), parse_some h, hdrop]
    by_cases hle : n ≤ l.length
    · rw [Nat.sub_eq_zero_of_le hle, List.drop_zero, ih, List.length_drop]
      have hsum : start + n + (l.length - n) = start + l.length := by omega
      rw [hsum]
      rfl
    · have hnil : l.drop n = [] := List.drop_eq_nil_of_le (by omega)
      rw [hnil, @parse_none _ _ fr (start + n) [] fr.nil]
      have hover : start + n + 0 - (start + l.length) = n - l.length := by omega
      dsimp only [Parse.prepend, List.append_nil, List.nil_append, List.length_nil]
      rw [hover, List.append_nil]

theorem le_stop (start : Nat) (l : List α) : start ≤ (fr.parse start l).stop := by
  induction start, l using fr.parse_induct with
  | none start l h =>
    exact Nat.le_of_eq (congrArg Parse.stop (parse_none h)).symm
  | some start l b n h ih =>
    rw [parse_some h]
    exact Nat.le_trans (Nat.le_add_right start n) ih

theorem frames_bounds (h : p ∈ (fr.parse start l).frames) :
    start ≤ p.start ∧ 0 < p.size ∧ p.start + p.size ≤ (fr.parse start l).stop := by
  induction start, l using fr.parse_induct with
  | none start l hn =>
    rw [parse_none hn] at h
    exact absurd h List.not_mem_nil
  | some start l b n hn ih =>
    rw [parse_some hn] at h ⊢
    rcases List.mem_cons.mp h with rfl | h
    · exact ⟨Nat.le_refl _, fr.pos hn, le_stop _ _⟩
    · obtain ⟨h1, h2⟩ := ih h
      exact ⟨by omega, h2⟩

/-- The frames do not overlap. -/
theorem frames_apart (hp : p ∈ (fr.parse start l).frames) (hq : q ∈ (fr.parse start l).frames) :
    ¬ p.Inside q.start := by
  induction start, l using fr.parse_induct with
  | none start l hn =>
    rw [parse_none hn] at hp
    exact absurd hp List.not_mem_nil
  | some start l b n hn ih =>
    rw [parse_some hn] at hp hq
    unfold Placed.Inside
    rcases List.mem_cons.mp hp with rfl | hp'
    · rcases List.mem_cons.mp hq with rfl | hq'
      · exact fun hx => absurd hx.1 (Nat.lt_irrefl _)
      · have hge := (frames_bounds hq').1
        dsimp only
        omega
    · rcases List.mem_cons.mp hq with rfl | hq'
      · have hge := (frames_bounds hp').1
        dsimp only
        omega
      · exact ih hp' hq'

/-- A frame that reaches beyond the end is early. -/
theorem exists_early (h : 0 < fr.behind start l) :
    ∃ p ∈ (fr.parse start l).frames, fr.early p.frame ∧ p.Inside (start + l.length) := by
  unfold behind at h
  induction start, l using fr.parse_induct with
  | none start l hn =>
    rw [parse_none hn] at h
    simp at h
  | some start l b n hn ih =>
    rw [parse_some hn] at h ⊢
    dsimp only [Parse.prepend] at h ⊢
    rw [List.length_drop] at ih
    by_cases hle : n ≤ l.length
    · obtain ⟨p, hp, hearly, hinside⟩ := ih (by omega)
      have hsum : start + n + (l.length - n) = start + l.length := by omega
      rw [hsum] at hinside
      exact ⟨p, List.mem_cons_of_mem _ hp, hearly, hinside⟩
    · refine ⟨⟨start, n, b⟩, List.mem_cons_self, ?_, ?_, ?_⟩
      · by_contra hearly
        exact hle (fr.whole hn hearly)
      · have := next_length hn
        dsimp only
        omega
      · dsimp only
        omega

/-- An end in front of which nothing can be taken is not inside an early frame. -/
theorem not_early_of_waits (h : fr.next l = none) (hp : p ∈ (fr.parse start (l ++ m)).frames)
    (hearly : fr.early p.frame) : ¬ p.Inside (start + l.length) := by
  unfold Placed.Inside
  cases hn : fr.next (l ++ m) with
  | none =>
    rw [parse_none hn] at hp
    exact absurd hp List.not_mem_nil
  | some r =>
    obtain ⟨b, n⟩ := r
    rw [parse_some hn] at hp
    by_cases hl : l = []
    · have hge : start ≤ p.start := by
        rcases List.mem_cons.mp hp with rfl | hp
        · exact Nat.le_refl _
        · have := (frames_bounds hp).1
          omega
      rw [hl, List.length_nil]
      omega
    · obtain ⟨hb, hlt⟩ := fr.waits hl h hn
      rcases List.mem_cons.mp hp with rfl | hp
      · exact absurd hearly hb
      · have := (frames_bounds hp).1
        omega

theorem looked_bounds {i : Nat} (h : i ∈ (fr.parse start l).looked) :
    start ≤ i ∧ i ≤ (fr.parse start l).stop := by
  unfold Parse.looked at h
  rcases List.mem_append.mp h with h | h
  · obtain ⟨p, hp, rfl⟩ := List.mem_map.mp h
    have := frames_bounds hp
    omega
  · split at h
    · exact absurd h List.not_mem_nil
    · rw [List.mem_singleton.mp h]
      exact ⟨le_stop start l, Nat.le_refl _⟩

end Parse

/-! ## 2. Chunks -/

section Feed

variable {fr} {start : Nat} {rest chunk : List α} {chunks : List (List α)}

variable (fr) in
/-- No place inside a frame of the whole stream is looked at. -/
def Clean (start : Nat) (rest : List α) (chunks : List (List α)) : Prop :=
  ∀ p ∈ (fr.parse start (rest ++ chunks.flatten)).frames,
    ∀ i ∈ (fr.feed start rest chunks).looked, ¬ p.Inside i

variable (fr) in
/-- No chunk ends inside an early frame, unless it is the last one. -/
def NoEarlyCut (start : Nat) (rest : List α) (chunks : List (List α)) : Prop :=
  ∀ front back, chunks = front ++ back → back.flatten ≠ [] →
    ∀ p ∈ (fr.parse start (rest ++ chunks.flatten)).frames, fr.early p.frame →
      ¬ p.Inside (start + rest.length + front.flatten.length)

theorem le_of_looked {i : Nat} (h : i ∈ (fr.feed start rest chunks).looked) : start ≤ i := by
  induction chunks generalizing start rest with
  | nil => exact absurd h List.not_mem_nil
  | cons chunk chunks ih =>
    rcases List.mem_append.mp h with h | h
    · exact (looked_bounds h).1
    · have hle := ih h
      obtain ⟨h1, h2⟩ := @stop_rest _ _ fr start (rest ++ chunk)
      have hstop := @le_stop _ _ fr start (rest ++ chunk)
      by_cases hpos : 0 < fr.behind start (rest ++ chunk)
      · rw [h2 hpos, List.length_nil] at hle
        omega
      · omega

/-- The next element is looked at. -/
theorem looked_start (h : chunks.flatten ≠ []) : start ∈ (fr.feed start [] chunks).looked := by
  induction chunks with
  | nil => exact absurd rfl h
  | cons chunk chunks ih =>
    unfold feed
    dsimp only
    rw [List.nil_append]
    cases chunk with
    | nil =>
      rw [parse_none fr.nil]
      exact List.mem_append_right _ (ih h)
    | cons a as =>
      refine List.mem_append_left _ ?_
      cases hn : fr.next (a :: as) with
      | none =>
        rw [parse_none hn]
        exact List.mem_singleton.mpr rfl
      | some r =>
        rw [parse_some hn]
        exact List.mem_cons_self

/-- Behind the last element nothing comes any more. -/
theorem feed_done (h : chunks.flatten = []) :
    fr.feed start [] chunks = ⟨[], [], []⟩ := by
  induction chunks with
  | nil => rfl
  | cons chunk chunks ih =>
    obtain ⟨rfl, htail⟩ := List.append_eq_nil_iff.mp h
    unfold feed
    dsimp only
    rw [List.nil_append, parse_none fr.nil]
    dsimp only
    rw [List.length_nil, Nat.add_zero, Nat.sub_zero, ih htail]
    rfl

/-- **One chunk** that no frame reaches beyond: it is gone on with. -/
theorem feed_cons (h : fr.behind start (rest ++ chunk) = 0) :
    fr.feed start rest (chunk :: chunks) =
      ⟨(fr.parse start (rest ++ chunk)).frames ++
          (fr.feed (fr.parse start (rest ++ chunk)).stop (fr.parse start (rest ++ chunk)).rest
            chunks).frames,
        (fr.parse start (rest ++ chunk)).looked ++
          (fr.feed (fr.parse start (rest ++ chunk)).stop (fr.parse start (rest ++ chunk)).rest
            chunks).looked,
        (fr.feed (fr.parse start (rest ++ chunk)).stop (fr.parse start (rest ++ chunk)).rest
          chunks).rest⟩ := by
  obtain ⟨h1, -⟩ := @stop_rest _ _ fr start (rest ++ chunk)
  have hstart : start + (rest ++ chunk).length - (fr.parse start (rest ++ chunk)).rest.length =
      (fr.parse start (rest ++ chunk)).stop := by omega
  rw [feed, hstart]

/-- The frames of the whole stream are those of the chunk and those behind. -/
theorem frames_cons (h : fr.behind start (rest ++ chunk) = 0) :
    fr.parse start (rest ++ (chunk :: chunks).flatten) =
      (fr.parse (fr.parse start (rest ++ chunk)).stop
        ((fr.parse start (rest ++ chunk)).rest ++ chunks.flatten)).prepend
        (fr.parse start (rest ++ chunk)).frames := by
  rw [List.flatten_cons, ← List.append_assoc, parse_append, h, List.drop_zero]

theorem clean_cons (h : fr.behind start (rest ++ chunk) = 0) :
    fr.Clean start rest (chunk :: chunks) ↔
      fr.Clean (fr.parse start (rest ++ chunk)).stop (fr.parse start (rest ++ chunk)).rest chunks := by
  unfold Clean
  rw [frames_cons h, feed_cons h]
  dsimp only [Parse.prepend]
  constructor
  · intro hc p hp i hi
    exact hc p (List.mem_append_right _ hp) i (List.mem_append_right _ hi)
  · intro hc p hp i hi
    unfold Placed.Inside
    rcases List.mem_append.mp hp with hp | hp
    · have hbound := frames_bounds hp
      rcases List.mem_append.mp hi with hi | hi
      · unfold Parse.looked at hi
        rcases List.mem_append.mp hi with hi | hi
        · obtain ⟨q, hq, rfl⟩ := List.mem_map.mp hi
          exact frames_apart hp hq
        · split at hi
          · exact absurd hi List.not_mem_nil
          · rw [List.mem_singleton.mp hi]
            omega
      · have hge := le_of_looked hi
        omega
    · rcases List.mem_append.mp hi with hi | hi
      · have hle := (looked_bounds hi).2
        have hbound := frames_bounds hp
        omega
      · exact hc p hp i hi

theorem noEarlyCut_cons (hrest : fr.next rest = none) (h : fr.behind start (rest ++ chunk) = 0) :
    fr.NoEarlyCut start rest (chunk :: chunks) ↔
      fr.NoEarlyCut (fr.parse start (rest ++ chunk)).stop (fr.parse start (rest ++ chunk)).rest
        chunks := by
  obtain ⟨hstop, -⟩ := @stop_rest _ _ fr start (rest ++ chunk)
  rw [h, List.length_append] at hstop
  have hwhole := @frames_cons _ _ fr start rest chunk chunks h
  unfold NoEarlyCut
  constructor
  · rintro hc front back rfl hback p hp hearly
    have hin : p ∈ (fr.parse start (rest ++ (chunk :: (front ++ back)).flatten)).frames := by
      rw [hwhole]
      exact List.mem_append_right _ hp
    have hcut := hc (chunk :: front) back rfl hback p hin hearly
    rw [List.flatten_cons, List.length_append] at hcut
    have hsum : (fr.parse start (rest ++ chunk)).stop + (fr.parse start (rest ++ chunk)).rest.length +
        front.flatten.length = start + rest.length + (chunk.length + front.flatten.length) := by omega
    rw [hsum]
    exact hcut
  · intro hc front back hsplit hback p hp hearly
    cases front with
    | nil =>
      rw [List.flatten_nil, List.length_nil, Nat.add_zero]
      exact not_early_of_waits hrest hp hearly
    | cons first front =>
      obtain ⟨rfl, rfl⟩ := List.cons.inj hsplit
      rw [hwhole] at hp
      rw [List.flatten_cons, List.length_append]
      have hsum : start + rest.length + (chunk.length + front.flatten.length) =
          (fr.parse start (rest ++ chunk)).stop + (fr.parse start (rest ++ chunk)).rest.length +
            front.flatten.length := by omega
      rw [hsum]
      rcases List.mem_append.mp hp with hp | hp
      · have hbound := frames_bounds hp
        unfold Placed.Inside
        omega
      · exact hc front back rfl hback p hp hearly

/-- **A frame beyond the end of its chunk** is early, and what comes next is looked
    at inside it. -/
theorem cut_early (h : 0 < fr.behind start (rest ++ chunk)) (hmore : chunks.flatten ≠ []) :
    ¬ fr.Clean start rest (chunk :: chunks) ∧ ¬ fr.NoEarlyCut start rest (chunk :: chunks) := by
  obtain ⟨p, hp, hearly, hinside⟩ := exists_early h
  have hwhole : p ∈ (fr.parse start (rest ++ (chunk :: chunks).flatten)).frames := by
    rw [List.flatten_cons, ← List.append_assoc, parse_append]
    exact List.mem_append_left _ hp
  constructor
  · intro hclean
    refine hclean p hwhole (start + (rest ++ chunk).length) ?_ hinside
    refine List.mem_append_right _ ?_
    rw [(stop_rest start (rest ++ chunk)).2 h, List.length_nil, Nat.sub_zero]
    exact looked_start hmore
  · intro hcut
    refine hcut [chunk] chunks rfl hmore p hwhole hearly ?_
    rwa [List.flatten_singleton, Nat.add_assoc, ← List.length_append]

/-- Nothing behind the end. -/
theorem last_chunk (hrest : fr.next rest = none) (h : 0 < fr.behind start (rest ++ chunk))
    (hmore : chunks.flatten = []) :
    fr.Clean start rest (chunk :: chunks) ∧ fr.NoEarlyCut start rest (chunk :: chunks) ∧
      (fr.feed start rest (chunk :: chunks)).frames =
        (fr.parse start (rest ++ (chunk :: chunks).flatten)).frames := by
  have hnil := (stop_rest start (rest ++ chunk)).2 h
  have hfeed : fr.feed start rest (chunk :: chunks) =
      ⟨(fr.parse start (rest ++ chunk)).frames, (fr.parse start (rest ++ chunk)).looked, []⟩ := by
    unfold feed
    dsimp only
    rw [hnil, feed_done hmore, List.append_nil, List.append_nil]
  have hflat : (chunk :: chunks).flatten = chunk := by
    rw [List.flatten_cons, hmore, List.append_nil]
  refine ⟨?_, ?_, ?_⟩
  · intro p hp i hi
    rw [hfeed] at hi
    rw [hflat] at hp
    unfold Parse.looked at hi
    rw [hnil, List.append_nil] at hi
    obtain ⟨q, hq, rfl⟩ := List.mem_map.mp hi
    exact frames_apart hp hq
  · intro front back hsplit hback p hp hearly
    cases front with
    | nil =>
      rw [List.flatten_nil, List.length_nil, Nat.add_zero]
      exact not_early_of_waits hrest hp hearly
    | cons first front =>
      have hchunks : chunks = front ++ back := (List.cons.inj hsplit).2
      rw [hchunks, List.flatten_append] at hmore
      exact absurd (List.append_eq_nil_iff.mp hmore).2 hback
  · rw [hfeed, hflat]

/-- **A stream in chunks**: no place inside a frame is looked at exactly if no
    chunk ends inside an early frame. -/
theorem feed_iff (hrest : fr.next rest = none) :
    fr.Clean start rest chunks ↔ fr.NoEarlyCut start rest chunks := by
  induction chunks generalizing start rest with
  | nil =>
    refine iff_of_true (fun _ _ _ hi => absurd hi List.not_mem_nil) ?_
    intro front back hsplit hback
    rw [(List.append_eq_nil_iff.mp hsplit.symm).2] at hback
    exact absurd rfl hback
  | cons chunk chunks ih =>
    rcases Nat.eq_zero_or_pos (fr.behind start (rest ++ chunk)) with hzero | hpos
    · rw [clean_cons hzero, noEarlyCut_cons hrest hzero]
      exact ih (next_rest start (rest ++ chunk))
    · by_cases hmore : chunks.flatten = []
      · obtain ⟨hclean, hcut, -⟩ := last_chunk hrest hpos hmore
        exact iff_of_true hclean hcut
      · obtain ⟨hclean, hcut⟩ := cut_early hpos hmore
        exact iff_of_false hclean hcut

/-- **The frames** are then those of the whole stream. -/
theorem feed_frames (hrest : fr.next rest = none) (h : fr.NoEarlyCut start rest chunks) :
    (fr.feed start rest chunks).frames = (fr.parse start (rest ++ chunks.flatten)).frames := by
  induction chunks generalizing start rest with
  | nil =>
    rw [List.flatten_nil, List.append_nil, parse_none hrest]
    rfl
  | cons chunk chunks ih =>
    rcases Nat.eq_zero_or_pos (fr.behind start (rest ++ chunk)) with hzero | hpos
    · rw [feed_cons hzero, frames_cons hzero]
      exact congrArg (_ ++ ·) (ih (next_rest start (rest ++ chunk)) ((noEarlyCut_cons hrest hzero).mp h))
    · by_cases hmore : chunks.flatten = []
      · exact (last_chunk hrest hpos hmore).2.2
      · exact absurd h (cut_early hpos hmore).2

end Feed

end Framing

end Signal
