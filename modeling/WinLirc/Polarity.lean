/-
  File:      WinLirc/Polarity.lean
  Subject:   The polarity of a whole transmission.

  The buffer carries times alone, and the hardware takes entry 0 for a pulse,
  entry 1 for a space and so on. `polarity_iff` says when that is right: an
  empty buffer ignores a leading space (`send_space`), a buffer with an
  earlier frame in it does not, and then the frame starts one entry off. So
  every frame behind a frame with a pulse must itself start with a pulse, or
  have none.

  The encoders are taken on positive times; `sync_send_buffer` then finds an
  even number of entries only behind a space.
-/
import Mathlib.Data.List.TakeWhile
import WinLirc.InitSend

namespace WinLirc

open Signal

/-! ## 1. Entries at their places -/

/-- The entries of `data`, the first of them at place `n`, have the levels of
    their places. -/
def PolarFrom : Nat → List Emission → Prop
  | _, [] => True
  | n, e :: data => e.1 = rawLevel n ∧ PolarFrom (n + 1) data

theorem polarFrom_append {n : Nat} {s t : List Emission} :
    PolarFrom n (s ++ t) ↔ PolarFrom n s ∧ PolarFrom (n + s.length) t := by
  induction s generalizing n with
  | nil => simp [PolarFrom]
  | cons e s ih =>
    rw [List.cons_append, PolarFrom, PolarFrom, ih, List.length_cons, and_assoc]
    have h : n + 1 + s.length = n + (s.length + 1) := by omega
    rw [h]

/-- **`PolarFrom` entry by entry.** -/
theorem polarFrom_iff {n : Nat} {data : List Emission} :
    PolarFrom n data ↔ ∀ i e, data[i]? = some e → e.1 = rawLevel (n + i) := by
  induction data generalizing n with
  | nil => simp [PolarFrom]
  | cons f data ih =>
    rw [PolarFrom, ih]
    constructor
    · rintro ⟨h1, h2⟩ i e he
      cases i with
      | zero =>
        simp only [List.getElem?_cons_zero, Option.some.injEq] at he
        rw [← he, Nat.add_zero]
        exact h1
      | succ i =>
        have h3 := h2 i e (by simpa using he)
        rw [h3]
        congr 1
        omega
    · intro h
      refine ⟨h 0 f rfl, fun i e he => ?_⟩
      have h3 := h (i + 1) e (by simpa using he)
      rw [h3]
      congr 1
      omega

theorem rawLevel_add_even {n : Nat} (h : n % 2 = 0) (i : Nat) : rawLevel (n + i) = rawLevel i := by
  have : (n + i) % 2 = i % 2 := by omega
  rw [rawLevel, rawLevel, this]

theorem rawLevel_succ (n : Nat) : rawLevel (n + 1) = (rawLevel n).other := by
  unfold rawLevel
  by_cases h : n % 2 = 0
  · have h1 : (n + 1) % 2 ≠ 0 := by omega
    simp [h, h1, Level.other]
  · have h1 : (n + 1) % 2 = 0 := by omega
    simp [h, h1, Level.other]

/-- Only the parity of the first place matters. -/
theorem polarFrom_even {n : Nat} (h : n % 2 = 0) {data : List Emission} :
    PolarFrom n data ↔ PolarFrom 0 data := by
  rw [polarFrom_iff, polarFrom_iff]
  simp only [rawLevel_add_even h, Nat.zero_add]

/-- **An alternating signal is at its place** as soon as its first run is. -/
theorem polarFrom_of_alternating {n : Nat} {s : List Emission} (ha : Alternating s)
    (hf : ∀ e, s.head? = some e → e.1 = rawLevel n) : PolarFrom n s := by
  induction s generalizing n with
  | nil => trivial
  | cons e s ih =>
    have he : e.1 = rawLevel n := hf e rfl
    refine ⟨he, ih ha.tail fun f hfs => ?_⟩
    cases s with
    | nil => simp at hfs
    | cons g s =>
      simp only [List.head?_cons, Option.some.injEq] at hfs
      subst hfs
      have hne := (alternating_cons_cons.mp ha).1
      rw [rawLevel_succ, ← he]
      exact Level.eq_other_of_ne (Ne.symm hne)

theorem polarFrom_rawSignalFrom (i : Nat) (signals : List Int) :
    PolarFrom i (rawSignalFrom i signals) := by
  induction signals generalizing i with
  | nil => trivial
  | cons s signals ih => exact ⟨rfl, ih (i + 1)⟩

theorem polarFrom_dropSpace {n : Nat} {data : List Emission} (h : PolarFrom n data) :
    PolarFrom n (dropSpace data) := by
  unfold dropSpace
  split
  · rcases List.eq_nil_or_concat data with rfl | ⟨s, e, rfl⟩
    · exact h
    · rw [List.concat_eq_append] at h ⊢
      rw [List.dropLast_concat]
      exact (polarFrom_append.mp h).1
  · exact h

/-- **The gap is at its place**: `sync_send_buffer` leaves an odd number of
    entries. -/
theorem polarFrom_closeFrame {data : List Emission} {h g : Int} (hp : PolarFrom 0 data) :
    PolarFrom 0 (closeFrame data h g) := by
  unfold closeFrame
  split
  · trivial
  · rename_i hd
    refine polarFrom_append.mpr ⟨polarFrom_dropSpace hp, ?_, trivial⟩
    have hpos := List.length_pos_iff.mpr hd
    have hodd : (0 + (dropSpace data).length) % 2 ≠ 0 := by
      rw [length_dropSpace]
      split <;> omega
    rw [rawLevel, if_neg hodd]

/-! ## 2. The entries of a frame of positive times -/

/-- Every time of the signal is positive. -/
def Positive (s : List Emission) : Prop := ∀ e ∈ s, 0 < e.2

theorem Positive.nonNeg {s : List Emission} (h : Positive s) : NonNeg s :=
  fun e he => Int.le_of_lt (h e he)

theorem filter_positive {s : List Emission} (h : Positive s) :
    s.filter (fun e => decide (0 < e.2)) = s :=
  List.filter_eq_self.mpr fun e he => by simpa using h e he

/-- **The normal form of a frame is what the frame writes**, and the space that
    is left pending. -/
theorem coalesce_eq_flushed {s : List Emission} (h : Positive s) :
    coalesce s = flushed s ++
      (if 0 < openRun s .space then [(.space, openRun s .space)] else []) := by
  have hc : Positive (coalesce s) := coalesce_pos h
  by_cases hs : s = []
  · subst hs
    rfl
  · obtain ⟨u, l, d, hu⟩ := coalesce_snoc_of_ne_nil hs
    have hd : 0 < d := hc (l, d) (by rw [hu]; simp)
    have hcl : closed s = u := by
      rw [closed_of_snoc hu]
      exact filter_positive fun e he => hc e (by rw [hu]; exact List.mem_append_left _ he)
    rw [flushed, hcl, openRun_of_snoc _ hu, openRun_of_snoc _ hu, hu]
    cases l <;> simp [hd]

/-- A signal without a pulse. -/
def Mute (s : List Emission) : Prop := ∀ e ∈ s, e.1 = .space

/-- The signal starts with a pulse, or has none. -/
def Upright (s : List Emission) : Prop := Mute s ∨ ∀ e, s.head? = some e → e.1 = .pulse

theorem mute_iff {s : List Emission} : Mute s ↔ ¬ ∃ e ∈ s, e.1 = .pulse := by
  constructor
  · rintro h ⟨e, he, hp⟩
    rw [h e he] at hp
    simp at hp
  · intro h e he
    cases hl : e.1 with
    | space => rfl
    | pulse => exact absurd ⟨e, he, hl⟩ h

theorem mute_coalesce {s : List Emission} : Mute (coalesce s) ↔ Mute s := by
  rw [mute_iff, mute_iff, exists_level_coalesce]

/-- A signal without a pulse is one space. -/
theorem coalesce_of_mute {s : List Emission} (h : Mute s) :
    s = [] ∨ ∃ d, coalesce s = [(.space, d)] := by
  have hm := mute_coalesce.mpr h
  have ha := alternating_coalesce s
  cases hc : coalesce s with
  | nil => exact .inl (coalesce_eq_nil.mp hc)
  | cons e t =>
    right
    rw [hc] at hm ha
    obtain ⟨l, d⟩ := e
    have hl : l = .space := hm (l, d) List.mem_cons_self
    cases t with
    | nil => exact ⟨d, by rw [hl]⟩
    | cons f t =>
      have hf : f.1 = .space := hm f (by simp)
      exact absurd (hl.trans hf.symm) (alternating_cons_cons.mp ha).1

/-- **A frame without a pulse writes nothing.** -/
theorem flushed_of_mute {s : List Emission} (h : Mute s) : flushed s = [] := by
  rcases coalesce_of_mute h with rfl | ⟨d, hd⟩
  · rfl
  · have hu : coalesce s = [] ++ [(.space, d)] := hd
    rw [flushed, closed_of_snoc hu, openRun_of_snoc _ hu]
    simp

theorem alternating_flushed {s : List Emission} (h : Positive s) : Alternating (flushed s) := by
  have ha := alternating_coalesce s
  rw [coalesce_eq_flushed h] at ha
  exact (List.isChain_append.mp ha).1

/-- The first entry a frame writes has the level of its first call. -/
theorem flushed_head {s : List Emission} (h : Positive s) {e : Emission}
    (he : (flushed s).head? = some e) : ∃ d t, s = (e.1, d) :: t := by
  have hc := coalesce_head_level s
  rw [coalesce_eq_flushed h, List.head?_append, he] at hc
  cases s with
  | nil => simp at hc
  | cons f s =>
    obtain ⟨l, d⟩ := f
    have hl : e.1 = l := by simpa using hc
    exact ⟨d, s, by rw [hl]⟩

/-- **A frame that starts with a space and has a pulse** writes a space and a
    pulse at least. -/
theorem flushed_of_not_upright {s : List Emission} (h : Positive s) (hu : ¬ Upright s) :
    ∃ d f t, flushed s = (.space, d) :: f :: t := by
  unfold Upright at hu
  rw [not_or] at hu
  obtain ⟨hm, hh⟩ := hu
  cases s with
  | nil => exact absurd (fun e he => by simp at he) hm
  | cons e s =>
    obtain ⟨l, d⟩ := e
    have hl : l = .space := by
      cases l with
      | space => rfl
      | pulse => exact absurd (fun f hf => by simp at hf; rw [← hf]) hh
    subst hl
    obtain ⟨x, v, hc, -⟩ := coalesce_first (l := .space) (d := d)
      (t := s) (fun f hf => (h.nonNeg) f (List.mem_cons_of_mem _ hf))
    have heq := coalesce_eq_flushed h
    rw [hc] at heq
    cases v with
    | nil =>
      -- one run only: then every call was a space
      exfalso
      apply hm
      rw [← mute_coalesce, hc]
      intro f hf
      rw [List.mem_singleton.mp hf]
    | cons f v =>
      have hf : flushed ((Level.space, d) :: s) ≠ [] := by
        intro h0
        rw [h0, List.nil_append] at heq
        split at heq <;> simp at heq
      obtain ⟨g, w, hg⟩ := List.exists_cons_of_ne_nil hf
      rw [hg, List.cons_append] at heq
      obtain ⟨hgx, heq⟩ := List.cons.inj heq
      cases w with
      | cons f' w => exact ⟨x, f', w, by rw [hg, ← hgx]⟩
      | nil =>
        -- then the second run is the pending space, next to a space
        exfalso
        rw [List.nil_append] at heq
        have ha := alternating_coalesce ((Level.space, d) :: s)
        rw [hc, heq] at ha
        split at ha
        · exact (alternating_cons_cons.mp ha).1 rfl
        · rename_i hno
          rw [if_neg hno] at heq
          simp at heq

/-! ## 3. One frame -/

/-- The signal of a frame: the calls of an encoder, or the raw signals. -/
def frameSignal (remote : IrRemote) (code : IrNcode) : FrameKind → List Emission
  | .raw => rawSignal (signalsOf code)
  | k => kindSignal remote k

theorem positive_audible (data : List Emission) {s : List Emission} (h : Positive s) : Positive (audible data s) :=
  fun e he => h e ((audible_sublist data s).subset he)

/-- On an empty buffer every frame starts with a pulse. -/
theorem audible_head {s : List Emission} (h : Positive s) {e : Emission}
    (he : (audible [] s).head? = some e) : e.1 = .pulse := by
  rcases audible_audible {} h.nonNeg with ha | ha
  · exact absurd rfl ha
  · exact (ha e he).1

theorem audible_eq_nil {s : List Emission} (h : Positive s) : audible [] s = [] ↔ Mute s := by
  rw [audible, if_pos rfl, List.dropWhile_eq_nil_iff]
  unfold Mute silent
  constructor
  · intro hs e he
    have h0 := h e he
    have h1 : e.2 ≠ 0 := by omega
    simpa [h1] using hs e he
  · intro hs e he
    simp [hs e he]

/-- **A frame keeps the polarity** if the buffer is empty or the frame starts
    with a pulse. -/
theorem polar_sendKind {remote : IrRemote} {code : IrNcode} {data : List Emission}
    {kind : FrameKind} (hpos : Positive (frameSignal remote code kind)) (hp : PolarFrom 0 data)
    (he : data.length % 2 = 0) (hu : data = [] ∨ Upright (frameSignal remote code kind)) :
    PolarFrom 0 (sendKind remote code data kind) := by
  refine polarFrom_closeFrame (polarFrom_append.mpr ⟨hp, ?_⟩)
  rw [polarFrom_even (by omega)]
  -- the entries of an encoded frame
  have key {s : List Emission} (hs : Positive s) (hus : data = [] ∨ Upright s) :
      PolarFrom 0 (flushed (audible data s)) := by
    have hsa := positive_audible data hs
    by_cases hm : Mute (audible data s)
    · rw [flushed_of_mute hm]
      trivial
    · refine polarFrom_of_alternating (alternating_flushed hsa) fun e hfe => ?_
      obtain ⟨d, t, ht⟩ := flushed_head hsa hfe
      rcases hus with rfl | hus
      · exact audible_head (e := (e.1, d)) hs (by rw [ht]; rfl)
      · by_cases hd : data = []
        · subst hd
          exact audible_head (e := (e.1, d)) hs (by rw [ht]; rfl)
        · rw [audible, if_neg hd] at ht hm
          rcases hus with hus | hus
          · exact absurd hus hm
          · exact hus (e.1, d) (by rw [ht]; rfl)
  cases kind with
  | raw => exact polarFrom_rawSignalFrom 0 _
  | code part rep t => exact key hpos hu
  | repeatFrame => exact key hpos hu

/-- **An empty buffer stays empty** exactly under a frame without a pulse. -/
theorem sendKind_eq_nil {remote : IrRemote} {code : IrNcode} (data : List Emission)
    {kind : FrameKind} (hpos : Positive (frameSignal remote code kind)) :
    sendKind remote code data kind = [] ↔ data = [] ∧ Mute (frameSignal remote code kind) := by
  have hclose : sendKind remote code data kind = [] ↔
      data ++ entries remote code data kind = [] := by
    unfold sendKind closeFrame
    split
    · rename_i h
      simp [h]
    · rename_i h
      simpa using h
  have key {s : List Emission} (hs : Positive s) :
      (data = [] ∧ flushed (audible data s) = []) ↔ data = [] ∧ Mute s := by
    constructor
    · rintro ⟨rfl, h⟩
      exact ⟨rfl, (audible_eq_nil hs).mp
        (audible_eq_nil_of_flushed {} hs.nonNeg (by simpa using h))⟩
    · rintro ⟨rfl, h⟩
      refine ⟨rfl, ?_⟩
      rw [(audible_eq_nil hs).mpr h]
      rfl
  rw [hclose, List.append_eq_nil_iff]
  cases kind with
  | code part rep t => exact key hpos
  | repeatFrame => exact key hpos
  | raw =>
    show (data = [] ∧ rawSignal _ = []) ↔ (data = [] ∧ Mute (rawSignal _))
    cases hs : signalsOf code with
    | nil => simp [rawSignal, rawSignalFrom, Mute]
    | cons s signals => simp [rawSignal, rawSignalFrom, Mute, rawLevel]

/-- **A frame that starts with a space** behind other frames is written one
    place off, and nothing that follows removes it. -/
theorem sendKind_tilted {remote : IrRemote} {code : IrNcode} {data : List Emission}
    {kind : FrameKind} (hpos : Positive (frameSignal remote code kind)) (hd : data ≠ [])
    (hu : ¬ Upright (frameSignal remote code kind)) :
    ∃ d, (sendKind remote code data kind)[data.length]? = some (.space, d) ∧
      data.length + 1 < (sendKind remote code data kind).length := by
  have key {s : List Emission} (hs : Positive s) (hus : ¬ Upright s) (h g : Int) :
      ∃ d, (closeFrame (data ++ flushed (audible data s)) h g)[data.length]? = some (.space, d) ∧
        data.length + 1 < (closeFrame (data ++ flushed (audible data s)) h g).length := by
    rw [length_closeFrame, audible, if_neg hd]
    obtain ⟨d, f, t, ht⟩ := flushed_of_not_upright hs hus
    rw [ht]
    refine ⟨d, ?_, by simp; omega⟩
    unfold closeFrame
    rw [if_neg (by simp)]
    have hlt : data.length < (dropSpace (data ++ (Level.space, d) :: f :: t)).length := by
      rw [length_dropSpace]
      simp only [List.length_append, List.length_cons]
      split <;> omega
    rw [List.getElem?_append_left hlt]
    unfold dropSpace
    split
    · rw [List.getElem?_dropLast]
      simp
    · simp
  cases kind with
  | code part rep t => exact key hpos hu _ _
  | repeatFrame => exact key hpos hu _ _
  | raw =>
    exfalso
    apply hu
    right
    intro e he
    cases hs : signalsOf code with
    | nil => simp [frameSignal, rawSignal, rawSignalFrom, hs] at he
    | cons s signals =>
      simp only [frameSignal, rawSignal, rawSignalFrom, hs, List.head?_cons,
        Option.some.injEq] at he
      rw [← he]
      rfl

/-- A later frame rewrites the last entry at most. -/
theorem getElem?_sendKind {remote : IrRemote} {code : IrNcode} {data : List Emission}
    {kind : FrameKind} {i : Nat} (hi : i + 1 < data.length) :
    (sendKind remote code data kind)[i]? = data[i]? := by
  unfold sendKind closeFrame
  generalize entries remote code data kind = F
  have hne : data ++ F ≠ [] := by
    intro h
    rw [(List.append_eq_nil_iff.mp h).1] at hi
    simp at hi
  have hlt : i < (dropSpace (data ++ F)).length := by
    rw [length_dropSpace, List.length_append]
    split <;> omega
  rw [if_neg hne, List.getElem?_append_left hlt]
  unfold dropSpace
  split
  · rw [List.getElem?_dropLast, if_pos (by rw [List.length_append]; omega)]
    exact List.getElem?_append_left (by omega)
  · exact List.getElem?_append_left (by omega)

/-! ## 4. The transmission -/

/-- Every frame of the schedule lasts a positive time, call by call, and so
    does the gap. -/
structure PositiveDurations (remote : IrRemote) (code : IrNcode) (repeats : Int) : Prop where
  signal : ∀ k ∈ schedule remote code repeats, Positive (frameSignal remote code k)
  gap : 0 < minGap remote

/-- The frames behind a frame with a pulse start with a pulse, or have none. -/
def UprightFrames (remote : IrRemote) (code : IrNcode) (kinds : List FrameKind) : Prop :=
  ∀ before k after, kinds = before ++ k :: after →
    (∃ j ∈ before, ¬ Mute (frameSignal remote code j)) → Upright (frameSignal remote code k)

theorem PositiveDurations.lasting {remote : IrRemote} {code : IrNcode} {repeats : Int}
    (h : PositiveDurations remote code repeats) : LastingSchedule remote code repeats := by
  intro k hk
  refine ⟨?_, fun _ => h.gap⟩
  have hs := h.signal k hk
  cases k with
  | code part rep t => exact hs.nonNeg
  | repeatFrame => exact hs.nonNeg
  | raw => exact fun e he => by simp [kindSignal] at he

section Transmit

variable {remote : IrRemote} {code : IrNcode}

/-- Entries in front of the last one stay. -/
theorem getElem?_transmit (kinds : List FrameKind) {data : List Emission} {i : Nat}
    (hi : i + 1 < data.length) : (transmit remote code kinds data)[i]? = data[i]? := by
  induction kinds generalizing data with
  | nil => rfl
  | cons k kinds ih =>
    have hlen := length_sendKind remote code data k
    rw [List.length_append] at hlen
    rw [transmit, ih (by omega), getElem?_sendKind hi]

/-- The frames behind the first, once the buffer is in use or not. -/
theorem uprightFrames_cons {k : FrameKind} {kinds : List FrameKind} {data : List Emission}
    (hpos : Positive (frameSignal remote code k)) :
    (∀ before j after, k :: kinds = before ++ j :: after →
      (data ≠ [] ∨ ∃ i ∈ before, ¬ Mute (frameSignal remote code i)) →
        Upright (frameSignal remote code j)) ↔
    (data ≠ [] → Upright (frameSignal remote code k)) ∧
    ∀ before j after, kinds = before ++ j :: after →
      (sendKind remote code data k ≠ [] ∨ ∃ i ∈ before, ¬ Mute (frameSignal remote code i)) →
        Upright (frameSignal remote code j) := by
  have hnil := sendKind_eq_nil data hpos
  constructor
  · intro h
    refine ⟨fun hd => h [] k kinds rfl (.inl hd), fun before j after he hor => ?_⟩
    refine h (k :: before) j after (by rw [he]; rfl) ?_
    rcases hor with hne | ⟨i, hi, hm⟩
    · by_cases hd : data = []
      · right
        exact ⟨k, List.mem_cons_self, fun hm => hne (hnil.mpr ⟨hd, hm⟩)⟩
      · exact .inl hd
    · exact .inr ⟨i, List.mem_cons_of_mem _ hi, hm⟩
  · rintro ⟨h1, h2⟩ before j after he hor
    cases before with
    | nil =>
      obtain ⟨rfl, rfl⟩ := List.cons.inj he
      rcases hor with hd | ⟨i, hi, -⟩
      · exact h1 hd
      · simp at hi
    | cons b before =>
      obtain ⟨rfl, hk⟩ := List.cons.inj he
      refine h2 before j after hk ?_
      rcases hor with hd | ⟨i, hi, hm⟩
      · exact .inl fun h => hd (hnil.mp h).1
      · rcases List.mem_cons.mp hi with rfl | hi
        · exact .inl fun h => hm (hnil.mp h).2
        · exact .inr ⟨i, hi, hm⟩

/-- **The polarity of the frames that are still to come**, by induction on
    them: `data` is what is in the buffer already. -/
theorem polar_transmit {kinds : List FrameKind} (data : List Emission)
    (hpos : ∀ k ∈ kinds, Positive (frameSignal remote code k)) (hp : PolarFrom 0 data)
    (he : data.length % 2 = 0) :
    PolarFrom 0 (transmit remote code kinds data) ↔
      ∀ before k after, kinds = before ++ k :: after →
        (data ≠ [] ∨ ∃ j ∈ before, ¬ Mute (frameSignal remote code j)) →
          Upright (frameSignal remote code k) := by
  induction kinds generalizing data with
  | nil => simpa [transmit] using hp
  | cons k kinds ih =>
    have hk : Positive (frameSignal remote code k) := hpos k List.mem_cons_self
    rw [uprightFrames_cons hk, transmit]
    by_cases hu : data = [] ∨ Upright (frameSignal remote code k)
    · have hlen := length_sendKind remote code data k
      rw [ih _ (fun j hj => hpos j (List.mem_cons_of_mem _ hj)) (polar_sendKind hk hp he hu)
        (by omega)]
      have hfirst : data ≠ [] → Upright (frameSignal remote code k) := fun hd => hu.resolve_left hd
      exact ⟨fun h => ⟨hfirst, h⟩, fun h => h.2⟩
    · -- this frame is one place off
      obtain ⟨hd, hu⟩ := not_or.mp hu
      obtain ⟨d, hat, hlt⟩ := sendKind_tilted hk hd hu
      refine ⟨fun h => ?_, fun h => absurd (h.1 hd) hu⟩
      exfalso
      rw [← getElem?_transmit kinds hlt] at hat
      have hlev := polarFrom_iff.mp h _ _ hat
      rw [Nat.zero_add, rawLevel, if_pos he] at hlev
      simp at hlev

end Transmit

/-- **When the polarity of a transmission is right**: `init_send` returns 1,
    and every entry stands at the place of its level, exactly if every frame
    behind a frame with a pulse starts with a pulse or has none. -/
theorem polarity_iff (fuel : Nat) (remote : IrRemote) (code : IrNcode) (repeats : Int)
    (res : SendResult) (hpos : PositiveDurations remote code repeats)
    (h : initSend fuel remote code repeats = some res) (hret : res.ret = true) :
    (∀ i e, res.buf.data[i]? = some e → e.1 = if i % 2 = 0 then .pulse else .space) ↔
      UprightFrames remote code (schedule remote code repeats) := by
  obtain ⟨-, hdata, -, -⟩ := initSend_sent h hret hpos.lasting
  have hiff := polar_transmit [] hpos.signal trivial rfl
  rw [polarFrom_iff, ← hdata] at hiff
  simp only [Nat.zero_add, rawLevel] at hiff
  rw [hiff]
  simp [UprightFrames]

/-- A space-encoded remote with a trailing pulse. -/
def plainRemote : IrRemote :=
  { name := "plain", flags := SPACE_ENC, bits := 2, eps := 30, aeps := 100,
    pone := 500, sone := 1500, pzero := 500, szero := 500, ptrail := 500, gap := 40000 }

def plainCode : IrNcode := { name := "KEY_A", code := 2 }

theorem positive_plainRemote : PositiveDurations plainRemote plainCode 1 where
  signal := by
    unfold Positive
    decide
  gap := by decide

/-- The condition is met, and so is the polarity. -/
theorem polarity_iff_plainRemote :
    (∀ i e, ((initSend 2 plainRemote plainCode 1).get (by decide)).buf.data[i]? = some e →
      e.1 = if i % 2 = 0 then .pulse else .space) ↔
    UprightFrames plainRemote plainCode (schedule plainRemote plainCode 1) :=
  polarity_iff 2 plainRemote plainCode 1 _ positive_plainRemote (Option.some_get _).symm
    (by decide)

/-- An RC5 remote of one bit, with neither header nor lead pulse. -/
def bareRc5 : IrRemote :=
  { flags := RC5, bits := 1, pone := 889, sone := 889, pzero := 889, szero := 889, gap := 100000 }

/-- **The second frame is one place off**: a one starts with a space, which the
    empty buffer ignores in the first frame and the buffer in use does not. -/
theorem polarity_bareRc5 :
    PositiveDurations bareRc5 { name := "KEY_1", code := 1 } 1 ∧
    ∃ res, initSend 2 bareRc5 { name := "KEY_1", code := 1 } 1 = some res ∧ res.ret = true ∧
      ¬ ∀ i e, res.buf.data[i]? = some e → e.1 = if i % 2 = 0 then .pulse else .space := by
  refine ⟨⟨?_, by decide⟩, _, rfl, by decide, fun h => ?_⟩
  · unfold Positive
    decide
  · have h2 := h 2 (.space, 889) (by decide)
    simp at h2

end WinLirc
