/-
  File:      WinLirc/ConstLength.lean
  Subject:   The length of a frame with its gap, for constant-length remotes.

  LIRCDefines.h: "signal length+gap is always constant". `init_send` computes
  the gap from `sum`, the time of the entries written so far. A space that is
  still pending then is not in `sum`, yet it is sent, as part of the gap's
  entry; an entry that `sync_send_buffer` takes back is in `sum`, yet it is
  not sent. `constLength` says that these two are all that can go wrong:
  the frame and its gap take `min_gap` exactly if they balance (`Balanced`).
  For a frame that starts with a pulse that is: it ends with one
  (`balanced_iff`).
-/
import WinLirc.FrameCount

namespace WinLirc

open Signal

/-! ## 1. One frame -/

/-- What a frame adds to the buffer, the first frame or a later one. -/
def frameEntries (remote : IrRemote) (code : IrNcode) (first : Bool) : FrameKind → List Emission
  | .raw => rawSignal (signalsOf code)
  | k => flushed (if first then (kindSignal remote k).dropWhile silent else kindSignal remote k)

/-- The space that is pending behind it. -/
def frameHeld (remote : IrRemote) (first : Bool) : FrameKind → Int
  | .raw => 0
  | k => openRun (if first then (kindSignal remote k).dropWhile silent else kindSignal remote k)
      .space

/-- The time `sync_send_buffer` takes back from these entries. -/
def takenBack (F : List Emission) : Int :=
  if F.length % 2 = 0 then (F.getLast?.map Prod.snd).getD 0 else 0

/-- **A balanced frame**: it writes something, and the space pending behind it
    is as long as what `sync_send_buffer` takes back. -/
def Balanced (remote : IrRemote) (code : IrNcode) (first : Bool) (kind : FrameKind) : Prop :=
  frameEntries remote code first kind ≠ [] ∧
    frameHeld remote first kind = takenBack (frameEntries remote code first kind)

theorem entries_eq (remote : IrRemote) (code : IrNcode) (data : List Emission)
    (kind : FrameKind) : entries remote code data kind =
      frameEntries remote code (decide (data = [])) kind := by
  cases kind <;> simp [entries, frameEntries, audible]

theorem heldSpace_eq (remote : IrRemote) (data : List Emission) (kind : FrameKind) :
    heldSpace remote data kind = frameHeld remote (decide (data = [])) kind := by
  cases kind <;> simp [heldSpace, frameHeld, audible]

theorem dropSpace_append {data F : List Emission} (he : data.length % 2 = 0) (hF : F ≠ []) :
    dropSpace (data ++ F) = data ++ (if F.length % 2 = 0 then F.dropLast else F) := by
  have hpos := List.length_pos_iff.mpr hF
  unfold dropSpace
  rw [List.length_append]
  by_cases h : F.length % 2 = 0
  · rw [if_pos (by omega), if_pos h, List.dropLast_append_of_ne_nil hF]
  · rw [if_neg (by omega), if_neg h]

/-- What a frame with entries puts behind the frames before it. -/
theorem closeFrame_append {data F : List Emission} {h g : Int} (he : data.length % 2 = 0)
    (hF : F ≠ []) : closeFrame (data ++ F) h g =
      data ++ ((if F.length % 2 = 0 then F.dropLast else F) ++ [(.space, h + g)]) := by
  rw [closeFrame, if_neg (by simp [hF]), dropSpace_append he hF, List.append_assoc]

theorem total_dropLast {F : List Emission} (hF : F ≠ []) :
    total (if F.length % 2 = 0 then F.dropLast else F) = total F - takenBack F := by
  unfold takenBack
  split
  · obtain ⟨u, e, rfl⟩ : ∃ u e, F = u ++ [e] := by
      rcases List.eq_nil_or_concat F with h | ⟨u, e, h⟩
      · exact absurd h hF
      · exact ⟨u, e, by simpa using h⟩
    simp
  · simp

section Const

variable {remote : IrRemote} {code : IrNcode}

/-- The gap of a constant-length frame. -/
theorem frameGap_const (hconst : isConst remote = true)
    (hhead : hasFlag remote NO_HEAD_REP = false) (hgap : hasRepeatGap remote = false)
    {data : List Emission} {kind : FrameKind} {g : Int}
    (h : frameGap remote code data kind = some g) :
    g = minGap remote - total (entries remote code data kind) ∧ 0 < g := by
  have hcut : kindCut remote kind = 0 := by
    cases kind <;> simp [kindCut, sumCut, hhead]
  unfold frameGap kindGap at h
  rw [hcut, hgap, hconst] at h
  simp only [Bool.false_and, Bool.false_eq_true, if_false, if_true, Int.sub_zero] at h
  split at h
  · simp only [Option.some.injEq] at h
    omega
  · simp at h

/-- **The time of a frame with its gap**, when it is sent. -/
theorem total_sendKind (hconst : isConst remote = true)
    (hhead : hasFlag remote NO_HEAD_REP = false) (hgap : hasRepeatGap remote = false)
    {data : List Emission} {kind : FrameKind} (he : data.length % 2 = 0)
    (hs : Sends remote code data kind) (hF : entries remote code data kind ≠ []) :
    ∃ t, sendKind remote code data kind = data ++ t ∧
      total t = minGap remote + heldSpace remote data kind -
        takenBack (entries remote code data kind) := by
  obtain ⟨g, hg⟩ := Option.isSome_iff_exists.mp hs.2.2
  obtain ⟨hgv, -⟩ := frameGap_const hconst hhead hgap hg
  refine ⟨_, closeFrame_append he hF, ?_⟩
  rw [hg, total_append, total_dropLast hF, total_cons, total_nil]
  show total _ - takenBack _ + (heldSpace remote data kind + g + 0) = _
  omega

/-- A frame without entries sends nothing of its own. -/
theorem length_sendKind_of_empty {data : List Emission} {kind : FrameKind}
    (he : data.length % 2 = 0) (hF : entries remote code data kind = []) :
    (sendKind remote code data kind).length = data.length := by
  rw [length_sendKind, hF, List.append_nil]
  omega

/-! ## 2. The frames of a transmission -/

/-- The entries of a frame of the log, its gap included. -/
def Frame.entries (f : Frame) (data : List Emission) : List Emission :=
  (data.drop f.start).take (f.stop - f.start)

/-- Every frame behind `data` writes something. -/
def AllWrite (remote : IrRemote) (code : IrNcode) : List FrameKind → List Emission → Prop
  | [], _ => True
  | k :: kinds, data =>
    WinLirc.entries remote code data k ≠ [] ∧
      AllWrite remote code kinds (sendKind remote code data k)

/-- If every frame writes something, no frame touches those before it. -/
theorem transmit_append {kinds : List FrameKind} {data : List Emission}
    (he : data.length % 2 = 0) (hw : AllWrite remote code kinds data) :
    ∃ t, transmit remote code kinds data = data ++ t := by
  induction kinds generalizing data with
  | nil => exact ⟨[], (List.append_nil data).symm⟩
  | cons k kinds ih =>
    obtain ⟨hF, hw⟩ := hw
    have hlen := length_sendKind remote code data k
    obtain ⟨t, ht⟩ := ih (by omega) hw
    rw [transmit, ht]
    unfold sendKind
    rw [closeFrame_append he hF, List.append_assoc]
    exact ⟨_, rfl⟩

/-- The time the frames behind `data` balance by, frame by frame. -/
def imbalances (remote : IrRemote) (code : IrNcode) : List FrameKind → List Emission → List Int
  | [], _ => []
  | k :: kinds, data =>
    (heldSpace remote data k - takenBack (WinLirc.entries remote code data k)) ::
      imbalances remote code kinds (sendKind remote code data k)

/-- **The times of all frames**, by induction on the frames still to come. -/
theorem totals_transmit (hconst : isConst remote = true)
    (hhead : hasFlag remote NO_HEAD_REP = false) (hgap : hasRepeatGap remote = false)
    {kinds : List FrameKind} {data : List Emission} (he : data.length % 2 = 0)
    (hall : AllSend remote code kinds data) (hw : AllWrite remote code kinds data) :
    (transmitFrames remote code kinds data).map
        (fun f => total (f.entries (transmit remote code kinds data))) =
      (imbalances remote code kinds data).map (minGap remote + ·) := by
  induction kinds generalizing data with
  | nil => rfl
  | cons k kinds ih =>
    obtain ⟨hs, hall⟩ := hall
    obtain ⟨hF, hw⟩ := hw
    have hlen := length_sendKind remote code data k
    have he' : (sendKind remote code data k).length % 2 = 0 := by omega
    rw [transmitFrames, transmit, imbalances, List.map_cons, List.map_cons, ih he' hall hw]
    congr 1
    obtain ⟨t, ht, htot⟩ := total_sendKind hconst hhead hgap he hs hF
    obtain ⟨u, hu⟩ := transmit_append he' hw
    have hslice : Frame.entries ⟨k, data.length, (sendKind remote code data k).length⟩
        (transmit remote code kinds (sendKind remote code data k)) = t := by
      rw [Frame.entries, hu, ht]
      simp
    rw [hslice, htot]
    omega

/-- A frame that writes nothing has no time. -/
theorem allWrite_of_totals (hconst : isConst remote = true)
    (hhead : hasFlag remote NO_HEAD_REP = false) (hgap : hasRepeatGap remote = false)
    {kinds : List FrameKind} {data final : List Emission} (he : data.length % 2 = 0)
    (hall : AllSend remote code kinds data)
    (h : ∀ f ∈ transmitFrames remote code kinds data, total (f.entries final) = minGap remote) :
    AllWrite remote code kinds data := by
  induction kinds generalizing data with
  | nil => trivial
  | cons k kinds ih =>
    obtain ⟨hs, hall⟩ := hall
    have hlen := length_sendKind remote code data k
    refine ⟨fun hF => ?_, ih (by omega) hall fun f hf => h f (List.mem_cons_of_mem _ hf)⟩
    obtain ⟨g, hg⟩ := Option.isSome_iff_exists.mp hs.2.2
    obtain ⟨hgv, hg0⟩ := frameGap_const hconst hhead hgap hg
    rw [hF, total_nil] at hgv
    have hk := h _ List.mem_cons_self
    rw [Frame.entries, length_sendKind_of_empty he hF] at hk
    simp at hk
    omega

/-- The frames balance one by one: only the first one meets an empty buffer. -/
theorem balanced_iff_imbalances {kinds : List FrameKind} (data : List Emission)
    (he : data.length % 2 = 0) :
    (∀ before k after, kinds = before ++ k :: after →
        Balanced remote code (decide (data = []) && before.isEmpty) k) ↔
      AllWrite remote code kinds data ∧ ∀ x ∈ imbalances remote code kinds data, x = 0 := by
  induction kinds generalizing data with
  | nil => simp [AllWrite, imbalances]
  | cons k kinds ih =>
    have hlen := length_sendKind remote code data k
    have ih' := @ih (sendKind remote code data k) (by omega)
    have hhead : Balanced remote code (decide (data = [])) k ↔
        WinLirc.entries remote code data k ≠ [] ∧
          heldSpace remote data k - takenBack (WinLirc.entries remote code data k) = 0 := by
      rw [entries_eq, heldSpace_eq, Balanced]
      constructor
      · exact fun h => ⟨h.1, by omega⟩
      · exact fun h => ⟨h.1, by omega⟩
    have hused (hF : WinLirc.entries remote code data k ≠ []) :
        sendKind remote code data k ≠ [] := by
      unfold sendKind closeFrame
      rw [if_neg (by simp [hF])]
      simp
    rw [AllWrite, imbalances, List.forall_mem_cons]
    constructor
    · intro h
      obtain ⟨hF, h0⟩ := hhead.mp (by simpa using h [] k kinds rfl)
      obtain ⟨h1, h2⟩ := ih'.mp fun before j after hsplit => by
        have hj := h (k :: before) j after (by rw [hsplit]; rfl)
        simpa [hused hF] using hj
      exact ⟨⟨hF, h1⟩, h0, h2⟩
    · rintro ⟨⟨hF, h1⟩, h0, h2⟩ before j after hsplit
      cases before with
      | nil =>
        obtain ⟨rfl, -⟩ := List.cons.inj hsplit
        simpa using hhead.mpr ⟨hF, h0⟩
      | cons b before =>
        obtain ⟨rfl, hrest⟩ := List.cons.inj hsplit
        have hj := ih'.mpr ⟨h1, h2⟩ before j after hrest
        simpa [hused hF] using hj

end Const

/-- **The constant length**: in every transmission that succeeds, if no frame
    has a negative time and every frame balances, each frame takes `min_gap`
    with its gap; and where no time is negative, only then. -/
theorem constLength (fuel : Nat) (remote : IrRemote) (code : IrNcode) (repeats : Int)
    (res : SendResult) (hconst : isConst remote = true)
    (hhead : hasFlag remote NO_HEAD_REP = false) (hgap : hasRepeatGap remote = false)
    (h : initSend fuel remote code repeats = some res) (hret : res.ret = true) :
    ((∀ before k after, schedule remote code repeats = before ++ k :: after →
        NonNeg (kindSignal remote k) ∧ Balanced remote code before.isEmpty k) →
      ∀ f ∈ res.frames, total (f.entries res.buf.data) = minGap remote) ∧
    ((∀ k ∈ schedule remote code repeats, NonNeg (kindSignal remote k)) →
      (∀ f ∈ res.frames, total (f.entries res.buf.data) = minGap remote) →
      ∀ before k after, schedule remote code repeats = before ++ k :: after →
        Balanced remote code before.isEmpty k) := by
  have hlast (hn : ∀ k ∈ schedule remote code repeats, NonNeg (kindSignal remote k)) :
      LastingSchedule remote code repeats := by
    intro k hk
    refine ⟨hn k hk, fun hc => ?_⟩
    rw [hconst] at hc
    simp at hc
  constructor
  · intro hb
    have hn : ∀ k ∈ schedule remote code repeats, NonNeg (kindSignal remote k) := by
      intro k hk
      obtain ⟨before, after, hsplit⟩ := List.append_of_mem hk
      exact (hb before k after hsplit).1
    obtain ⟨hall, hdata, hframes, -⟩ := initSend_sent h hret (hlast hn)
    obtain ⟨hw, h0⟩ := (balanced_iff_imbalances [] rfl).mp fun before k after hsplit =>
      by simpa using (hb before k after hsplit).2
    have htot := totals_transmit hconst hhead hgap rfl hall hw
    rw [← hdata, ← hframes] at htot
    intro f hf
    have hmem := List.mem_map_of_mem (f := fun f => total (f.entries res.buf.data)) hf
    rw [htot] at hmem
    obtain ⟨x, hx, hxe⟩ := List.mem_map.mp hmem
    rw [h0 x hx] at hxe
    omega
  · intro hn htot
    obtain ⟨hall, hdata, hframes, -⟩ := initSend_sent h hret (hlast hn)
    rw [hframes] at htot
    have hw := allWrite_of_totals hconst hhead hgap rfl hall htot
    have hmap := totals_transmit hconst hhead hgap rfl hall hw
    rw [← hdata] at hmap
    have h0 : ∀ x ∈ imbalances remote code (schedule remote code repeats) [], x = 0 := by
      intro x hx
      have hmem := List.mem_map_of_mem (f := (minGap remote + ·)) hx
      rw [← hmap] at hmem
      obtain ⟨f, hf, hfe⟩ := List.mem_map.mp hmem
      rw [htot f hf] at hfe
      omega
    intro before k after hsplit
    simpa using (balanced_iff_imbalances [] rfl).mpr ⟨hw, h0⟩ before k after hsplit

/-! ## 3. What balances -/

/-- A signal that starts with a pulse has an odd number of runs in front of
    every space, an even number in front of every pulse. -/
theorem length_before {u v : List Emission} {e : Emission} (ha : Alternating (u ++ e :: v))
    (hs : (u ++ e :: v).head?.map Prod.fst = some .pulse) : e.1 = rawLevel u.length := by
  have hp : PolarFrom 0 (u ++ e :: v) := by
    refine polarFrom_of_alternating ha fun f hf => ?_
    rw [hf] at hs
    simpa [rawLevel] using hs
  have h := (polarFrom_append.mp hp).2.1
  rwa [Nat.zero_add] at h

/-- **A frame that starts with a pulse balances** exactly if it ends with
    one. -/
theorem balanced_iff {remote : IrRemote} {code : IrNcode} {first : Bool} {kind : FrameKind}
    (hraw : kind ≠ .raw) (hpos : Positive (kindSignal remote kind))
    (hstart : (kindSignal remote kind).head?.map Prod.fst = some .pulse) :
    Balanced remote code first kind ↔
      (kindSignal remote kind).getLast?.map Prod.fst = some .pulse := by
  generalize hs : kindSignal remote kind = s at *
  have hdrop : (if first = true then s.dropWhile silent else s) = s := by
    cases s with
    | nil => simp at hstart
    | cons e t =>
      have hl : e.1 = .pulse := by simpa using hstart
      have hd := hpos e List.mem_cons_self
      have hsil : silent e = false := by
        have hd0 : e.2 ≠ 0 := by omega
        simp [silent, hl, hd0]
      split
      · rw [List.dropWhile_cons_of_neg (by simp [hsil])]
      · rfl
  have hB : Balanced remote code first kind ↔
      flushed s ≠ [] ∧ openRun s .space = takenBack (flushed s) := by
    unfold Balanced
    cases kind with
    | raw => exact absurd rfl hraw
    | code part rep t => simp only [frameEntries, frameHeld, hs, hdrop]
    | repeatFrame => simp only [frameEntries, frameHeld, hs, hdrop]
  have hne : s ≠ [] := by
    intro h
    rw [h] at hstart
    simp at hstart
  obtain ⟨u, l, d, hu⟩ := coalesce_snoc_of_ne_nil hne
  have hd : 0 < d := coalesce_pos hpos (l, d) (by rw [hu]; simp)
  have hlast := coalesce_last_level s
  have hlev : l = rawLevel u.length := by
    refine length_before (u := u) (e := (l, d)) (v := []) ?_ ?_
    · rw [← hu]
      exact alternating_coalesce s
    · rw [← hu, coalesce_head_level]
      exact hstart
  have heq := coalesce_eq_flushed hpos
  rw [hu] at hlast heq
  rw [hB, ← hlast, openRun_of_snoc _ hu]
  rw [openRun_of_snoc _ hu] at heq
  cases l with
  | pulse =>
    have heven : u.length % 2 = 0 := by
      by_contra h
      rw [rawLevel, if_neg h] at hlev
      simp at hlev
    have hfl : flushed s = u ++ [(.pulse, d)] := by simpa using heq.symm
    have htb : takenBack (u ++ [(Level.pulse, d)]) = 0 := by
      rw [takenBack, if_neg]
      rw [List.length_append, List.length_singleton]
      omega
    rw [hfl, htb]
    simp
  | space =>
    have hodd : u.length % 2 ≠ 0 := by
      intro h
      rw [rawLevel, if_pos h] at hlev
      simp at hlev
    have hfl : flushed s = u := by simpa [hd] using heq.symm
    have htb : takenBack u = 0 := by rw [takenBack, if_neg hodd]
    rw [hfl, htb]
    simp
    omega

/-- `plainRemote` with frames of a constant length. -/
def constRemote : IrRemote := { plainRemote with flags := SPACE_ENC ||| CONST_LENGTH }

/-- Both frames of a repeated key take 40000 microseconds. -/
theorem constLength_constRemote :
    ∃ res, initSend 2 constRemote plainCode 1 = some res ∧ res.frames.length = 2 ∧
      ∀ f ∈ res.frames, total (f.entries res.buf.data) = 40000 := by
  have hres := (Option.some_get (show (initSend 2 constRemote plainCode 1).isSome by decide)).symm
  refine ⟨_, hres, by decide, ?_⟩
  refine (constLength 2 constRemote plainCode 1 _ (by decide) (by decide) (by decide) hres
    (by decide)).1 ?_
  have hsched : schedule constRemote plainCode 1 = [.code 2 false 0, .code 2 true 0] := by decide
  rw [hsched]
  intro before k after hsplit
  rcases before with _ | ⟨b, _ | ⟨c, before⟩⟩
  · obtain ⟨rfl, -⟩ := List.cons.inj hsplit
    unfold NonNeg Balanced
    decide
  · obtain ⟨-, hsplit⟩ := List.cons.inj hsplit
    obtain ⟨rfl, -⟩ := List.cons.inj hsplit
    rw [List.isEmpty_cons]
    unfold NonNeg Balanced
    decide
  · simp at hsplit

/-- **Without a trailing pulse the frame ends with a space**: it is pending
    when the gap is computed, and the frame takes its 500 microseconds more. -/
theorem constLength_untrailed :
    let remote := { constRemote with ptrail := 0 }
    isConst remote = true ∧ hasFlag remote NO_HEAD_REP = false ∧ hasRepeatGap remote = false ∧
    ∃ res, initSend 1 remote plainCode 0 = some res ∧ res.ret = true ∧
      ¬ ∀ f ∈ res.frames, total (f.entries res.buf.data) = minGap remote := by
  refine ⟨by decide, by decide, by decide, _, rfl, by decide, by decide⟩

end WinLirc
