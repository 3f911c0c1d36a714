/-
  File:      WinLirc/KeyStrokes.lean
  Subject:   Keys that are held and released, one after the other.

  * `NoKey`: the receiver between two keys;
  * `KeyStroke.Received`: the frames of a key, and what is reported of it
    (`KeyStroke.reports`);
  * `keys_reported`: from no key to no key, any number of keys.
-/
import WinLirc.HeldKey

namespace WinLirc

open Signal

/-! ## 1. One key after the other -/

/-- **No key is down**: every code starts with its first part, and the gap `g` is
    too long for a repetition. -/
structure NoKey (base : IrRemote) (w : World) (g : Int) (extra : List Int) (remote : IrRemote) : Prop extends
    AtSpace base w g extra remote where
  here : w.remotes[0]? = some remote
  config : SameConfig base remote
  codes : remote.codes = base.codes
  fresh : hasRepeat base = false → expectAtMost base g remote.maxRemainingGap = false

/-- A key that was held: its entry in the code table, its frames with the gaps
    behind them, and the times at which `decodeIR` was called for them. -/
structure KeyStroke where
  entry : Nat
  code : IrNcode
  frames : List (List Int × Int)
  nows : List MyTimeval

/-- **The frames of a key of the remote**: the whole of its code each time, the
    gap behind the last frame being longer than those between the frames. -/
structure KeyStroke.Received (base : IrRemote) (k : KeyStroke) : Prop where
  entry : base.codes[k.entry]? = some k.code
  within : ∀ part ∈ parts k.code, Within base base.preData part base.postData
  single : hasRepeat base = true → k.code.next = []
  frames : HeldFrames base k.code 0 k.frames
  first : hasRepeat base = true → FirstFrame base k.frames
  whole : k.frames.length % (parts k.code).length = 0
  nonempty : k.frames ≠ []
  released : hasRepeat base = false → Released base k.frames
  calls : k.nows.length = k.frames.length
  time : WithinSecond k.nows

/-- What is reported of a key. -/
def KeyStroke.reports (base : IrRemote) (k : KeyStroke) : List Outcome :=
  (List.range k.frames.length).map (expectedOutcome base k.code)

section Session

variable {base remote : IrRemote} {c : IrNcode} {j n : Nat} {last : MyTimeval} {w : World} {g : Int}
  {extra : List Int} {frames : List (List Int × Int)} {nows : List MyTimeval}

/-- No key is down before anything was heard. -/
theorem noKey_start (hr : w.remotes[0]? = some base) (hmode : isSampleMode w.recMode = true)
    (hlast : w.lastRemote = none) (hd : w.buf.data = []) (hi : w.buf.input = g :: extra)
    (hg : 0 < g ∧ g ≤ PULSE_MASK)
    (hfresh : hasRepeat base = false → expectAtMost base g base.maxRemainingGap = false) :
    NoKey base w g extra base := by
  obtain ⟨htape, hcap⟩ := clear_empty hd hi (notLirccode hmode)
  have hsynced : w.lastRemote = some 0 → expectAtLeast base g base.minRemainingGap = true := by
    rw [hlast]
    exact fun h => nomatch h
  exact ⟨⟨⟨rfl, rfl⟩, hmode, .inl hlast, hsynced, hg, htape, hcap⟩, hr, rfl, rfl, hfresh⟩

theorem NoKey.holding (h : NoKey base w g extra remote) (hB : HeldRemote base) (hentry : base.codes[j]? = some c)
    (last : MyTimeval) : Holding base j c last w 0 g extra remote := by
  refine ⟨⟨h.here, h.config, ?_, fun h0 => ?_, fun h0 => ?_, fun h0 => ?_, fun h0 => ?_⟩, h.toAtSpace, fun h0 => ?_⟩
  · rw [Nat.zero_mod, h.codes]
    exact (set_behind_zero hB.cleared hentry).symm
  · exact absurd h0 (Nat.lt_irrefl 0)
  · exact absurd h0 (Nat.lt_irrefl 0)
  · exact absurd h0 (Nat.lt_irrefl 0)
  · exact absurd h0 (Nat.not_succ_le_zero _)
  · exact absurd h0 (Nat.lt_irrefl 0)

/-- **A key is held, from no key on.** -/
theorem NoKey.run (h : NoKey base w g (framesSamples frames ++ extra) remote) (hB : HeldRemote base)
    (hentry : base.codes[j]? = some c) (hw : ∀ part ∈ parts c, Within base base.preData part base.postData)
    (hone : hasRepeat base = true → c.next = []) (hframes : HeldFrames base c 0 frames)
    (hnew : hasRepeat base = true → w.lastRemote = some 0 → FirstFrame base frames)
    (hlen : nows.length = frames.length) (hne : frames ≠ []) (htime : WithinSecond nows)
    (fuel : Nat) :
    ∃ w' last' g' remote', decodeIRs fuel nows w =
        some ((List.range frames.length).map (expectedOutcome base c), w') ∧
      Holding base j c last' w' frames.length g' extra remote' ∧
      (hasRepeat base = false → Released base frames → expectAtMost base g' remote'.maxRemainingGap = false) := by
  obtain ⟨now, nows, rfl⟩ : ∃ now rest, nows = now :: rest := by
    cases nows with
    | nil => exact absurd (List.length_eq_zero_iff.mp hlen.symm) hne
    | cons now nows => exact ⟨now, nows, rfl⟩
  obtain ⟨w', last', g', remote', hrun, hend, hrel⟩ := holding_run hB hentry hw hone hlen
    (h.holding hB hentry now) hframes (fun hr _ => h.fresh hr) (fun hr _ h0 => hnew hr h0)
    (List.isChain_cons_cons.mpr ⟨by unfold timeElapsed; omega, htime⟩) fuel
  rw [Nat.zero_add] at hend
  rw [List.range_eq_range']
  exact ⟨w', last', g', remote', hrun, hend, fun hr hreleased => hrel hr hne hreleased⟩

/-- **One key more.** -/
theorem NoKey.stroke {k : KeyStroke} (h : NoKey base w g (framesSamples k.frames ++ extra) remote)
    (hB : HeldRemote base) (hk : k.Received base) (fuel : Nat) :
    ∃ w' g' remote', decodeIRs fuel k.nows w = some (k.reports base, w') ∧ NoKey base w' g' extra remote' := by
  obtain ⟨w', last', g', remote', hrun, hend, hrel⟩ := h.run hB hk.entry hk.within hk.single hk.frames
    (fun hr _ => hk.first hr) hk.calls hk.nonempty hk.time fuel
  refine ⟨w', g', remote', hrun, hend.toAtSpace, hend.here, hend.config, ?_, fun hr => hrel hr (hk.released hr)⟩
  rw [hend.codes, hk.whole]
  exact set_behind_zero hB.cleared hk.entry

/-- **Keys that are held and released, one after the other**: every key is
    reported, the parts of its code with the counters 0, 1, 2, ... from the first
    frame on, and no key is down in the end. -/
theorem keys_reported (hB : HeldRemote base) {strokes : List KeyStroke} (hkeys : ∀ k ∈ strokes, k.Received base)
    (h : NoKey base w g (strokes.flatMap (fun k => framesSamples k.frames) ++ extra) remote) (fuel : Nat) :
    ∃ w' g' remote', decodeIRs fuel (strokes.flatMap (·.nows)) w = some (strokes.flatMap (·.reports base), w') ∧
      NoKey base w' g' extra remote' := by
  induction strokes generalizing w g remote with
  | nil => exact ⟨w, g, remote, rfl, h⟩
  | cons k strokes ih =>
    obtain ⟨hk, hkeys⟩ := List.forall_mem_cons.mp hkeys
    rw [List.flatMap_cons, List.append_assoc] at h
    obtain ⟨w₁, g₁, remote₁, hrun₁, h₁⟩ := h.stroke hB hk fuel
    obtain ⟨w₂, g₂, remote₂, hrun₂, h₂⟩ := ih hkeys h₁
    exact ⟨w₂, g₂, remote₂, decodeIRs_append hrun₁ hrun₂, h₂⟩

end Session

theorem held_volumeRemote : HeldRemote volumeRemote := by
  refine ⟨⟨by decide, rfl, rfl, rfl, rfl, by decide, by decide, by decide, by decide⟩,
    ⟨by decide, by decide, by decide, by decide, List.pairwise_pair.mpr ?_⟩, by decide,
    ⟨by decide, by decide, by decide, by decide⟩, by decide, by decide, disjoint_of_spaces (by decide), by decide⟩
  intro p hp p' hp'
  obtain rfl := List.mem_singleton.mp hp'
  rcases List.mem_pair.mp hp with rfl | rfl
  · decide +kernel
  · decide +kernel

/-- UP once, MUTE held for two frames. -/
def volumeStrokes : List KeyStroke :=
  [⟨0, { name := "UP", code := 1, next := [2] },
      [([520, 480, 500, 1450, 530], 44000), ([510, 1550, 490, 500, 505], 90000)], [⟨0, 0⟩, ⟨0, 60000⟩]⟩,
    ⟨1, { name := "MUTE", code := 3 },
      [([500, 1500, 500, 1500, 500], 46000), ([480, 1600, 520, 1400, 500], 100000)], [⟨5, 0⟩, ⟨5, 60000⟩]⟩]

theorem received_volumeStrokes : ∀ k ∈ volumeStrokes, k.Received volumeRemote := by
  have hheard (part : IrCode) (times : List Int) (g : Int)
      (h : List.Forall₂ (Expected volumeRemote) times ((heldSignal volumeRemote false part).map Prod.snd) ∧
        (∀ x ∈ times, x ≤ PULSE_MASK) ∧ (0 < g ∧ g ≤ PULSE_MASK) ∧
        expectAtLeast volumeRemote g (leastGap volumeRemote false times.sum) = true) :
      HeardTimes volumeRemote false part times g := ⟨h.1, h.2.1, h.2.2.1, h.2.2.2⟩
  intro k hk
  rcases List.mem_pair.mp hk with rfl | rfl
  · exact {
      entry := rfl
      within := fun part hp => by
        rcases List.mem_pair.mp hp with rfl | rfl
        · exact ⟨held_volumeRemote.widths, by decide, by decide, by decide⟩
        · exact ⟨held_volumeRemote.widths, by decide, by decide, by decide⟩
      single := fun h => absurd h (by decide)
      frames := ⟨⟨1, rfl, hheard _ _ _ (by unfold Expected; decide)⟩, fun _ _ => by decide,
        ⟨2, rfl, hheard _ _ _ (by unfold Expected; decide)⟩, fun _ h => absurd rfl h, trivial⟩
      first := fun h => absurd h (by decide)
      whole := rfl
      nonempty := List.cons_ne_nil _ _
      released := fun _ => by show expectAtMost _ _ _ = false; decide
      calls := rfl
      time := by unfold WithinSecond; decide }
  · exact {
      entry := rfl
      within := fun part hp => by
        obtain rfl := List.mem_singleton.mp hp
        exact ⟨held_volumeRemote.widths, by decide, by decide, by decide⟩
      single := fun h => absurd h (by decide)
      frames := ⟨⟨3, rfl, hheard _ _ _ (by unfold Expected; decide)⟩, fun _ _ => by decide,
        ⟨3, rfl, hheard _ _ _ (by unfold Expected; decide)⟩, fun _ h => absurd rfl h, trivial⟩
      first := fun h => absurd h (by decide)
      whole := rfl
      nonempty := List.cons_ne_nil _ _
      released := fun _ => by show expectAtMost _ _ _ = false; decide
      calls := rfl
      time := by unfold WithinSecond; decide }

theorem reports_volumeStrokes : volumeStrokes.flatMap (·.reports volumeRemote) =
    [.nothing, reportMessage volumeRemote "UP" 1 0, reportMessage volumeRemote "MUTE" 3 0,
      reportMessage volumeRemote "MUTE" 3 1] := by decide +kernel

/-- UP is reported with the second part of its code, MUTE with each of its frames. -/
theorem keys_reported_volumeStrokes : ∃ w' g' remote',
    decodeIRs 0 (volumeStrokes.flatMap (·.nows))
        { remotes := [volumeRemote],
          buf := { input := 100000 :: volumeStrokes.flatMap (fun k => framesSamples k.frames) } } =
      some ([.nothing, reportMessage volumeRemote "UP" 1 0, reportMessage volumeRemote "MUTE" 3 0,
        reportMessage volumeRemote "MUTE" 3 1], w') ∧ NoKey volumeRemote w' g' [] remote' := by
  rw [← reports_volumeStrokes]
  exact keys_reported held_volumeRemote received_volumeStrokes (by
    rw [List.append_nil]
    exact noKey_start rfl (by decide) rfl rfl rfl (by decide) fun _ => by decide) 0

end WinLirc
