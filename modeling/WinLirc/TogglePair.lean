/-
  File:      WinLirc/TogglePair.lean
  Subject:   Remotes with a toggle mask: a key is sent twice, first plain and
             then with the bits of `toggle_mask` inverted.

  The pairing is spread over the remote: `toggle_mask_state` is odd while the
  inverted frame is awaited, and `toggle_code` is the key of the plain one.

  * `getCode_toggle`, `setCode_toggle`: what each of the two functions does
    with that state;
  * `PairInv`, `pairInv_call`: an inverted frame is awaited only behind the
    plain frame of the same key;
  * **`toggle_paired`**: so a key is reported on its inverted frame, directly
    behind its plain one, as long as no inverted frame fails the test of
    `set_code` for a repetition. `toggle_slowRun` is a run in which one does.
-/
import WinLirc.Command
import WinLirc.Signal.Runs

namespace WinLirc

/-! ## 1. `get_code` and `set_code` on the toggle state -/

/-- The inverted form of a frame is awaited. -/
def AwaitsInverted (remote : IrRemote) : Prop := remote.toggleMaskState.tmod 2 ≠ 0

instance (remote : IrRemote) : Decidable (AwaitsInverted remote) :=
  inferInstanceAs (Decidable (_ ≠ _))

theorem tmod_two_ne_zero (n : Int) : n.tmod 2 ≠ 0 ↔ n % 2 = 1 := by
  have h : n.tmod 2 = 0 ↔ n % 2 = 0 := by
    rw [← Int.dvd_iff_tmod_eq_zero, Int.dvd_iff_emod_eq_zero]
  rw [ne_eq, h]
  omega

/-- **`get_code` with a toggle mask**: a plain frame is remembered, an inverted
    one has to be of the code remembered. -/
theorem getCode_toggle {remote r : IrRemote} {f : Fields} {i : Nat} {t : IrCode}
    (hmask : hasToggleMask remote = true) (h : getCode remote f = (some (i, t), r)) :
    (¬ AwaitsInverted remote ∧ r.toggleCode = some i) ∨
    (AwaitsInverted remote ∧ remote.toggleCode = some i ∧ r.toggleCode = none) := by
  have hcode := scanCodes_foundCode remote
    (genIrCode remote (receivedFields remote f).pre (receivedFields remote f).code
      (receivedFields remote f).post) 0 remote.codes {} (fun h => nomatch h)
  unfold getCode at h
  dsimp only at h
  generalize scanCodes remote _ 0 remote.codes {} = g at hcode h
  obtain ⟨codes, s⟩ := g
  dsimp only at hcode h
  split at h
  · exact nomatch h
  · split at h
    · exact nomatch h
    · cases hs : s.found with
      | none =>
        rw [hs] at h
        exact nomatch h
      | some j =>
        have hyes : (s.foundCode && hasToggleMask { remote with codes := codes }) = true := by
          rw [hcode (by rw [hs]; rfl)]
          exact hmask
        rw [hs] at h
        dsimp only at h
        rw [if_pos hyes] at h
        split at h
        · next heven =>
          obtain ⟨⟨rfl, -⟩, rfl⟩ := h
          exact .inl ⟨fun hodd => hodd heven, rfl⟩
        · next hodd =>
          split at h
          · exact nomatch h
          · next hsame =>
            obtain ⟨⟨rfl, -⟩, rfl⟩ := h
            exact .inr ⟨hodd, not_not.mp hsame, rfl⟩

/-- `get_code` changes neither the mask nor the form that is awaited. -/
theorem getCode_state {remote r : IrRemote} {f : Fields} {x : Option (Nat × IrCode)}
    (h : getCode remote f = (x, r)) :
    hasToggleMask r = hasToggleMask remote ∧ (AwaitsInverted r ↔ AwaitsInverted remote) := by
  have hrest := getCode_rest remote f
  have h1 : (getCode remote f).2.toggleMask = remote.toggleMask :=
    by rw [hrest]
  have h2 : (getCode remote f).2.toggleMaskState = remote.toggleMaskState :=
    by rw [hrest]
  rw [h] at h1 h2
  unfold hasToggleMask AwaitsInverted
  rw [h1, h2]
  exact ⟨rfl, Iff.rfl⟩

/-- **`set_code` with a toggle mask**: a repetition awaits the other form, any
    other frame is taken for a plain one. -/
theorem setCode_toggle (now : MyTimeval) (sameDecoded : Bool) {remote : IrRemote} (i : Nat)
    (found : IrNcode) (t : IrCode) (d : Decoded) (hmask : hasToggleMask remote = true) :
    (repeats now sameDecoded remote i found t d = true →
      (AwaitsInverted (setCode now sameDecoded remote i found t d).2 ↔ ¬ AwaitsInverted remote) ∧
      (setCode now sameDecoded remote i found t d).2.toggleCode = remote.toggleCode) ∧
    (repeats now sameDecoded remote i found t d = false →
      AwaitsInverted (setCode now sameDecoded remote i found t d).2 ∧
      (setCode now sameDecoded remote i found t d).2.toggleCode = some i) := by
  constructor
  · intro h
    unfold repeats at h
    unfold setCode AwaitsInverted
    dsimp only
    rw [if_pos h, if_pos hmask]
    split
    · refine ⟨?_, rfl⟩
      rw [tmod_two_ne_zero, tmod_two_ne_zero]
      show (2 : Int) % 2 = 1 ↔ _
      omega
    · refine ⟨?_, rfl⟩
      rw [tmod_two_ne_zero, tmod_two_ne_zero]
      show (remote.toggleMaskState + 1) % 2 = 1 ↔ _
      omega
  · intro h
    unfold repeats at h
    unfold setCode AwaitsInverted
    dsimp only
    rw [if_neg (by rw [h]; exact Bool.false_ne_true), if_pos hmask, if_pos hmask]
    exact ⟨by show (1 : Int).tmod 2 ≠ 0; decide, rfl⟩

theorem setCode_mask (now : MyTimeval) (sameDecoded : Bool) (remote : IrRemote) (i : Nat)
    (found : IrNcode) (t : IrCode) (d : Decoded) :
    hasToggleMask (setCode now sameDecoded remote i found t d).2 = hasToggleMask remote :=
  congrArg (fun m : IrCode => m != 0)
    (congrArg (·.toggleMask) (setCode_rest now sameDecoded remote i found t d))

/-! ## 2. The frames a run has accepted -/

/-- An accepted frame: whose it was, the key, the form `get_code` matched it
    in, whether `set_code` took it for a repetition, and whether the key was
    reported. -/
structure Seen where
  remote : Nat
  key : Nat
  inverted : Bool
  repeated : Bool
  reported : Bool
  deriving DecidableEq, Repr

def seenOf (now : MyTimeval) (before : World) (a : Accept) (o : Outcome) : Seen where
  remote := a.index
  key := a.key
  inverted := decide (AwaitsInverted a.remote)
  repeated := (a.remote.codes[a.key]?).any fun found =>
    repeats now (before.lastDecoded == some a.index) a.remote a.key found a.toggleBits a.frame
  reported := decide (o ≠ .nothing)

def Entry.seen (e : Entry) : Option Seen :=
  e.accept.map fun a => seenOf e.now e.before a e.outcome

/-- The accepted frames of a run. -/
def acceptedFrames (log : List Entry) : List Seen := log.filterMap Entry.seen

/-- The last accepted frame of remote `r`. -/
def lastOf (r : Nat) (s : List Seen) : Option Seen := (s.filter (·.remote == r)).getLast?

theorem lastOf_other {r : Nat} {s : List Seen} {e : Seen} (h : e.remote ≠ r) :
    lastOf r (s ++ [e]) = lastOf r s := by
  unfold lastOf
  have hnil : [e].filter (·.remote == r) = [] := by simp [h]
  rw [List.filter_append, hnil, List.append_nil]

theorem lastOf_same {r : Nat} {s : List Seen} {e : Seen} (h : e.remote = r) :
    lastOf r (s ++ [e]) = some e := by
  unfold lastOf
  have hone : [e].filter (·.remote == r) = [e] := by simp [h]
  rw [List.filter_append, hone, List.getLast?_concat]

/-- The plain frame of key `i` was the last accepted frame of remote `r`. -/
def PlainBefore (r i : Nat) (s : List Seen) : Prop :=
  ∃ e, lastOf r s = some e ∧ e.inverted = false ∧ e.key = i

/-- Behind the accepted frames `s0`, **a key of remote `r` is reported** on its
    inverted frame only, directly behind its plain one. -/
def PairedFrom (r : Nat) (s0 s : List Seen) : Prop :=
  ∀ before e after, s = before ++ e :: after → e.remote = r → e.reported = true →
    e.inverted = true ∧ PlainBefore r e.key (s0 ++ before)

/-- The same over a whole run. -/
def Paired (r : Nat) (s : List Seen) : Prop := PairedFrom r [] s

theorem pairedFrom_nil {r : Nat} {s0 : List Seen} : PairedFrom r s0 [] := Signal.forall_place_nil

theorem PairedFrom.cons {r : Nat} {s0 s : List Seen} {e : Seen}
    (he : e.remote = r → e.reported = true → e.inverted = true ∧ PlainBefore r e.key s0)
    (h : PairedFrom r (s0 ++ [e]) s) : PairedFrom r s0 (e :: s) := by
  unfold PairedFrom
  rw [Signal.forall_place_cons, List.append_nil]
  refine ⟨he, fun before e' after htail hr hrep => ?_⟩
  have h' := h before e' after htail hr hrep
  rwa [List.append_assoc] at h'

/-- **The invariant**: an inverted frame is awaited only behind the plain frame
    of the key remembered. -/
def PairInv (r : Nat) (w : World) (s : List Seen) : Prop :=
  ∃ remote, w.remotes[r]? = some remote ∧ hasToggleMask remote = true ∧
    (AwaitsInverted remote → ∀ i, remote.toggleCode = some i → PlainBefore r i s)

section Calls

variable {r fuel : Nat} {now : MyTimeval} {w w' : World} {o : Outcome} {s : List Seen}

theorem Rejected.toggle {a b : IrRemote} (h : Rejected a b) :
    hasToggleMask b = hasToggleMask a ∧ ¬ AwaitsInverted b := by
  obtain ⟨r, rfl, h⟩ := h
  have hodd : ¬ AwaitsInverted { r with toggleMaskState := 0 } := fun h => h rfl
  refine ⟨?_, hodd⟩
  rcases h with h | ⟨r0, f, h, hg⟩
  · exact h.hasToggleMask
  · exact (getCode_state hg).1.trans h.hasToggleMask

theorem SameButCodes.toggle {a b : IrRemote} (h : SameButCodes a b) :
    hasToggleMask b = hasToggleMask a ∧ (AwaitsInverted b ↔ AwaitsInverted a) ∧
      b.toggleCode = a.toggleCode := by
  have h1 := congrArg (·.toggleMask) h
  have h2 := congrArg (·.toggleMaskState) h
  have h3 := congrArg (·.toggleCode) h
  refine ⟨congrArg (fun m : IrCode => m != 0) h1, ?_, h3⟩
  unfold AwaitsInverted
  exact iff_of_eq (congrArg (fun n : Int => n.tmod 2 ≠ 0) h2)

/-- A remote the accepting one is not: it has rejected the frame, or the frame
    did not come to it. -/
theorem PairInv.passed {k : Nat} {w1 : World} (h : PairInv r w s) (hp : Passed w w1 0 k) :
    PairInv r w1 s := by
  obtain ⟨remote, hrem, hmask, hplain⟩ := h
  by_cases hlt : r < k
  · obtain ⟨b, hb, hrej⟩ := hp.rejected r remote (Nat.zero_le r) hlt hrem
    obtain ⟨h1, h2⟩ := hrej.toggle
    exact ⟨b, hb, h1.trans hmask, fun h => absurd h h2⟩
  · exact ⟨remote, (hp.same r (.inr (by omega))).trans hrem, hmask, hplain⟩

/-- The report leaves the toggle states. -/
theorem PairInv.report {k i : Nat} {found : IrNcode} {code : IrCode} {remote : IrRemote}
    (h : PairInv r (w.setRemote k remote) s) :
    PairInv r (reportCode w k i found code remote).2 s := by
  obtain ⟨r1, hrem, hmask, hplain⟩ := h
  obtain ⟨r2, hr2, hsame⟩ := reportCode_remotes w k i found code remote hrem
  obtain ⟨h1, h2, h3⟩ := hsame.toggle
  refine ⟨r2, hr2, h1.trans hmask, fun hodd j hj => ?_⟩
  exact hplain (h2.mp hodd) j (h3.symm.trans hj)

/-- **The frame of another remote.** -/
theorem PairInv.other (h : PairInv r w s) {a : Accept} {w1 : World} {found : IrNcode}
    (hp : Passed w w1 0 a.index) (hr : a.index ≠ r) (e : Seen) (he : e.remote = a.index) :
    PairInv r (acceptFrame now a found w1).2 (s ++ [e]) := by
  have h1 := h.passed hp
  unfold acceptFrame
  dsimp only
  apply PairInv.report
  obtain ⟨remote, hrem, hmask, hplain⟩ := h1
  refine ⟨remote, ?_, hmask, fun hodd i hi => ?_⟩
  · show (List.set _ _ _)[r]? = _
    rw [List.getElem?_set_ne hr]
    exact hrem
  · unfold PlainBefore
    rw [lastOf_other (by rw [he]; exact hr)]
    exact hplain hodd i hi

/-- **A frame of the remote itself.** -/
theorem PairInv.own (h : PairInv r w s) (now : MyTimeval) {a : Accept} {w1 : World}
    (found : IrNcode) (hp : Passed w w1 0 a.index) (hacc : AcceptsFrame w a) (hr : a.index = r)
    (hrep : AwaitsInverted a.remote →
      repeats now (w.lastDecoded == some a.index) a.remote a.key found a.toggleBits a.frame = true)
    (e : Seen) (he : e.remote = a.index) (hkey : e.key = a.key)
    (hinv : e.inverted = decide (AwaitsInverted a.remote)) :
    PairInv r (acceptFrame now a found w1).2 (s ++ [e]) ∧
    ((acceptFrame now a found w1).1 ≠ .nothing →
      AwaitsInverted a.remote ∧ PlainBefore r a.key s) := by
  obtain ⟨remote, hrem, hmask, hplain⟩ := h
  obtain ⟨remote', r0, hrem', htuned, hg⟩ := hacc
  have hsame : remote' = remote := by
    rw [hr] at hrem'
    exact Option.some.inj (hrem'.symm.trans hrem)
  subst hsame
  have hlast : w1.lastDecoded = w.lastDecoded := hp.lastDecoded
  have hmask0 : hasToggleMask r0 = true := htuned.hasToggleMask.trans hmask
  obtain ⟨hmask1, hstate⟩ := getCode_state hg
  obtain ⟨hyes, hno⟩ := setCode_toggle now (w1.lastDecoded == some a.index) a.key found
    a.toggleBits a.frame (hmask1.trans hmask0)
  have hmask2 := setCode_mask now (w1.lastDecoded == some a.index) a.remote a.key found
    a.toggleBits a.frame
  have hlt : a.index < w1.remotes.length := by
    rw [hp.length]
    exact (List.getElem?_eq_some_iff.mp hrem').1
  unfold acceptFrame
  dsimp only
  rw [hlast] at hyes hno hmask2 ⊢
  generalize setCode now (w.lastDecoded == some a.index) a.remote a.key found a.toggleBits
    a.frame = g at hyes hno hmask2 ⊢
  obtain ⟨code, remote2⟩ := g
  dsimp only at hyes hno hmask2 ⊢
  have hmask' : hasToggleMask remote2 = true := hmask2.trans (hmask1.trans hmask0)
  -- while the inverted form is awaited nothing is reported
  have hquiet : ∀ w, AwaitsInverted remote2 →
      (reportCode w a.index a.key found code remote2).1 = .nothing := by
    intro w hodd
    have hc : (hasToggleMask remote2 && decide (remote2.toggleMaskState.tmod 2 ≠ 0)) = true := by
      rw [hmask', Bool.true_and]
      exact decide_eq_true hodd
    unfold reportCode
    rw [if_pos (by rw [hc, Bool.true_or])]
  -- a plain frame awaits the inverted one, an inverted one closes the pair
  have hform : (¬ AwaitsInverted a.remote ∧ AwaitsInverted remote2 ∧
      remote2.toggleCode = some a.key) ∨
      (AwaitsInverted a.remote ∧ ¬ AwaitsInverted remote2 ∧ PlainBefore r a.key s) := by
    rcases getCode_toggle hmask0 hg with ⟨heven, hcode⟩ | ⟨hodd, hcode, -⟩
    · have heven' : ¬ AwaitsInverted a.remote := fun h => heven (hstate.mp h)
      cases hc : repeats now (w.lastDecoded == some a.index) a.remote a.key found a.toggleBits
          a.frame with
      | true =>
        obtain ⟨h1, h2⟩ := hyes hc
        exact .inl ⟨heven', h1.mpr heven', h2.trans hcode⟩
      | false =>
        obtain ⟨h1, h2⟩ := hno hc
        exact .inl ⟨heven', h1, h2⟩
    · have hodd' : AwaitsInverted a.remote := hstate.mpr hodd
      obtain ⟨h1, -⟩ := hyes (hrep hodd')
      refine .inr ⟨hodd', fun h => h1.mp h hodd', ?_⟩
      rcases htuned.toggle with ⟨ht, htc⟩ | ⟨-, ht, -⟩
      · unfold AwaitsInverted at hodd
        rw [ht] at hodd
        exact hplain hodd a.key (htc.symm.trans hcode)
      · exact absurd (by rw [ht]; rfl) hodd
  constructor
  · apply PairInv.report
    refine ⟨remote2, ?_, hmask', fun hodd i hi => ?_⟩
    · rw [← hr]
      exact List.getElem?_set_self hlt
    · rcases hform with ⟨heven, -, hcode⟩ | ⟨-, heven, -⟩
      · have hik : i = a.key := Option.some.inj (hi.symm.trans hcode)
        refine ⟨e, lastOf_same (he.trans hr), ?_, hkey.trans hik.symm⟩
        rw [hinv]
        exact decide_eq_false heven
      · exact absurd hodd heven
  · intro hreported
    rcases hform with ⟨-, hodd, -⟩ | ⟨hodd, -, hbefore⟩
    · exact absurd (hquiet _ hodd) hreported
    · exact ⟨hodd, hbefore⟩

/-- **One call.** -/
theorem pairInv_call (h : PairInv r w s) (hcall : decodeCommand fuel now w = some (o, w'))
    (hrep : ∀ a, acceptOf fuel now w = some a → a.index = r →
      (seenOf now w a o).inverted = true → (seenOf now w a o).repeated = true) :
    PairInv r w' (s ++ ((acceptOf fuel now w).map (seenOf now w · o)).toList) ∧
    ∀ a, acceptOf fuel now w = some a → a.index = r → o ≠ .nothing →
      (seenOf now w a o).inverted = true ∧ PlainBefore r a.key s := by
  rcases decodeCommand_cases hcall with ⟨w1, hfind, hp, rfl, rfl⟩ | ⟨a, w1, found, hfind, hp, hacc, hfound, e⟩
  · have hnone : acceptOf fuel now w = none := by rw [acceptOf, hfind]; rfl
    rw [hnone]
    refine ⟨?_, fun a ha => absurd ha.symm (Option.some_ne_none a)⟩
    rw [Option.map_none, Option.toList_none, List.append_nil]
    obtain ⟨remote, h1, h2, h3⟩ := h.passed hp
    exact ⟨remote, h1, h2, h3⟩
  · have hsome : acceptOf fuel now w = some a := by rw [acceptOf, hfind]; rfl
    have ho : o = (acceptFrame now a found w1).1 := congrArg Prod.fst e
    have hw : w' = (acceptFrame now a found w1).2 := congrArg Prod.snd e
    rw [hsome]
    rw [Option.map_some, Option.toList_some, hw]
    by_cases hr : a.index = r
    · have hown := h.own now found hp hacc hr (fun hodd => ?_) (seenOf now w a o) rfl rfl rfl
      · refine ⟨hown.1, fun a' ha' _ ho' => ?_⟩
        obtain rfl := Option.some.inj ha'
        rw [ho] at ho'
        obtain ⟨h1, h2⟩ := hown.2 ho'
        exact ⟨decide_eq_true h1, h2⟩
      · have hrep' := hrep a hsome hr (decide_eq_true hodd)
        have hany : (seenOf now w a o).repeated = repeats now (w.lastDecoded == some a.index)
            a.remote a.key found a.toggleBits a.frame := by
          unfold seenOf
          dsimp only
          rw [hfound]
          rfl
        exact hany.symm.trans hrep'
    · refine ⟨h.other hp hr _ rfl, fun a' ha' hr' => ?_⟩
      obtain rfl := Option.some.inj ha'
      exact absurd hr' hr

/-- **A run of calls.** -/
theorem pairInv_run {calls : List Call} {log : List Entry} (h : PairInv r w s)
    (hrun : runCalls fuel calls w = some (log, w'))
    (hrep : ∀ e ∈ acceptedFrames log, e.remote = r → e.inverted = true → e.repeated = true) :
    PairInv r w' (s ++ acceptedFrames log) ∧ PairedFrom r s (acceptedFrames log) := by
  induction calls generalizing w s log with
  | nil =>
    obtain ⟨rfl, rfl⟩ := hrun
    refine ⟨?_, pairedFrom_nil⟩
    show PairInv r _ (s ++ [])
    rwa [List.append_nil]
  | cons c calls ih =>
    rw [runCalls] at hrun
    rcases hcall : decodeCommand fuel c.now { w with buf := c.buf } with - | ⟨o, w1⟩
    · rw [hcall] at hrun
      exact nomatch hrun
    · rw [hcall] at hrun
      obtain ⟨⟨log', w2⟩, hrest, heq⟩ := Option.map_eq_some_iff.mp hrun
      obtain ⟨rfl, rfl⟩ := heq
      have h' : PairInv r { w with buf := c.buf } s := h
      have hframes : acceptedFrames
          (⟨c.now, { w with buf := c.buf }, acceptOf fuel c.now { w with buf := c.buf }, o⟩ :: log') =
          ((acceptOf fuel c.now { w with buf := c.buf }).map
            (seenOf c.now { w with buf := c.buf } · o)).toList ++ acceptedFrames log' := by
        unfold acceptedFrames Entry.seen
        rw [List.filterMap_cons]
        dsimp only
        cases acceptOf fuel c.now { w with buf := c.buf } <;> rfl
      rw [hframes] at hrep ⊢
      have hstep := pairInv_call h' hcall fun a ha hr hinv => by
        refine hrep _ ?_ hr hinv
        rw [ha]
        exact List.mem_append_left _ (List.mem_singleton_self _)
      obtain ⟨hinv, hpair⟩ := hstep
      obtain ⟨h1, h2⟩ := ih hinv hrest fun e he => hrep e (List.mem_append_right _ he)
      rw [List.append_assoc] at h1
      refine ⟨h1, ?_⟩
      cases ha : acceptOf fuel c.now { w with buf := c.buf } with
      | none =>
        rw [ha] at h2
        rwa [Option.map_none, Option.toList_none, List.append_nil] at h2
      | some a =>
        rw [ha] at h2
        refine PairedFrom.cons (fun hr hreported => hpair a ha hr ?_) h2
        exact of_decide_eq_true hreported

end Calls

/-- **A key of a remote with a toggle mask is reported on its inverted frame**,
    directly behind its plain one, in every run in which no frame that was
    matched in inverted form fails the test of `set_code` for a repetition. -/
theorem toggle_paired (fuel r : Nat) (calls : List Call) (w w' : World) (remote : IrRemote)
    (log : List Entry) (hr : w.remotes[r]? = some remote) (hmask : hasToggleMask remote = true)
    (hstart : remote.toggleMaskState = 0) (hrun : runCalls fuel calls w = some (log, w'))
    (hrep : ∀ e ∈ acceptedFrames log, e.remote = r → e.inverted = true → e.repeated = true) :
    Paired r (acceptedFrames log) := by
  have hinv : PairInv r w [] := by
    refine ⟨remote, hr, hmask, fun hodd => ?_⟩
    unfold AwaitsInverted at hodd
    rw [hstart] at hodd
    exact absurd rfl hodd
  exact (pairInv_run hinv hrun hrep).2

/-- A remote that inverts every second frame, and is slow at times. -/
def slowRemote : IrRemote :=
  { name := "slow", flags := SPACE_ENC, eps := 30, aeps := 100, bits := 4, pone := 500,
    sone := 1500, pzero := 500, szero := 500, ptrail := 500, gap := 2000000, gap2 := 45000,
    toggleMask := 0b1111, codes := [{ name := "A", code := 0b0001 }] }

def slowWorld : World := { remotes := [slowRemote] }

/-- The frame of four bits behind a space, at a time in microseconds. -/
def slowFrame (usec gap s3 s2 s1 s0 : Int) : Call where
  now := ⟨0, usec⟩
  buf := { data := [gap], input := [PULSE_BIT + 500, s3, PULSE_BIT + 500, s2, PULSE_BIT + 500, s1,
    PULSE_BIT + 500, s0, PULSE_BIT + 500] }

def slowPair : List Call :=
  [slowFrame 0 100000 500 500 500 1500, slowFrame 60000 45000 1500 1500 1500 500]

theorem slowPair_frames : (runCalls 0 slowPair slowWorld).map (fun x => acceptedFrames x.1) =
    some [⟨0, 0, false, false, false⟩, ⟨0, 0, true, true, true⟩] := by decide +kernel

/-- The plain frame of A, then its inverted one, on which A is reported. -/
theorem toggle_paired_slowPair : ∃ log w', runCalls 0 slowPair slowWorld = some (log, w') ∧
    Paired 0 (acceptedFrames log) := by
  obtain ⟨⟨log, w'⟩, hrun, hframes⟩ := Option.map_eq_some_iff.mp slowPair_frames
  refine ⟨log, w', hrun, ?_⟩
  refine toggle_paired 0 0 slowPair slowWorld w' slowRemote log rfl (by decide) rfl hrun ?_
  dsimp only at hframes
  rw [hframes]
  decide

/-- The plain frame of A, and twice its inverted one, the first late. -/
def slowRun : List Call :=
  [slowFrame 0 100000 500 500 500 1500, slowFrame 1500000 1400000 1500 1500 1500 500,
    slowFrame 1600000 60000 1500 1500 1500 500]

def slowFrames : List Seen :=
  [⟨0, 0, false, false, false⟩, ⟨0, 0, true, false, false⟩, ⟨0, 0, true, true, true⟩]

/-- A is reported on an inverted frame behind an inverted frame. -/
theorem toggle_slowRun :
    hasToggleMask slowRemote = true ∧ slowRemote.toggleMaskState = 0 ∧
      hasRepeat slowRemote = false ∧ (∀ c ∈ slowRemote.codes, c.next = []) ∧
      (runCalls 0 slowRun slowWorld).map (fun x => acceptedFrames x.1) = some slowFrames ∧
      ¬ Paired 0 slowFrames := by
  refine ⟨by decide, rfl, by decide, by decide, by decide +kernel, fun h => ?_⟩
  obtain ⟨-, e, hlast, hplain, -⟩ := h [⟨0, 0, false, false, false⟩, ⟨0, 0, true, false, false⟩]
    ⟨0, 0, true, true, true⟩ [] rfl rfl rfl
  obtain rfl := Option.some.inj hlast
  exact Bool.noConfusion hplain

end WinLirc
