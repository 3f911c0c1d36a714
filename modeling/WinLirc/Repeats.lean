/-
  File:      WinLirc/Repeats.lean
  Subject:   The repeat counter of a code of several parts, over calls of
             `decodeCommand`.

  The counter is `reps`, with `last_code`, `last_decoded` and the `current`
  pointer of the code; `decodeCommand` takes one off for a code of several
  parts.

  * `scanCodes_one`: a frame that carries a part of one code and of no other
    moves that code on and leaves the others;
  * `Counting`: the state of the remote behind `n` frames;
  * `counting_call`: one frame more, and what is reported;
  * **`sequence_reports`**: the parts of a code, received any number of times
    in a row, are reported on each last part with counters 0, 1, 2, ...
-/
import WinLirc.Command
import WinLirc.Sequence

namespace WinLirc

/-! ## 1. A frame that carries one part -/

/-- The word that `get_code` compares with the frame for a part. -/
def partWord (remote : IrRemote) (p : IrCode) : IrCode :=
  genIrCode remote remote.preData p remote.postData

section Scan

variable {remote : IrRemote} {all : IrCode}

/-- A code that waits for its first part, which the frame is not. -/
def Idle (remote : IrRemote) (all : IrCode) (c : IrNcode) : Prop :=
  c.current = [] ∧ matchesPart remote all c [] = false

theorem scanCode_idle {c : IrNcode} (h : Idle remote all c) (i : Nat) (s : Scan) :
    scanCode remote all i c s = (c, s) := by
  obtain ⟨hcur, hno⟩ := h
  unfold scanCode
  rw [if_neg (by rw [hcur, hno]; exact Bool.false_ne_true), if_pos (.inr hcur)]
  obtain ⟨name, code, signals, next, current, transmitState⟩ := c
  dsimp only at hcur
  subst hcur
  rfl

theorem scanCodes_idle {codes : List IrNcode} (h : ∀ c ∈ codes, Idle remote all c) (i : Nat)
    (s : Scan) : scanCodes remote all i codes s = (codes, s) := by
  induction codes generalizing i s with
  | nil => rfl
  | cons c codes ih =>
    rw [scanCodes, scanCode_idle (h c List.mem_cons_self)]
    dsimp only
    rw [ih fun c' hc => h c' (List.mem_cons_of_mem _ hc)]

theorem scanCode_hit {c : IrNcode} {k : Nat} (hk : k < (parts c).length)
    (h : matchesPart remote all c (node c k) = true) (i : Nat) :
    scanCode remote all i (behind c k) {} =
      (behind c (k + 1), ⟨some i, true, (node c (k + 1)).isEmpty⟩) := by
  rw [scanCode_next hk h, Scan.note, Bool.or_true]
  rfl

/-- **The frame of one code**: the entry moves on and is answered. -/
theorem scanCodes_one {codes : List IrNcode} {c : IrNcode} {k j : Nat}
    (hk : k < (parts c).length) (hj : codes[j]? = some (behind c k))
    (h : matchesPart remote all c (node c k) = true)
    (hidle : ∀ i c', i ≠ j → codes[i]? = some c' → Idle remote all c') (i : Nat) :
    scanCodes remote all i codes {} =
      (codes.set j (behind c (k + 1)), ⟨some (i + j), true, (node c (k + 1)).isEmpty⟩) := by
  induction codes generalizing i j with
  | nil => exact nomatch hj
  | cons c' codes ih =>
    cases j with
    | zero =>
      obtain rfl := Option.some.inj hj
      have hrest : ∀ c' ∈ codes, Idle remote all c' := by
        intro c' hc
        obtain ⟨n, hn⟩ := List.mem_iff_getElem?.mp hc
        exact hidle (n + 1) c' (Nat.succ_ne_zero n) hn
      rw [scanCodes, scanCode_hit hk h]
      dsimp only
      rw [scanCodes_idle hrest]
      rfl
    | succ j =>
      have hfirst := hidle 0 c' (Nat.succ_ne_zero j).symm rfl
      have hrest := ih (j := j) hj (fun n c'' hn hc => hidle (n + 1) c'' (by omega) hc) (i + 1)
      have e : i + 1 + j = i + (j + 1) := by omega
      rw [scanCodes, scanCode_idle hfirst]
      dsimp only
      rw [hrest, e]
      rfl

end Scan

/-! ## 2. The parts of a remote that stay -/

/-- `b` is the remote `a` at another time. -/
def SameConfig (a b : IrRemote) : Prop :=
  b = { a with
    codes := b.codes, pone := b.pone, sone := b.sone, toggleBitMaskState := b.toggleBitMaskState,
    toggleMaskState := b.toggleMaskState, lastCode := b.lastCode, toggleCode := b.toggleCode,
    reps := b.reps, lastSend := b.lastSend, minRemainingGap := b.minRemainingGap,
    maxRemainingGap := b.maxRemainingGap }

section Config

variable {a b c : IrRemote}

theorem SameConfig.trans (h : SameConfig a b) (h' : SameConfig b c) : SameConfig a c :=
  Eq.trans h' (congrArg (fun r : IrRemote => { r with
    codes := c.codes, pone := c.pone, sone := c.sone, toggleBitMaskState := c.toggleBitMaskState,
    toggleMaskState := c.toggleMaskState, lastCode := c.lastCode, toggleCode := c.toggleCode,
    reps := c.reps, lastSend := c.lastSend, minRemainingGap := c.minRemainingGap,
    maxRemainingGap := c.maxRemainingGap }) h)

theorem Tuned.sameConfig (h : Tuned a b) : SameConfig a b := by
  unfold SameConfig
  rw [h.rest]

theorem SameConfig.passes (h : SameConfig a b) (f : Fields) : PassesCheck b f ↔ PassesCheck a f := by
  rw [h]
  exact Iff.rfl

theorem SameConfig.genIrCode (h : SameConfig a b) (pre code post : IrCode) :
    genIrCode b pre code post = WinLirc.genIrCode a pre code post := by
  rw [h]
  rfl

theorem SameConfig.partWord (h : SameConfig a b) (p : IrCode) :
    partWord b p = WinLirc.partWord a p := by
  rw [h]
  rfl

theorem SameConfig.matchIrCode (h : SameConfig a b) (x y : IrCode) :
    matchIrCode b x y = WinLirc.matchIrCode a x y := by
  rw [h]
  rfl

theorem SameConfig.reportedCode (h : SameConfig a b) (found : IrNcode) :
    reportedCode b found = WinLirc.reportedCode a found := by
  rw [h]
  rfl

end Config

/-- A remote of plain sequences: no masks, not XMP, and no two codes share a
    part, as `get_code` compares them. -/
structure SequenceRemote (remote : IrRemote) : Prop where
  ignoreMask : remote.ignoreMask = 0
  toggleBitMask : remote.toggleBitMask = 0
  toggleMask : remote.toggleMask = 0
  notXmp : isXmp remote = false
  apart : remote.codes.Pairwise fun c c' =>
    ∀ p ∈ parts c, ∀ p' ∈ parts c', partWord remote p ≠ partWord remote p'

theorem SequenceRemote.words_ne {remote : IrRemote} (h : SequenceRemote remote) {i j : Nat}
    {c c' : IrNcode} (hi : remote.codes[i]? = some c) (hj : remote.codes[j]? = some c')
    (hij : i ≠ j) {p p' : IrCode} (hp : p ∈ parts c) (hp' : p' ∈ parts c') :
    partWord remote p ≠ partWord remote p' := by
  have hpair := List.pairwise_iff_getElem.mp h.apart
  obtain ⟨hi', rfl⟩ := List.getElem?_eq_some_iff.mp hi
  obtain ⟨hj', rfl⟩ := List.getElem?_eq_some_iff.mp hj
  rcases Nat.lt_or_gt_of_ne hij with hlt | hlt
  · exact hpair i j hi' hj' hlt p hp p' hp'
  · exact (hpair j i hj' hi' hlt p' hp' p hp).symm

/-! ## 3. `set_code` without toggle bits -/

section SetCode

variable {remote : IrRemote} (now : MyTimeval) (sameDecoded : Bool) (i : Nat) (found : IrNcode)
  (t : IrCode) (d : Decoded)

/-- What `set_code` remembers of a frame. -/
def remembered (remote : IrRemote) (now : MyTimeval) (i : Nat) (found : IrNcode) (d : Decoded)
    (reps : Int) : IrRemote :=
  { remote with
    reps := reps, lastCode := if found.current = [] then some i else remote.lastCode,
    lastSend := now, minRemainingGap := d.minRemainingGap, maxRemainingGap := d.maxRemainingGap }

theorem setCode_repeat (hmask : remote.toggleMask = 0)
    (h : repeats now sameDecoded remote i found t d = true) :
    (setCode now sameDecoded remote i found t d).2 =
      remembered remote now i found d
        (if found.current = [] then remote.reps + 1 else remote.reps) := by
  have hno : hasToggleMask remote = false := by rw [hasToggleMask, hmask]; rfl
  unfold repeats at h
  unfold setCode remembered
  dsimp only
  rw [if_pos h, if_neg (by rw [hno]; exact Bool.false_ne_true)]
  split <;> rfl

theorem setCode_first (hmask : remote.toggleMask = 0) (hbits : remote.toggleBitMask = 0)
    (h : repeats now sameDecoded remote i found t d = false) :
    (setCode now sameDecoded remote i found t d).2 =
      remembered remote now i found d (if found.next ≠ [] ∧ found.current = [] then 1 else 0) := by
  have hno : hasToggleMask remote = false := by rw [hasToggleMask, hmask]; rfl
  have hno' : hasToggleBitMask remote = false := by rw [hasToggleBitMask, hbits]; rfl
  unfold repeats at h
  unfold setCode remembered
  dsimp only
  rw [if_neg (by rw [h]; exact Bool.false_ne_true), hno, hno']
  rfl

end SetCode

/-! ## 4. Frames of one code -/

section Frames

variable {base r0 : IrRemote} {c : IrNcode} {j k : Nat}

/-- **`get_code` on the next part** of a code. -/
theorem getCode_behind (hb : SequenceRemote base) (hcleared : ∀ c ∈ base.codes, c.current = [])
    (hentry : base.codes[j]? = some c) (hc : SameConfig base r0)
    (hcodes : r0.codes = base.codes.set j (behind c k)) (hk : k < (parts c).length) {f : Fields}
    (hp : PassesCheck base f) (hpart : (parts c)[k]? = some f.code) :
    ∃ t, getCode r0 f =
      (some (j, t), { r0 with codes := base.codes.set j (behind c (k + 1)) }) := by
  have hmask0 : r0.toggleMask = 0 := by
    rw [hc]
    exact hb.toggleMask
  have hj : j < base.codes.length := (List.getElem?_eq_some_iff.mp hentry).1
  have hword : genIrCode r0 f.pre f.code f.post = partWord base f.code := by
    rw [hc.genIrCode]
    exact genIrCode_of_passes hb.ignoreMask hb.toggleBitMask hp f.code
  have hmatch : ∀ (c' : IrNcode) (nd : List IrCode),
      matchesPart r0 (genIrCode r0 f.pre f.code f.post) c' nd =
        decide (partWord base (getIrCode c' nd) = partWord base f.code) := by
    intro c' nd
    show matchIrCode r0 (partWord r0 (getIrCode c' nd)) _ = _
    rw [hc.matchIrCode, hc.partWord, hword, matchIrCode_plain hb.ignoreMask hb.toggleBitMask]
  have hcode : getIrCode c (node c k) = f.code :=
    Option.some.inj ((getIrCode_node hk).symm.trans hpart)
  have hscan : scanCodes r0 (genIrCode r0 f.pre f.code f.post) 0
      (base.codes.set j (behind c k)) {} = _ :=
    scanCodes_one hk (List.getElem?_set_self hj) (by rw [hmatch, hcode]; exact decide_eq_true rfl)
      (fun i c' hij hi => ?_) 0
  · rw [getCode_scanned r0 hmask0 ((hc.passes f).mpr hp), hcodes, hscan]
    exact ⟨_, by rw [List.set_set, Nat.zero_add]; rfl⟩
  · rw [List.getElem?_set_ne (Ne.symm hij)] at hi
    refine ⟨hcleared c' (List.mem_of_getElem? hi), ?_⟩
    rw [hmatch]
    apply decide_eq_false
    have hfirst : c'.code ∈ parts c' := List.mem_cons_self
    have hnil : getIrCode c' [] = c'.code := by
      unfold getIrCode
      cases c'.next <;> rfl
    rw [hnil]
    exact hb.words_ne hi hentry hij hfirst (List.mem_of_getElem? hpart)

/-- What is reported on the frame behind `n` others. -/
def expectedOutcome (base : IrRemote) (c : IrNcode) (n : Nat) : Outcome :=
  if (n + 1) % (parts c).length = 0 then
    reportMessage base c.name (reportedCode base c) ((n / (parts c).length : Nat) : Int)
  else .nothing

/-- The counter behind `n` frames: the repetitions received, and one less for a
    code of one part. -/
def countedReps (c : IrNcode) (n : Nat) : Int :=
  ((n / (parts c).length : Nat) : Int) - if c.next = [] then 1 else 0

/-- **The remote `r` behind `n` frames** of the parts of entry `j`, the last at
    time `last`. -/
structure Counting (base : IrRemote) (r j : Nat) (c : IrNcode) (last : MyTimeval) (w : World)
    (n : Nat) (remote : IrRemote) : Prop where
  here : w.remotes[r]? = some remote
  config : SameConfig base remote
  codes : remote.codes = base.codes.set j (behind c (n % (parts c).length))
  decoded : 0 < n → w.lastDecoded = some r
  sent : 0 < n → remote.lastSend = last
  reps : 0 < n → remote.reps = countedReps c n
  code : (parts c).length ≤ n → remote.lastCode = some j

/-- The counter after one frame more. -/
theorem countedReps_succ (c : IrNcode) (n : Nat) :
    countedReps c (n + 1) =
      if (n + 1) % (parts c).length = 0 then countedReps c n + 1 else countedReps c n := by
  have hpos : 0 < (parts c).length := List.length_pos_of_ne_nil (parts_ne_nil c)
  unfold countedReps
  rw [Nat.succ_div]
  by_cases h : (n + 1) % (parts c).length = 0
  · rw [if_pos h, if_pos (Nat.dvd_of_mod_eq_zero h)]
    push_cast
    omega
  · rw [if_neg h, if_neg (fun hd => h (Nat.mod_eq_zero_of_dvd hd))]
    rfl

/-- Behind the last part a code waits for its first. -/
theorem behind_mod (c : IrNcode) (n : Nat) :
    behind c (n % (parts c).length + 1) = behind c ((n + 1) % (parts c).length) := by
  unfold behind
  have hpos : 0 < (parts c).length := List.length_pos_of_ne_nil (parts_ne_nil c)
  have hlt := Nat.mod_lt n hpos
  rw [← Nat.mod_add_mod]
  by_cases h : n % (parts c).length + 1 = (parts c).length
  · rw [h, Nat.mod_self, node_length]
    rfl
  · have hmod : (n % (parts c).length + 1) % (parts c).length = n % (parts c).length + 1 :=
      Nat.mod_eq_of_lt (by omega)
    rw [hmod]

/-- `set_code` on the frame behind `n` others. -/
theorem setCode_counting (hb : SequenceRemote base) {n : Nat} {last now : MyTimeval} {w : World}
    {remote remote1 : IrRemote} {r : Nat} (h : Counting base r j c last w n remote)
    (hsame : SameConfig base remote1) (hlast : remote1.lastCode = remote.lastCode)
    (hsent : remote1.lastSend = remote.lastSend) (hreps : remote1.reps = remote.reps)
    {t : IrCode} {d : Decoded} (hflag : d.repeatFlag = decide (n ≠ 0))
    (htime : 0 < n → timeElapsed last now < 1000000) :
    (setCode now (w.lastDecoded == some r) remote1 j (behind c ((n + 1) % (parts c).length)) t d).2 =
      remembered remote1 now j (behind c ((n + 1) % (parts c).length)) d (countedReps c (n + 1)) := by
  have hpos : 0 < (parts c).length := List.length_pos_of_ne_nil (parts_ne_nil c)
  have hlen : (parts c).length = c.next.length + 1 := rfl
  have hmask : remote1.toggleMask = 0 := by
    rw [hsame]
    exact hb.toggleMask
  have hbits : remote1.toggleBitMask = 0 := by
    rw [hsame]
    exact hb.toggleBitMask
  have hno : hasToggleBitMask remote1 = false := by rw [hasToggleBitMask, hbits]; rfl
  have hempty := node_isEmpty (c := c) (Nat.mod_lt (n + 1) hpos)
  have hcount := countedReps_succ c n
  generalize hq : (n + 1) % (parts c).length = q at hempty hcount ⊢
  have hcur : (behind c q).current = [] ↔ q = 0 := by
    rw [← List.isEmpty_iff]
    show (node c q).isEmpty = true ↔ _
    rw [hempty, decide_eq_true_iff]
  by_cases hn : n = 0
  · have hfalse : repeats now (w.lastDecoded == some r) remote1 j (behind c q) t d = false := by
      rw [repeats, hflag, decide_eq_false (not_not.mpr hn), Bool.and_false, Bool.false_and,
        Bool.false_and]
    rw [setCode_first _ _ _ _ _ _ hmask hbits hfalse]
    congr 1
    subst hn
    rw [hcount]
    by_cases hnext : c.next = []
    · have hq0 : q = 0 := by
        rw [← hq, hlen, hnext]
        rfl
      rw [if_neg (fun h => h.1 hnext), if_pos hq0, countedReps, Nat.zero_div, if_pos hnext]
      rfl
    · have hlong : 0 < c.next.length := List.length_pos_of_ne_nil hnext
      have hq1 : q ≠ 0 := by
        rw [← hq, hlen, Nat.mod_eq_of_lt (by omega)]
        exact Nat.one_ne_zero
      rw [if_neg (fun h => hq1 (hcur.mp h.2)), if_neg hq1, countedReps, Nat.zero_div, if_neg hnext]
      rfl
  · have hdec : (w.lastDecoded == some r) = true := beq_iff_eq.mpr (h.decoded (by omega))
    have htest : repeats now (w.lastDecoded == some r) remote1 j (behind c q) t d =
        (remote1.lastCode == some j || (c.next != [] && node c q != [])) := by
      rw [repeats, hdec, hflag, decide_eq_true hn, hsent, h.sent (by omega),
        decide_eq_true (htime (by omega)), hno, Bool.true_and, Bool.and_true, Bool.and_true,
        Bool.not_false, Bool.true_or, Bool.and_true]
      rfl
    by_cases hq0 : q = 0
    · have hnil : node c q = [] := hcur.mpr hq0
      have hend : (node c q != []) = false := by rw [hnil]; rfl
      rw [hend, Bool.and_false, Bool.or_false] at htest
      cases hcode : remote1.lastCode == some j with
      | true =>
        rw [hcode] at htest
        rw [setCode_repeat _ _ _ _ _ _ hmask htest, if_pos (hcur.mpr hq0), hreps,
          h.reps (by omega), hcount, if_pos hq0]
      | false =>
        -- the first repetition, behind another key
        have hshort : n < (parts c).length := by
          by_contra hge
          have hsome := h.code (by omega)
          rw [hlast, hsome] at hcode
          simp at hcode
        have hn1 : n + 1 = (parts c).length := by
          have hdvd := Nat.dvd_of_mod_eq_zero (hq.trans hq0)
          have hle := Nat.le_of_dvd (by omega) hdvd
          omega
        have hnext : c.next ≠ [] := by
          intro hnil
          rw [hnil] at hlen
          simp only [List.length_nil] at hlen
          omega
        rw [hcode] at htest
        rw [setCode_first _ _ _ _ _ _ hmask hbits htest, if_pos ⟨hnext, hcur.mpr hq0⟩]
        have hone : countedReps c (n + 1) = 1 := by
          rw [countedReps, hn1, Nat.div_self hpos, if_neg hnext]
          rfl
        rw [hone]
    · have hnext : c.next ≠ [] := by
        intro hnil
        rw [hnil] at hlen
        rw [hlen] at hq
        exact hq0 (hq.symm.trans (Nat.mod_one _))
      have hmid : (c.next != [] && node c q != []) = true := by
        rw [Bool.and_eq_true]
        exact ⟨bne_iff_ne.mpr hnext, bne_iff_ne.mpr (fun h => hq0 (hcur.mp h))⟩
      rw [hmid, Bool.or_true] at htest
      rw [setCode_repeat _ _ _ _ _ _ hmask htest, if_neg (fun h => hq0 (hcur.mp h)), hreps,
        h.reps (by omega), hcount, if_neg hq0]

theorem setCode_code (now : MyTimeval) (sameDecoded : Bool) (remote : IrRemote) (i : Nat)
    (found : IrNcode) (t : IrCode) (d : Decoded) :
    (setCode now sameDecoded remote i found t d).1 =
      reportedCode (setCode now sameDecoded remote i found t d).2 found := rfl

theorem setCode_sameConfig (now : MyTimeval) (sameDecoded : Bool) (remote : IrRemote) (i : Nat)
    (found : IrNcode) (t : IrCode) (d : Decoded) :
    SameConfig remote (setCode now sameDecoded remote i found t d).2 := by
  have h := setCode_rest now sameDecoded remote i found t d
  unfold SameConfig
  rw [h]

theorem clear_of_cleared {c : IrNcode} (h : c.current = []) :
    ({ c with current := [] } : IrNcode) = c := by
  obtain ⟨name, code, signals, next, current, transmitState⟩ := c
  dsimp only at h
  subst h
  rfl

/-- A table in which no code has moved. -/
theorem set_behind_zero (hcleared : ∀ c ∈ base.codes, c.current = [])
    (hentry : base.codes[j]? = some c) : base.codes.set j (behind c 0) = base.codes := by
  have hj : j < base.codes.length := (List.getElem?_eq_some_iff.mp hentry).1
  have hc : behind c 0 = base.codes[j] := by
    rw [(List.getElem?_eq_some_iff.mp hentry).2]
    exact clear_of_cleared (hcleared c (List.mem_of_getElem? hentry))
  rw [hc]
  exact List.set_getElem_self hj

theorem map_clear (hcleared : ∀ c ∈ base.codes, c.current = []) :
    base.codes.map (fun c => ({ c with current := [] } : IrNcode)) = base.codes := by
  conv_rhs => rw [← List.map_id base.codes]
  exact List.map_congr_left fun c hc => clear_of_cleared (hcleared c hc)

/-- **What is reported** behind `n + 1` frames, and the state then. -/
theorem reportCode_counting (hb : SequenceRemote base)
    (hcleared : ∀ c ∈ base.codes, c.current = []) (hentry : base.codes[j]? = some c) {n r : Nat}
    {now : MyTimeval} {w : World} {remote : IrRemote} (hw : w.lastDecoded = some r)
    (hlt : r < w.remotes.length) (hconfig : SameConfig base remote)
    (hcodes : remote.codes = base.codes.set j (behind c ((n + 1) % (parts c).length)))
    (hsent : remote.lastSend = now) (hreps : remote.reps = countedReps c (n + 1))
    (hcode : (parts c).length ≤ n + 1 → remote.lastCode = some j) :
    (∃ remote', Counting base r j c now
      (reportCode w r j (behind c ((n + 1) % (parts c).length)) (reportedCode base c) remote).2
      (n + 1) remote') ∧
    (reportCode w r j (behind c ((n + 1) % (parts c).length)) (reportedCode base c) remote).1 =
      expectedOutcome base c n := by
  have hpos : 0 < (parts c).length := List.length_pos_of_ne_nil (parts_ne_nil c)
  have hj : j < base.codes.length := (List.getElem?_eq_some_iff.mp hentry).1
  have hno : hasToggleMask remote = false := by
    have e : remote.toggleMask = 0 := by
      rw [hconfig]
      exact hb.toggleMask
    rw [hasToggleMask, e]
    rfl
  have hempty := node_isEmpty (c := c) (Nat.mod_lt (n + 1) hpos)
  unfold reportCode expectedOutcome
  rw [hno, Bool.false_and, Bool.false_or]
  by_cases hq : (n + 1) % (parts c).length = 0
  · have hend : ¬ ((behind c ((n + 1) % (parts c).length)).current != []) = true := by
      rw [hq]
      exact fun h => bne_iff_ne.mp h rfl
    have hxmp : isXmp (clearCurrent remote) = false := by
      show isXmp remote = false
      rw [hconfig]
      exact hb.notXmp
    have hlastCode : remote.lastCode = some j :=
      hcode (Nat.le_of_dvd (Nat.succ_pos n) (Nat.dvd_of_mod_eq_zero hq))
    have hzero := set_behind_zero hcleared hentry
    have hclear : (clearCurrent remote).codes = base.codes := by
      show remote.codes.map _ = _
      rw [hcodes, hq, hzero]
      exact map_clear hcleared
    have hname : (clearCurrent remote).name = base.name := by
      show remote.name = _
      rw [hconfig]
    have hcount : remote.reps - (if c.next = [] then 0 else 1) =
        ((n / (parts c).length : Nat) : Int) := by
      rw [hreps, countedReps_succ, if_pos hq, countedReps]
      split <;> omega
    rw [if_neg hend, if_pos hq]
    dsimp only
    rw [if_neg (by rw [hxmp]; exact Bool.false_ne_true)]
    refine ⟨⟨clearCurrent remote, ?_, ?_, ?_, fun _ => hw, fun _ => hsent, fun _ => hreps,
      fun _ => hlastCode⟩, ?_⟩
    · show ((w.remotes.set r remote).map clearCurrent)[r]? = _
      rw [List.getElem?_map, List.getElem?_set_self hlt]
      rfl
    · exact hconfig.trans rfl
    · rw [hclear, hq, hzero]
    · have hlast : (clearCurrent remote).lastCode.getD j = j := by
        show remote.lastCode.getD j = j
        rw [hlastCode]
        rfl
      rw [hlast, hclear, hentry]
      show reportMessage (clearCurrent remote) c.name (reportedCode base c)
        (remote.reps - if c.next = [] then 0 else 1) = _
      rw [hcount]
      unfold reportMessage
      rw [hname]
  · have hmid : ((behind c ((n + 1) % (parts c).length)).current != []) = true := by
      rw [bne_iff_ne]
      intro h
      have h' : (node c ((n + 1) % (parts c).length)).isEmpty = true := by
        rw [List.isEmpty_iff]
        exact h
      rw [hempty, decide_eq_true_iff] at h'
      exact hq h'
    rw [if_pos hmid, if_neg hq]
    exact ⟨⟨remote, List.getElem?_set_self hlt, hconfig, hcodes, fun _ => hw, fun _ => hsent,
      fun _ => hreps, hcode⟩, rfl⟩

/-- **One frame more.** -/
theorem counting_call (hb : SequenceRemote base) (hcleared : ∀ c ∈ base.codes, c.current = [])
    (hentry : base.codes[j]? = some c) {fuel n r : Nat} {last now : MyTimeval} {w w' : World}
    {o : Outcome} {remote : IrRemote} {a : Accept} (h : Counting base r j c last w n remote)
    (hcall : decodeCommand fuel now w = some (o, w')) (hacc : acceptOf fuel now w = some a)
    (hr : a.index = r) (hp : PassesCheck base a.frame.fields)
    (hpart : (parts c)[n % (parts c).length]? = some a.frame.code)
    (hflag : a.frame.repeatFlag = decide (n ≠ 0))
    (htime : 0 < n → timeElapsed last now < 1000000) :
    (∃ remote', Counting base r j c now w' (n + 1) remote') ∧ o = expectedOutcome base c n := by
  have hpos : 0 < (parts c).length := List.length_pos_of_ne_nil (parts_ne_nil c)
  rcases decodeCommand_cases hcall with ⟨w1, hfind, -, -, -⟩ | ⟨a', w1, found, hfind, hpass, hacc', hfound, e⟩
  · rw [acceptOf, hfind] at hacc
    exact nomatch hacc
  · rw [acceptOf, hfind] at hacc
    obtain rfl : a' = a := Option.some.inj hacc
    obtain ⟨remote0, r0, hrem, htuned, hg⟩ := hacc'
    obtain rfl : remote0 = remote := by
      rw [hr] at hrem
      exact Option.some.inj (hrem.symm.trans h.here)
    have hconfig0 : SameConfig base r0 := h.config.trans htuned.sameConfig
    have hcodes0 : r0.codes = base.codes.set j (behind c (n % (parts c).length)) := by
      rw [htuned.rest]
      exact h.codes
    obtain ⟨t, hg'⟩ := getCode_behind hb hcleared hentry hconfig0 hcodes0 (Nat.mod_lt n hpos) hp
      hpart
    rw [hg] at hg'
    obtain ⟨hkt, hremote⟩ := Prod.mk.inj hg'
    obtain ⟨hkey, -⟩ := Prod.mk.inj (Option.some.inj hkt)
    have hj : j < base.codes.length := (List.getElem?_eq_some_iff.mp hentry).1
    have hfound' : found = behind c ((n + 1) % (parts c).length) := by
      rw [hremote, hkey] at hfound
      dsimp only at hfound
      rw [List.getElem?_set_self hj, Option.some.injEq] at hfound
      rw [← hfound, behind_mod]
    have hcodes1 : a'.remote.codes =
        base.codes.set j (behind c ((n + 1) % (parts c).length)) := by
      rw [hremote, ← behind_mod]
    have hsame : SameConfig base a'.remote := by
      rw [hremote]
      exact hconfig0.trans rfl
    have hset : (setCode now (w.lastDecoded == some r) a'.remote j
        (behind c ((n + 1) % (parts c).length)) a'.toggleBits a'.frame).2 = _ :=
      setCode_counting hb h hsame (by rw [hremote, htuned.rest]) (by rw [hremote, htuned.rest])
        (by rw [hremote, htuned.rest]) hflag htime
    have hcode := setCode_code now (w.lastDecoded == some r) a'.remote j
      (behind c ((n + 1) % (parts c).length)) a'.toggleBits a'.frame
    rw [hset] at hcode
    unfold acceptFrame at e
    rw [hpass.lastDecoded, hr, hkey, hfound'] at e
    generalize setCode now (w.lastDecoded == some r) a'.remote j
      (behind c ((n + 1) % (parts c).length)) a'.toggleBits a'.frame = g at e hset hcode
    obtain ⟨code, remote2⟩ := g
    dsimp only at e hset hcode
    have hconfig2 : SameConfig base (remembered a'.remote now j
        (behind c ((n + 1) % (parts c).length)) a'.frame (countedReps c (n + 1))) :=
      hsame.trans rfl
    rw [hconfig2.reportedCode] at hcode
    have hcode' : code = reportedCode base c := hcode
    subst hset hcode'
    have hlt : r < w1.remotes.length := by
      rw [hpass.length]
      exact (List.getElem?_eq_some_iff.mp h.here).1
    have hlastCode : (parts c).length ≤ n + 1 → (remembered a'.remote now j
        (behind c ((n + 1) % (parts c).length)) a'.frame (countedReps c (n + 1))).lastCode =
          some j := by
      intro hle
      show (if (behind c ((n + 1) % (parts c).length)).current = [] then some j
        else a'.remote.lastCode) = some j
      split
      · rfl
      · next hcur =>
        have hne : n + 1 ≠ (parts c).length := by
          intro heq
          rw [heq, Nat.mod_self] at hcur
          exact hcur rfl
        have hlast : a'.remote.lastCode = remote0.lastCode := by rw [hremote, htuned.rest]
        rw [hlast]
        exact h.code (by omega)
    obtain ⟨ho, hw⟩ := Prod.mk.inj e
    subst ho hw
    exact reportCode_counting hb hcleared hentry rfl hlt hconfig2 hcodes1 rfl rfl hlastCode

end Frames

/-! ## 5. Any number of repetitions -/

/-- **The frames are the parts of `c`**, again and again, from the `n`th on:
    each is accepted for remote `r`, all but the first carry the repeat flag
    and come within a second of the one before, which came at `last`. -/
def Received (base : IrRemote) (r : Nat) (c : IrNcode) : Nat → MyTimeval → List Entry → Prop
  | _, _, [] => True
  | n, last, e :: log =>
    (∃ a, e.accept = some a ∧ a.index = r ∧ PassesCheck base a.frame.fields ∧
      (parts c)[n % (parts c).length]? = some a.frame.code ∧
      a.frame.repeatFlag = decide (n ≠ 0)) ∧
    (0 < n → timeElapsed last e.now < 1000000) ∧ Received base r c (n + 1) e.now log

instance decidableReceived (base : IrRemote) (r : Nat) (c : IrNcode) :
    ∀ (n : Nat) (last : MyTimeval) (log : List Entry), Decidable (Received base r c n last log)
  | _, _, [] => isTrue trivial
  | n, last, e :: log =>
    have := decidableReceived base r c (n + 1) e.now log
    match h : e.accept with
    | none => isFalse fun hr => by
      obtain ⟨⟨a, ha, -⟩, -⟩ := hr
      rw [h] at ha
      exact nomatch ha
    | some a =>
      decidable_of_iff ((a.index = r ∧ (preMatches base a.frame.fields = true ∧
          postMatches base a.frame.fields = true) ∧
          (parts c)[n % (parts c).length]? = some a.frame.code ∧
          a.frame.repeatFlag = decide (n ≠ 0)) ∧
          (0 < n → timeElapsed last e.now < 1000000) ∧ Received base r c (n + 1) e.now log) (by
        rw [Received, h]
        constructor
        · rintro ⟨h1, h2⟩
          exact ⟨⟨a, rfl, h1⟩, h2⟩
        · rintro ⟨⟨a', ha, h1⟩, h2⟩
          obtain rfl := Option.some.inj ha
          exact ⟨h1, h2⟩)

section Runs

variable {base remote : IrRemote} {c : IrNcode} {r j fuel : Nat}

theorem counting_run (hb : SequenceRemote base) (hcleared : ∀ c ∈ base.codes, c.current = [])
    (hentry : base.codes[j]? = some c) {calls : List Call} {log : List Entry} {w w' : World}
    {n : Nat} {last : MyTimeval} (h : Counting base r j c last w n remote)
    (hrun : runCalls fuel calls w = some (log, w')) (hframes : Received base r c n last log) :
    log.map (·.outcome) = (List.range' n log.length).map (expectedOutcome base c) := by
  induction calls generalizing w log n last remote with
  | nil =>
    obtain ⟨rfl, -⟩ := hrun
    rfl
  | cons call calls ih =>
    rw [runCalls] at hrun
    rcases hcall : decodeCommand fuel call.now { w with buf := call.buf } with - | ⟨o, w1⟩
    · rw [hcall] at hrun
      exact nomatch hrun
    · rw [hcall] at hrun
      obtain ⟨⟨log', w2⟩, hrest, heq⟩ := Option.map_eq_some_iff.mp hrun
      obtain ⟨rfl, rfl⟩ := heq
      obtain ⟨⟨a, ha, hr, hp, hpart, hflag⟩, htime, hnext⟩ := hframes
      have h' : Counting base r j c last { w with buf := call.buf } n remote :=
        ⟨h.here, h.config, h.codes, h.decoded, h.sent, h.reps, h.code⟩
      obtain ⟨⟨remote', h1⟩, ho⟩ :=
        counting_call hb hcleared hentry h' hcall ha hr hp hpart hflag htime
      have hrest' := ih h1 hrest hnext
      rw [List.map_cons, hrest', ho]
      rfl

/-- The outcomes of one repetition. -/
theorem expectedOutcome_repetition (base : IrRemote) (c : IrNcode) (m : Nat) :
    (List.range (parts c).length).map
        (fun t => expectedOutcome base c ((parts c).length * m + t)) =
      List.replicate c.next.length .nothing ++
        [reportMessage base c.name (reportedCode base c) (m : Int)] := by
  have hpos : 0 < (parts c).length := List.length_pos_of_ne_nil (parts_ne_nil c)
  have hlast : expectedOutcome base c ((parts c).length * m + c.next.length) =
      reportMessage base c.name (reportedCode base c) (m : Int) := by
    have e : (parts c).length * m + c.next.length + 1 = (parts c).length * (m + 1) := by
      rw [Nat.mul_succ, length_parts]
      omega
    have hlt : c.next.length < (parts c).length := Nat.lt_succ_self _
    unfold expectedOutcome
    rw [e, Nat.mul_mod_right, if_pos rfl, Nat.mul_add_div hpos, Nat.div_eq_of_lt hlt,
      Nat.add_zero]
  have hrest : ∀ t ∈ List.range c.next.length,
      expectedOutcome base c ((parts c).length * m + t) = .nothing := by
    intro t ht
    have hlt : t + 1 < (parts c).length := by
      rw [List.mem_range] at ht
      rw [length_parts]
      omega
    unfold expectedOutcome
    rw [Nat.add_assoc, Nat.mul_add_mod, Nat.mod_eq_of_lt hlt, if_neg (Nat.succ_ne_zero t)]
  have hmap : (List.range c.next.length).map
      (fun t => expectedOutcome base c ((parts c).length * m + t)) =
      List.replicate c.next.length .nothing := by
    rw [List.map_congr_left hrest, List.map_const', List.length_range]
  rw [length_parts] at hmap hlast ⊢
  rw [List.range_succ, List.map_append, hmap, List.map_singleton, hlast]

theorem expectedOutcome_repetitions (base : IrRemote) (c : IrNcode) (m : Nat) :
    (List.range' 0 ((parts c).length * m)).map (expectedOutcome base c) =
      (List.range m).flatMap fun (i : Nat) => List.replicate c.next.length .nothing ++
        [reportMessage base c.name (reportedCode base c) (i : Int)] := by
  rw [← List.range_eq_range']
  induction m with
  | zero => rfl
  | succ m ih =>
    rw [Nat.mul_succ, List.range_add, List.map_append, ih, List.map_map, List.range_succ,
      List.flatMap_append, List.flatMap_singleton]
    exact congrArg _ (expectedOutcome_repetition base c m)

end Runs

/-- **The counter of a sequence**: the parts of a code, received `m` times in a
    row, are reported on the last part of each repetition with the counters
    0, 1, ..., `m - 1`, and on no other frame. -/
theorem sequence_reports (fuel r j m : Nat) (calls : List Call) (w w' : World) (remote : IrRemote)
    (c : IrNcode) (log : List Entry) (hr : w.remotes[r]? = some remote)
    (hremote : SequenceRemote remote) (hcleared : ∀ c ∈ remote.codes, c.current = [])
    (hentry : remote.codes[j]? = some c) (hrun : runCalls fuel calls w = some (log, w'))
    (hframes : Received remote r c 0 ⟨0, 0⟩ log) (hlen : log.length = (parts c).length * m) :
    log.map (·.outcome) = (List.range m).flatMap fun (i : Nat) =>
      List.replicate c.next.length .nothing ++
        [reportMessage remote c.name (reportedCode remote c) (i : Int)] := by
  have hstart : Counting remote r j c ⟨0, 0⟩ w 0 remote := by
    refine ⟨hr, rfl, ?_, fun h => ?_, fun h => ?_, fun h => ?_, fun h => ?_⟩
    · rw [Nat.zero_mod]
      exact (set_behind_zero hcleared hentry).symm
    · exact absurd h (Nat.lt_irrefl 0)
    · exact absurd h (Nat.lt_irrefl 0)
    · exact absurd h (Nat.lt_irrefl 0)
    · exact absurd h (Nat.not_succ_le_zero _)
  have hout := counting_run hremote hcleared hentry hstart hrun hframes
  rw [hlen, expectedOutcome_repetitions] at hout
  exact hout

/-- Two codes that share no part; the first has two. -/
def volumeRemote : IrRemote :=
  { name := "volume", flags := SPACE_ENC, eps := 30, aeps := 100, bits := 2, pone := 500,
    sone := 1500, pzero := 500, szero := 500, ptrail := 500, gap := 45000,
    codes := [{ name := "UP", code := 1, next := [2] }, { name := "MUTE", code := 3 }] }

/-- A frame of two bits behind a space, at a time in microseconds. -/
def volumeFrame (usec gap s1 s0 : Int) : Call where
  now := ⟨0, usec⟩
  buf := { data := [gap], input := [PULSE_BIT + 500, s1, PULSE_BIT + 500, s0, PULSE_BIT + 500] }

/-- The parts of UP, twice. -/
def volumeRun : List Call :=
  [volumeFrame 0 100000 500 1500, volumeFrame 60000 45000 1500 500,
    volumeFrame 120000 45000 500 1500, volumeFrame 180000 45000 1500 500]

theorem volumeRun_received : (runCalls 0 volumeRun { remotes := [volumeRemote] }).map (fun x =>
    (decide (Received volumeRemote 0 { name := "UP", code := 1, next := [2] } 0 ⟨0, 0⟩ x.1),
      x.1.length)) = some (true, 4) := by decide +kernel

/-- UP is reported on every second frame. -/
theorem sequence_reports_volumeRun : ∃ log w',
    runCalls 0 volumeRun { remotes := [volumeRemote] } = some (log, w') ∧
    log.map (·.outcome) = [.nothing, reportMessage volumeRemote "UP" 1 0,
      .nothing, reportMessage volumeRemote "UP" 1 1] := by
  obtain ⟨⟨log, w'⟩, hrun, hlog⟩ := Option.map_eq_some_iff.mp volumeRun_received
  obtain ⟨hframes, hlen⟩ := Prod.mk.inj hlog
  refine ⟨log, w', hrun, ?_⟩
  have hremote : SequenceRemote volumeRemote := by
    refine ⟨by decide, by decide, by decide, by decide, List.pairwise_pair.mpr ?_⟩
    intro p hp p' hp'
    obtain rfl := List.mem_singleton.mp hp'
    rcases List.mem_pair.mp hp with rfl | rfl
    · decide +kernel
    · decide +kernel
  rw [sequence_reports 0 0 0 2 volumeRun { remotes := [volumeRemote] } w' volumeRemote
    { name := "UP", code := 1, next := [2] } log rfl hremote (by decide) rfl hrun
    (of_decide_eq_true hframes) hlen]
  decide +kernel

/-- Code and post data of 65 bits: the upper bit of the code is not compared. -/
def splitRemote : IrRemote :=
  { name := "split", flags := SPACE_ENC, eps := 30, aeps := 100, bits := 2, postDataBits := 63,
    pone := 500, sone := 1500, pzero := 500, szero := 500, ptrail := 500, gap := 45000,
    codes := [{ name := "A", code := 0 }, { name := "B", code := 2 }] }

/-- The frame of B. -/
def splitFrame : Call where
  now := ⟨0, 0⟩
  buf := { data := [100000], input := [PULSE_BIT + 500, 1500] ++
    (List.replicate 64 [PULSE_BIT + 500, 500]).flatten ++ [PULSE_BIT + 500] }

theorem splitFrame_received : (runCalls 0 [splitFrame] { remotes := [splitRemote] }).map (fun x =>
    (decide (Received splitRemote 0 { name := "B", code := 2 } 0 ⟨0, 0⟩ x.1),
      x.1.map (·.outcome))) = some (true, [reportMessage splitRemote "A" 0 0]) := by decide +kernel

/-- The frame of B is reported as A. -/
theorem sequence_reports_splitRemote :
    splitRemote.codes.Pairwise (fun c c' => ∀ p ∈ parts c, ∀ p' ∈ parts c', p ≠ p') ∧
    (splitRemote.ignoreMask = 0 ∧ splitRemote.toggleBitMask = 0 ∧ splitRemote.toggleMask = 0 ∧
      isXmp splitRemote = false ∧ ∀ c ∈ splitRemote.codes, c.current = []) ∧
    ∃ log w', runCalls 0 [splitFrame] { remotes := [splitRemote] } = some (log, w') ∧
      Received splitRemote 0 { name := "B", code := 2 } 0 ⟨0, 0⟩ log ∧
      log.map (·.outcome) ≠ [reportMessage splitRemote "B"
        (reportedCode splitRemote { name := "B", code := 2 }) 0] := by
  refine ⟨List.pairwise_pair.mpr fun p hp p' hp' => ?_,
    ⟨by decide, by decide, by decide, by decide, by decide⟩, ?_⟩
  · obtain rfl := List.mem_singleton.mp hp
    obtain rfl := List.mem_singleton.mp hp'
    decide
  obtain ⟨⟨log, w'⟩, hrun, hlog⟩ := Option.map_eq_some_iff.mp splitFrame_received
  obtain ⟨hframes, hout⟩ := Prod.mk.inj hlog
  refine ⟨log, w', hrun, of_decide_eq_true hframes, ?_⟩
  dsimp only at hout
  rw [hout]
  decide +kernel

end WinLirc
