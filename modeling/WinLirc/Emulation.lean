/-
  File:      WinLirc/Emulation.lean
  Subject:   IRRecord/emulation.cpp: the recorder's copies of `get_code` and of
             the raw codes of `receive_decode`.

  The helpers of the two copies (`expectpulse`, `sync_rec_buffer`, `get_gap`,
  `match_ir_code`, ...) are the same, so the model shares them. Two places are
  not: the recorder lets a sequence that matches anew replace a code that is
  already complete, and it looks for the gap behind a raw code only once.
  `emulation_agrees_iff` says exactly when that shows.
-/
import WinLirc.Signal.Lines
import WinLirc.IrRemote

namespace WinLirc

def LIRC_MODE_CODE : Nat := 8

namespace Emulation

/-! ## 1. `get_code` -/

def scanCode (remote : IrRemote) (all : IrCode) (i : Nat) (c : IrNcode) (s : Scan) :
    IrNcode × Scan :=
  if matchesPart remote all c c.current then
    let c :=
      if c.next ≠ [] then
        { c with current := if c.current = [] then c.next else c.current.tail }
      else c
    if s.haveCode then (c, { s with foundCode := true })
    else (c, { found := some i, foundCode := true, haveCode := c.current.isEmpty })
  else if c.next = [] ∨ c.current = [] then ({ c with current := [] }, s)
  else
    match searchNode remote all c c.next with
    -- `found` is set here even if `have_code` is
    | some node => ({ c with current := node }, { s with found := some i, foundCode := true })
    | none => ({ c with current := [] }, s)

def scanCodes (remote : IrRemote) (all : IrCode) : Nat → List IrNcode → Scan → List IrNcode × Scan
  | _, [], s => ([], s)
  | i, c :: codes, s =>
    let (c, s) := scanCode remote all i c s
    let (codes, s) := scanCodes remote all (i + 1) codes s
    (c :: codes, s)

def getCode (remote : IrRemote) (f : Fields) : Option (Nat × IrCode) × IrRemote :=
  let f := receivedFields remote f
  if hasPre remote && (f.pre ||| preMask remote) != (remote.preData ||| preMask remote) then
    (none, remote)
  else if hasPost remote && (f.post ||| postMask remote) != (remote.postData ||| postMask remote) then
    (none, remote)
  else
    let all := genIrCode remote f.pre f.code f.post
    let (codes, s) := scanCodes remote all 0 remote.codes {}
    let remote := { remote with codes := codes }
    match s.found with
    | none => (none, remote)
    | some i =>
      if s.foundCode && hasToggleMask remote then
        if remote.toggleMaskState.tmod 2 = 0 then
          (some (i, all &&& remote.toggleBitMask), { remote with toggleCode := some i })
        else if remote.toggleCode ≠ some i then (none, { remote with toggleCode := none })
        else (some (i, all &&& remote.toggleBitMask), { remote with toggleCode := none })
      else (some (i, all &&& remote.toggleBitMask), remote)

/-! ## 2. The raw codes of `receive_decode` -/

/-- The loop over the codes: the first whose signals match. -/
def matchRaw (env : DecodeEnv) : List IrNcode → IrRemote → Rbuf → Option IrNcode × IrRemote × Rbuf
  | [], remote, b => (none, remote, b)
  | c :: codes, remote, b =>
    match matchSignals remote (c.signals.getD []) b with
    | (false, b) =>
      let (_, remote, b) := syncRecBuffer env.lastRemote remote (rewindRecBuffer b)
      matchRaw env codes remote b
    | (true, b) => (some c, remote, b)

/-- The branch for raw remotes. -/
def decodeRaw (env : DecodeEnv) (remote : IrRemote) (b : Rbuf) :
    Option IrNcode × IrRemote × Rbuf :=
  if env.recMode = LIRC_MODE_CODE ∨ env.recMode = LIRC_MODE_LIRCCODE then (none, remote, b)
  else
    match matchRaw env remote.codes remote b with
    | (none, remote, b) => (none, remote, b)
    | (some c, remote, b) =>
      let gap := if isConst remote then minGap remote - b.sum else minGap remote
      match getGap remote gap b with
      | (false, b) => (none, remote, b)
      | (true, b) => (some c, remote, b)

end Emulation

/-- The branch for raw remotes as `decodeRest` has it. -/
def rawBranch (env : DecodeEnv) (remote : IrRemote) (b : Rbuf) :
    Option IrNcode × IrRemote × Rbuf :=
  if env.recMode = LIRC_MODE_LIRCCODE then (none, remote, b)
  else decodeRaw env remote.codes remote b

/-! ## 3. What the received word is for a code -/

/-- Nothing, one of its parts, its last part, or a part that starts a shorter
    run of its sequence. -/
inductive Hearing where
  | nothing | part | whole | again
  deriving DecidableEq, Repr

/-- The node behind the one that matched. -/
def advance (c : IrNcode) : List IrCode :=
  if c.next ≠ [] then (if c.current = [] then c.next else c.current.tail) else c.current

def heard (remote : IrRemote) (all : IrCode) (c : IrNcode) : Hearing :=
  if matchesPart remote all c c.current then (if (advance c).isEmpty then .whole else .part)
  else if c.next = [] ∨ c.current = [] then .nothing
  else if (searchNode remote all c c.next).isSome then .again
  else .nothing

/-- The bookkeeping of the daemon's loop. -/
def Scan.hear (s : Scan) (i : Nat) : Hearing → Scan
  | .nothing => s
  | .part => if s.haveCode then { s with foundCode := true }
      else { found := some i, foundCode := true, haveCode := false }
  | .whole => if s.haveCode then { s with foundCode := true }
      else { found := some i, foundCode := true, haveCode := true }
  | .again => if s.haveCode then { s with foundCode := true }
      else { s with found := some i, foundCode := true }

/-- The recorder's. -/
def Scan.hearEmulated (s : Scan) (i : Nat) : Hearing → Scan
  | .again => { s with found := some i, foundCode := true }
  | h => s.hear i h

theorem advance_current (c : IrNcode) :
    (if c.next ≠ [] then
        { c with current := if c.current = [] then c.next else c.current.tail }
      else c).current = advance c := by
  unfold advance
  split <;> rfl

theorem scanCode_snd (remote : IrRemote) (all : IrCode) (i : Nat) (c : IrNcode) (s : Scan) :
    (scanCode remote all i c s).2 = s.hear i (heard remote all c) := by
  unfold scanCode heard
  by_cases hm : matchesPart remote all c c.current = true
  · rw [if_pos hm, if_pos hm]
    dsimp only
    rw [advance_current]
    cases ha : (advance c).isEmpty with
    | true =>
      unfold Scan.hear
      split <;> rfl
    | false =>
      unfold Scan.hear
      split <;> rfl
  · rw [if_neg hm, if_neg hm]
    by_cases hn : c.next = [] ∨ c.current = []
    · rw [if_pos hn, if_pos hn]
      rfl
    · rw [if_neg hn, if_neg hn]
      cases searchNode remote all c c.next with
      | none => rfl
      | some node => rfl

theorem emulated_scanCode_snd (remote : IrRemote) (all : IrCode) (i : Nat) (c : IrNcode)
    (s : Scan) :
    (Emulation.scanCode remote all i c s).2 = s.hearEmulated i (heard remote all c) := by
  unfold Emulation.scanCode heard
  by_cases hm : matchesPart remote all c c.current = true
  · rw [if_pos hm, if_pos hm]
    dsimp only
    rw [advance_current]
    cases ha : (advance c).isEmpty with
    | true =>
      unfold Scan.hearEmulated Scan.hear
      split <;> rfl
    | false =>
      unfold Scan.hearEmulated Scan.hear
      split <;> rfl
  · rw [if_neg hm, if_neg hm]
    by_cases hn : c.next = [] ∨ c.current = []
    · rw [if_pos hn, if_pos hn]
      rfl
    · rw [if_neg hn, if_neg hn]
      cases searchNode remote all c c.next with
      | none => rfl
      | some node => rfl

/-- The codes themselves move on alike, whatever has been found. -/
theorem emulated_scanCode_fst (remote : IrRemote) (all : IrCode) (i k : Nat) (c : IrNcode)
    (s t : Scan) :
    (Emulation.scanCode remote all i c s).1 = (scanCode remote all k c t).1 := by
  unfold Emulation.scanCode scanCode
  by_cases hm : matchesPart remote all c c.current = true
  · rw [if_pos hm, if_pos hm]
    cases s.haveCode <;> cases t.haveCode <;> rfl
  · rw [if_neg hm, if_neg hm]
    by_cases hn : c.next = [] ∨ c.current = []
    · rw [if_pos hn, if_pos hn]
    · rw [if_neg hn, if_neg hn]
      cases searchNode remote all c c.next with
      | none => rfl
      | some node => rfl

/-! ## 4. The whole table -/

/-- The bookkeeping over the words heard from entry `i` on. -/
def Scan.hearAll (s : Scan) : Nat → List Hearing → Scan
  | _, [] => s
  | i, h :: hs => (s.hear i h).hearAll (i + 1) hs

def Scan.hearAllEmulated (s : Scan) : Nat → List Hearing → Scan
  | _, [] => s
  | i, h :: hs => (s.hearEmulated i h).hearAllEmulated (i + 1) hs

theorem scanCodes_snd (remote : IrRemote) (all : IrCode) (codes : List IrNcode) (i : Nat)
    (s : Scan) :
    (scanCodes remote all i codes s).2 = s.hearAll i (codes.map (heard remote all)) := by
  induction codes generalizing i s with
  | nil => rfl
  | cons c codes ih =>
    rw [List.map_cons, Scan.hearAll, ← scanCode_snd, ← ih]
    rfl

theorem emulated_scanCodes_snd (remote : IrRemote) (all : IrCode) (codes : List IrNcode) (i : Nat)
    (s : Scan) :
    (Emulation.scanCodes remote all i codes s).2 =
      s.hearAllEmulated i (codes.map (heard remote all)) := by
  induction codes generalizing i s with
  | nil => rfl
  | cons c codes ih =>
    rw [List.map_cons, Scan.hearAllEmulated, ← emulated_scanCode_snd, ← ih]
    rfl

theorem emulated_scanCodes_fst (remote : IrRemote) (all : IrCode) (codes : List IrNcode)
    (i k : Nat) (s t : Scan) :
    (Emulation.scanCodes remote all i codes s).1 = (scanCodes remote all k codes t).1 := by
  induction codes generalizing i k s t with
  | nil => rfl
  | cons c codes ih =>
    have h1 := emulated_scanCode_fst remote all i k c s t
    have h2 := ih (i + 1) (k + 1) (Emulation.scanCode remote all i c s).2
      (scanCode remote all k c t).2
    have hl : (Emulation.scanCodes remote all i (c :: codes) s).1 =
        (Emulation.scanCode remote all i c s).1 ::
          (Emulation.scanCodes remote all (i + 1) codes (Emulation.scanCode remote all i c s).2).1 :=
      rfl
    have hr : (scanCodes remote all k (c :: codes) t).1 = (scanCode remote all k c t).1 ::
          (scanCodes remote all (k + 1) codes (scanCode remote all k c t).2).1 := rfl
    rw [hl, hr, h1, h2]

theorem hearAll_append (s : Scan) (i : Nat) (a b : List Hearing) :
    s.hearAll i (a ++ b) = (s.hearAll i a).hearAll (i + a.length) b := by
  induction a generalizing s i with
  | nil => rfl
  | cons h a ih =>
    rw [List.cons_append, Scan.hearAll, Scan.hearAll, ih, List.length_cons, Nat.add_right_comm,
      Nat.add_assoc]

theorem hearAllEmulated_append (s : Scan) (i : Nat) (a b : List Hearing) :
    s.hearAllEmulated i (a ++ b) = (s.hearAllEmulated i a).hearAllEmulated (i + a.length) b := by
  induction a generalizing s i with
  | nil => rfl
  | cons h a ih =>
    rw [List.cons_append, Scan.hearAllEmulated, Scan.hearAllEmulated, ih, List.length_cons,
      Nat.add_right_comm, Nat.add_assoc]

/-- The copies part only over a sequence that matches anew behind a complete
    code. -/
theorem hearEmulated_eq {s : Scan} {h : Hearing} (hs : s.haveCode = false ∨ h ≠ .again) (i : Nat) :
    s.hearEmulated i h = s.hear i h := by
  cases h with
  | again =>
    have hf : s.haveCode = false := hs.resolve_right fun hne => hne rfl
    unfold Scan.hearEmulated Scan.hear
    dsimp only
    rw [hf, if_neg Bool.false_ne_true]
  | _ => rfl

/-- Before the first complete code. -/
theorem hearAll_noWhole {hs : List Hearing} (hw : .whole ∉ hs) {s : Scan} (hf : s.haveCode = false)
    (i : Nat) :
    s.hearAllEmulated i hs = s.hearAll i hs ∧ (s.hearAll i hs).haveCode = false := by
  induction hs generalizing s i with
  | nil => exact ⟨rfl, hf⟩
  | cons h hs ih =>
    have hnot : h ≠ .whole := fun he => hw (he ▸ List.mem_cons_self)
    have hstep : (s.hear i h).haveCode = false := by
      cases h with
      | whole => exact absurd rfl hnot
      | _ =>
        unfold Scan.hear
        simp [hf]
    rw [Scan.hearAllEmulated, Scan.hearAll, hearEmulated_eq (Or.inl hf)]
    exact ih (fun hm => hw (List.mem_cons_of_mem _ hm)) hstep (i + 1)

/-- Where no sequence matches anew. -/
theorem hearAll_noAgain {hs : List Hearing} (ha : .again ∉ hs) (s : Scan) (i : Nat) :
    s.hearAllEmulated i hs = s.hearAll i hs := by
  induction hs generalizing s i with
  | nil => rfl
  | cons h hs ih =>
    have hnot : h ≠ .again := fun he => ha (he ▸ List.mem_cons_self)
    rw [Scan.hearAllEmulated, Scan.hearAll, hearEmulated_eq (Or.inr hnot)]
    exact ih (fun hm => ha (List.mem_cons_of_mem _ hm)) _ (i + 1)

/-- Behind a complete code the daemon keeps it. -/
theorem hearAll_have {s : Scan} (hc : s.haveCode = true) (hf : s.foundCode = true) (i : Nat)
    (hs : List Hearing) : s.hearAll i hs = s := by
  have hstep : ∀ i h, s.hear i h = s := by
    intro i h
    obtain ⟨found, foundCode, haveCode⟩ := s
    dsimp only at hc hf
    rw [hc, hf]
    cases h <;> rfl
  induction hs generalizing i with
  | nil => rfl
  | cons h hs ih => rw [Scan.hearAll, hstep, ih]

/-- The recorder's bookkeeping behind a complete code. -/
theorem hearAllEmulated_have {s : Scan} (hc : s.haveCode = true) (hf : s.foundCode = true)
    (i : Nat) (hs : List Hearing) : (s.hearAllEmulated i hs).haveCode = true ∧
      (s.hearAllEmulated i hs).foundCode = true := by
  induction hs generalizing s i with
  | nil => exact ⟨hc, hf⟩
  | cons h hs ih =>
    have hstep : (s.hearEmulated i h).haveCode = true ∧
        (s.hearEmulated i h).foundCode = true := by
      cases h <;> simp [Scan.hearEmulated, Scan.hear, hc, hf]
    exact ih hstep.1 hstep.2 (i + 1)

/-- Entry `k` is the first complete code, and entry `j` behind it is the last
    whose sequence matches anew. -/
def Overtaken (hs : List Hearing) (k j : Nat) : Prop :=
  ∃ pre mid post, hs = pre ++ .whole :: (mid ++ .again :: post) ∧ .whole ∉ pre ∧ .again ∉ post ∧
    k = pre.length ∧ j = pre.length + 1 + mid.length

/-- The last place where an element stands. -/
theorem exists_last {α : Type} {x : α} {l : List α} (h : x ∈ l) :
    ∃ a b, l = a ++ x :: b ∧ x ∉ b := by
  induction l with
  | nil => exact absurd h List.not_mem_nil
  | cons y l ih =>
    by_cases hl : x ∈ l
    · obtain ⟨a, b, he, hb⟩ := ih hl
      exact ⟨y :: a, b, by rw [he]; rfl, hb⟩
    · have hxy : x = y := (List.mem_cons.mp h).resolve_right hl
      exact ⟨[], l, by rw [hxy]; rfl, hl⟩

/-- The last place where an element stands is one place. -/
theorem split_last_unique {α : Type} {x : α} {a b a' b' : List α} (hb : x ∉ b) (hb' : x ∉ b')
    (h : a ++ x :: b = a' ++ x :: b') : a = a' ∧ b = b' := by
  have hr := congrArg List.reverse h
  rw [List.reverse_append, List.reverse_append, List.reverse_cons, List.reverse_cons,
    List.append_assoc, List.append_assoc] at hr
  obtain ⟨h1, h2⟩ := Signal.append_cons_inj (by rwa [List.mem_reverse]) (by rwa [List.mem_reverse]) hr
  exact ⟨List.reverse_inj.mp h2, List.reverse_inj.mp h1⟩

theorem overtaken_unique {hs : List Hearing} {k j k' j' : Nat} (h : Overtaken hs k j)
    (h' : Overtaken hs k' j') : k = k' ∧ j = j' := by
  obtain ⟨pre, mid, post, hsplit, hpre, hpost, rfl, rfl⟩ := h
  obtain ⟨pre', mid', post', hsplit', hpre', hpost', rfl, rfl⟩ := h'
  obtain ⟨hp, hrest⟩ := Signal.append_cons_inj hpre hpre' (hsplit.symm.trans hsplit')
  obtain ⟨hm, -⟩ := split_last_unique hpost hpost' hrest
  exact ⟨by rw [hp], by rw [hp, hm]⟩

/-- The bookkeeping once entry `k` is complete. -/
def Scan.complete (k : Nat) : Scan := { found := some k, foundCode := true, haveCode := true }

/-- **What the two loops find.** They agree unless a complete code is
    overtaken; then the daemon finds it, and the recorder the other one. -/
theorem hearAll_compare (hs : List Hearing) :
    (Scan.hearAllEmulated {} 0 hs = Scan.hearAll {} 0 hs ∧ ∀ k j, ¬Overtaken hs k j) ∨
      ∃ k j, Overtaken hs k j ∧ k ≠ j ∧
        Scan.hearAll {} 0 hs = .complete k ∧ Scan.hearAllEmulated {} 0 hs = .complete j := by
  by_cases hw : Hearing.whole ∈ hs
  · obtain ⟨pre, rest, hsplit, hpre⟩ := List.eq_append_cons_of_mem hw
    obtain ⟨heq, hfalse⟩ := hearAll_noWhole (s := {}) hpre rfl 0
    -- the bookkeeping at the first complete code
    have hwhole : (Scan.hearAll {} 0 pre).hear (0 + pre.length) .whole = .complete pre.length := by
      unfold Scan.hear Scan.complete
      dsimp only
      rw [hfalse, if_neg Bool.false_ne_true, Nat.zero_add]
    have hdll : Scan.hearAll {} 0 hs = .complete pre.length := by
      rw [hsplit, hearAll_append, Scan.hearAll, hwhole]
      exact hearAll_have rfl rfl _ _
    have hrec : Scan.hearAllEmulated {} 0 hs =
        (Scan.complete pre.length).hearAllEmulated (pre.length + 1) rest := by
      rw [hsplit, hearAllEmulated_append, Scan.hearAllEmulated, heq,
        hearEmulated_eq (Or.inr (by decide)), hwhole, Nat.zero_add]
    by_cases ha : Hearing.again ∈ rest
    · right
      obtain ⟨mid, post, hrest, hpost⟩ := exists_last ha
      refine ⟨pre.length, pre.length + 1 + mid.length,
        ⟨pre, mid, post, by rw [hsplit, hrest], hpre, hpost, rfl, rfl⟩, by omega, hdll, ?_⟩
      have hc := hearAllEmulated_have (s := .complete pre.length) rfl rfl (pre.length + 1) mid
      have hagain : ((Scan.complete pre.length).hearAllEmulated (pre.length + 1) mid).hearEmulated
          (pre.length + 1 + mid.length) .again = .complete (pre.length + 1 + mid.length) := by
        unfold Scan.hearEmulated
        dsimp only
        rw [hc.1]
        rfl
      rw [hrec, hrest, hearAllEmulated_append, Scan.hearAllEmulated, hearAll_noAgain hpost, hagain]
      exact hearAll_have rfl rfl _ _
    · left
      refine ⟨?_, ?_⟩
      · rw [hrec, hdll, hearAll_noAgain ha]
        exact hearAll_have rfl rfl _ _
      · rintro k j ⟨pre', mid, post, hsplit', hpre', -, -, -⟩
        -- the first complete code stands at one place only
        have hrest := (Signal.append_cons_inj hpre hpre' (hsplit.symm.trans hsplit')).2
        exact ha (by rw [hrest]; simp)
  · left
    refine ⟨(hearAll_noWhole hw rfl 0).1, ?_⟩
    rintro k j ⟨pre, mid, post, hsplit, -⟩
    exact hw (by rw [hsplit]; simp)

/-! ## 5. `get_code` compared -/

/-- The received pre or post data are not those of the remote. -/
def rejected (remote : IrRemote) (f : Fields) : Bool :=
  (hasPre remote && (f.pre ||| preMask remote) != (remote.preData ||| preMask remote)) ||
    (hasPost remote && (f.post ||| postMask remote) != (remote.postData ||| postMask remote))

/-- The word that the codes are compared with. -/
def comparedWord (remote : IrRemote) (f : Fields) : IrCode :=
  genIrCode remote f.pre f.code f.post

/-- What the received word is for the codes of a remote, in their order. -/
def heards (remote : IrRemote) (f : Fields) : List Hearing :=
  remote.codes.map (heard remote (comparedWord remote f))

/-- The end of `get_code`. -/
def finishCode (remote : IrRemote) (all : IrCode) (s : Scan) :
    Option (Nat × IrCode) × IrRemote :=
  match s.found with
  | none => (none, remote)
  | some i =>
    if s.foundCode && hasToggleMask remote then
      if remote.toggleMaskState.tmod 2 = 0 then
        (some (i, all &&& remote.toggleBitMask), { remote with toggleCode := some i })
      else if remote.toggleCode ≠ some i then (none, { remote with toggleCode := none })
      else (some (i, all &&& remote.toggleBitMask), { remote with toggleCode := none })
    else (some (i, all &&& remote.toggleBitMask), remote)

theorem if_or {α : Type} (a b : Bool) (x y : α) :
    (if a = true then x else if b = true then x else y) = if (a || b) = true then x else y := by
  cases a <;> cases b <;> rfl

theorem getCode_eq (remote : IrRemote) (f : Fields) :
    getCode remote f =
      if rejected remote (receivedFields remote f) then (none, remote)
      else
        finishCode
          { remote with
            codes := (scanCodes remote (comparedWord remote (receivedFields remote f)) 0
              remote.codes {}).1 }
          (comparedWord remote (receivedFields remote f))
          (Scan.hearAll {} 0 (heards remote (receivedFields remote f))) := by
  unfold rejected heards
  rw [← if_or, ← scanCodes_snd]
  rfl

theorem emulated_getCode_eq (remote : IrRemote) (f : Fields) :
    Emulation.getCode remote f =
      if rejected remote (receivedFields remote f) then (none, remote)
      else
        finishCode
          { remote with
            codes := (scanCodes remote (comparedWord remote (receivedFields remote f)) 0
              remote.codes {}).1 }
          (comparedWord remote (receivedFields remote f))
          (Scan.hearAllEmulated {} 0 (heards remote (receivedFields remote f))) := by
  unfold rejected heards
  rw [← if_or, ← emulated_scanCodes_snd, ← emulated_scanCodes_fst remote _ remote.codes 0 0 {} {}]
  rfl

/-- In the second half of a toggle pair neither entry is the one that began it. -/
def Unpaired (remote : IrRemote) (k j : Nat) : Prop :=
  hasToggleMask remote = true ∧ remote.toggleMaskState.tmod 2 ≠ 0 ∧
    remote.toggleCode ≠ some k ∧ remote.toggleCode ≠ some j

theorem finishCode_complete (remote : IrRemote) (all : IrCode) {k j : Nat} (hne : k ≠ j) :
    finishCode remote all (.complete j) = finishCode remote all (.complete k) ↔
      Unpaired remote k j := by
  have hjk : some (j, all &&& remote.toggleBitMask) ≠ some (k, all &&& remote.toggleBitMask) :=
    fun h => hne (congrArg Prod.fst (Option.some.inj h)).symm
  unfold finishCode Unpaired Scan.complete
  dsimp only
  rw [Bool.true_and]
  cases hm : hasToggleMask remote with
  | false =>
    rw [if_neg Bool.false_ne_true, if_neg Bool.false_ne_true]
    exact ⟨fun h => absurd (congrArg Prod.fst h) hjk, fun h => absurd h.1 Bool.false_ne_true⟩
  | true =>
    rw [if_pos rfl, if_pos rfl]
    by_cases hs : remote.toggleMaskState.tmod 2 = 0
    · rw [if_pos hs, if_pos hs]
      exact ⟨fun h => absurd (congrArg Prod.fst h) hjk, fun h => absurd hs h.2.1⟩
    · rw [if_neg hs, if_neg hs]
      by_cases hk : remote.toggleCode = some k
      · have hj : remote.toggleCode ≠ some j := fun h => hne (Option.some.inj (hk.symm.trans h))
        rw [if_pos hj, if_neg (fun h => h hk)]
        exact ⟨fun h => absurd (congrArg Prod.fst h).symm (Option.some_ne_none _),
          fun h => absurd hk h.2.2.1⟩
      · by_cases hj : remote.toggleCode = some j
        · rw [if_neg (fun h => h hj), if_pos hk]
          exact ⟨fun h => absurd (congrArg Prod.fst h) (Option.some_ne_none _),
            fun h => absurd hj h.2.2.2⟩
        · rw [if_pos hj, if_pos hk]
          exact ⟨fun _ => ⟨rfl, hs, hk, hj⟩, fun _ => rfl⟩

/-- The two copies of `get_code` give the same code and leave the same state. -/
theorem getCode_agrees (remote : IrRemote) (f : Fields) :
    Emulation.getCode remote f = getCode remote f ↔
      rejected remote (receivedFields remote f) = true ∨
        ∀ k j, Overtaken (heards remote (receivedFields remote f)) k j → Unpaired remote k j := by
  rw [getCode_eq, emulated_getCode_eq]
  cases rejected remote (receivedFields remote f) with
  | true =>
    rw [if_pos rfl]
    exact ⟨fun _ => Or.inl rfl, fun _ => rfl⟩
  | false =>
    rw [if_neg Bool.false_ne_true, if_neg Bool.false_ne_true]
    rcases hearAll_compare (heards remote (receivedFields remote f)) with
      ⟨heq, hnone⟩ | ⟨k, j, hkj, hne, hdll, hrec⟩
    · rw [heq]
      exact ⟨fun _ => Or.inr fun k j h => absurd h (hnone k j), fun _ => rfl⟩
    · rw [hdll, hrec, finishCode_complete _ _ hne]
      constructor
      · intro h
        refine Or.inr fun k' j' h' => ?_
        rw [(overtaken_unique h' hkj).1, (overtaken_unique h' hkj).2]
        exact h
      · rintro (h | h)
        · exact absurd h Bool.false_ne_true
        · exact h k j hkj

/-! ## 6. The raw codes compared -/

/-- One raw code tried: do its signals match, does its gap follow, and the
    remote behind the trial. -/
structure Attempt where
  code : IrNcode
  matched : Bool
  gap : Bool
  remote : IrRemote

/-- The daemon takes the code. -/
def Attempt.taken (a : Attempt) : Bool := a.matched && a.gap

/-- All the codes tried one after the other, each from where the one before it
    leaves the buffer, and none of them taken. -/
def attempts (env : DecodeEnv) : List IrNcode → IrRemote → Rbuf → List Attempt
  | [], _, _ => []
  | c :: codes, remote, b =>
    match matchSignals remote (c.signals.getD []) b with
    | (false, b) =>
      let (_, remote, b) := syncRecBuffer env.lastRemote remote (rewindRecBuffer b)
      ⟨c, false, false, remote⟩ :: attempts env codes remote b
    | (true, b) =>
      let gap := if isConst remote then minGap remote - b.sum else minGap remote
      let (g, b) := getGap remote gap b
      ⟨c, true, g, remote⟩ :: attempts env codes remote b

/-- The first attempt that is taken, and the remote it leaves. -/
def takenFirst : List Attempt → IrRemote → Option IrNcode × IrRemote
  | [], remote => (none, remote)
  | a :: as, _ => if a.taken then (some a.code, a.remote) else takenFirst as a.remote

/-- The first attempt whose signals match, if its gap follows. -/
def matchedFirst : List Attempt → IrRemote → Option IrNcode × IrRemote
  | [], remote => (none, remote)
  | a :: as, _ =>
    if a.matched then (if a.gap then some a.code else none, a.remote)
    else matchedFirst as a.remote

/-- None of the attempts is taken, and they leave the remote as it is. -/
def Untaken : List Attempt → IrRemote → Prop
  | as, remote => (∀ a ∈ as, a.taken = false) ∧ (as.getLast?.map (·.remote)).getD remote = remote

theorem decodeRaw_attempts (env : DecodeEnv) (codes : List IrNcode) (remote : IrRemote)
    (b : Rbuf) :
    ((decodeRaw env codes remote b).1, (decodeRaw env codes remote b).2.1) =
      takenFirst (attempts env codes remote b) remote := by
  induction codes generalizing remote b with
  | nil => rfl
  | cons c codes ih =>
    unfold decodeRaw attempts
    rcases matchSignals remote (c.signals.getD []) b with ⟨_ | _, b1⟩
    · dsimp only
      rcases syncRecBuffer env.lastRemote remote (rewindRecBuffer b1) with ⟨d, remote1, b2⟩
      exact ih remote1 b2
    · dsimp only
      rcases getGap remote (if isConst remote = true then minGap remote - b1.sum else
        minGap remote) b1 with ⟨_ | _, b2⟩
      · exact ih remote b2
      · rfl

theorem matchRaw_attempts (env : DecodeEnv) (codes : List IrNcode) (remote : IrRemote)
    (b : Rbuf) :
    (match Emulation.matchRaw env codes remote b with
      | (none, remote, _) => (none, remote)
      | (some c, remote, b) =>
        let gap := if isConst remote then minGap remote - b.sum else minGap remote
        (if (getGap remote gap b).1 then some c else none, remote)) =
      matchedFirst (attempts env codes remote b) remote := by
  induction codes generalizing remote b with
  | nil => rfl
  | cons c codes ih =>
    unfold Emulation.matchRaw attempts
    rcases matchSignals remote (c.signals.getD []) b with ⟨_ | _, b1⟩
    · dsimp only
      rcases syncRecBuffer env.lastRemote remote (rewindRecBuffer b1) with ⟨d, remote1, b2⟩
      exact ih remote1 b2
    · rfl

theorem emulated_decodeRaw_attempts {env : DecodeEnv} (h1 : env.recMode ≠ LIRC_MODE_CODE)
    (h2 : env.recMode ≠ LIRC_MODE_LIRCCODE) (remote : IrRemote) (b : Rbuf) :
    ((Emulation.decodeRaw env remote b).1, (Emulation.decodeRaw env remote b).2.1) =
      matchedFirst (attempts env remote.codes remote b) remote := by
  rw [← matchRaw_attempts]
  unfold Emulation.decodeRaw
  rw [if_neg (not_or.mpr ⟨h1, h2⟩)]
  rcases Emulation.matchRaw env remote.codes remote b with ⟨_ | c, remote1, b1⟩
  · rfl
  · dsimp only
    rcases getGap remote1 (if isConst remote1 = true then minGap remote1 - b1.sum else
      minGap remote1) b1 with ⟨_ | _, b2⟩ <;> rfl

theorem takenFirst_untaken (as : List Attempt) (remote : IrRemote) :
    takenFirst as remote = (none, remote) ↔ Untaken as remote := by
  -- over the attempts, with the remote that the last one leaves
  have hrun : ∀ as : List Attempt, ∀ r, (∀ a ∈ as, a.taken = false) →
      takenFirst as r = (none, (as.getLast?.map (·.remote)).getD r) := by
    intro as
    induction as with
    | nil => exact fun r _ => rfl
    | cons a as ih =>
      intro r h
      rw [takenFirst, h a List.mem_cons_self, if_neg Bool.false_ne_true,
        ih a.remote fun x hx => h x (List.mem_cons_of_mem _ hx)]
      cases as with
      | nil => rfl
      | cons x as =>
        rw [List.getLast?_cons_cons, List.getLast?_eq_some_getLast (List.cons_ne_nil x as)]
        rfl
  have hnone : ∀ as : List Attempt, ∀ r, (takenFirst as r).1 = none →
      ∀ a ∈ as, a.taken = false := by
    intro as
    induction as with
    | nil => exact fun r _ a ha => absurd ha List.not_mem_nil
    | cons a as ih =>
      intro r h
      rw [takenFirst] at h
      cases ha : a.taken with
      | true =>
        rw [ha, if_pos rfl] at h
        exact absurd h (Option.some_ne_none _)
      | false =>
        rw [ha, if_neg Bool.false_ne_true] at h
        exact List.forall_mem_cons.mpr ⟨ha, ih a.remote h⟩
  constructor
  · intro h
    have hall := hnone as remote (by rw [h])
    refine ⟨hall, ?_⟩
    have hr := hrun as remote hall
    rw [h] at hr
    exact (congrArg Prod.snd hr).symm
  · rintro ⟨hall, hlast⟩
    rw [hrun as remote hall, hlast]

/-- The two ways to choose among the attempts agree if the first one whose
    signals match is taken, or none behind it is. -/
theorem takenFirst_eq_iff (as : List Attempt) (remote : IrRemote) :
    matchedFirst as remote = takenFirst as remote ↔
      match as.dropWhile (!·.matched) with
      | [] => True
      | a :: behind => a.gap = true ∨ Untaken behind a.remote := by
  induction as generalizing remote with
  | nil => exact ⟨fun _ => trivial, fun _ => rfl⟩
  | cons a as ih =>
    rw [matchedFirst, takenFirst]
    unfold Attempt.taken
    cases hm : a.matched with
    | false =>
      rw [if_neg Bool.false_ne_true, Bool.false_and, if_neg Bool.false_ne_true,
        List.dropWhile_cons_of_pos (by rw [hm]; rfl)]
      exact ih a.remote
    | true =>
      rw [if_pos rfl, Bool.true_and, List.dropWhile_cons_of_neg (by rw [hm]; decide)]
      dsimp only
      cases hg : a.gap with
      | true => exact ⟨fun _ => Or.inl rfl, fun _ => rfl⟩
      | false =>
        rw [if_neg Bool.false_ne_true, if_neg Bool.false_ne_true, eq_comm, takenFirst_untaken]
        exact ⟨Or.inr, fun h => h.resolve_left Bool.false_ne_true⟩

/-- The two copies of the branch find the same code and leave the same remote. -/
def RawAgree (env : DecodeEnv) (remote : IrRemote) (b : Rbuf) : Prop :=
  (Emulation.decodeRaw env remote b).1 = (rawBranch env remote b).1 ∧
    (Emulation.decodeRaw env remote b).2.1 = (rawBranch env remote b).2.1

/-- When they do. -/
def RawTaken (env : DecodeEnv) (remote : IrRemote) (b : Rbuf) : Prop :=
  if env.recMode = LIRC_MODE_LIRCCODE then True
  else if env.recMode = LIRC_MODE_CODE then Untaken (attempts env remote.codes remote b) remote
  else
    match (attempts env remote.codes remote b).dropWhile (!·.matched) with
    | [] => True
    | a :: behind => a.gap = true ∨ Untaken behind a.remote

theorem rawAgree_iff (env : DecodeEnv) (remote : IrRemote) (b : Rbuf) :
    RawAgree env remote b ↔ RawTaken env remote b := by
  have hpair : RawAgree env remote b ↔
      ((Emulation.decodeRaw env remote b).1, (Emulation.decodeRaw env remote b).2.1) =
        ((rawBranch env remote b).1, (rawBranch env remote b).2.1) :=
    ⟨fun h => Prod.ext h.1 h.2, fun h => ⟨(Prod.mk.inj h).1, (Prod.mk.inj h).2⟩⟩
  rw [hpair]
  unfold RawTaken rawBranch
  by_cases hl : env.recMode = LIRC_MODE_LIRCCODE
  · rw [if_pos hl, if_pos hl]
    unfold Emulation.decodeRaw
    rw [if_pos (Or.inr hl)]
    exact ⟨fun _ => trivial, fun _ => rfl⟩
  · rw [if_neg hl, if_neg hl, decodeRaw_attempts]
    by_cases hc : env.recMode = LIRC_MODE_CODE
    · rw [if_pos hc, ← takenFirst_untaken]
      unfold Emulation.decodeRaw
      rw [if_pos (Or.inl hc)]
      exact eq_comm
    · rw [if_neg hc, emulated_decodeRaw_attempts hc hl]
      exact takenFirst_eq_iff _ _

/-- **The recorder decodes like the daemon** for exactly these inputs. -/
theorem emulation_agrees_iff (env : DecodeEnv) (remote : IrRemote) (f : Fields) (b : Rbuf) :
    (Emulation.getCode remote f = getCode remote f ↔
      rejected remote (receivedFields remote f) = true ∨
        ∀ k j, Overtaken (heards remote (receivedFields remote f)) k j → Unpaired remote k j) ∧
      (RawAgree env remote b ↔ RawTaken env remote b) :=
  ⟨getCode_agrees remote f, rawAgree_iff env remote b⟩

/-- A code and a sequence that begins with it, in the middle of the sequence. -/
def overlapRemote : IrRemote :=
  { name := "overlap", bits := 8
    codes := [{ name := "A", code := 1 },
      { name := "B", code := 1, next := [1, 2], current := [2] }] }

/-- A raw code that begins another one. -/
def prefixRemote : IrRemote :=
  { name := "prefix", flags := RAW_CODES, eps := 30, aeps := 100, gap := 40000
    codes := [{ name := "A", code := 1, signals := some [500] },
      { name := "B", code := 2, signals := some [3000] },
      { name := "C", code := 3, signals := some [500, 1000, 500] }] }

/-- The longer one received, behind a space. -/
def prefixBuf : Rbuf :=
  { data := [100000], rptr := 1, input := [PULSE_BIT + 500, 1000, PULSE_BIT + 500] }

theorem emulation_differs :
    Emulation.getCode overlapRemote ⟨0, 1, 0⟩ ≠ getCode overlapRemote ⟨0, 1, 0⟩ ∧
      (Emulation.decodeRaw {} prefixRemote prefixBuf).1 ≠ (rawBranch {} prefixRemote prefixBuf).1 := by
  decide +kernel

end WinLirc
