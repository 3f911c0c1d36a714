/-
  File:      WinLirc/ConfigInvariant.lean
  Subject:   What holds of every remote that `read_config` returns.

  `KeptByConfig P`: `P` holds of a remote that has just been begun, and every
  way in which `read_config_recursive` changes a remote keeps it. Then it holds
  of every remote in a result, whatever the files, and held of it before the
  loop over the remotes (`KeptByConfig.readConfigRecursive`).
-/
import WinLirc.ConfigSafety

namespace WinLirc

/-! ## 1. The rule -/

/-- A property that no line and no later step takes from a remote. -/
structure KeptByConfig (P : ConfigRemote → Prop) : Prop where
  begin_remote : P {}
  setting : ∀ {s val val2 rem}, s ∈ settings → P rem → P (s.2.apply val val2 rem).1
  named : ∀ {rem} name, P rem → P { rem with name := name }
  raw : ∀ {rem}, P rem → P (onIr (setProtocol RAW_CODES) rem)
  codes : ∀ {rem} table, P rem → P { rem with codes := some table }
  checked : ∀ {rem rem' ok}, sanityChecks rem = some (ok, rem') → P rem → P rem'
  processed : ∀ {rem rem'}, postProcess rem = some rem' → P rem → P rem'

/-- `P` holds of the remotes read so far. -/
def AllRemotes (P : ConfigRemote → Prop) (s : Parser) : Prop := ∀ rem ∈ s.topRem, P rem

section Rule

variable {P : ConfigRemote → Prop} {s s' : Parser}

theorem mem_topRem {rem : ConfigRemote} :
    rem ∈ s.topRem ↔ rem ∈ s.done ∨ s.rem = some rem ∨ rem ∈ s.after := by
  unfold Parser.topRem
  rw [List.mem_append, List.mem_append, Option.mem_toList, or_assoc]

/-- A step that leaves the remotes alone. -/
theorem AllRemotes.same (h : AllRemotes P s) (hdone : s'.done = s.done) (hrem : s'.rem = s.rem)
    (hafter : s'.after = s.after) : AllRemotes P s' := by
  unfold AllRemotes Parser.topRem
  rw [hdone, hrem, hafter]
  exact h

/-- A step that changes the remote under construction. -/
theorem AllRemotes.change (h : AllRemotes P s) {rem : ConfigRemote} (hP : P rem)
    (hdone : s'.done = s.done) (hrem : s'.rem = some rem)
    (hafter : s'.after = s.after ∨ s'.after = []) : AllRemotes P s' := by
  intro rem' hmem
  rcases mem_topRem.mp hmem with hm | hm | hm
  · exact h rem' (mem_topRem.mpr (.inl (hdone ▸ hm)))
  · rw [← Option.some.inj (hrem.symm.trans hm)]
    exact hP
  · rcases hafter with ha | ha
    · exact h rem' (mem_topRem.mpr (.inr (.inr (ha ▸ hm))))
    · rw [ha] at hm
      exact absurd hm List.not_mem_nil

theorem AllRemotes.present (h : AllRemotes P s) {rem : ConfigRemote} (hr : s.rem = some rem) :
    P rem :=
  h rem (mem_topRem.mpr (.inr (.inl hr)))

theorem KeptByConfig.defineRemote (hP : KeptByConfig P) (key val : List Char)
    (val2 : Option (List Char)) (rem : ConfigRemote) (m : Memory) (h : P rem) :
    P (defineRemote key val val2 rem m).1 := by
  unfold WinLirc.defineRemote
  cases hs : settingOf key with
  | none => exact h
  | some s =>
    have hset : P (s.apply val val2 rem).1 := by
      unfold settingOf at hs
      obtain ⟨e, he, rfl⟩ := Option.map_eq_some_iff.mp hs
      exact hP.setting (List.mem_of_find?_eq_some he) h
    cases s with
    | name => exact hP.named _ h
    | _ => exact hset

theorem AllRemotes.included (h : AllRemotes P s) {r : ReadResult} (hr : ∀ rem ∈ r.remotes, P rem) :
    AllRemotes P (s.included r) := by
  unfold Parser.included
  cases hl : r.remotes with
  | nil =>
    intro rem hmem
    rcases mem_topRem.mp hmem with hm | hm | hm
    · exact h rem (mem_topRem.mpr (.inl hm))
    · exact h.present hm
    · exact absurd hm List.not_mem_nil
  | cons first others =>
    rw [hl] at hr
    intro rem hmem
    rcases mem_topRem.mp hmem with hm | hm | hm
    · rcases List.mem_append.mp hm with hm | hm
      · exact h rem (mem_topRem.mpr (.inl hm))
      · exact h.present (Option.mem_toList.mp hm)
    · rw [← Option.some.inj hm]
      exact hr first List.mem_cons_self
    · exact hr rem (List.mem_cons_of_mem _ hm)

/-- **A line** keeps the property of every remote. -/
theorem AllRemotes.step (hP : KeptByConfig P) (h : AllRemotes P s)
    {incl : List Char → Parser → Option Parser} {toks : List (List Char)}
    (hstep : parseTokens incl toks s = some s')
    (hincl : ∀ val, incl val s = some s' → AllRemotes P s') : AllRemotes P s' := by
  have heffect := parseTokens_effect incl toks s
  rw [hstep] at heffect
  generalize ho : some s' = o at heffect
  have hfail : s' = s.fail → AllRemotes P s' := fun he => he ▸ h
  cases heffect with
  | skip => exact Option.some.inj ho ▸ h
  | fail => exact hfail (Option.some.inj ho)
  | signals vals hmode =>
    obtain ⟨ts, err, he⟩ := addSignals_eq vals s
    rw [Option.some.inj ho, he]
    exact h.same rfl rfl rfl
  | «include» key val vals hline hkey => exact hincl val ho.symm
  | beginCodes =>
    rcases beginCodes_cases ho.symm with he | ⟨-, -, -, -, rfl⟩
    · exact hfail he
    · exact h.same rfl rfl rfl
  | beginRawCodes =>
    rcases beginRawCodes_cases ho.symm with he | ⟨-, rem, hr, -, rfl⟩
    · exact hfail he
    · exact h.change (hP.raw (h.present hr)) rfl rfl (.inl rfl)
  | beginRemote =>
    rcases beginRemote_cases s with he | ⟨-, he⟩
    · exact hfail ((Option.some.inj ho).trans he)
    · rw [Option.some.inj ho, he]
      intro rem hmem
      rcases mem_topRem.mp hmem with hm | hm | hm
      · rcases List.mem_append.mp hm with hm | hm
        · exact h rem (mem_topRem.mpr (.inl hm))
        · exact h.present (Option.mem_toList.mp hm)
      · rw [← Option.some.inj hm]
        exact hP.begin_remote
      · exact absurd hm List.not_mem_nil
  | endCodes hline =>
    rcases endCodes_cases ho.symm with he | ⟨-, rem, hr, rfl⟩
    · exact hfail he
    · exact h.change (hP.codes _ (h.present hr)) rfl rfl (.inl rfl)
  | endRawCodes =>
    have ht : AllRemotes P s.rawClosed := by
      unfold Parser.rawClosed
      split
      · obtain ⟨-, h1, h2, h3, -⟩ := addRawCode_frame s
        exact h.same h1 h2 h3
      · exact h
    rcases endRawCodes_cases ho.symm with rfl | ⟨-, rem, hr, rfl⟩
    · exact ht
    · exact ht.change (hP.codes _ (ht.present hr)) rfl rfl (.inl rfl)
  | endRemote hline =>
    rcases endRemote_cases ho.symm with he | ⟨-, rem, rem', hr, hcheck, rfl⟩
    · exact hfail he
    · exact h.change (hP.checked hcheck (h.present hr)) rfl rfl (.inr rfl)
  | code key val vals hmode =>
    rw [Option.some.inj ho]
    exact h.same rfl rfl rfl
  | rawCode val hmode =>
    rw [Option.some.inj ho]
    obtain ⟨-, h1, h2, h3⟩ := startRawCode_frame val s
    exact h.same h1 h2 h3
  | setting key val vals hline hmode =>
    obtain ⟨rem, hr, rfl⟩ := sectionLine_remote hmode ho.symm
    exact h.change (hP.defineRemote _ _ _ _ _ (h.present hr)) rfl rfl (.inl rfl)

/-- Where a file ends without an error, no section is open. -/
theorem cleanUp_closed {t : Parser} (hc : cleanUp s = some t) (herr : t.parseError ≠ true) :
    t = s := by
  unfold cleanUp at hc
  cases hm : s.mode with
  | none =>
    rw [hm] at hc
    exact (Option.some.inj hc).symm
  | remote =>
    rw [hm] at hc
    rw [← Option.some.inj hc] at herr
    exact absurd rfl herr
  | _ =>
    rw [hm] at hc
    obtain ⟨rem, -, hc⟩ := Option.map_eq_some_iff.mp hc
    rw [← hc] at herr
    exact absurd rfl herr

theorem AllRemotes.finishFile (h : AllRemotes P s) {r : ReadResult}
    (hr : finishFile s = some r) :
    ∀ rem ∈ r.remotes, ∃ rem₀, P rem₀ ∧ postProcess rem₀ = some rem := by
  unfold WinLirc.finishFile at hr
  cases hc : cleanUp s with
  | none =>
    rw [hc] at hr
    exact absurd hr.symm (Option.some_ne_none _)
  | some t =>
    rw [hc] at hr
    dsimp only at hr
    split at hr
    · rw [← Option.some.inj hr]
      exact fun _ hm => absurd hm List.not_mem_nil
    · next herr =>
      obtain ⟨rems, hp, rfl⟩ := Option.map_eq_some_iff.mp hr
      rw [cleanUp_closed hc herr] at hp
      intro rem' hmem
      have hmem := (perm_sortByBitCount rems).mem_iff.mp hmem
      obtain ⟨rem, hrem, hpost⟩ := mem_postProcessAll hp hmem
      exact ⟨rem, h rem hrem, hpost⟩

/-- **The remotes of a file** and of the files it includes: each comes out of
    the loop over the remotes, and had the property before. -/
theorem KeptByConfig.readConfigRecursive (hP : KeptByConfig P) {fs : FileSystem} {levels : Nat}
    {name : Option (List Char)} {bufs : List (List Char)} {m : Memory} {r : ReadResult}
    (hr : readConfigRecursive fs levels name bufs m = some r) :
    ∀ rem ∈ r.remotes, ∃ rem₀, P rem₀ ∧ postProcess rem₀ = some rem := by
  have hinit : ∀ m, AllRemotes P { memory := m } := fun _ _ hm => absurd hm List.not_mem_nil
  induction levels generalizing name bufs m r with
  | zero =>
    obtain ⟨s, hs, hr⟩ := Option.bind_eq_some_iff.mp hr
    refine AllRemotes.finishFile ?_ hr
    refine parseLines_invariant (fun t toks t' ht hstep => ?_) hs (hinit m)
    exact ht.step hP hstep fun _ hf => Option.some.inj hf ▸ ht
  | succ levels ih =>
    obtain ⟨s, hs, hr⟩ := Option.bind_eq_some_iff.mp hr
    refine AllRemotes.finishFile ?_ hr
    refine parseLines_invariant (fun t toks t' ht hstep => ?_) hs (hinit m)
    refine ht.step hP hstep fun val => ?_
    refine includeLine_cases (P := fun o => o = some t' → AllRemotes P t')
      (fun hf => Option.some.inj hf ▸ ht) (fun hsame => Option.some.inj hsame ▸ ht)
      fun path text hopen hinc => ?_
    obtain ⟨r', hr', rfl⟩ := Option.map_eq_some_iff.mp hinc
    refine ht.included fun rem hrem => ?_
    obtain ⟨rem₀, h₀, hpost⟩ := ih hr' rem hrem
    exact hP.processed hpost h₀

end Rule

/-! ## 2. The bits of a byte -/

/-- The bits of a byte, as `serial_mode` gives them; 0 where no line does. -/
def ByteBits (rem : ConfigRemote) : Prop := rem.ir.bitsInByte ≤ 9

theorem parseSerialMode_bits {val : List Char} {bits parity stop : Nat}
    (h : parseSerialMode val = some (bits, parity, stop)) : bits ≤ 9 := by
  unfold parseSerialMode at h
  split at h
  · next b p more =>
    split at h
    · exact nomatch h
    · next hb =>
      have hle : b.toNat ≤ '9'.toNat := Char.le_def.mp (Char.not_lt.mp (not_or.mp hb).2)
      have hbits : b.toNat - '0'.toNat = bits := by
        dsimp only at h
        split at h
        · exact nomatch h
        · split at h
          · exact congrArg Prod.fst (Option.some.inj h)
          · obtain ⟨n, -, hn⟩ := Option.map_eq_some_iff.mp h
            exact congrArg Prod.fst hn
      rw [← hbits]
      have h9 : '9'.toNat - '0'.toNat = 9 := rfl
      omega
  · exact nomatch h

/-- The settings beside `serial_mode` leave the bits of a byte alone. -/
def Setting.KeepsByte : Setting → Prop
  | .int set => ∀ n rem, (set n rem).ir.bitsInByte = rem.ir.bitsInByte
  | .uint set => ∀ n rem, (set n rem).ir.bitsInByte = rem.ir.bitsInByte
  | .duration set => ∀ n rem, (set n rem).ir.bitsInByte = rem.ir.bitsInByte
  | .code set => ∀ c rem, (set c rem).ir.bitsInByte = rem.ir.bitsInByte
  | .durations set => ∀ p s rem, (set p s rem).ir.bitsInByte = rem.ir.bitsInByte
  | _ => True

theorem settings_keepByte : ∀ s ∈ settings, s.2.KeepsByte := by
  simp only [settings, List.forall_mem_cons, List.not_mem_nil, false_implies, implies_true]
  and_intros
  all_goals first
    | exact trivial
    | exact fun _ _ => rfl
    | exact fun _ _ _ => rfl

theorem bits_gap (gap gap2 : Int) (r : IrRemote) :
    ({ r with gap := gap, gap2 := gap2 } : IrRemote).bitsInByte = r.bitsInByte := rfl

theorem bits_repeatGap (gap : Int) (r : IrRemote) :
    ({ r with repeatGap := gap } : IrRemote).bitsInByte = r.bitsInByte := rfl

theorem byteBits_setting {s : Setting} (h : s.KeepsByte) (val : List Char)
    (val2 : Option (List Char)) {rem : ConfigRemote} (hrem : ByteBits rem) :
    ByteBits (s.apply val val2 rem).1 := by
  unfold ByteBits at *
  cases s with
  | int set => exact (h _ rem).symm ▸ hrem
  | uint set => exact (h _ rem).symm ▸ hrem
  | duration set => exact (h _ rem).symm ▸ hrem
  | code set => exact (h _ rem).symm ▸ hrem
  | durations set =>
    cases val2 with
    | none => exact hrem
    | some v => exact (h _ _ rem).symm ▸ hrem
  | serialMode =>
    unfold Setting.apply
    cases hmode : parseSerialMode val with
    | none => exact hrem
    | some mode => exact parseSerialMode_bits hmode
  | name => exact hrem
  | flags => exact hrem
  | gap => exact Nat.le_trans (Nat.le_of_eq (bits_gap _ _ rem.ir)) hrem
  | repeatGap => exact Nat.le_trans (Nat.le_of_eq (bits_repeatGap _ rem.ir)) hrem
  | ignored => exact hrem

theorem setSerial_bits {r : IrRemote} (h : r.bitsInByte ≤ 9) :
    (setMinCodeRepeat (setSerial r)).bitsInByte ≤ 9 ∧
      (isSerial r = true → 0 < (setMinCodeRepeat (setSerial r)).bitsInByte) := by
  have hmin : ∀ r, (setMinCodeRepeat r).bitsInByte = r.bitsInByte := by
    intro r
    unfold setMinCodeRepeat
    split <;> rfl
  have hbaud : (setBaud r).bitsInByte = r.bitsInByte := by
    unfold setBaud
    split <;> rfl
  rw [hmin]
  unfold setSerial
  split
  · unfold setBitsInByte
    rw [hbaud]
    split
    · have h8 : 8 ≤ 9 ∧ 0 < 8 := by decide
      exact ⟨h8.1, fun _ => h8.2⟩
    · next hne =>
      rw [hbaud]
      exact ⟨h, fun _ => Nat.pos_of_ne_zero hne⟩
  · next hserial => exact ⟨h, fun hs => absurd hs hserial⟩

theorem toggles_bits (rem : ConfigRemote) :
    (setToggleState (setToggleBitMask (setRc6Mask rem))).ir.bitsInByte = rem.ir.bitsInByte := by
  have hmask : (setRc6Mask rem).ir.bitsInByte = rem.ir.bitsInByte := by
    unfold setRc6Mask
    split <;> rfl
  have htoggle : ∀ rem, (setToggleBitMask rem).ir.bitsInByte = rem.ir.bitsInByte := by
    intro rem
    unfold setToggleBitMask
    split <;> rfl
  have hstate : ∀ rem, (setToggleState rem).ir.bitsInByte = rem.ir.bitsInByte := by
    intro rem
    unfold setToggleState
    split
    · rfl
    · dsimp only
      split <;> rfl
  rw [hstate, htoggle, hmask]

/-- **The bits of a byte behind the loop over the remotes**: a serial remote has
    some. -/
theorem byteBits_processed {rem rem' : ConfigRemote} (hp : postProcess rem = some rem')
    (h : ByteBits rem) : ByteBits rem' ∧ (isSerial rem'.ir = true → 0 < rem'.ir.bitsInByte) := by
  obtain ⟨rem₁, h₁, rfl⟩ := Option.map_eq_some_iff.mp hp
  have hbits : rem₁.ir.bitsInByte ≤ 9 := by
    unfold reverseCodes at h₁
    split at h₁
    · split at h₁
      · exact nomatch h₁
      · rw [← Option.some.inj h₁]
        exact h
    · rw [← Option.some.inj h₁]
      exact h
  rw [← toggles_bits rem₁] at hbits
  generalize setToggleState (setToggleBitMask (setRc6Mask rem₁)) = rem₂ at hbits ⊢
  obtain ⟨hle, hpos⟩ := setSerial_bits hbits
  refine ⟨hle, fun hs => hpos ?_⟩
  have hflags := ((SameWords.setSerial rem₂).trans (SameWords.setMinCodeRepeat _)).flags
  unfold isSerial protocol at hs ⊢
  rw [← hflags]
  exact hs

theorem byteBits_kept : KeptByConfig ByteBits where
  begin_remote := Nat.zero_le _
  setting := fun hs h => byteBits_setting (settings_keepByte _ hs) _ _ h
  named := fun _ h => h
  raw := fun h => h
  codes := fun _ h => h
  checked := by
    intro rem rem' ok hcheck h
    unfold sanityChecks at hcheck
    split at hcheck
    · obtain ⟨-, rfl⟩ := Prod.mk.inj (Option.some.inj hcheck)
      exact h
    · split at hcheck
      · obtain ⟨-, rfl⟩ := Prod.mk.inj (Option.some.inj hcheck)
        exact h
      · split at hcheck
        · exact nomatch hcheck
        · obtain ⟨-, rfl⟩ := Prod.mk.inj (Option.some.inj hcheck)
          exact h
  processed := fun hp h => (byteBits_processed hp h).1

/-- **The bits of a byte** of a remote that is read: at most 9, and some where
    the remote is a serial one. -/
theorem readConfig_byteBits {fs : FileSystem} {levels : Nat} {name : Option (List Char)}
    {bufs : List (List Char)} {m : Memory} {r : ReadResult}
    (hr : readConfigRecursive fs levels name bufs m = some r) {rem : ConfigRemote}
    (hrem : rem ∈ r.remotes) :
    rem.ir.bitsInByte ≤ 9 ∧ (isSerial rem.ir = true → 0 < rem.ir.bitsInByte) := by
  obtain ⟨rem₀, h₀, hpost⟩ := byteBits_kept.readConfigRecursive hr rem hrem
  exact byteBits_processed hpost h₀

end WinLirc
