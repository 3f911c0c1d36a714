/-
  File:      WinLirc/ConfigSafety.lean
  Subject:   Null pointers and freed memory in `read_config`.

  * `NullSafe`: outside a block every remote of the list can be post-processed;
    it is kept by every line that meets `Careful`.
  * `Accounts`: what a step owns and has freed afterwards is what it owned and
    had freed before, or new; so nothing is freed twice, on any input.
-/
import Mathlib.Data.List.Nodup
import WinLirc.ConfigRun

namespace WinLirc

/-! ## 1. What each line leaves alone -/

theorem addSignals_eq (vals : List (List Char)) (s : Parser) : ∃ ts err,
    addSignals vals s = { s with signals := (s.signals.1, s.signals.2 ++ ts), parseError := err } := by
  induction vals generalizing s with
  | nil => exact ⟨[], s.parseError, by rw [List.append_nil]; rfl⟩
  | cons val vals ih =>
    rw [addSignals]
    cases sStrtolircT val with
    | none => exact ⟨[], true, by rw [List.append_nil]; rfl⟩
    | some t =>
      obtain ⟨ts, err, h⟩ := ih { s with signals := (s.signals.1, s.signals.2 ++ [t]) }
      refine ⟨t :: ts, err, ?_⟩
      dsimp only
      rw [h, List.append_assoc]
      rfl

theorem addRawCode_frame (s : Parser) : (addRawCode s).mode = s.mode ∧
    (addRawCode s).done = s.done ∧ (addRawCode s).rem = s.rem ∧ (addRawCode s).after = s.after ∧
      (addRawCode s).memory = s.memory := by
  unfold addRawCode
  cases s.rawName <;> exact ⟨rfl, rfl, rfl, rfl, rfl⟩

theorem startRawCode_frame (val : List Char) (s : Parser) : (startRawCode val s).mode = .rawName ∧
    (startRawCode val s).done = s.done ∧ (startRawCode val s).rem = s.rem ∧
      (startRawCode val s).after = s.after := by
  obtain ⟨-, h1, h2, h3, -⟩ := addRawCode_frame s
  unfold startRawCode
  split
  · exact ⟨rfl, h1, h2, h3⟩
  · exact ⟨rfl, rfl, rfl, rfl⟩

/-! ## 2. Null pointers -/

/-- The loop behind the parser does not look at a missing code table. -/
def Closed (rem : ConfigRemote) : Prop :=
  isRaw rem.ir = true ∨ hasFlag rem.ir REVERSE = false ∨ rem.codes ≠ none

/-- `end remote` finds a code table unless the remote is raw or has no name. -/
def Careful (s : Parser) (toks : List (List Char)) : Prop :=
  isEndOf "remote" toks = true → s.mode = .remote → ∀ rem, s.rem = some rem → rem.name ≠ none →
    isRaw rem.ir = false → rem.codes ≠ none

/-- A block that another file interrupts leaves a closed remote behind. -/
def LeavesClosed (s : Parser) : Prop := s.mode ≠ .none → ∀ rem, s.rem = some rem → Closed rem

instance (rem : ConfigRemote) : Decidable (Closed rem) := by
  unfold Closed
  infer_instance

instance (s : Parser) (toks : List (List Char)) : Decidable (Careful s toks) := by
  unfold Careful
  infer_instance

instance (s : Parser) : Decidable (LeavesClosed s) := by
  unfold LeavesClosed
  infer_instance

/-- Inside a block `rem` is no null pointer, and the remotes in front of it are
    closed; outside all remotes are. -/
structure NullSafe (s : Parser) : Prop where
  block : s.mode ≠ .none → s.rem ≠ none
  done : ∀ rem ∈ s.done, Closed rem
  rest : s.mode = .none → ∀ rem ∈ s.rem.toList ++ s.after, Closed rem

theorem NullSafe.init (m : Memory) : NullSafe { memory := m } where
  block := fun h => absurd rfl h
  done := fun _ h => absurd h List.not_mem_nil
  rest := fun _ _ h => absurd h List.not_mem_nil

/-- A step inside a block. -/
theorem NullSafe.inside {s s' : Parser} {m : Directive} (h : NullSafe s) (hmode : s'.mode = m)
    (hne : m ≠ .none) (hdone : s'.done = s.done) (hrem : s'.rem ≠ none) : NullSafe s' where
  block := fun _ => hrem
  done := by
    rw [hdone]
    exact h.done
  rest := fun hm => absurd (hmode.symm.trans hm) hne

/-- A step that touches neither the mode nor the remotes. -/
theorem NullSafe.same {s s' : Parser} (h : NullSafe s) (hmode : s'.mode = s.mode)
    (hdone : s'.done = s.done) (hrem : s'.rem = s.rem) (hafter : s'.after = s.after) :
    NullSafe s' where
  block := by
    rw [hmode, hrem]
    exact h.block
  done := by
    rw [hdone]
    exact h.done
  rest := by
    rw [hmode, hrem, hafter]
    exact h.rest

theorem NullSafe.fail {s : Parser} (h : NullSafe s) : NullSafe s.fail := h.same rfl rfl rfl rfl

/-- What a file hands to the file that includes it. -/
def ResultClosed (r : ReadResult) : Prop := ∀ rem ∈ r.remotes, Closed rem

theorem NullSafe.included {s : Parser} (h : NullSafe s) {r : ReadResult} (hr : ResultClosed r)
    (hopen : LeavesClosed s) : NullSafe (s.included r) := by
  have hrem : ∀ rem ∈ s.rem.toList, Closed rem := by
    intro rem hmem
    have he : s.rem = some rem := Option.mem_toList.mp hmem
    by_cases hm : s.mode = .none
    · exact h.rest hm rem (List.mem_append_left _ hmem)
    · exact hopen hm rem he
  unfold Parser.included
  cases hl : r.remotes with
  | nil =>
    refine ⟨h.block, h.done, fun _ rem hmem => ?_⟩
    rw [List.append_nil] at hmem
    exact hrem rem hmem
  | cons first others =>
    refine ⟨fun _ => Option.some_ne_none _, fun rem hmem => ?_, fun _ rem hmem => ?_⟩
    · rcases List.mem_append.mp hmem with hmem | hmem
      · exact h.done rem hmem
      · exact hrem rem hmem
    · exact hr rem (by rw [hl]; exact hmem)

theorem sanityChecks_closed {rem rem' : ConfigRemote} {ok : Bool}
    (h : sanityChecks rem = some (ok, rem')) (hok : ok = true) : Closed rem' := by
  unfold sanityChecks at h
  split at h
  · injection h with h
    injection h with h1
    exact absurd (h1.trans hok) Bool.false_ne_true
  · split at h
    · next hraw =>
      injection h with h
      injection h with h1 h2
      exact Or.inl (h2 ▸ hraw)
    · split at h
      · exact absurd h.symm (Option.some_ne_none _)
      · injection h with h
        injection h with h1 h2
        refine Or.inr (Or.inr ?_)
        rw [← h2]
        exact Option.some_ne_none _

theorem NullSafe.endRemote {s : Parser} {toks : List (List Char)} (h : NullSafe s)
    (hend : isEndOf "remote" toks = true) (hc : Careful s toks) :
    ∃ s', WinLirc.endRemote s = some s' ∧ NullSafe s' := by
  unfold WinLirc.endRemote
  by_cases hm : s.mode = .remote
  · rw [if_neg (fun hne => hne hm)]
    cases hrem : s.rem with
    | none => exact absurd hrem (h.block (by rw [hm]; decide))
    | some rem =>
      dsimp only
      cases hs : sanityChecks rem with
      | none =>
        -- only a missing table of a named remote that is not raw stops it
        unfold sanityChecks at hs
        split at hs
        · exact absurd hs (Option.some_ne_none _)
        · next hname =>
          split at hs
          · exact absurd hs (Option.some_ne_none _)
          · next hraw =>
            split at hs
            · next hcodes =>
              exact absurd hcodes (hc hend hm rem hrem hname (Bool.eq_false_iff.mpr hraw))
            · exact absurd hs (Option.some_ne_none _)
      | some p =>
        obtain ⟨ok, rem'⟩ := p
        cases ok with
        | false => exact ⟨s.fail, rfl, h.fail⟩
        | true =>
          refine ⟨_, rfl, fun hne => absurd rfl hne, h.done, fun _ r hr => ?_⟩
          have he : r = rem' := List.mem_singleton.mp hr
          rw [he]
          exact sanityChecks_closed hs rfl
  · rw [if_pos hm]
    exact ⟨s.fail, rfl, h.fail⟩

theorem NullSafe.endRawCodes {s : Parser} (h : NullSafe s) :
    ∃ s', WinLirc.endRawCodes s = some s' ∧ NullSafe s' := by
  obtain ⟨-, h2, h3, h4, -⟩ := addRawCode_frame s
  -- the state behind the first test
  have hstart : ∃ t : Parser, (if s.mode = .rawName then { addRawCode s with mode := .rawCodes }
      else s) = t ∧ NullSafe t ∧ t.done = s.done ∧ t.rem = s.rem := by
    split
    · next hm =>
      refine ⟨_, rfl, h.inside (m := .rawCodes) rfl (by decide) h2 ?_, h2, h3⟩
      exact fun he => h.block (by rw [hm]; decide) (h3.symm.trans he)
    · exact ⟨s, rfl, h, rfl, rfl⟩
  obtain ⟨t, ht, hsafe, hdone, hrem⟩ := hstart
  unfold WinLirc.endRawCodes
  rw [ht]
  dsimp only
  by_cases hm : t.mode = .rawCodes
  · rw [if_neg (fun hne => hne hm)]
    cases hr : t.rem with
    | none => exact absurd hr (hsafe.block (by rw [hm]; decide))
    | some rem =>
      exact ⟨_, rfl, hsafe.inside (m := .remote) rfl (by decide) rfl (Option.some_ne_none _)⟩
  · rw [if_pos hm]
    exact ⟨t.fail, rfl, hsafe.fail⟩

/-- **A careful line** looks at no null pointer and keeps the remotes safe. -/
theorem NullSafe.step {incl : List Char → Parser → Option Parser} {s : Parser}
    {toks : List (List Char)} (h : NullSafe s) (hc : Careful s toks)
    (hincl : ∀ key val vals, toks = key :: val :: vals → isKey "include" key = true →
      ∃ s', incl val s = some s' ∧ NullSafe s') :
    ∃ s', parseTokens incl toks s = some s' ∧ NullSafe s' := by
  have heffect := parseTokens_effect incl toks s
  generalize parseTokens incl toks s = o at heffect
  -- inside a block `rem` is there
  have hrem : ∀ m, s.mode = m → m ≠ .none → ∃ rem, s.rem = some rem := fun m hm hne =>
    Option.ne_none_iff_exists'.mp (h.block (by rw [hm]; exact hne))
  cases heffect with
  | skip => exact ⟨s, rfl, h⟩
  | fail => exact ⟨s.fail, rfl, h.fail⟩
  | signals vals hmode =>
    obtain ⟨ts, err, he⟩ := addSignals_eq vals s
    exact ⟨_, rfl, by rw [he]; exact h.same rfl rfl rfl rfl⟩
  | «include» key val vals hline hkey => exact hincl key val vals hline hkey
  | beginCodes =>
    unfold beginCodes
    by_cases hm : s.mode = .remote
    · obtain ⟨rem, hr⟩ := hrem _ hm (by decide)
      rw [if_neg (fun hne => hne hm), hr]
      dsimp only
      cases rem.codes.isSome with
      | true => exact ⟨s.fail, rfl, h.fail⟩
      | false =>
        exact ⟨_, rfl, h.inside (m := .codes) rfl (by decide) rfl (Option.some_ne_none _)⟩
    · rw [if_pos hm]
      exact ⟨s.fail, rfl, h.fail⟩
  | beginRawCodes =>
    unfold beginRawCodes
    by_cases hm : s.mode = .remote
    · obtain ⟨rem, hr⟩ := hrem _ hm (by decide)
      rw [if_neg (fun hne => hne hm), hr]
      dsimp only
      cases rem.codes.isSome with
      | true => exact ⟨s.fail, rfl, h.fail⟩
      | false =>
        exact ⟨_, rfl, h.inside (m := .rawCodes) rfl (by decide) rfl (Option.some_ne_none _)⟩
    · rw [if_pos hm]
      exact ⟨s.fail, rfl, h.fail⟩
  | beginRemote =>
    unfold beginRemote
    by_cases hm : s.mode = .none
    · rw [if_neg (fun hne => hne hm)]
      refine ⟨_, rfl, fun _ => Option.some_ne_none _, fun rem hmem => ?_,
        fun he => Directive.noConfusion he⟩
      rcases List.mem_append.mp hmem with hmem | hmem
      · exact h.done rem hmem
      · exact h.rest hm rem (List.mem_append_left _ hmem)
    · rw [if_pos hm]
      exact ⟨s.fail, rfl, h.fail⟩
  | endCodes hend =>
    unfold endCodes
    by_cases hm : s.mode = .codes
    · obtain ⟨rem, hr⟩ := hrem _ hm (by decide)
      rw [if_neg (fun hne => hne hm), hr]
      exact ⟨_, rfl, h.inside (m := .remote) rfl (by decide) rfl (Option.some_ne_none _)⟩
    · rw [if_pos hm]
      exact ⟨s.fail, rfl, h.fail⟩
  | endRawCodes => exact h.endRawCodes
  | endRemote hend => exact h.endRemote hend hc
  | code key val vals hmode => exact ⟨_, rfl, h.same rfl rfl rfl rfl⟩
  | rawCode val hmode =>
    obtain ⟨h1, h2, h3, h4⟩ := startRawCode_frame val s
    refine ⟨_, rfl, h.inside h1 (by decide) h2 ?_⟩
    rw [h3]
    rcases hmode with hm | hm
    · exact h.block (by rw [hm]; decide)
    · exact h.block (by rw [hm]; decide)
  | setting key val vals hline hmode =>
    obtain ⟨rem, hr⟩ := hrem _ hmode (by decide)
    have hline : ∃ rem' m err, sectionLine key val vals s =
        some { s with rem := some rem', memory := m, parseError := err } := by
      unfold sectionLine
      rw [hmode]
      dsimp only
      rw [hr]
      exact ⟨_, _, _, rfl⟩
    obtain ⟨rem', m, err, he⟩ := hline
    exact ⟨_, he, h.inside hmode (by decide) rfl (Option.some_ne_none _)⟩

/-! ## 3. The end of a file -/

theorem reversed_flags (flags : Flags) :
    (flags &&& ~~~REVERSE ||| COMPAT_REVERSE) &&& REVERSE = 0 := by
  have h0 : ~~~REVERSE &&& REVERSE = 0 := by decide
  have h1 : COMPAT_REVERSE &&& REVERSE = 0 := by decide
  rw [BitVec.and_or_distrib_right, BitVec.and_assoc, h0, h1]
  simp

/-- The same name, codes, flags and words of data. -/
structure SameWords (rem rem' : ConfigRemote) : Prop where
  name : rem'.name = rem.name
  codes : rem'.codes = rem.codes
  flags : rem'.ir.flags = rem.ir.flags
  bits : rem'.ir.bits = rem.ir.bits
  preData : rem'.ir.preData = rem.ir.preData
  preDataBits : rem'.ir.preDataBits = rem.ir.preDataBits
  postData : rem'.ir.postData = rem.ir.postData
  postDataBits : rem'.ir.postDataBits = rem.ir.postDataBits

theorem SameWords.refl (rem : ConfigRemote) : SameWords rem rem :=
  ⟨rfl, rfl, rfl, rfl, rfl, rfl, rfl, rfl⟩

theorem SameWords.trans {a b c : ConfigRemote} (h : SameWords a b) (h' : SameWords b c) :
    SameWords a c where
  name := h'.name.trans h.name
  codes := h'.codes.trans h.codes
  flags := h'.flags.trans h.flags
  bits := h'.bits.trans h.bits
  preData := h'.preData.trans h.preData
  preDataBits := h'.preDataBits.trans h.preDataBits
  postData := h'.postData.trans h.postData
  postDataBits := h'.postDataBits.trans h.postDataBits

theorem SameWords.setRc6Mask (rem : ConfigRemote) : SameWords rem (setRc6Mask rem) := by
  unfold WinLirc.setRc6Mask
  split
  · exact ⟨rfl, rfl, rfl, rfl, rfl, rfl, rfl, rfl⟩
  · exact SameWords.refl rem

theorem SameWords.setToggleBitMask (rem : ConfigRemote) : SameWords rem (setToggleBitMask rem) := by
  unfold WinLirc.setToggleBitMask
  split
  · exact ⟨rfl, rfl, rfl, rfl, rfl, rfl, rfl, rfl⟩
  · exact SameWords.refl rem

theorem SameWords.setToggleState (rem : ConfigRemote) : SameWords rem (setToggleState rem) := by
  unfold WinLirc.setToggleState
  split
  · exact SameWords.refl rem
  · dsimp only
    split
    · exact ⟨rfl, rfl, rfl, rfl, rfl, rfl, rfl, rfl⟩
    · exact SameWords.refl rem

theorem SameWords.setBaud (rem : ConfigRemote) : SameWords rem (onIr setBaud rem) := by
  unfold onIr WinLirc.setBaud
  split <;> exact ⟨rfl, rfl, rfl, rfl, rfl, rfl, rfl, rfl⟩

theorem SameWords.setBitsInByte (rem : ConfigRemote) : SameWords rem (onIr setBitsInByte rem) := by
  unfold onIr WinLirc.setBitsInByte
  split <;> exact ⟨rfl, rfl, rfl, rfl, rfl, rfl, rfl, rfl⟩

theorem SameWords.setSerial (rem : ConfigRemote) : SameWords rem (onIr setSerial rem) := by
  by_cases hserial : isSerial rem.ir = true
  · have h := (SameWords.setBaud rem).trans (SameWords.setBitsInByte _)
    unfold onIr WinLirc.setSerial at *
    rwa [if_pos hserial]
  · unfold onIr WinLirc.setSerial
    rw [if_neg hserial]
    exact SameWords.refl rem

theorem SameWords.setMinCodeRepeat (rem : ConfigRemote) :
    SameWords rem (onIr setMinCodeRepeat rem) := by
  unfold onIr WinLirc.setMinCodeRepeat
  split <;> exact ⟨rfl, rfl, rfl, rfl, rfl, rfl, rfl, rfl⟩

/-- The turn of the loop behind `reverseCodes`. -/
theorem sameWords_settings (rem : ConfigRemote) :
    SameWords rem (onIr (fun r => setMinCodeRepeat (setSerial r))
      (setToggleState (setToggleBitMask (setRc6Mask rem)))) := by
  have h := ((SameWords.setRc6Mask rem).trans (SameWords.setToggleBitMask _)).trans
    (SameWords.setToggleState _)
  exact (h.trans (SameWords.setSerial _)).trans (SameWords.setMinCodeRepeat _)

theorem setMinCodeRepeat_toggles (r : IrRemote) :
    (setMinCodeRepeat r).toggleBitMask = r.toggleBitMask ∧
      (setMinCodeRepeat r).toggleBitMaskState = r.toggleBitMaskState := by
  unfold setMinCodeRepeat
  split <;> exact ⟨rfl, rfl⟩

theorem setSerial_toggles (r : IrRemote) :
    (setSerial r).toggleBitMask = r.toggleBitMask ∧
      (setSerial r).toggleBitMaskState = r.toggleBitMaskState := by
  have hbits : ∀ r, (setBitsInByte r).toggleBitMask = r.toggleBitMask ∧
      (setBitsInByte r).toggleBitMaskState = r.toggleBitMaskState := by
    intro r
    unfold setBitsInByte
    split <;> exact ⟨rfl, rfl⟩
  have hbaud : ∀ r, (setBaud r).toggleBitMask = r.toggleBitMask ∧
      (setBaud r).toggleBitMaskState = r.toggleBitMaskState := by
    intro r
    unfold setBaud
    split <;> exact ⟨rfl, rfl⟩
  unfold setSerial
  split
  · exact ⟨(hbits _).1.trans (hbaud r).1, (hbits _).2.trans (hbaud r).2⟩
  · exact ⟨rfl, rfl⟩

theorem postProcess_closed {rem : ConfigRemote} (h : Closed rem) :
    ∃ rem', postProcess rem = some rem' ∧ Closed rem' := by
  have hkeep : ∀ x : ConfigRemote, Closed x → Closed (onIr (fun r => setMinCodeRepeat (setSerial r))
      (setToggleState (setToggleBitMask (setRc6Mask x)))) := by
    intro x hx
    have h := sameWords_settings x
    unfold Closed isRaw protocol hasFlag at hx ⊢
    rw [h.flags, h.codes]
    exact hx
  unfold postProcess reverseCodes
  by_cases hrev : (!isRaw rem.ir && hasFlag rem.ir REVERSE) = true
  · rw [if_pos hrev]
    rw [Bool.and_eq_true, Bool.not_eq_true'] at hrev
    cases hcodes : rem.codes with
    | none =>
      rcases h with h | h | h
      · exact absurd (h.symm.trans hrev.1) (by decide)
      · exact absurd (hrev.2.symm.trans h) (by decide)
      · exact absurd hcodes h
    | some table =>
      refine ⟨_, rfl, hkeep _ (Or.inr (Or.inl ?_))⟩
      unfold hasFlag
      dsimp only
      rw [reversed_flags]
      rfl
  · rw [if_neg hrev]
    exact ⟨_, rfl, hkeep rem h⟩

theorem postProcessAll_closed {rems : List ConfigRemote} (h : ∀ rem ∈ rems, Closed rem) :
    ∃ rems', postProcessAll rems = some rems' ∧ ∀ rem ∈ rems', Closed rem := by
  induction rems with
  | nil => exact ⟨[], rfl, fun _ hm => absurd hm List.not_mem_nil⟩
  | cons rem rems ih =>
    obtain ⟨rem', h1, h2⟩ := postProcess_closed (h rem List.mem_cons_self)
    obtain ⟨rems', h3, h4⟩ := ih fun r hr => h r (List.mem_cons_of_mem _ hr)
    refine ⟨rem' :: rems', ?_, List.forall_mem_cons.mpr ⟨h2, h4⟩⟩
    rw [postProcessAll, h1]
    dsimp only
    rw [h3]
    rfl

theorem mem_postProcessAll {rems rems' : List ConfigRemote} (h : postProcessAll rems = some rems')
    {rem' : ConfigRemote} (hmem : rem' ∈ rems') : ∃ rem ∈ rems, postProcess rem = some rem' := by
  induction rems generalizing rems' with
  | nil =>
    injection h with h
    rw [← h] at hmem
    exact absurd hmem List.not_mem_nil
  | cons rem rems ih =>
    rw [postProcessAll] at h
    cases h1 : postProcess rem with
    | none =>
      rw [h1] at h
      exact absurd h.symm (Option.some_ne_none _)
    | some x =>
      rw [h1] at h
      dsimp only at h
      obtain ⟨xs, hxs, rfl⟩ := Option.map_eq_some_iff.mp h
      rcases List.mem_cons.mp hmem with rfl | hmem
      · exact ⟨rem, List.mem_cons_self, h1⟩
      · obtain ⟨x', hx', h2⟩ := ih hxs hmem
        exact ⟨x', List.mem_cons_of_mem _ hx', h2⟩

theorem perm_insertByBitCount (rem : ConfigRemote) (top : List ConfigRemote) :
    (insertByBitCount rem top).Perm (rem :: top) := by
  induction top with
  | nil => exact List.Perm.refl _
  | cons scan top ih =>
    rw [insertByBitCount]
    split
    · exact (ih.cons scan).trans (List.Perm.swap rem scan top)
    · exact List.Perm.refl _

/-- Sorting loses no remote. -/
theorem perm_sortByBitCount (rems : List ConfigRemote) : (sortByBitCount rems).Perm rems := by
  have hfold : ∀ rems top : List ConfigRemote,
      (rems.foldl (fun top rem => insertByBitCount rem top) top).Perm (top ++ rems) := by
    intro rems
    induction rems with
    | nil =>
      intro top
      rw [List.append_nil]
      exact List.Perm.refl _
    | cons rem rems ih =>
      intro top
      rw [List.foldl_cons]
      exact (ih _).trans (((perm_insertByBitCount rem top).append_right rems).trans
        List.perm_middle.symm)
  have h := hfold rems []
  rwa [List.nil_append] at h

theorem NullSafe.finishFile {s : Parser} (h : NullSafe s) :
    ∃ r, WinLirc.finishFile s = some r ∧ ResultClosed r := by
  have hfail : ∀ t : Parser, t.parseError = true → cleanUp s = some t →
      ∃ r, WinLirc.finishFile s = some r ∧ ResultClosed r := by
    intro t ht hclean
    unfold WinLirc.finishFile
    rw [hclean]
    dsimp only
    rw [ht, if_pos rfl]
    exact ⟨_, rfl, fun _ hm => absurd hm List.not_mem_nil⟩
  cases hm : s.mode with
  | none =>
    have hclean : cleanUp s = some s := by
      unfold cleanUp
      rw [hm]
    cases herr : s.parseError with
    | true => exact hfail s herr hclean
    | false =>
      have hall : ∀ rem ∈ s.topRem, Closed rem := by
        intro rem hmem
        unfold Parser.topRem at hmem
        rw [List.append_assoc] at hmem
        rcases List.mem_append.mp hmem with hmem | hmem
        · exact h.done rem hmem
        · exact h.rest hm rem hmem
      obtain ⟨rems, h1, h2⟩ := postProcessAll_closed hall
      unfold WinLirc.finishFile
      rw [hclean]
      dsimp only
      rw [herr, if_neg Bool.false_ne_true, h1]
      exact ⟨_, rfl, fun rem hmem => h2 rem ((perm_sortByBitCount rems).mem_iff.mp hmem)⟩
  | remote =>
    have hclean : cleanUp s = some s.fail := by
      unfold cleanUp
      rw [hm]
    exact hfail _ rfl hclean
  | codes =>
    obtain ⟨rem, hr⟩ := Option.ne_none_iff_exists'.mp (h.block (by rw [hm]; decide))
    refine hfail _ ?_ (by unfold cleanUp; rw [hm, hr]; rfl)
    rfl
  | rawCodes =>
    obtain ⟨rem, hr⟩ := Option.ne_none_iff_exists'.mp (h.block (by rw [hm]; decide))
    refine hfail _ ?_ (by unfold cleanUp; rw [hm, hr]; rfl)
    rfl
  | rawName =>
    obtain ⟨rem, hr⟩ := Option.ne_none_iff_exists'.mp (h.block (by rw [hm]; decide))
    refine hfail _ ?_ (by unfold cleanUp; rw [hm, hr]; rfl)
    rfl

theorem readFile_closed {incl : List Char → Parser → Option Parser} {bufs : List (List Char)}
    {m : Memory} (h : ∃ s, parseLines incl bufs { memory := m } = some s ∧ NullSafe s) :
    ∃ r, readFile incl bufs m = some r ∧ ResultClosed r := by
  obtain ⟨s, hs, hsafe⟩ := h
  obtain ⟨r, hr, hclosed⟩ := hsafe.finishFile
  refine ⟨r, ?_, hclosed⟩
  unfold readFile
  rw [hs]
  exact hr

/-- **No null pointer is looked at** while a file whose lines are careful is
    read, and so are those of the files it includes. -/
theorem readConfigRecursive_closed (fs : FileSystem) (levels : Nat) (name : Option (List Char))
    (bufs : List (List Char)) (m : Memory) (h : FileMeets Careful LeavesClosed fs levels name bufs m) :
    ∃ r, readConfigRecursive fs levels name bufs m = some r ∧ ResultClosed r := by
  induction levels generalizing name bufs m with
  | zero =>
    refine readFile_closed (parseLines_total (fun s toks hs hc => ?_) h (NullSafe.init m))
    exact hs.step hc fun _ _ _ _ _ => ⟨s.fail, rfl, hs.fail⟩
  | succ levels ih =>
    refine readFile_closed (parseLines_total (fun s toks hs hc => ?_) h (NullSafe.init m))
    obtain ⟨hcare, hbelow⟩ := hc
    refine hs.step hcare fun key val vals hline hkey => ?_
    refine includeLine_cases (P := fun o => ∃ s', o = some s' ∧ NullSafe s') ⟨s.fail, rfl, hs.fail⟩
      ⟨s, rfl, hs⟩ fun path text hopen => ?_
    rw [hline] at hbelow
    obtain ⟨hleft, hfile⟩ := hbelow hkey path text hopen
    obtain ⟨r, hr, hclosed⟩ := ih (some path) (fgetsAll [] text) s.memory hfile
    rw [hr]
    exact ⟨_, rfl, hs.included hclosed hleft⟩

/-! ## 4. Freed memory -/

/-- What is owned and freed in the end was owned or freed before, or is new; and
    each of it only once. -/
def Accounts (own : List Nat) (m : Memory) (own' : List Nat) (m' : Memory) : Prop :=
  m.next ≤ m'.next ∧ ∀ a, own'.count a + m'.freed.count a ≤
    own.count a + m.freed.count a + if m.next ≤ a ∧ a < m'.next then 1 else 0

theorem Accounts.trans {o o' o'' : List Nat} {m m' m'' : Memory} (h : Accounts o m o' m')
    (h' : Accounts o' m' o'' m'') : Accounts o m o'' m'' := by
  refine ⟨Nat.le_trans h.1 h'.1, fun a => ?_⟩
  have h1 := h.2 a
  have h2 := h'.2 a
  have hle := h.1
  have hle' := h'.1
  split at h1 <;> split at h2 <;> split <;> omega

/-- A step that allocates nothing and frees nothing. -/
theorem Accounts.lose {o o' : List Nat} (m : Memory) (h : ∀ a, o'.count a ≤ o.count a) :
    Accounts o m o' m :=
  ⟨Nat.le_refl _, fun a => by have := h a; omega⟩

theorem Accounts.refl (o : List Nat) (m : Memory) : Accounts o m o m :=
  Accounts.lose m fun _ => Nat.le_refl _

/-- An allocation. -/
theorem Accounts.alloc (o : List Nat) (m : Memory) : Accounts o m (m.alloc.1 :: o) m.alloc.2 := by
  refine ⟨Nat.le_succ _, fun a => ?_⟩
  unfold Memory.alloc
  rw [List.count_cons]
  dsimp only
  by_cases ha : m.next = a
  · subst ha
    simp
    omega
  · have hbeq : (m.next == a) = false := beq_eq_false_iff_ne.mpr ha
    rw [hbeq, if_neg Bool.false_ne_true]
    omega

/-- Something owned is freed. -/
theorem Accounts.free (o : List Nat) (m : Memory) (addrs : List Nat) :
    Accounts (addrs ++ o) m o (m.free addrs) := by
  refine ⟨Nat.le_refl _, fun a => ?_⟩
  unfold Memory.free
  dsimp only
  rw [List.count_append, List.count_append]
  omega

/-- What a caller owns besides does not matter. -/
theorem Accounts.frame {o o' : List Nat} {m m' : Memory} (h : Accounts o m o' m')
    (l : List Nat) : Accounts (o ++ l) m (o' ++ l) m' := by
  refine ⟨h.1, fun a => ?_⟩
  have := h.2 a
  rw [List.count_append, List.count_append]
  omega

/-- **Nothing is freed twice** if nothing was before. -/
theorem Accounts.nodup {o o' : List Nat} {m m' : Memory} (h : Accounts o m o' m')
    (hm : ∀ a, o.count a + m.freed.count a ≤ if a < m.next then 1 else 0) :
    (o' ++ m'.freed).Nodup := by
  rw [List.nodup_iff_count_le_one]
  intro a
  rw [List.count_append]
  have h1 := h.2 a
  have h2 := hm a
  split at h1 <;> split at h2 <;> omega

/-- Less may be owned in the end. -/
theorem Accounts.mono {o o' o'' : List Nat} {m m' : Memory} (h : Accounts o m o' m')
    (hle : ∀ a, o''.count a ≤ o'.count a) : Accounts o m o'' m' :=
  h.trans (Accounts.lose m' hle)

/-- And more in the beginning. -/
theorem Accounts.from {o o' o'' : List Nat} {m m' : Memory} (h : Accounts o' m o'' m')
    (hle : ∀ a, o'.count a ≤ o.count a) : Accounts o m o'' m' :=
  (Accounts.lose m hle).trans h

/-! ## 5. What the parser owns -/

/-- What is under construction and not yet linked to `rem`. -/
def Parser.pending (s : Parser) : List Nat :=
  match s.mode with
  | .codes => s.codesList.addrs
  | .rawCodes => s.rawCodes.addrs
  | .rawName => (s.rawName.map Str.addr).toList ++ s.signals.1 :: s.rawCodes.addrs
  | _ => []

def Parser.owned (s : Parser) : List Nat := freeConfig s.topRem ++ s.pending

/-- The accounts of a step of the parser. -/
def Parser.Accounts (s s' : Parser) : Prop := WinLirc.Accounts s.owned s.memory s'.owned s'.memory

@[simp] theorem freeConfig_append (a b : List ConfigRemote) :
    freeConfig (a ++ b) = freeConfig a ++ freeConfig b := List.flatMap_append

@[simp] theorem freeConfig_nil : freeConfig [] = [] := rfl

@[simp] theorem freeConfig_cons (rem : ConfigRemote) (rems : List ConfigRemote) :
    freeConfig (rem :: rems) = rem.addrs ++ freeConfig rems := rfl

/-- What `owned` counts. -/
theorem count_owned (s : Parser) (a : Nat) : s.owned.count a =
    (freeConfig s.done).count a + (freeConfig s.rem.toList).count a +
      (freeConfig s.after).count a + s.pending.count a := by
  unfold Parser.owned Parser.topRem
  rw [freeConfig_append, freeConfig_append, List.count_append, List.count_append,
    List.count_append]

theorem count_addrs (rem : ConfigRemote) (a : Nat) : rem.addrs.count a =
    (rem.name.map Str.addr).toList.count a + ((rem.codes.map CodeTable.addrs).getD []).count a :=
  List.count_append

/-- A table with one more code. -/
theorem count_addrs_snoc (table : CodeTable) (c : ConfigCode) (a : Nat) :
    (CodeTable.addrs { table with items := table.items ++ [c] }).count a =
      table.addrs.count a + c.addrs.count a := by
  unfold CodeTable.addrs
  simp only [List.flatMap_append, List.flatMap_cons, List.flatMap_nil, List.append_nil,
    List.count_append]
  omega

theorem accounts_fail (s : Parser) : s.Accounts s.fail := Accounts.refl _ _

theorem accounts_addSignals (vals : List (List Char)) (s : Parser) :
    s.Accounts (addSignals vals s) := by
  obtain ⟨ts, err, h⟩ := addSignals_eq vals s
  rw [h]
  exact Accounts.refl _ _

/-- An allocation whose address is owned afterwards. -/
theorem Parser.Accounts.alloc {s s' : Parser} (hm : s'.memory = s.memory.alloc.2)
    (h : ∀ a, s'.owned.count a ≤ s.owned.count a + [s.memory.next].count a) : s.Accounts s' := by
  unfold Parser.Accounts
  rw [hm]
  refine (WinLirc.Accounts.alloc s.owned s.memory).mono fun a => ?_
  have := h a
  rw [List.count_singleton] at this
  rw [List.count_cons]
  exact this

/-- No table is under construction outside its section. -/
theorem pending_remote {s : Parser} (hm : s.mode = .remote) : s.pending = [] := by
  unfold Parser.pending
  rw [hm]

theorem accounts_beginCodes {s s' : Parser} (h : beginCodes s = some s') : s.Accounts s' := by
  rcases beginCodes_cases h with rfl | ⟨hm, rem, hr, -, rfl⟩
  · exact accounts_fail s
  · refine .alloc rfl fun a => ?_
    rw [count_owned, count_owned, pending_remote hm, hr]
    exact Nat.le_refl _

theorem accounts_beginRawCodes {s s' : Parser} (h : beginRawCodes s = some s') : s.Accounts s' := by
  rcases beginRawCodes_cases h with rfl | ⟨hm, rem, hr, -, rfl⟩
  · exact accounts_fail s
  · refine .alloc rfl fun a => ?_
    rw [count_owned, count_owned, pending_remote hm, hr]
    exact Nat.le_refl _

theorem accounts_beginRemote (s : Parser) : s.Accounts (beginRemote s) := by
  rcases beginRemote_cases s with he | ⟨-, he⟩
  · rw [he]
    exact accounts_fail s
  · rw [he]
    refine Accounts.lose s.memory fun a => ?_
    rw [count_owned, count_owned]
    have hempty : freeConfig [({} : ConfigRemote)] = [] := rfl
    simp only [Parser.pending, freeConfig_append, List.count_append, Option.toList_some, hempty,
      freeConfig_nil, List.count_nil]
    omega

/-- A table that is complete goes to `rem`. -/
theorem accounts_close {s : Parser} {rem : ConfigRemote} (hr : s.rem = some rem)
    (table : CodeTable) (hp : ∀ a, table.addrs.count a ≤ s.pending.count a) :
    s.Accounts { s with rem := some { rem with codes := some table }, mode := .remote } := by
  have hpend : ({ s with
      rem := some { rem with codes := some table }, mode := .remote } : Parser).pending = [] := rfl
  refine Accounts.lose s.memory fun a => ?_
  have := hp a
  rw [count_owned, count_owned, hr, hpend]
  simp only [Option.toList_some, freeConfig_cons, freeConfig_nil, List.append_nil, count_addrs,
    Option.map_some, Option.getD_some, List.count_nil]
  omega

theorem accounts_endCodes {s s' : Parser} (h : endCodes s = some s') : s.Accounts s' := by
  rcases endCodes_cases h with rfl | ⟨hm, rem, hr, rfl⟩
  · exact accounts_fail s
  · refine accounts_close hr s.codesList fun a => ?_
    unfold Parser.pending
    rw [hm]

/-- A raw code that is complete goes to its table. -/
theorem accounts_addRawCode {s : Parser} (hm : s.mode = .rawName) :
    s.Accounts { addRawCode s with mode := .rawCodes } := by
  have hpend : s.pending =
      (s.rawName.map Str.addr).toList ++ s.signals.1 :: s.rawCodes.addrs := by
    unfold Parser.pending
    rw [hm]
  have hold := fun a => congrArg (List.count a) hpend
  unfold addRawCode
  cases hn : s.rawName with
  | none =>
    refine Accounts.lose s.memory fun a => ?_
    have hnew : ({ s with mode := .rawCodes } : Parser).pending = s.rawCodes.addrs := rfl
    have := hold a
    rw [count_owned, count_owned, hnew, this, List.count_append, List.count_cons]
    dsimp only
    omega
  | some name =>
    refine Accounts.lose s.memory fun a => ?_
    have := hold a
    rw [hn] at this
    rw [count_owned, count_owned, this]
    dsimp only [Parser.pending]
    rw [count_addrs_snoc, List.count_append, List.count_cons]
    simp only [ConfigCode.addrs, Option.map_some, Option.toList_some, List.count_cons,
      List.count_nil]
    omega

theorem accounts_endRawCodes {s s' : Parser} (h : endRawCodes s = some s') : s.Accounts s' := by
  have hacc : s.Accounts s.rawClosed := by
    unfold Parser.rawClosed
    split
    · next hm => exact accounts_addRawCode hm
    · exact Accounts.refl _ _
  rcases endRawCodes_cases h with rfl | ⟨hm, rem, hr, rfl⟩
  · exact hacc.trans (accounts_fail s.rawClosed)
  · refine hacc.trans (accounts_close hr s.rawClosed.rawCodes fun a => ?_)
    unfold Parser.pending
    rw [hm]

/-- Masking the codes keeps their names and signals. -/
theorem addrs_map {f : ConfigCode → ConfigCode} (hf : ∀ c, (f c).addrs = c.addrs)
    (table : CodeTable) : CodeTable.addrs { table with items := table.items.map f } =
      table.addrs := by
  unfold CodeTable.addrs
  dsimp only
  rw [List.flatMap_map]
  congr 1
  exact List.flatMap_congr fun c _ => hf c

theorem sanityChecks_addrs {rem rem' : ConfigRemote} {ok : Bool}
    (h : sanityChecks rem = some (ok, rem')) : rem'.addrs = rem.addrs := by
  unfold sanityChecks at h
  split at h
  · injection h with h
    injection h with h1 h2
    rw [h2]
  · split at h
    · injection h with h
      injection h with h1 h2
      rw [h2]
    · split at h
      · exact absurd h.symm (Option.some_ne_none _)
      · next table hcodes =>
        injection h with h
        injection h with h1 h2
        rw [← h2]
        unfold ConfigRemote.addrs
        rw [hcodes]
        dsimp only [Option.map_some, Option.getD_some]
        rw [addrs_map]
        exact fun c => rfl

theorem accounts_endRemote {s s' : Parser} (h : endRemote s = some s') : s.Accounts s' := by
  rcases endRemote_cases h with rfl | ⟨-, rem, rem', hr, hs, rfl⟩
  · exact accounts_fail s
  · refine Accounts.lose s.memory fun a => ?_
    rw [count_owned, count_owned, hr]
    simp only [Parser.pending, Option.toList_some, freeConfig_cons, freeConfig_nil,
      List.append_nil, sanityChecks_addrs hs, List.count_nil]
    omega

theorem accounts_defineCode {s : Parser} (hm : s.mode = .codes) (key val : List Char)
    (vals : List (List Char)) : s.Accounts (defineCode key val vals s) := by
  refine .alloc rfl fun a => ?_
  have hold : s.pending = s.codesList.addrs := by
    unfold Parser.pending
    rw [hm]
  have hnew : (defineCode key val vals s).pending = (defineCode key val vals s).codesList.addrs := by
    unfold Parser.pending
    have hmode : (defineCode key val vals s).mode = .codes := hm
    rw [hmode]
  rw [count_owned, count_owned, hold, hnew]
  unfold defineCode strdup
  dsimp only
  rw [count_addrs_snoc]
  simp only [ConfigCode.addrs, Option.map_none, Option.toList_none, Memory.alloc]
  omega

theorem accounts_startRawCode {s : Parser} (hm : s.mode = .rawCodes ∨ s.mode = .rawName)
    (val : List Char) : s.Accounts (startRawCode val s) := by
  -- the state behind the first test
  have hstart : ∃ t : Parser, (if s.mode = .rawName then addRawCode s else s) = t ∧
      s.Accounts { t with mode := .rawCodes } := by
    split
    · next hm => exact ⟨_, rfl, accounts_addRawCode hm⟩
    · next hne =>
      have hmode := hm.resolve_right hne
      refine ⟨s, rfl, ?_⟩
      have hs : ({ s with mode := .rawCodes } : Parser) = s := by rw [← hmode]
      rw [hs]
      exact Accounts.refl _ _
  obtain ⟨t, ht, hacc⟩ := hstart
  refine hacc.trans ?_
  unfold startRawCode
  rw [ht]
  refine (WinLirc.Accounts.trans (Accounts.alloc _ t.memory) (Accounts.alloc _ _)).mono fun a => ?_
  rw [count_owned, List.count_cons, List.count_cons, count_owned]
  simp only [Parser.pending, strdup, Option.map_some, Option.toList_some, List.count_append,
    List.count_cons, List.count_nil]
  omega

/-! ## 6. Settings -/

/-- A setting of the table leaves the name, the codes and the flags alone. -/
def Setting.Keeps : Setting → Prop
  | .int set => ∀ n rem, (set n rem).name = rem.name ∧ (set n rem).codes = rem.codes ∧
      (set n rem).ir.flags = rem.ir.flags
  | .uint set => ∀ n rem, (set n rem).name = rem.name ∧ (set n rem).codes = rem.codes ∧
      (set n rem).ir.flags = rem.ir.flags
  | .duration set => ∀ n rem, (set n rem).name = rem.name ∧ (set n rem).codes = rem.codes ∧
      (set n rem).ir.flags = rem.ir.flags
  | .code set => ∀ c rem, (set c rem).name = rem.name ∧ (set c rem).codes = rem.codes ∧
      (set c rem).ir.flags = rem.ir.flags
  | .durations set => ∀ p s rem, (set p s rem).name = rem.name ∧
      (set p s rem).codes = rem.codes ∧ (set p s rem).ir.flags = rem.ir.flags
  | _ => True

theorem onIr_frame (f : IrRemote → IrRemote) (rem : ConfigRemote) :
    (onIr f rem).name = rem.name ∧ (onIr f rem).codes = rem.codes := ⟨rfl, rfl⟩

theorem onIr_keeps {f : IrRemote → IrRemote} (hf : ∀ r, (f r).flags = r.flags)
    (rem : ConfigRemote) : (onIr f rem).name = rem.name ∧ (onIr f rem).codes = rem.codes ∧
      (onIr f rem).ir.flags = rem.ir.flags := ⟨rfl, rfl, hf rem.ir⟩

theorem flags_minCodeRepeat (n : Nat) (r : IrRemote) :
    ({ r with minCodeRepeat := n } : IrRemote).flags = r.flags := rfl

theorem settings_keep : ∀ s ∈ settings, s.2.Keeps := by
  simp only [settings, List.forall_mem_cons, List.not_mem_nil, false_implies, implies_true]
  and_intros
  all_goals first
    | exact trivial
    | exact fun n => onIr_keeps fun r => flags_minCodeRepeat _ r
    | exact fun _ => onIr_keeps fun _ => rfl
    | exact fun _ _ => onIr_keeps fun _ => rfl

theorem settingOf_keeps {key : List Char} {s : Setting} (h : settingOf key = some s) : s.Keeps := by
  unfold settingOf at h
  obtain ⟨e, he, rfl⟩ := Option.map_eq_some_iff.mp h
  exact settings_keep e (List.mem_of_find?_eq_some he)

theorem Setting.apply_keeps {s : Setting} (h : s.Keeps) (val : List Char)
    (val2 : Option (List Char)) (rem : ConfigRemote) :
    (s.apply val val2 rem).1.name = rem.name ∧ (s.apply val val2 rem).1.codes = rem.codes := by
  cases s with
  | int set => exact ⟨(h _ rem).1, (h _ rem).2.1⟩
  | uint set => exact ⟨(h _ rem).1, (h _ rem).2.1⟩
  | duration set => exact ⟨(h _ rem).1, (h _ rem).2.1⟩
  | code set => exact ⟨(h _ rem).1, (h _ rem).2.1⟩
  | durations set =>
    cases val2 with
    | none => exact ⟨rfl, rfl⟩
    | some v => exact ⟨(h _ _ rem).1, (h _ _ rem).2.1⟩
  | serialMode =>
    unfold Setting.apply
    cases parseSerialMode val with
    | none => exact ⟨rfl, rfl⟩
    | some p => exact onIr_frame _ rem
  | name => exact ⟨rfl, rfl⟩
  | flags => exact onIr_frame _ rem
  | gap => exact onIr_frame _ rem
  | repeatGap => exact onIr_frame _ rem
  | ignored => exact ⟨rfl, rfl⟩

/-- What `defineRemote` does to what the remote owns. -/
theorem accounts_defineRemote (key val : List Char) (val2 : Option (List Char))
    (rem : ConfigRemote) (m : Memory) : Accounts rem.addrs m
      (defineRemote key val val2 rem m).1.addrs (defineRemote key val val2 rem m).2.1 := by
  unfold defineRemote
  cases hs : settingOf key with
  | none => exact Accounts.refl _ _
  | some s =>
    have hother : Accounts rem.addrs m (s.apply val val2 rem).1.addrs m := by
      obtain ⟨h1, h2⟩ := Setting.apply_keeps (settingOf_keeps hs) val val2 rem
      unfold ConfigRemote.addrs
      rw [h1, h2]
      exact Accounts.refl _ _
    cases s with
    | name =>
      refine (Accounts.free ((rem.codes.map CodeTable.addrs).getD []) m
        (rem.name.map Str.addr).toList).trans ?_
      refine (Accounts.alloc _ _).mono fun a => ?_
      rw [count_addrs, List.count_cons]
      simp only [strdup, Option.map_some, Option.toList_some, List.count_cons, List.count_nil]
      omega
    | _ => exact hother

theorem accounts_setting {s s' : Parser} (hm : s.mode = .remote) {key val : List Char}
    {vals : List (List Char)} (h : sectionLine key val vals s = some s') : s.Accounts s' := by
  obtain ⟨rem, hr, rfl⟩ := sectionLine_remote hm h
  have hacc := (accounts_defineRemote key val vals.head? rem s.memory).frame
    (freeConfig s.done ++ freeConfig s.after)
  refine (hacc.from fun a => ?_).mono fun a => ?_
  · rw [count_owned, hr, pending_remote hm, List.count_append, List.count_append]
    simp only [Option.toList_some, freeConfig_cons, freeConfig_nil, List.append_nil,
      List.count_nil]
    omega
  · rw [count_owned, List.count_append, List.count_append]
    simp only [Parser.pending, Option.toList_some, freeConfig_cons, freeConfig_nil,
      List.append_nil, List.count_nil]
    omega

/-! ## 7. The accounts of a file -/

theorem pending_congr {s t : Parser} (h1 : s.mode = t.mode) (h2 : s.codesList = t.codesList)
    (h3 : s.rawCodes = t.rawCodes) (h4 : s.rawName = t.rawName) (h5 : s.signals = t.signals) :
    s.pending = t.pending := by
  unfold Parser.pending
  rw [h1, h2, h3, h4, h5]

theorem accounts_included {s : Parser} {r : ReadResult}
    (h : Accounts [] s.memory (freeConfig r.remotes) r.memory) : s.Accounts (s.included r) := by
  have hacc := h.frame s.owned
  rw [List.nil_append] at hacc
  unfold Parser.included Parser.Accounts
  cases hl : r.remotes with
  | nil =>
    rw [hl] at hacc
    refine hacc.mono fun a => ?_
    have hpend : ({ s with
        parseError := r.parseError, memory := r.memory, after := [] } : Parser).pending =
        s.pending := pending_congr rfl rfl rfl rfl rfl
    rw [count_owned, hpend, List.count_append, count_owned]
    simp only [freeConfig_nil, List.count_nil]
    omega
  | cons rem rems =>
    rw [hl] at hacc
    refine hacc.mono fun a => ?_
    have hpend : ({ s with
        parseError := r.parseError, memory := r.memory, done := s.done ++ s.rem.toList,
        rem := some rem, after := rems } : Parser).pending = s.pending :=
      pending_congr rfl rfl rfl rfl rfl
    rw [count_owned, hpend, List.count_append, count_owned]
    simp only [freeConfig_append, freeConfig_cons, freeConfig_nil, List.append_nil,
      List.count_append, Option.toList_some]
    omega

/-- **The accounts of a line.** -/
theorem accounts_step {incl : List Char → Parser → Option Parser} {s s' : Parser}
    {toks : List (List Char)} (h : parseTokens incl toks s = some s')
    (hincl : ∀ val s', incl val s = some s' → s.Accounts s') : s.Accounts s' := by
  have heffect := parseTokens_effect incl toks s
  rw [h] at heffect
  generalize ho : some s' = o at heffect
  cases heffect with
  | skip =>
    injection ho with ho
    exact ho ▸ Accounts.refl _ _
  | fail =>
    injection ho with ho
    exact ho ▸ accounts_fail s
  | signals vals hmode =>
    injection ho with ho
    exact ho ▸ accounts_addSignals vals s
  | «include» key val vals hline hkey => exact hincl val s' ho.symm
  | beginCodes => exact accounts_beginCodes ho.symm
  | beginRawCodes => exact accounts_beginRawCodes ho.symm
  | beginRemote =>
    injection ho with ho
    exact ho ▸ accounts_beginRemote s
  | endCodes hend => exact accounts_endCodes ho.symm
  | endRawCodes => exact accounts_endRawCodes ho.symm
  | endRemote hend => exact accounts_endRemote ho.symm
  | code key val vals hmode =>
    injection ho with ho
    exact ho ▸ accounts_defineCode hmode key val vals
  | rawCode val hmode =>
    injection ho with ho
    exact ho ▸ accounts_startRawCode hmode val
  | setting key val vals hline hmode => exact accounts_setting hmode ho.symm

theorem postProcess_addrs {rem rem' : ConfigRemote} (h : postProcess rem = some rem') :
    rem'.addrs = rem.addrs := by
  have hlast : ∀ x : ConfigRemote, (onIr (fun r => setMinCodeRepeat (setSerial r))
      (setToggleState (setToggleBitMask (setRc6Mask x)))).addrs = x.addrs := by
    intro x
    have h := sameWords_settings x
    unfold ConfigRemote.addrs
    rw [h.codes, h.name]
  unfold postProcess at h
  cases hr : reverseCodes rem with
  | none =>
    rw [hr] at h
    exact absurd h.symm (Option.some_ne_none _)
  | some x =>
    rw [hr] at h
    injection h with h
    rw [← h, hlast]
    unfold reverseCodes at hr
    split at hr
    · split at hr
      · exact absurd hr.symm (Option.some_ne_none _)
      · next table hcodes =>
        injection hr with hr
        rw [← hr]
        unfold ConfigRemote.addrs
        rw [hcodes]
        dsimp only [Option.map_some, Option.getD_some]
        rw [addrs_map]
        exact fun c => rfl
    · injection hr with hr
      rw [hr]

theorem postProcessAll_addrs {rems rems' : List ConfigRemote}
    (h : postProcessAll rems = some rems') : freeConfig rems' = freeConfig rems := by
  induction rems generalizing rems' with
  | nil =>
    injection h with h
    rw [← h]
  | cons rem rems ih =>
    rw [postProcessAll] at h
    cases h1 : postProcess rem with
    | none =>
      rw [h1] at h
      exact absurd h.symm (Option.some_ne_none _)
    | some rem' =>
      rw [h1] at h
      dsimp only at h
      obtain ⟨xs, hxs, rfl⟩ := Option.map_eq_some_iff.mp h
      rw [freeConfig_cons, freeConfig_cons, postProcess_addrs h1, ih hxs]

/-- What an unfinished block leaves is linked to `rem` or freed. -/
theorem accounts_cleanUp {s t : Parser} (h : cleanUp s = some t) :
    Accounts s.owned s.memory (freeConfig t.topRem) t.memory := by
  have htop : ∀ t : Parser, ∀ a, (freeConfig t.topRem).count a =
      (freeConfig t.done).count a + (freeConfig t.rem.toList).count a +
        (freeConfig t.after).count a := by
    intro t a
    unfold Parser.topRem
    rw [freeConfig_append, freeConfig_append, List.count_append, List.count_append]
  have hlose : Accounts s.owned s.memory (freeConfig s.topRem) s.memory := by
    refine Accounts.lose s.memory fun a => ?_
    rw [count_owned, htop]
    omega
  -- a table under construction takes the place of the one that `rem` has
  have hlink : ∀ rem, s.rem = some rem → ∀ table : CodeTable, ∀ a,
      (freeConfig ({ s.fail with
        rem := some { rem with codes := some table } } : Parser).topRem).count a ≤
          (freeConfig s.topRem).count a + table.addrs.count a := by
    intro rem hr table a
    rw [htop, htop, hr]
    simp only [Parser.fail, Option.toList_some, freeConfig_cons, freeConfig_nil, List.append_nil,
      count_addrs, Option.map_some, Option.getD_some]
    omega
  unfold cleanUp at h
  cases hm : s.mode with
  | none =>
    rw [hm] at h
    injection h with h
    exact h ▸ hlose
  | remote =>
    rw [hm] at h
    injection h with h
    exact h ▸ hlose
  | codes =>
    rw [hm] at h
    obtain ⟨rem, hr, rfl⟩ := Option.map_eq_some_iff.mp h
    refine Accounts.lose s.memory fun a => ?_
    have hpend : s.pending = s.codesList.addrs := by
      unfold Parser.pending
      rw [hm]
    have h1 := hlink rem hr s.codesList a
    have h2 := htop s a
    rw [count_owned, hpend]
    omega
  | rawCodes =>
    rw [hm] at h
    obtain ⟨rem, hr, rfl⟩ := Option.map_eq_some_iff.mp h
    refine Accounts.lose s.memory fun a => ?_
    have hpend : s.pending = s.rawCodes.addrs := by
      unfold Parser.pending
      rw [hm]
    have h1 := hlink rem hr s.rawCodes a
    have h2 := htop s a
    rw [count_owned, hpend]
    omega
  | rawName =>
    rw [hm] at h
    obtain ⟨rem, hr, rfl⟩ := Option.map_eq_some_iff.mp h
    have hpend : s.pending =
        (s.rawName.map Str.addr).toList ++ s.signals.1 :: s.rawCodes.addrs := by
      unfold Parser.pending
      rw [hm]
    -- the raw code without its table is freed at once
    refine ((Accounts.free (freeConfig s.topRem ++ s.rawCodes.addrs) s.memory
      (s.rawName.elim [] fun name => [name.addr, s.signals.1])).from fun a => ?_).mono
        fun a => Nat.le_trans (hlink rem hr s.rawCodes a) ?_
    · rw [count_owned, hpend]
      have h2 := htop s a
      cases s.rawName with
      | none =>
        simp only [Option.elim_none, Option.map_none, Option.toList_none, List.nil_append,
          List.count_append, List.count_cons]
        omega
      | some name =>
        simp only [Option.elim_some, Option.map_some, Option.toList_some, List.count_append,
          List.count_cons, List.count_nil]
        omega
    · rw [List.count_append]

theorem accounts_finishFile {s : Parser} {r : ReadResult} (h : finishFile s = some r) :
    Accounts s.owned s.memory (freeConfig r.remotes) r.memory := by
  unfold finishFile at h
  cases hc : cleanUp s with
  | none =>
    rw [hc] at h
    exact absurd h.symm (Option.some_ne_none _)
  | some t =>
    rw [hc] at h
    dsimp only at h
    refine (accounts_cleanUp hc).trans ?_
    split at h
    · injection h with h
      rw [← h]
      have hfree := Accounts.free [] t.memory (freeConfig t.topRem)
      rwa [List.append_nil] at hfree
    · obtain ⟨rems, hp, rfl⟩ := Option.map_eq_some_iff.mp h
      refine Accounts.lose t.memory fun a => ?_
      rw [← postProcessAll_addrs hp]
      exact Nat.le_of_eq ((perm_sortByBitCount rems).flatMap_right _ |>.count_eq a)

theorem accounts_readFile {incl : List Char → Parser → Option Parser} {bufs : List (List Char)}
    {m : Memory} {r : ReadResult} (hincl : ∀ s val s', incl val s = some s' → s.Accounts s')
    (h : readFile incl bufs m = some r) : Accounts [] m (freeConfig r.remotes) r.memory := by
  obtain ⟨s, hs, hr⟩ := Option.bind_eq_some_iff.mp h
  have hstart : Parser.Accounts { memory := m } s :=
    parseLines_invariant (I := fun t => Parser.Accounts { memory := m } t)
      (fun t toks t' ht hstep => ht.trans (accounts_step hstep (hincl t))) hs (Accounts.refl _ _)
  exact hstart.trans (accounts_finishFile hr)

/-- **The accounts of a file.** -/
theorem accounts_readConfigRecursive {fs : FileSystem} {levels : Nat} {name : Option (List Char)}
    {bufs : List (List Char)} {m : Memory} {r : ReadResult}
    (h : readConfigRecursive fs levels name bufs m = some r) :
    Accounts [] m (freeConfig r.remotes) r.memory := by
  induction levels generalizing name bufs m r with
  | zero =>
    refine accounts_readFile (fun s val s' h => ?_) h
    injection h with h
    exact h ▸ accounts_fail s
  | succ levels ih =>
    refine accounts_readFile (fun s val s' => ?_) h
    refine includeLine_cases (P := fun o => o = some s' → s.Accounts s') ?_ ?_ ?_
    · intro h
      injection h with h
      exact h ▸ accounts_fail s
    · intro h
      injection h with h
      exact h ▸ Accounts.refl _ _
    · intro path text hopen h
      obtain ⟨r', hr', rfl⟩ := Option.map_eq_some_iff.mp h
      exact accounts_included (ih hr')

/-! ## 8. `read_config` -/

theorem finishFile_error {s : Parser} {r : ReadResult} (h : finishFile s = some r)
    (herr : r.parseError = true) : r.remotes = [] := by
  unfold finishFile at h
  split at h
  · exact absurd h.symm (Option.some_ne_none _)
  · split at h
    · injection h with h
      rw [← h]
    · obtain ⟨rems, -, rfl⟩ := Option.map_eq_some_iff.mp h
      exact absurd herr Bool.false_ne_true

theorem readConfigRecursive_error {fs : FileSystem} {levels : Nat} {name : Option (List Char)}
    {bufs : List (List Char)} {m : Memory} {r : ReadResult}
    (h : readConfigRecursive fs levels name bufs m = some r) (herr : r.parseError = true) :
    r.remotes = [] := by
  cases levels with
  | zero =>
    obtain ⟨s, -, hr⟩ := Option.bind_eq_some_iff.mp h
    exact finishFile_error hr herr
  | succ levels =>
    obtain ⟨s, -, hr⟩ := Option.bind_eq_some_iff.mp h
    exact finishFile_error hr herr

/-- **`read_config` does not crash** on files whose lines are careful: it
    answers, with no list after a parse error, and whatever has been freed was
    freed once and is not in the list. -/
theorem readConfig_safe (fs : FileSystem) (name : Option (List Char)) (bufs : List (List Char))
    (h : FileMeets Careful LeavesClosed fs (MAX_INCLUDES + 1) name bufs {}) :
    ∃ r, readConfig fs name bufs = some r ∧ (r.parseError = true → r.remotes = []) ∧
      (freeConfig r.remotes ++ r.memory.freed).Nodup := by
  obtain ⟨r, hr, -⟩ := readConfigRecursive_closed fs _ name bufs {} h
  refine ⟨r, hr, readConfigRecursive_error hr, ?_⟩
  exact (accounts_readConfigRecursive hr).nodup fun a => Nat.zero_le _

def tvFile : List (List Char) :=
  fgetsAll [] ("begin remote\nname TV\nbits 8\nflags SPACE_ENC|REVERSE\nbegin codes\n".toList ++
    "UP 0x01\nend codes\nend remote\n".toList)

/-- A file with one remote. -/
theorem readConfig_safe_tvFile :
    FileMeets Careful LeavesClosed (fun _ => none) (MAX_INCLUDES + 1) none tvFile {} ∧
    ∃ r, readConfig (fun _ => none) none tvFile = some r ∧ (r.parseError = true → r.remotes = []) ∧
      (freeConfig r.remotes ++ r.memory.freed).Nodup := by
  have h : FileMeets Careful LeavesClosed (fun _ => none) (MAX_INCLUDES + 1) none tvFile {} := by
    decide +kernel
  exact ⟨h, readConfig_safe _ _ _ h⟩

/-- A remote with a name and no codes: `sanityChecks` looks at its codes. -/
theorem readConfig_crashes : readConfig (fun _ => none) none
    (fgetsAll [] "begin remote\nname TV\nend remote\n".toList) = none := by
  decide +kernel

end WinLirc
