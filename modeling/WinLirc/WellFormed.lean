/-
  File:      WinLirc/WellFormed.lean
  Subject:   The form of the remotes that `read_config` returns.

  `Draft` is what holds of a remote while its block is open, `WellFormed` what
  holds of it behind its block. A line that meets `Orderly` keeps both.
-/
import WinLirc.ConfigSafety

namespace WinLirc

/-! ## 1. Well-formed remotes -/

/-- The entries of the code table. -/
def ConfigRemote.entries (rem : ConfigRemote) : List ConfigCode :=
  (rem.codes.map CodeTable.items).getD []

def InBits (v : IrCode) (bits : Int) : Prop := v &&& genMask bits = v

/-- A raw code with an odd number of signals. -/
def OddSignals (c : ConfigCode) : Prop := c.signals.map (fun s => s.2.length % 2) = some 1

/-- At most one protocol bit is set. -/
def OneProtocol (flags : Flags) : Prop :=
  ∀ i j : Fin 32, (flags &&& IR_PROTOCOL_MASK).getLsbD i = true →
    (flags &&& IR_PROTOCOL_MASK).getLsbD j = true → i = j

structure WellFormed (rem : ConfigRemote) : Prop where
  name : rem.name ≠ none
  codes : rem.codes ≠ none
  protocol : OneProtocol rem.ir.flags
  raw : isRaw rem.ir = true → ∀ c ∈ rem.entries, OddSignals c
  preData : isRaw rem.ir = false → InBits rem.ir.preData rem.ir.preDataBits
  postData : isRaw rem.ir = false → InBits rem.ir.postData rem.ir.postDataBits
  words : isRaw rem.ir = false → ∀ c ∈ rem.entries,
    InBits c.code rem.ir.bits ∧ ∀ node ∈ c.next, InBits node rem.ir.bits

/-- What holds inside the block: raw codes are complete. -/
structure Draft (rem : ConfigRemote) : Prop where
  protocol : OneProtocol rem.ir.flags
  raw : isRaw rem.ir = true → ∀ c ∈ rem.entries, OddSignals c

theorem WellFormed.draft {rem : ConfigRemote} (h : WellFormed rem) : Draft rem :=
  ⟨h.protocol, h.raw⟩

instance (v : IrCode) (bits : Int) : Decidable (InBits v bits) := by
  unfold InBits
  infer_instance

instance (c : ConfigCode) : Decidable (OddSignals c) := by
  unfold OddSignals
  infer_instance

instance (flags : Flags) : Decidable (OneProtocol flags) := by
  unfold OneProtocol
  infer_instance

instance (rem : ConfigRemote) : Decidable (WellFormed rem) :=
  decidable_of_iff (rem.name ≠ none ∧ rem.codes ≠ none ∧ OneProtocol rem.ir.flags ∧
      (isRaw rem.ir = true → ∀ c ∈ rem.entries, OddSignals c) ∧
      (isRaw rem.ir = false → InBits rem.ir.preData rem.ir.preDataBits) ∧
      (isRaw rem.ir = false → InBits rem.ir.postData rem.ir.postDataBits) ∧
      (isRaw rem.ir = false → ∀ c ∈ rem.entries,
        InBits c.code rem.ir.bits ∧ ∀ node ∈ c.next, InBits node rem.ir.bits))
    ⟨fun ⟨h1, h2, h3, h4, h5, h6, h7⟩ => ⟨h1, h2, h3, h4, h5, h6, h7⟩,
      fun h => ⟨h.name, h.codes, h.protocol, h.raw, h.preData, h.postData, h.words⟩⟩

theorem InBits.masked (v : IrCode) (bits : Int) : InBits (v &&& genMask bits) bits := by
  unfold InBits
  rw [BitVec.and_assoc, BitVec.and_self]

theorem inBits_iff (v : IrCode) (bits : Int) :
    InBits v bits ↔ ∀ i, i < 64 → bits.toNat ≤ i → v.getLsbD i = false := by
  unfold InBits genMask
  constructor
  · intro h i hi hle
    rw [← h, BitVec.getLsbD_and, getLsbD_genMaskLoop_of_lt hi, decide_eq_false (by omega),
      Bool.and_false]
  · intro h
    refine BitVec.eq_of_getLsbD_eq fun i hi => ?_
    rw [BitVec.getLsbD_and, getLsbD_genMaskLoop_of_lt hi]
    by_cases hle : i < bits.toNat
    · rw [decide_eq_true hle, Bool.and_true]
    · rw [h i hi (by omega), Bool.false_and]

theorem InBits.reversed (v : IrCode) (bits : Int) : InBits (reverse v bits) bits := by
  rw [inBits_iff]
  intro i hi hle
  have hb : bits.toNat ≤ 64 := by omega
  have h : reverse v bits = reverse v (bits.toNat : Int) := by
    unfold reverse
    rw [Int.toNat_natCast]
    by_cases hneg : bits < 0
    · have h0 : bits.toNat = 0 := by omega
      rw [h0]
      rfl
    · rw [Int.toNat_of_nonneg (by omega)]
  rw [h, getLsbD_reverse v bits.toNat hb, decide_eq_false (by omega), Bool.false_and]

/-! ## 2. Protocols -/

theorem protocol_or (a b : Flags) : (a ||| b) &&& IR_PROTOCOL_MASK =
    a &&& IR_PROTOCOL_MASK ||| b &&& IR_PROTOCOL_MASK := BitVec.and_or_distrib_right

theorem OneProtocol.congr {a b : Flags} (h : OneProtocol a)
    (he : b &&& IR_PROTOCOL_MASK = a &&& IR_PROTOCOL_MASK) : OneProtocol b := by
  unfold OneProtocol at *
  rw [he]
  exact h

theorem allFlags_oneProtocol : ∀ f ∈ allFlags, OneProtocol f.2 := by
  decide +kernel

theorem parseFlagsLoop_oneProtocol {names : List (List Char)} {flags f : Flags}
    (h : parseFlagsLoop names flags = some f) (hflags : OneProtocol flags) : OneProtocol f := by
  induction names generalizing flags with
  | nil =>
    injection h with h
    exact h ▸ hflags
  | cons name names ih =>
    rw [parseFlagsLoop] at h
    cases hfind : allFlags.find? fun f => strcasecmp f.1.toList name with
    | none =>
      rw [hfind] at h
      exact absurd h.symm (Option.some_ne_none _)
    | some g =>
      rw [hfind] at h
      dsimp only at h
      split at h
      · exact absurd h.symm (Option.some_ne_none _)
      · next hone =>
        refine ih h ?_
        -- one of the two has no protocol
        by_cases hg : g.2 &&& IR_PROTOCOL_MASK = 0
        · refine hflags.congr ?_
          rw [protocol_or, hg]
          exact BitVec.or_zero
        · have h0 : flags &&& IR_PROTOCOL_MASK = 0 := by
            by_cases hf : flags &&& IR_PROTOCOL_MASK = 0
            · exact hf
            · exact absurd ⟨hg, hf⟩ hone
          refine (allFlags_oneProtocol g (List.mem_of_find?_eq_some hfind)).congr ?_
          rw [protocol_or, h0]
          exact BitVec.zero_or

/-- A `flags` line alone names at most one protocol. -/
theorem parseFlags_oneProtocol {val : List Char} {f : Flags} (h : parseFlags val = some f) :
    OneProtocol f := parseFlagsLoop_oneProtocol h (by decide)

theorem protocol_setProtocol (r : IrRemote) :
    (setProtocol RAW_CODES r).flags &&& IR_PROTOCOL_MASK = RAW_CODES := by
  have h0 : ~~~IR_PROTOCOL_MASK &&& IR_PROTOCOL_MASK = 0 := by decide
  have h1 : RAW_CODES &&& IR_PROTOCOL_MASK = RAW_CODES := by decide
  unfold setProtocol
  dsimp only
  rw [protocol_or, BitVec.and_assoc, h0, h1]
  simp

/-! ## 3. The condition -/

/-- The flags that a `flags` line names. -/
def flagsOfLine : List (List Char) → Option Flags
  | key :: val :: _ => if isKey "flags" key then parseFlags val else none
  | _ => none

/-- The flags name no protocol, or the one that the remote has; or the first one,
    and then not `RAW_CODES` behind a table that has entries. -/
def NamesProtocol (rem : ConfigRemote) : Option Flags → Prop
  | none => True
  | some f =>
    f &&& IR_PROTOCOL_MASK = 0 ∨ f &&& IR_PROTOCOL_MASK = protocol rem.ir ∨
      protocol rem.ir = 0 ∧ (f &&& IR_PROTOCOL_MASK = RAW_CODES → rem.entries = [])

/-- A `flags` line names no second protocol; the codes of a `codes` section are
    not those of a raw remote; `end remote` finds a code table. -/
def Orderly (s : Parser) (toks : List (List Char)) : Prop :=
  (s.mode = .remote → ∀ rem, s.rem = some rem → NamesProtocol rem (flagsOfLine toks)) ∧
  (isEndOf "codes" toks = true → s.mode = .codes → ∀ rem, s.rem = some rem →
    isRaw rem.ir = true → s.codesList.items = []) ∧
  (isEndOf "remote" toks = true → s.mode = .remote → ∀ rem, s.rem = some rem →
    rem.name ≠ none → rem.codes ≠ none)

/-- A block that another file interrupts leaves a well-formed remote behind. -/
def LeavesWhole (s : Parser) : Prop := s.mode ≠ .none → ∀ rem, s.rem = some rem → WellFormed rem

instance (rem : ConfigRemote) : ∀ f, Decidable (NamesProtocol rem f)
  | none => isTrue trivial
  | some f => by
    unfold NamesProtocol
    infer_instance

instance (s : Parser) (toks : List (List Char)) : Decidable (Orderly s toks) := by
  unfold Orderly
  infer_instance

instance (s : Parser) : Decidable (LeavesWhole s) := by
  unfold LeavesWhole
  infer_instance

/-! ## 4. Lines of a block -/

/-- The flags that a line adds. -/
def Setting.named (val : List Char) : Setting → Flags
  | .flags => (parseFlags val).getD 0
  | _ => 0

theorem flags_gap (gap gap2 : Int) (r : IrRemote) :
    ({ r with gap, gap2 } : IrRemote).flags = r.flags := rfl

theorem flags_repeatGap (gap : Int) (r : IrRemote) :
    ({ r with repeatGap := gap } : IrRemote).flags = r.flags := rfl

theorem Setting.apply_flags {s : Setting} (h : s.Keeps) (val : List Char)
    (val2 : Option (List Char)) (rem : ConfigRemote) :
    (s.apply val val2 rem).1.ir.flags = rem.ir.flags ||| s.named val := by
  have h0 : rem.ir.flags ||| 0 = rem.ir.flags := BitVec.or_zero
  cases s with
  | flags => rfl
  | int set => exact (h _ rem).2.2.trans h0.symm
  | uint set => exact (h _ rem).2.2.trans h0.symm
  | duration set => exact (h _ rem).2.2.trans h0.symm
  | code set => exact (h _ rem).2.2.trans h0.symm
  | durations set =>
    cases val2 with
    | none => exact h0.symm
    | some v => exact (h _ _ rem).2.2.trans h0.symm
  | serialMode =>
    unfold Setting.apply
    cases parseSerialMode val with
    | none => exact h0.symm
    | some p => exact h0.symm
  | name => exact h0.symm
  | gap => exact (flags_gap _ _ rem.ir).trans h0.symm
  | repeatGap => exact (flags_repeatGap _ rem.ir).trans h0.symm
  | ignored => exact h0.symm

/-- Only the key `flags` has the setting `flags`. -/
theorem flags_setting : ∀ e ∈ settings, e.2 = .flags → e.1 = "flags" := by
  simp only [settings, List.forall_mem_cons, List.not_mem_nil, false_implies, implies_true]
  and_intros
  all_goals first
    | exact trivial
    | exact fun h => Setting.noConfusion h

theorem isKey_flags {key : List Char} (h : settingOf key = some .flags) :
    isKey "flags" key = true := by
  unfold settingOf at h
  obtain ⟨e, he, hflags⟩ := Option.map_eq_some_iff.mp h
  have hkey := List.find?_some he
  rw [flags_setting e (List.mem_of_find?_eq_some he) hflags] at hkey
  exact hkey

/-- What a line of a block does to the flags. -/
theorem flags_defineRemote {key val : List Char} {val2 : Option (List Char)}
    {rem : ConfigRemote} {m : Memory} (herr : (defineRemote key val val2 rem m).2.2 = false)
    (vals : List (List Char)) :
    (defineRemote key val val2 rem m).1.codes = rem.codes ∧ ∃ f,
      (defineRemote key val val2 rem m).1.ir.flags = rem.ir.flags ||| f ∧
        (f = 0 ∨ flagsOfLine (key :: val :: vals) = some f) := by
  have h0 : rem.ir.flags ||| 0 = rem.ir.flags := BitVec.or_zero
  unfold defineRemote at *
  cases hs : settingOf key with
  | none => exact ⟨rfl, 0, h0.symm, Or.inl rfl⟩
  | some s =>
    have hkeep := settingOf_keeps hs
    rw [hs] at herr
    have hother : (s.apply val val2 rem).2 = false → (s.apply val val2 rem).1.codes = rem.codes ∧
        ∃ f, (s.apply val val2 rem).1.ir.flags = rem.ir.flags ||| f ∧
          (f = 0 ∨ flagsOfLine (key :: val :: vals) = some f) := by
      intro herr
      refine ⟨(Setting.apply_keeps hkeep val val2 rem).2, s.named val,
        Setting.apply_flags hkeep val val2 rem, ?_⟩
      cases s with
      | flags =>
        refine Or.inr ?_
        unfold flagsOfLine Setting.named
        dsimp only
        rw [if_pos (isKey_flags hs)]
        cases hf : parseFlags val with
        | none =>
          unfold Setting.apply at herr
          rw [hf] at herr
          exact absurd herr.symm Bool.false_ne_true
        | some f => rfl
      | _ => exact Or.inl rfl
    cases s with
    | name => exact ⟨rfl, 0, h0.symm, Or.inl rfl⟩
    | _ => exact hother herr

/-- The flags of a line that names no second protocol. -/
theorem Draft.names {rem rem' : ConfigRemote} (h : Draft rem) {f : Flags}
    (hcodes : rem'.codes = rem.codes) (hflags : rem'.ir.flags = rem.ir.flags ||| f)
    (hone : OneProtocol f) (hnames : NamesProtocol rem (some f)) : Draft rem' := by
  have hentries : rem'.entries = rem.entries := by
    unfold ConfigRemote.entries
    rw [hcodes]
  have hp : rem'.ir.flags &&& IR_PROTOCOL_MASK =
      rem.ir.flags &&& IR_PROTOCOL_MASK ||| f &&& IR_PROTOCOL_MASK := by
    rw [hflags, protocol_or]
  -- where the protocol stays, so does everything else
  have hsame : rem'.ir.flags &&& IR_PROTOCOL_MASK = rem.ir.flags &&& IR_PROTOCOL_MASK →
      Draft rem' := by
    intro he
    refine ⟨h.protocol.congr he, fun hraw => ?_⟩
    rw [hentries]
    refine h.raw ?_
    unfold isRaw WinLirc.protocol at *
    rwa [he] at hraw
  rcases hnames with h0 | hq | ⟨h0, hraw⟩
  · refine hsame ?_
    rw [hp, h0]
    exact BitVec.or_zero
  · refine hsame ?_
    rw [hp, hq]
    exact BitVec.or_self
  · unfold WinLirc.protocol at h0
    have h0f : rem'.ir.flags &&& IR_PROTOCOL_MASK = f &&& IR_PROTOCOL_MASK := by
      rw [hp, h0]
      exact BitVec.zero_or
    refine ⟨hone.congr h0f, fun hr => ?_⟩
    rw [hentries, hraw ?_]
    · exact fun _ hc => absurd hc List.not_mem_nil
    · unfold isRaw WinLirc.protocol at hr
      rw [← h0f]
      exact eq_of_beq hr

/-- **`end remote`** makes a well-formed remote of a draft. -/
theorem Draft.sanityChecks {rem rem' : ConfigRemote} (h : Draft rem)
    (hcodes : rem.name ≠ none → rem.codes ≠ none)
    (hs : sanityChecks rem = some (true, rem')) : WellFormed rem' := by
  unfold WinLirc.sanityChecks at hs
  split at hs
  · injection hs with hs
    injection hs with hs
    exact absurd hs Bool.false_ne_true
  · next hname =>
    split at hs
    · next hraw =>
      injection hs with hs
      injection hs with _ hs
      have hno : ¬ isRaw rem.ir = false := by
        rw [hraw]
        decide
      rw [← hs]
      exact ⟨hname, hcodes hname, h.protocol, h.raw, fun hf => absurd hf hno,
        fun hf => absurd hf hno, fun hf => absurd hf hno⟩
    · next hraw =>
      split at hs
      · exact absurd hs.symm (Option.some_ne_none _)
      · next table htable =>
        injection hs with hs
        injection hs with _ hs
        rw [← hs]
        refine ⟨hname, Option.some_ne_none _, h.protocol, fun hr => absurd hr hraw,
          fun _ => InBits.masked _ _, fun _ => InBits.masked _ _, fun _ c hc => ?_⟩
        obtain ⟨c0, -, rfl⟩ := List.mem_map.mp hc
        refine ⟨InBits.masked _ _, fun node hnode => ?_⟩
        obtain ⟨n0, -, rfl⟩ := List.mem_map.mp hnode
        exact InBits.masked _ _

/-! ## 5. The parser -/

/-- Remotes behind their block are well-formed, the one of an open block is a
    draft, and raw codes under construction are complete. -/
structure Shaped (s : Parser) : Prop where
  done : ∀ rem ∈ s.done, WellFormed rem
  closed : s.mode = .none → ∀ rem ∈ s.rem.toList ++ s.after, WellFormed rem
  opened : s.mode ≠ .none → ∀ rem, s.rem = some rem → Draft rem
  raws : s.mode = .rawCodes ∨ s.mode = .rawName → ∀ c ∈ s.rawCodes.items, OddSignals c

theorem Shaped.init (m : Memory) : Shaped { memory := m } where
  done := fun _ h => absurd h List.not_mem_nil
  closed := fun _ _ h => absurd h List.not_mem_nil
  opened := fun h => absurd rfl h
  raws := fun h => by rcases h with h | h <;> cases h

/-- A step inside a block. -/
theorem Shaped.inside {s s' : Parser} {m : Directive} (h : Shaped s) (hmode : s'.mode = m)
    (hne : m ≠ .none) (hdone : s'.done = s.done) (hrem : ∀ rem, s'.rem = some rem → Draft rem)
    (hraws : m = .rawCodes ∨ m = .rawName → ∀ c ∈ s'.rawCodes.items, OddSignals c) :
    Shaped s' where
  done := by
    rw [hdone]
    exact h.done
  closed := fun hm => absurd (hmode.symm.trans hm) hne
  opened := fun _ => hrem
  raws := by
    rw [hmode]
    exact hraws

/-- A step that touches neither the mode nor the remotes nor the raw codes. -/
theorem Shaped.same {s s' : Parser} (h : Shaped s) (hmode : s'.mode = s.mode)
    (hdone : s'.done = s.done) (hrem : s'.rem = s.rem) (hafter : s'.after = s.after)
    (hraws : s'.rawCodes = s.rawCodes) : Shaped s' where
  done := by
    rw [hdone]
    exact h.done
  closed := by
    rw [hmode, hrem, hafter]
    exact h.closed
  opened := by
    rw [hmode, hrem]
    exact h.opened
  raws := by
    rw [hmode, hraws]
    exact h.raws

theorem not_failed {s s' : Parser} (h : some s.fail = some s') : s'.parseError ≠ false := by
  injection h with h
  rw [← h]
  exact Bool.noConfusion

/-- The raw code that is complete has an odd number of signals. -/
theorem addRawCode_odd {s : Parser} (h : ∀ c ∈ s.rawCodes.items, OddSignals c)
    (herr : (addRawCode s).parseError = false) : ∀ c ∈ (addRawCode s).rawCodes.items, OddSignals c := by
  unfold addRawCode at *
  cases hname : s.rawName with
  | none => exact h
  | some name =>
    rw [hname] at herr
    dsimp only at herr ⊢
    rw [Bool.or_eq_false_iff] at herr
    intro c hc
    rcases List.mem_append.mp hc with hc | hc
    · exact h c hc
    · rw [List.mem_singleton.mp hc]
      have hodd : s.signals.2.length % 2 = 1 := by
        have hne := of_decide_eq_false herr.2
        omega
      unfold OddSignals
      rw [Option.map_some, hodd]

theorem Shaped.included {s : Parser} (h : Shaped s) {r : ReadResult}
    (hr : ∀ rem ∈ r.remotes, WellFormed rem) (hleft : LeavesWhole s) : Shaped (s.included r) := by
  have hrem : ∀ rem ∈ s.rem.toList, WellFormed rem := by
    intro rem hmem
    by_cases hm : s.mode = .none
    · exact h.closed hm rem (List.mem_append_left _ hmem)
    · exact hleft hm rem (Option.mem_toList.mp hmem)
  unfold Parser.included
  cases hl : r.remotes with
  | nil =>
    refine ⟨h.done, fun _ rem hmem => ?_, h.opened, h.raws⟩
    rw [List.append_nil] at hmem
    exact hrem rem hmem
  | cons first others =>
    rw [hl] at hr
    refine ⟨fun rem hmem => ?_, fun _ => hr, fun _ rem he => ?_, h.raws⟩
    · rcases List.mem_append.mp hmem with hmem | hmem
      · exact h.done rem hmem
      · exact hrem rem hmem
    · injection he with he
      exact he ▸ (hr first List.mem_cons_self).draft

theorem Shaped.endRemote {s s' : Parser} (h : Shaped s) (hC : ∀ rem, s.mode = .remote →
    s.rem = some rem → rem.name ≠ none → rem.codes ≠ none) (he : endRemote s = some s')
    (herr : s'.parseError = false) : Shaped s' := by
  rcases endRemote_cases he with rfl | ⟨hm, rem, rem', hrem, hs, rfl⟩
  · exact absurd herr (not_failed rfl)
  · have hd : Draft rem := h.opened (by rw [hm]; decide) rem hrem
    have hwf := hd.sanityChecks (hC rem hm hrem) hs
    refine ⟨h.done, fun _ r hr => ?_, fun hne => absurd rfl hne, fun hm => ?_⟩
    · rw [List.mem_singleton.mp hr]
      exact hwf
    · rcases hm with hm | hm <;> cases hm

theorem Shaped.endRawCodes {s s' : Parser} (h : Shaped s) (he : endRawCodes s = some s')
    (herr : s'.parseError = false) : Shaped s' := by
  have hstart : s.rawClosed.done = s.done ∧ s.rawClosed.rem = s.rem ∧
      (s.rawClosed.parseError = false → s.rawClosed.mode = .rawCodes →
        ∀ c ∈ s.rawClosed.rawCodes.items, OddSignals c) ∧
      (s.rawClosed.mode = .rawCodes → s.mode ≠ .none) := by
    unfold Parser.rawClosed
    split
    · next hm =>
      obtain ⟨-, h2, h3, -, -⟩ := addRawCode_frame s
      exact ⟨h2, h3, fun he _ => addRawCode_odd (h.raws (Or.inr hm)) he, fun _ => by rw [hm]; decide⟩
    · exact ⟨rfl, rfl, fun _ hm => h.raws (Or.inl hm), fun hm => by rw [hm]; decide⟩
  obtain ⟨hdone, hrem, hraws, hmode⟩ := hstart
  rcases endRawCodes_cases he with rfl | ⟨hm, rem, hr, rfl⟩
  · exact absurd herr (not_failed rfl)
  · refine h.inside (m := .remote) rfl (by decide) hdone (fun rem' hr' => ?_)
      fun hm => by rcases hm with hm | hm <;> cases hm
    injection hr' with hr'
    rw [← hr']
    have hd := h.opened (hmode hm) rem (hrem ▸ hr)
    exact ⟨hd.protocol, fun _ => hraws herr hm⟩

/-- **An orderly line** keeps the remotes in shape. -/
theorem Shaped.step {incl : List Char → Parser → Option Parser} {s s' : Parser}
    {toks : List (List Char)} (h : Shaped s) (hC : Orderly s toks)
    (hstep : parseTokens incl toks s = some s') (herr : s'.parseError = false)
    (hincl : ∀ key val vals, toks = key :: val :: vals → isKey "include" key = true →
      incl val s = some s' → Shaped s') : Shaped s' := by
  obtain ⟨hflags, hcodes, hend⟩ := hC
  have heffect := parseTokens_effect incl toks s
  rw [hstep] at heffect
  generalize ho : some s' = o at heffect
  have hno : ∀ {m : Directive}, m = .remote ∨ m = .codes → m = .rawCodes ∨ m = .rawName → False := by
    intro m h1 h2
    rcases h1 with rfl | rfl <;> rcases h2 with h2 | h2 <;> cases h2
  cases heffect with
  | skip =>
    injection ho with ho
    exact ho ▸ h
  | fail => exact absurd herr (not_failed ho.symm)
  | signals vals hmode =>
    obtain ⟨ts, err, he⟩ := addSignals_eq vals s
    injection ho with ho
    rw [ho, he]
    exact h.same rfl rfl rfl rfl rfl
  | «include» key val vals hline hkey => exact hincl key val vals hline hkey ho.symm
  | beginCodes =>
    rcases beginCodes_cases ho.symm with rfl | ⟨hm, -, -, -, rfl⟩
    · exact absurd herr (not_failed rfl)
    · exact h.inside (m := .codes) rfl (by decide) rfl
        (fun rem' hr' => h.opened (by rw [hm]; decide) rem' hr')
        fun hm => (hno (Or.inr rfl) hm).elim
  | beginRawCodes =>
    rcases beginRawCodes_cases ho.symm with rfl | ⟨-, rem, -, hnone, rfl⟩
    · exact absurd herr (not_failed rfl)
    · refine h.inside (m := .rawCodes) rfl (by decide) rfl (fun rem' hr' => ?_)
        fun _ _ hc => absurd hc List.not_mem_nil
      injection hr' with hr'
      rw [← hr']
      refine ⟨?_, fun _ c hc => ?_⟩
      · have hone : OneProtocol RAW_CODES := by decide
        exact hone.congr (protocol_setProtocol rem.ir)
      · unfold ConfigRemote.entries onIr at hc
        dsimp only at hc
        rw [hnone] at hc
        exact absurd hc List.not_mem_nil
  | beginRemote =>
    rcases beginRemote_cases s with he | ⟨hm, he⟩
    · rw [he] at ho
      exact absurd herr (not_failed ho.symm)
    · rw [Option.some.inj ho, he]
      refine ⟨fun rem hmem => ?_, fun he => Directive.noConfusion he, fun _ rem he => ?_,
        fun hm => (hno (Or.inl rfl) hm).elim⟩
      · rcases List.mem_append.mp hmem with hmem | hmem
        · exact h.done rem hmem
        · exact h.closed hm rem (List.mem_append_left _ hmem)
      · injection he with he
        rw [← he]
        exact ⟨by decide, fun _ _ hc => absurd hc List.not_mem_nil⟩
  | endCodes hline =>
    rcases endCodes_cases ho.symm with rfl | ⟨hm, rem, hr, rfl⟩
    · exact absurd herr (not_failed rfl)
    · refine h.inside (m := .remote) rfl (by decide) rfl (fun rem' hr' => ?_)
        fun hm => (hno (Or.inl rfl) hm).elim
      injection hr' with hr'
      rw [← hr']
      have hd := h.opened (by rw [hm]; decide) rem hr
      refine ⟨hd.protocol, fun hraw c hc => ?_⟩
      have hempty : c ∈ s.codesList.items := hc
      rw [hcodes hline hm rem hr hraw] at hempty
      exact absurd hempty List.not_mem_nil
  | endRawCodes => exact h.endRawCodes ho.symm herr
  | endRemote hline => exact h.endRemote (fun rem hm => hend hline hm rem) ho.symm herr
  | code key val vals hmode =>
    injection ho with ho
    rw [ho]
    exact h.same rfl rfl rfl rfl rfl
  | rawCode val hmode =>
    injection ho with ho
    rw [ho] at herr ⊢
    obtain ⟨h1, h2, h3, h4⟩ := startRawCode_frame val s
    have hopen : s.mode ≠ .none := by
      rcases hmode with hm | hm <;> rw [hm] <;> decide
    refine h.inside h1 (by decide) h2 (fun rem hr => h.opened hopen rem (h3 ▸ hr)) fun _ => ?_
    unfold startRawCode at *
    split at herr
    · next hm =>
      rw [if_pos hm]
      exact addRawCode_odd (h.raws hmode) herr
    · next hm =>
      rw [if_neg hm]
      exact h.raws hmode
  | setting key val vals hline hmode =>
    obtain ⟨rem, hr, rfl⟩ := sectionLine_remote hmode ho.symm
    have hd := h.opened (by rw [hmode]; decide) rem hr
    refine h.inside (m := .remote) rfl (by decide) rfl (fun rem' hr' => ?_)
      fun hm => (hno (Or.inl rfl) hm).elim
    injection hr' with hr'
    rw [← hr']
    obtain ⟨hsame, f, hf, hline'⟩ := flags_defineRemote herr vals
    rcases hline' with h0 | hline'
    · refine hd.names hsame hf ?_ (Or.inl ?_)
      · rw [h0]
        decide
      · rw [h0]
        exact BitVec.zero_and
    · have hparse : parseFlags val = some f := by
        unfold flagsOfLine at hline'
        dsimp only at hline'
        split at hline'
        · exact hline'
        · exact absurd hline'.symm (Option.some_ne_none _)
      have hnames := hflags hmode rem hr
      rw [hline, hline'] at hnames
      exact hd.names hsame hf (parseFlags_oneProtocol hparse) hnames

/-! ## 6. The end of a file -/

theorem reversed_protocol (flags : Flags) :
    (flags &&& ~~~REVERSE ||| COMPAT_REVERSE) &&& IR_PROTOCOL_MASK = flags &&& IR_PROTOCOL_MASK := by
  have h0 : ~~~REVERSE &&& IR_PROTOCOL_MASK = IR_PROTOCOL_MASK := by decide
  have h1 : COMPAT_REVERSE &&& IR_PROTOCOL_MASK = 0 := by decide
  rw [protocol_or, BitVec.and_assoc, h0, h1]
  exact BitVec.or_zero

theorem WellFormed.sameWords {rem rem' : ConfigRemote} (h : WellFormed rem)
    (hw : SameWords rem rem') : WellFormed rem' := by
  have hentries : rem'.entries = rem.entries := by
    unfold ConfigRemote.entries
    rw [hw.codes]
  have hraw : isRaw rem'.ir = isRaw rem.ir := by
    unfold isRaw WinLirc.protocol
    rw [hw.flags]
  refine ⟨?_, ?_, ?_, ?_, ?_, ?_, ?_⟩
  · exact hw.name ▸ h.name
  · exact hw.codes ▸ h.codes
  · exact hw.flags ▸ h.protocol
  · rw [hraw, hentries]
    exact h.raw
  · rw [hraw, hw.preData, hw.preDataBits]
    exact h.preData
  · rw [hraw, hw.postData, hw.postDataBits]
    exact h.postData
  · rw [hraw, hentries, hw.bits]
    exact h.words

theorem WellFormed.reverseCodes {rem rem' : ConfigRemote} (h : WellFormed rem)
    (hr : reverseCodes rem = some rem') : WellFormed rem' := by
  unfold WinLirc.reverseCodes at hr
  split at hr
  · next hrev =>
    rw [Bool.and_eq_true, Bool.not_eq_true'] at hrev
    split at hr
    · exact absurd hr.symm (Option.some_ne_none _)
    · next table htable =>
      injection hr with hr
      rw [← hr]
      have hp := reversed_protocol rem.ir.flags
      refine ⟨h.name, Option.some_ne_none _, h.protocol.congr hp, fun hraw => ?_,
        fun _ => ?_, fun _ => ?_, fun _ c hc => ?_⟩
      · -- the reversed remote is not raw either
        have hno := hrev.1
        unfold isRaw WinLirc.protocol at hraw hno
        dsimp only at hraw
        rw [hp, hno] at hraw
        exact absurd hraw Bool.false_ne_true
      · dsimp only
        split
        · exact InBits.reversed _ _
        · exact h.preData hrev.1
      · dsimp only
        split
        · exact InBits.reversed _ _
        · exact h.postData hrev.1
      · obtain ⟨c0, hc0, rfl⟩ := List.mem_map.mp hc
        refine ⟨InBits.reversed _ _, ?_⟩
        have hmem : c0 ∈ rem.entries := by
          unfold ConfigRemote.entries
          rw [htable]
          exact hc0
        exact (h.words hrev.1 c0 hmem).2
  · injection hr with hr
    exact hr ▸ h

theorem WellFormed.postProcess {rem rem' : ConfigRemote} (h : WellFormed rem)
    (hp : postProcess rem = some rem') : WellFormed rem' := by
  obtain ⟨x, hx, rfl⟩ := Option.map_eq_some_iff.mp hp
  exact (h.reverseCodes hx).sameWords (sameWords_settings x)

theorem wellFormed_postProcessAll {rems rems' : List ConfigRemote}
    (h : ∀ rem ∈ rems, WellFormed rem) (hp : postProcessAll rems = some rems') :
    ∀ rem ∈ rems', WellFormed rem := by
  induction rems generalizing rems' with
  | nil =>
    injection hp with hp
    exact hp ▸ h
  | cons rem rems ih =>
    rw [postProcessAll] at hp
    cases h1 : WinLirc.postProcess rem with
    | none =>
      rw [h1] at hp
      exact absurd hp.symm (Option.some_ne_none _)
    | some rem' =>
      rw [h1] at hp
      dsimp only at hp
      obtain ⟨xs, hxs, rfl⟩ := Option.map_eq_some_iff.mp hp
      refine List.forall_mem_cons.mpr ⟨(h rem List.mem_cons_self).postProcess h1, ?_⟩
      exact ih (fun r hr => h r (List.mem_cons_of_mem _ hr)) hxs

theorem wellFormed_finishFile {s : Parser} {r : ReadResult} (h : s.parseError = false → Shaped s)
    (hr : finishFile s = some r) : ∀ rem ∈ r.remotes, WellFormed rem := by
  unfold finishFile at hr
  cases hc : cleanUp s with
  | none =>
    rw [hc] at hr
    exact absurd hr.symm (Option.some_ne_none _)
  | some t =>
    rw [hc] at hr
    dsimp only at hr
    split at hr
    · injection hr with hr
      rw [← hr]
      exact fun _ hm => absurd hm List.not_mem_nil
    · next herr =>
      -- then no block is open
      have hmode : s.mode = .none ∧ t = s := by
        unfold cleanUp at hc
        cases hm : s.mode with
        | none =>
          rw [hm] at hc
          injection hc with hc
          exact ⟨rfl, hc.symm⟩
        | remote =>
          rw [hm] at hc
          injection hc with hc
          rw [← hc] at herr
          exact absurd rfl herr
        | _ =>
          rw [hm] at hc
          obtain ⟨rem, -, hc⟩ := Option.map_eq_some_iff.mp hc
          rw [← hc] at herr
          exact absurd rfl herr
      obtain ⟨hm, rfl⟩ := hmode
      have hs := h (Bool.eq_false_iff.mpr herr)
      obtain ⟨rems, hp, rfl⟩ := Option.map_eq_some_iff.mp hr
      have htop : ∀ rem ∈ t.topRem, WellFormed rem := by
        intro rem hmem
        unfold Parser.topRem at hmem
        rw [List.append_assoc] at hmem
        rcases List.mem_append.mp hmem with hmem | hmem
        · exact hs.done rem hmem
        · exact hs.closed hm rem hmem
      intro rem hmem
      exact wellFormed_postProcessAll htop hp rem ((perm_sortByBitCount rems).mem_iff.mp hmem)

/-! ## 7. `read_config` -/

/-- **A file whose lines are orderly** gives well-formed remotes. -/
theorem readConfigRecursive_wellFormed {fs : FileSystem} {levels : Nat} {name : Option (List Char)}
    {bufs : List (List Char)} {m : Memory} {r : ReadResult}
    (h : FileMeets Orderly LeavesWhole fs levels name bufs m)
    (hr : readConfigRecursive fs levels name bufs m = some r) :
    ∀ rem ∈ r.remotes, WellFormed rem := by
  induction levels generalizing name bufs m r with
  | zero =>
    obtain ⟨s, hs, hr⟩ := Option.bind_eq_some_iff.mp hr
    refine wellFormed_finishFile (fun herr => ?_) hr
    refine parseLines_meets (fun t toks t' ht hC hstep he => ?_) h (Shaped.init m) hs herr
    exact ht.step hC hstep he fun _ _ _ _ _ hf => absurd he (not_failed hf)
  | succ levels ih =>
    obtain ⟨s, hs, hr⟩ := Option.bind_eq_some_iff.mp hr
    refine wellFormed_finishFile (fun herr => ?_) hr
    refine parseLines_meets (fun t toks t' ht hC hstep he => ?_) h (Shaped.init m) hs herr
    obtain ⟨horder, hbelow⟩ := hC
    refine ht.step horder hstep he fun key val vals hline hkey => ?_
    rw [hline] at hbelow
    refine includeLine_cases (P := fun o => o = some t' → Shaped t')
      (fun hf => absurd he (not_failed hf)) (fun hsame => Option.some.inj hsame ▸ ht)
      fun path text hopen hinc => ?_
    obtain ⟨hleft, hfile⟩ := hbelow hkey path text hopen
    obtain ⟨r', hr', rfl⟩ := Option.map_eq_some_iff.mp hinc
    exact ht.included (ih hfile hr') hleft

/-- **The remotes of `read_config` are well-formed**, whatever the files: if the
    lines are orderly. -/
theorem readConfig_wellFormed (fs : FileSystem) (name : Option (List Char))
    (bufs : List (List Char)) (r : ReadResult)
    (h : FileMeets Orderly LeavesWhole fs (MAX_INCLUDES + 1) name bufs {})
    (hr : readConfig fs name bufs = some r) : ∀ rem ∈ r.remotes, WellFormed rem :=
  readConfigRecursive_wellFormed h hr

/-- The remote of `tvFile`. -/
theorem readConfig_wellFormed_tvFile :
    FileMeets Orderly LeavesWhole (fun _ => none) (MAX_INCLUDES + 1) none tvFile {} ∧
    ∃ r, readConfig (fun _ => none) none tvFile = some r ∧ r.remotes.length = 1 ∧
      ∀ rem ∈ r.remotes, WellFormed rem := by
  have h : FileMeets Orderly LeavesWhole (fun _ => none) (MAX_INCLUDES + 1) none tvFile {} := by
    decide +kernel
  have hlen : (readConfig (fun _ => none) none tvFile).map (fun r => r.remotes.length) =
      some 1 := by
    decide +kernel
  obtain ⟨r, hr, hone⟩ := Option.map_eq_some_iff.mp hlen
  exact ⟨h, r, hr, hone, readConfig_wellFormed _ _ _ r h hr⟩

/-- Two `flags` lines, each with a protocol. -/
def twoFlagsFile : List (List Char) :=
  fgetsAll [] ("begin remote\nname TV\nflags RC5\nflags SPACE_ENC\nbegin codes\n".toList ++
    "UP 0x01\nend codes\nend remote\n".toList)

theorem readConfig_twoProtocols : ∃ r, readConfig (fun _ => none) none twoFlagsFile = some r ∧
    r.parseError = false ∧ ∃ rem ∈ r.remotes, ¬ OneProtocol rem.ir.flags := by
  have h : (readConfig (fun _ => none) none twoFlagsFile).map (fun r =>
      (r.parseError, r.remotes.map fun rem => decide (OneProtocol rem.ir.flags))) =
        some (false, [false]) := by
    decide +kernel
  obtain ⟨r, hr, he⟩ := Option.map_eq_some_iff.mp h
  injection he with herr hone
  obtain ⟨rem, hmem, hno⟩ := List.mem_map.mp (hone ▸ List.mem_singleton.mpr rfl)
  exact ⟨r, hr, herr, rem, hmem, of_decide_eq_false hno⟩

end WinLirc
