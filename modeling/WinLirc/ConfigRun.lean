/-
  File:      WinLirc/ConfigRun.lean
  Subject:   What a line does to the parser, and rules for whole files.

  `parseTokens_effect` lists the effects of a line once; every invariant of the
  parser is proved from it. `FileMeets` says that the lines of a file, and of
  the files it includes, meet a condition on the state they find.
-/
import WinLirc.ReadConfig

namespace WinLirc

/-! ## 1. The effect of a line -/

def isInclude : List (List Char) → Bool
  | key :: _ :: _ => isKey "include" key
  | _ => false

def isBeginOf (part : String) : List (List Char) → Bool
  | key :: val :: _ => isKey "begin" key && isKey part val
  | _ => false

/-- `end codes`, `end raw_codes` or `end remote`. -/
def isEndOf (part : String) : List (List Char) → Bool
  | key :: val :: _ => isKey "end" key && isKey part val
  | _ => false

/-- What a line with the tokens `toks` does to the state `s`. -/
inductive LineEffect (incl : List Char → Parser → Option Parser) (s : Parser)
    (toks : List (List Char)) : Option Parser → Prop
  | skip : LineEffect incl s toks (some s)
  | fail : LineEffect incl s toks (some s.fail)
  | signals (vals) (mode : s.mode = .rawName) : LineEffect incl s toks (some (addSignals vals s))
  | include (key val vals) (line : toks = key :: val :: vals) (isKey : isKey "include" key = true) :
      LineEffect incl s toks (incl val s)
  | beginCodes : LineEffect incl s toks (beginCodes s)
  | beginRawCodes : LineEffect incl s toks (beginRawCodes s)
  | beginRemote : LineEffect incl s toks (some (beginRemote s))
  | endCodes (isEnd : isEndOf "codes" toks = true) : LineEffect incl s toks (endCodes s)
  | endRawCodes : LineEffect incl s toks (endRawCodes s)
  | endRemote (isEnd : isEndOf "remote" toks = true) : LineEffect incl s toks (endRemote s)
  | code (key val vals) (mode : s.mode = .codes) :
      LineEffect incl s toks (some (defineCode key val vals s))
  | rawCode (val) (mode : s.mode = .rawCodes ∨ s.mode = .rawName) :
      LineEffect incl s toks (some (startRawCode val s))
  | setting (key val vals) (line : toks = key :: val :: vals) (mode : s.mode = .remote) :
      LineEffect incl s toks (sectionLine key val vals s)

theorem sectionLine_effect (incl : List Char → Parser → Option Parser) (s : Parser)
    (key val : List Char) (vals : List (List Char)) :
    LineEffect incl s (key :: val :: vals) (sectionLine key val vals s) := by
  cases hmode : s.mode with
  | remote => exact .setting key val vals rfl hmode
  | none =>
    have h : sectionLine key val vals s = some s := by simp only [sectionLine, hmode]
    rw [h]
    exact .skip
  | codes =>
    have h : sectionLine key val vals s = some (defineCode key val vals s) := by
      simp only [sectionLine, hmode]
    rw [h]
    exact .code key val vals hmode
  | rawCodes =>
    simp only [sectionLine, hmode]
    split
    · exact .rawCode val (Or.inl hmode)
    · exact .fail
  | rawName =>
    simp only [sectionLine, hmode]
    split
    · exact .rawCode val (Or.inr hmode)
    · exact .signals _ hmode

theorem otherSection_effect (incl : List Char → Parser → Option Parser) (s : Parser)
    (key val : List Char) (vals toks : List (List Char)) :
    LineEffect incl s toks (some (otherSection key val vals s)) := by
  unfold otherSection
  split
  · next hmode => exact .code key val vals hmode
  · exact .fail

/-- **Everything a line can do.** -/
theorem parseTokens_effect (incl : List Char → Parser → Option Parser)
    (toks : List (List Char)) (s : Parser) : LineEffect incl s toks (parseTokens incl toks s) := by
  unfold parseTokens
  match toks with
  | [] => exact .skip
  | [key] =>
    dsimp only
    split
    · next hmode => exact .signals [key] hmode
    · exact .fail
  | key :: val :: vals =>
    dsimp only
    split
    · next hinc => exact .include key val vals rfl hinc
    · split
      · split
        · exact .beginCodes
        · split
          · exact .beginRawCodes
          · split
            · exact .beginRemote
            · exact otherSection_effect incl s key val vals _
      · split
        · next hend =>
          split
          · next hcodes =>
            have h : isEndOf "codes" (key :: val :: vals) = true := by
              rw [isEndOf, hend, hcodes]
              rfl
            exact .endCodes h
          · split
            · exact .endRawCodes
            · split
              · next hremote =>
                have h : isEndOf "remote" (key :: val :: vals) = true := by
                  rw [isEndOf, hend, hremote]
                  rfl
                exact .endRemote h
              · exact otherSection_effect incl s key val vals _
        · exact sectionLine_effect incl s key val vals

/-! What the lines that open or close a section come to, unless they fail. -/

section Sections

variable {s s' : Parser}

theorem beginCodes_cases (h : beginCodes s = some s') :
    s' = s.fail ∨ s.mode = .remote ∧ ∃ rem, s.rem = some rem ∧ rem.codes = none ∧
      s' = { s with codesList := ⟨s.memory.alloc.1, []⟩, mode := .codes, memory := s.memory.alloc.2 } := by
  unfold beginCodes at h
  split at h
  · exact Or.inl (Option.some.inj h).symm
  · next hm =>
    split at h
    · exact absurd h.symm (Option.some_ne_none _)
    · next rem hr =>
      split at h
      · exact Or.inl (Option.some.inj h).symm
      · next hcodes =>
        have hnone := Option.not_isSome_iff_eq_none.mp hcodes
        exact Or.inr ⟨not_not.mp hm, rem, hr, hnone, (Option.some.inj h).symm⟩

theorem beginRawCodes_cases (h : beginRawCodes s = some s') :
    s' = s.fail ∨ s.mode = .remote ∧ ∃ rem, s.rem = some rem ∧ rem.codes = none ∧
      s' = { s with
        rem := some (onIr (setProtocol RAW_CODES) rem)
        rawCode := 0
        rawCodes := ⟨s.memory.alloc.1, []⟩
        mode := .rawCodes
        memory := s.memory.alloc.2 } := by
  unfold beginRawCodes at h
  split at h
  · exact Or.inl (Option.some.inj h).symm
  · next hm =>
    split at h
    · exact absurd h.symm (Option.some_ne_none _)
    · next rem hr =>
      split at h
      · exact Or.inl (Option.some.inj h).symm
      · next hcodes =>
        have hnone := Option.not_isSome_iff_eq_none.mp hcodes
        exact Or.inr ⟨not_not.mp hm, rem, hr, hnone, (Option.some.inj h).symm⟩

theorem beginRemote_cases (s : Parser) :
    beginRemote s = s.fail ∨ s.mode = .none ∧ beginRemote s =
      { s with mode := .remote, done := s.done ++ s.rem.toList, rem := some {}, after := [] } := by
  unfold beginRemote
  split
  · exact Or.inl rfl
  · next hm => exact Or.inr ⟨not_not.mp hm, rfl⟩

theorem endCodes_cases (h : endCodes s = some s') :
    s' = s.fail ∨ s.mode = .codes ∧ ∃ rem, s.rem = some rem ∧
      s' = { s with rem := some { rem with codes := some s.codesList }, mode := .remote } := by
  unfold endCodes at h
  split at h
  · exact Or.inl (Option.some.inj h).symm
  · next hm =>
    split at h
    · exact absurd h.symm (Option.some_ne_none _)
    · next rem hr => exact Or.inr ⟨not_not.mp hm, rem, hr, (Option.some.inj h).symm⟩

/-- The state in which `end raw_codes` looks at the mode. -/
def Parser.rawClosed (s : Parser) : Parser :=
  if s.mode = .rawName then { addRawCode s with mode := .rawCodes } else s

theorem endRawCodes_cases (h : endRawCodes s = some s') :
    s' = s.rawClosed.fail ∨ s.rawClosed.mode = .rawCodes ∧ ∃ rem, s.rawClosed.rem = some rem ∧
      s' = { s.rawClosed with
        rem := some { rem with codes := some s.rawClosed.rawCodes }, mode := .remote } := by
  unfold endRawCodes at h
  change (if s.rawClosed.mode ≠ .rawCodes then _ else _) = _ at h
  split at h
  · exact Or.inl (Option.some.inj h).symm
  · next hm =>
    split at h
    · exact absurd h.symm (Option.some_ne_none _)
    · next rem hr => exact Or.inr ⟨not_not.mp hm, rem, hr, (Option.some.inj h).symm⟩

theorem endRemote_cases (h : endRemote s = some s') :
    s' = s.fail ∨ s.mode = .remote ∧ ∃ rem rem', s.rem = some rem ∧
      sanityChecks rem = some (true, rem') ∧
      s' = { s with rem := some rem', after := [], mode := .none } := by
  unfold endRemote at h
  split at h
  · exact Or.inl (Option.some.inj h).symm
  · next hm =>
    split at h
    · exact absurd h.symm (Option.some_ne_none _)
    · next rem hr =>
      split at h
      · exact absurd h.symm (Option.some_ne_none _)
      · exact Or.inl (Option.some.inj h).symm
      · next rem' hs => exact Or.inr ⟨not_not.mp hm, rem, rem', hr, hs, (Option.some.inj h).symm⟩

/-- A line that sets a field of the open remote. -/
theorem sectionLine_remote {key val : List Char} {vals : List (List Char)} (hmode : s.mode = .remote)
    (h : sectionLine key val vals s = some s') :
    ∃ rem, s.rem = some rem ∧
      s' = { s with
        mode := .remote
        rem := some (defineRemote key val vals.head? rem s.memory).1
        memory := (defineRemote key val vals.head? rem s.memory).2.1
        parseError := (defineRemote key val vals.head? rem s.memory).2.2 } := by
  unfold sectionLine at h
  rw [hmode] at h
  dsimp only at h
  split at h
  · exact absurd h.symm (Option.some_ne_none _)
  · next rem hr => exact ⟨rem, hr, (Option.some.inj h).symm⟩

end Sections

/-- **The same line in two states of one mode** has the same effect. -/
theorem parseTokens_pair {incl incl' : List Char → Parser → Option Parser} {s t : Parser}
    {toks : List (List Char)} {P : Option Parser → Option Parser → Prop}
    (hmode : t.mode = s.mode) (hno : isInclude toks = false)
    (skip : isBeginOf "remote" toks = false → P (some s) (some t))
    (fail : P (some s.fail) (some t.fail))
    (signals : ∀ vals, s.mode = .rawName → P (some (addSignals vals s)) (some (addSignals vals t)))
    (beginCodes : P (beginCodes s) (beginCodes t))
    (beginRawCodes : P (beginRawCodes s) (beginRawCodes t))
    (beginRemote : isBeginOf "remote" toks = true →
      P (some (beginRemote s)) (some (beginRemote t)))
    (endCodes : P (endCodes s) (endCodes t)) (endRawCodes : P (endRawCodes s) (endRawCodes t))
    (endRemote : P (endRemote s) (endRemote t))
    (code : ∀ key val vals, s.mode = .codes →
      P (some (defineCode key val vals s)) (some (defineCode key val vals t)))
    (rawCode : ∀ val, s.mode = .rawCodes ∨ s.mode = .rawName →
      P (some (startRawCode val s)) (some (startRawCode val t)))
    (setting : ∀ key val vals, s.mode = .remote →
      P (sectionLine key val vals s) (sectionLine key val vals t)) :
    P (parseTokens incl toks s) (parseTokens incl' toks t) := by
  have hother : ∀ key val vals,
      P (some (otherSection key val vals s)) (some (otherSection key val vals t)) := by
    intro key val vals
    unfold otherSection
    rw [hmode]
    split
    · next hm => exact code key val vals hm
    · exact fail
  unfold parseTokens
  match toks with
  | [] => exact skip rfl
  | [key] =>
    dsimp only
    rw [hmode]
    split
    · next hm => exact signals [key] hm
    · exact fail
  | key :: val :: vals =>
    dsimp only
    split
    · next hinc => exact absurd (hno.symm.trans hinc) Bool.false_ne_true
    · split
      · next hbegin =>
        split
        · exact beginCodes
        · split
          · exact beginRawCodes
          · split
            · next hremote =>
              refine beginRemote ?_
              rw [isBeginOf, hbegin, hremote]
              rfl
            · exact hother key val vals
      · next hbegin =>
        split
        · split
          · exact endCodes
          · split
            · exact endRawCodes
            · split
              · exact endRemote
              · exact hother key val vals
        · -- a line of the section
          have hskip : isBeginOf "remote" (key :: val :: vals) = false := by
            rw [isBeginOf, Bool.eq_false_iff.mpr hbegin]
            rfl
          cases hm : s.mode with
          | remote => exact setting key val vals hm
          | none =>
            simp only [sectionLine, hmode, hm]
            exact skip hskip
          | codes =>
            simp only [sectionLine, hmode, hm]
            exact code key val vals hm
          | rawCodes =>
            simp only [sectionLine, hmode, hm]
            split
            · exact rawCode val (Or.inl hm)
            · exact fail
          | rawName =>
            simp only [sectionLine, hmode, hm]
            split
            · exact rawCode val (Or.inr hm)
            · exact signals _ hm

/-! ## 2. Rules for lines -/

instance decidableForallSome {α : Type} {P : α → Prop} [DecidablePred P] (o : Option α) :
    Decidable (∀ x, o = some x → P x) :=
  match o with
  | none => isTrue fun _ h => absurd h.symm (Option.some_ne_none _)
  | some x => decidable_of_iff (P x) ⟨fun h _ he => Option.some.inj he ▸ h, fun h => h x rfl⟩

/-- The lines `bufs`, read from `s` on, meet the condition `C`. -/
def LinesMeet (C : Parser → List (List Char) → Prop) (incl : List Char → Parser → Option Parser) :
    List (List Char) → Parser → Prop
  | [], _ => True
  | buf :: bufs, s =>
    C s (tokens buf) ∧ ∀ s', parseTokens incl (tokens buf) s = some s' → s'.parseError = false →
      LinesMeet C incl bufs s'

instance LinesMeet.decidable {C : Parser → List (List Char) → Prop}
    [∀ s toks, Decidable (C s toks)] (incl : List Char → Parser → Option Parser) :
    ∀ bufs s, Decidable (LinesMeet C incl bufs s)
  | [], _ => isTrue trivial
  | buf :: bufs, s =>
    match h : parseTokens incl (tokens buf) s with
    | none =>
      decidable_of_iff (C s (tokens buf))
        ⟨fun hC => ⟨hC, fun _ h' => absurd (h.symm.trans h').symm (Option.some_ne_none _)⟩,
          fun hm => hm.1⟩
    | some s1 =>
      have := LinesMeet.decidable (C := C) incl bufs s1
      decidable_of_iff (C s (tokens buf) ∧ (s1.parseError = false → LinesMeet C incl bufs s1))
        ⟨fun hm => ⟨hm.1, fun _ h' => Option.some.inj (h.symm.trans h') ▸ hm.2⟩,
          fun hm => ⟨hm.1, hm.2 s1 h⟩⟩

theorem parseLines_append (incl : List Char → Parser → Option Parser)
    (bufs bufs' : List (List Char)) (s : Parser) {s' : Parser}
    (h : parseLines incl bufs s = some s') (herr : s'.parseError = false) :
    parseLines incl (bufs ++ bufs') s = parseLines incl bufs' s' := by
  induction bufs generalizing s with
  | nil =>
    injection h with h
    rw [h]
    rfl
  | cons buf bufs ih =>
    rw [parseLines] at h
    rw [List.cons_append, parseLines]
    cases hstep : parseTokens incl (tokens buf) s with
    | none =>
      rw [hstep] at h
      exact absurd h.symm (Option.some_ne_none _)
    | some s1 =>
      rw [hstep] at h
      dsimp only at h ⊢
      cases h1 : s1.parseError with
      | true =>
        rw [h1, if_pos rfl] at h
        injection h with h
        rw [h] at h1
        exact absurd (herr.symm.trans h1) Bool.false_ne_true
      | false =>
        rw [h1, if_neg Bool.false_ne_true] at h
        rw [if_neg Bool.false_ne_true]
        exact ih s1 h

/-- **An invariant of a run**, where it also lets the next line be read. -/
theorem parseLines_total {C : Parser → List (List Char) → Prop}
    {incl : List Char → Parser → Option Parser} {I : Parser → Prop}
    (step : ∀ s toks, I s → C s toks → ∃ s', parseTokens incl toks s = some s' ∧ I s')
    {bufs : List (List Char)} {s : Parser} (h : LinesMeet C incl bufs s) (hs : I s) :
    ∃ s', parseLines incl bufs s = some s' ∧ I s' := by
  induction bufs generalizing s with
  | nil => exact ⟨s, rfl, hs⟩
  | cons buf bufs ih =>
    obtain ⟨hC, hrest⟩ := h
    obtain ⟨s', hstep, hs'⟩ := step s (tokens buf) hs hC
    rw [parseLines, hstep]
    dsimp only
    cases herr : s'.parseError with
    | true => exact ⟨s', rfl, hs'⟩
    | false => exact ih (hrest s' hstep herr) hs'

/-- **A run without an error** goes on behind its first line. -/
theorem parseLines_ok {incl : List Char → Parser → Option Parser} {buf : List Char}
    {bufs : List (List Char)} {s s' : Parser} (hrun : parseLines incl (buf :: bufs) s = some s')
    (herr : s'.parseError = false) :
    ∃ s1, parseTokens incl (tokens buf) s = some s1 ∧ s1.parseError = false ∧
      parseLines incl bufs s1 = some s' := by
  rw [parseLines] at hrun
  cases hstep : parseTokens incl (tokens buf) s with
  | none =>
    rw [hstep] at hrun
    exact absurd hrun.symm (Option.some_ne_none _)
  | some s1 =>
    rw [hstep] at hrun
    dsimp only at hrun
    cases h1 : s1.parseError with
    | true =>
      rw [h1, if_pos rfl] at hrun
      injection hrun with hrun
      rw [hrun] at h1
      exact absurd (herr.symm.trans h1) Bool.false_ne_true
    | false =>
      rw [h1, if_neg Bool.false_ne_true] at hrun
      exact ⟨s1, rfl, h1, hrun⟩

/-- An invariant of a run that ends, where it needs the condition. -/
theorem parseLines_meets {C : Parser → List (List Char) → Prop}
    {incl : List Char → Parser → Option Parser} {I : Parser → Prop}
    (step : ∀ s toks s', I s → C s toks → parseTokens incl toks s = some s' →
      s'.parseError = false → I s')
    {bufs : List (List Char)} {s s' : Parser} (h : LinesMeet C incl bufs s) (hs : I s)
    (hrun : parseLines incl bufs s = some s') (herr : s'.parseError = false) : I s' := by
  induction bufs generalizing s with
  | nil =>
    injection hrun with hrun
    exact hrun ▸ hs
  | cons buf bufs ih =>
    obtain ⟨hC, hrest⟩ := h
    obtain ⟨s1, hstep, h1, hrun⟩ := parseLines_ok hrun herr
    exact ih (hrest s1 hstep h1) (step s (tokens buf) s1 hs hC hstep h1) hrun

/-- An invariant of a run that ends. -/
theorem parseLines_invariant {incl : List Char → Parser → Option Parser} {I : Parser → Prop}
    (step : ∀ s toks s', I s → parseTokens incl toks s = some s' → I s')
    {bufs : List (List Char)} {s s' : Parser} (h : parseLines incl bufs s = some s') (hs : I s) :
    I s' := by
  induction bufs generalizing s with
  | nil =>
    injection h with h
    exact h ▸ hs
  | cons buf bufs ih =>
    rw [parseLines] at h
    cases hstep : parseTokens incl (tokens buf) s with
    | none =>
      rw [hstep] at h
      exact absurd h.symm (Option.some_ne_none _)
    | some s1 =>
      rw [hstep] at h
      dsimp only at h
      have h1 := step s (tokens buf) s1 hs hstep
      cases herr : s1.parseError with
      | true =>
        rw [herr, if_pos rfl] at h
        injection h with h
        exact h ▸ h1
      | false =>
        rw [herr, if_neg Bool.false_ne_true] at h
        exact ih h h1

/-- What a line that includes a file has to find: the state meets `D`, the file
    meets `M`. -/
def BelowMeets (D : Parser → Prop) (M : Option (List Char) → List (List Char) → Memory → Prop)
    (fs : FileSystem) (name : Option (List Char)) (s : Parser) : List (List Char) → Prop
  | key :: val :: _ =>
    isKey "include" key = true → ∀ path text, openInclude fs name val = .file path text →
      D s ∧ M (some path) (fgetsAll [] text) s.memory
  | _ => True

/-- The lines of a file and of the files it includes meet the condition `C`, and
    `D` where another file is read. -/
def FileMeets (C : Parser → List (List Char) → Prop) (D : Parser → Prop) (fs : FileSystem) :
    Nat → Option (List Char) → List (List Char) → Memory → Prop
  | 0, _, bufs, m => LinesMeet C (fun _ s => some s.fail) bufs { memory := m }
  | levels + 1, name, bufs, m =>
    LinesMeet (fun s toks => C s toks ∧ BelowMeets D (FileMeets C D fs levels) fs name s toks)
      (includeLine fs (readConfigRecursive fs levels) name) bufs { memory := m }

instance BelowMeets.decidable {D : Parser → Prop} [DecidablePred D]
    {M : Option (List Char) → List (List Char) → Memory → Prop}
    [∀ name bufs m, Decidable (M name bufs m)] (fs : FileSystem) (name : Option (List Char))
    (s : Parser) : ∀ toks, Decidable (BelowMeets D M fs name s toks)
  | [] => isTrue trivial
  | [_] => isTrue trivial
  | _ :: val :: _ =>
    match h : openInclude fs name val with
    | .malformed => isTrue fun _ _ _ h' => Include.noConfusion (h.symm.trans h')
    | .missing => isTrue fun _ _ _ h' => Include.noConfusion (h.symm.trans h')
    | .file path text =>
      decidable_of_iff (_ → D s ∧ M (some path) (fgetsAll [] text) s.memory)
        ⟨fun hm hkey _ _ h' => by
          injection h.symm.trans h' with h1 h2
          exact h1 ▸ h2 ▸ hm hkey,
          fun hm hkey => hm hkey path text h⟩

instance FileMeets.decidable {C : Parser → List (List Char) → Prop}
    [∀ s toks, Decidable (C s toks)] {D : Parser → Prop} [DecidablePred D] (fs : FileSystem) :
    ∀ levels name bufs m, Decidable (FileMeets C D fs levels name bufs m)
  | 0, _, bufs, m => LinesMeet.decidable _ bufs { memory := m }
  | levels + 1, _, bufs, m =>
    have := FileMeets.decidable (C := C) (D := D) fs levels
    LinesMeet.decidable _ bufs { memory := m }

/-- What an `include` line does, case by case. -/
theorem includeLine_cases {fs : FileSystem} {read : Reader} {name : Option (List Char)}
    {val : List Char} {s : Parser} {P : Option Parser → Prop} (fail : P (some s.fail))
    (missing : P (some s))
    (file : ∀ path text, openInclude fs name val = .file path text →
      P ((read (some path) (fgetsAll [] text) s.memory).map s.included)) :
    P (includeLine fs read name val s) := by
  unfold includeLine
  cases h : openInclude fs name val with
  | malformed => exact fail
  | missing => exact missing
  | file path text => exact file path text h

end WinLirc
