/-
  File:      WinLirc/Durations.lean
  Subject:   winlirc/config.cpp: the durations and gaps of a remote block, and the
             signals of a raw code.

  Every such value goes through `strtoul` and becomes an int
  (`lineValues_read`). What is stored is the number of the file exactly if that
  is at least 0 and below `2 ^ 31` (`stored_exactly_iff`).
-/
import WinLirc.TextualInclude
import WinLirc.WellFormed

namespace WinLirc

/-! ## 1. Numbers -/

/-- The number that a text stands for, of any size and sign. -/
def written (val : List Char) : Option Int :=
  (strtoNumber val).bind fun x =>
    if x.2.2 = [] then some (if x.1 then -(x.2.1 : Int) else (x.2.1 : Int)) else none

/-- The number that the text stands for is not negative, and it is `stored`. -/
def Exact (val : List Char) (stored : Int) : Prop := written val = some stored ∧ 0 ≤ stored

/-- The number that the text stands for is a non-negative int. -/
def InRange (val : List Char) : Prop := ∃ n : Nat, written val = some (n : Int) ∧ n < 2 ^ 31

theorem toLircT_of_lt {n : Nat} (h : n < 2 ^ 31) : toLircT n = n := by
  unfold toLircT
  rw [Int.bmod_def]
  split <;> omega

theorem toLircT_lt (n : Nat) : toLircT n < 2 ^ 31 := by
  unfold toLircT
  rw [Int.bmod_def]
  split <;> omega

theorem sStrtolircT_eq (val : List Char) : sStrtolircT val = (sStrtoul val).map toLircT := by
  unfold sStrtolircT
  cases sStrtoul val <;> rfl

/-- What `s_strtoul` answers for the number written. -/
theorem sStrtoul_written {val : List Char} {m : Nat} (h : sStrtoul val = some m) :
    ∃ (negative : Bool) (n : Nat), written val = some (if negative then -(n : Int) else (n : Int)) ∧
      m = if n > ULONG_MAX then ULONG_MAX else if negative then (2 ^ 32 - n) % 2 ^ 32 else n := by
  unfold sStrtoul strtoul at h
  unfold written
  cases hn : strtoNumber val with
  | none =>
    -- then `endptr` is `val`
    rw [hn] at h
    dsimp only at h
    by_cases hval : val = []
    · rw [if_pos (.inl hval)] at h
      exact absurd h.symm (Option.some_ne_none _)
    · rw [if_pos (.inr hval)] at h
      exact absurd h.symm (Option.some_ne_none _)
  | some x =>
    obtain ⟨negative, n, s⟩ := x
    rw [hn] at h
    dsimp only at h
    split at h
    · exact absurd h.symm (Option.some_ne_none _)
    · next hend =>
      injection h with h
      have hs : s = [] := not_not.mp fun hs => hend (.inr hs)
      refine ⟨negative, n, ?_, h.symm⟩
      rw [Option.bind_some]
      exact if_pos hs

/-- **A value is stored exactly** if the number written is a non-negative int. -/
theorem exact_iff {val : List Char} {stored : Int} (h : sStrtolircT val = some stored) :
    Exact val stored ↔ InRange val := by
  rw [sStrtolircT_eq] at h
  obtain ⟨m, hm, rfl⟩ := Option.map_eq_some_iff.mp h
  obtain ⟨negative, n, hw, hvalue⟩ := sStrtoul_written hm
  have hlt := toLircT_lt m
  constructor
  · rintro ⟨heq, hpos⟩
    refine ⟨(toLircT m).toNat, ?_, by omega⟩
    rw [heq, Int.toNat_of_nonneg hpos]
  · rintro ⟨k, hk, hk31⟩
    have hmk : m = k := by
      have hnum := Option.some.inj (hw.symm.trans hk)
      have hmax : ULONG_MAX = 2 ^ 32 - 1 := rfl
      rw [hvalue]
      cases negative with
      | true =>
        rw [if_pos rfl] at hnum
        rw [if_neg (by omega), if_pos rfl]
        omega
      | false =>
        rw [if_neg Bool.false_ne_true] at hnum
        rw [if_neg (by omega), if_neg Bool.false_ne_true]
        omega
    rw [hmk, toLircT_of_lt hk31]
    exact ⟨hk, by omega⟩

/-! ## 2. The lines of a remote block -/

/-- The fields that a duration or a gap is stored in, by the key of its line. -/
def durationFields : List (String × List (IrRemote → Int)) :=
  [("plead", [IrRemote.plead]), ("ptrail", [IrRemote.ptrail]),
    ("gap", [IrRemote.gap, IrRemote.gap2]), ("repeat_gap", [IrRemote.repeatGap]),
    ("header", [IrRemote.phead, IrRemote.shead]), ("three", [IrRemote.pthree, IrRemote.sthree]),
    ("two", [IrRemote.ptwo, IrRemote.stwo]), ("one", [IrRemote.pone, IrRemote.sone]),
    ("zero", [IrRemote.pzero, IrRemote.szero]), ("foot", [IrRemote.pfoot, IrRemote.sfoot]),
    ("repeat", [IrRemote.prepeat, IrRemote.srepeat]), ("pre", [IrRemote.preP, IrRemote.preS]),
    ("post", [IrRemote.postP, IrRemote.postS])]

def fieldsOf (key : List Char) : List (IrRemote → Int) :=
  ((durationFields.find? fun f => strcasecmp f.1.toList key).map Prod.snd).getD []

/-- The setting stores its values in these fields, and in no other way. -/
def Setting.Stores : Setting → List (IrRemote → Int) → Prop
  | .duration set, fields => ∃ f, fields = [f] ∧ ∀ n rem, f (set n rem).ir = n
  | .durations set, fields =>
    ∃ f g, fields = [f, g] ∧ ∀ p s rem, f (set p s rem).ir = p ∧ g (set p s rem).ir = s
  | .gap, fields => fields = [IrRemote.gap, IrRemote.gap2]
  | .repeatGap, fields => fields = [IrRemote.repeatGap]
  | _, fields => fields = []

theorem settings_store : ∀ s ∈ settings, s.2.Stores (fieldsOf s.1.toList) := by
  simp only [settings, List.forall_mem_cons, List.not_mem_nil, false_implies, implies_true]
  and_intros
  all_goals first
    | exact trivial
    | exact rfl
    | exact ⟨_, rfl, fun _ _ => rfl⟩
    | exact ⟨_, _, rfl, fun _ _ _ => ⟨rfl, rfl⟩⟩

theorem fieldsOf_congr {a key : List Char} (h : strcasecmp a key = true) :
    fieldsOf key = fieldsOf a := by
  have hlower : key.map Char.toLower = a.map Char.toLower := (eq_of_beq h).symm
  unfold fieldsOf strcasecmp
  rw [hlower]

theorem stores_settingOf {key : List Char} {s : Setting} (h : settingOf key = some s) :
    s.Stores (fieldsOf key) := by
  unfold settingOf at h
  obtain ⟨e, he, rfl⟩ := Option.map_eq_some_iff.mp h
  have hkey : strcasecmp e.1.toList key = true := by
    have hfound := List.find?_some he
    exact hfound
  rw [fieldsOf_congr hkey]
  exact settings_store e (List.mem_of_find?_eq_some he)

/-- A key that is none of `defineRemote` has no fields. -/
theorem fieldsOf_isKey {key : List Char} (name : String) (h : isKey name key = true)
    (hname : fieldsOf name.toList = []) : fieldsOf key = [] :=
  (fieldsOf_congr h).trans hname

theorem sStrtoul_getD {val : List Char} (h : (sStrtoul val).isNone = false) :
    sStrtolircT val = some (toLircT ((sStrtoul val).getD 0)) := by
  rw [sStrtolircT_eq]
  cases hv : sStrtoul val with
  | none =>
    rw [hv] at h
    exact absurd h.symm Bool.false_ne_true
  | some m => rfl

theorem sStrtolircT_getD {val : List Char} (h : (sStrtolircT val).isNone = false) :
    sStrtolircT val = some ((sStrtolircT val).getD 0) := by
  cases hv : sStrtolircT val with
  | none =>
    rw [hv] at h
    exact absurd h.symm Bool.false_ne_true
  | some m => rfl

theorem onIr_gaps (gap : Int) (gap2 : IrRemote → Int) (rem : ConfigRemote) :
    (onIr (fun r => { r with gap := gap, gap2 := gap2 r }) rem).ir.gap = gap ∧
      (onIr (fun r => { r with gap := gap, gap2 := gap2 r }) rem).ir.gap2 = gap2 rem.ir :=
  ⟨rfl, rfl⟩

theorem gap_apply (val : List Char) (val2 : Option (List Char)) (rem : ConfigRemote) :
    (Setting.gap.apply val val2 rem).1.ir.gap = toLircT ((sStrtoul val).getD 0) ∧
      (Setting.gap.apply val val2 rem).1.ir.gap2 =
        val2.elim rem.ir.gap2 fun v => toLircT ((sStrtoul v).getD 0) := by
  have h : (Setting.gap.apply val val2 rem).1 = onIr (fun r =>
      { r with
        gap := toLircT ((sStrtoul val).getD 0)
        gap2 := val2.elim r.gap2 fun v => toLircT ((sStrtoul v).getD 0) }) rem := rfl
  rw [h]
  exact onIr_gaps _ (fun r => val2.elim r.gap2 fun v => toLircT ((sStrtoul v).getD 0)) rem

theorem repeatGap_apply (val : List Char) (val2 : Option (List Char)) (rem : ConfigRemote) :
    (Setting.repeatGap.apply val val2 rem).1.ir.repeatGap = toLircT ((sStrtoul val).getD 0) := by
  unfold Setting.apply onIr
  generalize toLircT ((sStrtoul val).getD 0) = t
  rfl

/-- **What a setting stores** is what `s_strtolirc_t` makes of its values. -/
theorem Setting.apply_reads {s : Setting} {fields : List (IrRemote → Int)} (h : s.Stores fields)
    {val : List Char} {vals : List (List Char)} {rem : ConfigRemote}
    (herr : (s.apply val vals.head? rem).2 = false) :
    ∀ p ∈ (val :: vals).zip (fields.map fun f => f (s.apply val vals.head? rem).1.ir),
      sStrtolircT p.1 = some p.2 := by
  cases s with
  | duration set =>
    obtain ⟨f, rfl, hf⟩ := h
    intro p hp
    rw [List.map_singleton, List.zip_cons_cons, List.zip_nil_right] at hp
    rw [List.mem_singleton.mp hp]
    exact (sStrtolircT_getD herr).trans (congrArg some (hf _ rem).symm)
  | durations set =>
    obtain ⟨f, g, rfl, hfg⟩ := h
    cases vals with
    | nil => exact absurd herr.symm Bool.false_ne_true
    | cons val2 vals =>
      obtain ⟨h1, h2⟩ := Bool.or_eq_false_iff.mp herr
      obtain ⟨hf, hg⟩ := hfg ((sStrtolircT val).getD 0) ((sStrtolircT val2).getD 0) rem
      intro p hp
      rw [List.map_cons, List.map_singleton, List.zip_cons_cons, List.zip_cons_cons,
        List.zip_nil_right] at hp
      rcases List.mem_cons.mp hp with rfl | hp
      · exact (sStrtolircT_getD h1).trans (congrArg some hf.symm)
      · rw [List.mem_singleton.mp hp]
        exact (sStrtolircT_getD h2).trans (congrArg some hg.symm)
  | gap =>
    obtain rfl := h
    obtain ⟨h1, h2⟩ := Bool.or_eq_false_iff.mp herr
    intro p hp
    rw [List.map_cons, List.map_singleton, List.zip_cons_cons] at hp
    rcases List.mem_cons.mp hp with rfl | hp
    · dsimp only
      rw [(gap_apply val vals.head? rem).1]
      exact sStrtoul_getD h1
    · cases vals with
      | nil => exact absurd hp List.not_mem_nil
      | cons val2 vals =>
        rw [List.zip_cons_cons, List.zip_nil_right] at hp
        rw [List.mem_singleton.mp hp]
        dsimp only
        rw [(gap_apply val (val2 :: vals).head? rem).2, List.head?_cons, Option.elim_some]
        exact sStrtoul_getD h2
  | repeatGap =>
    obtain rfl := h
    intro p hp
    rw [List.map_singleton, List.zip_cons_cons, List.zip_nil_right] at hp
    rw [List.mem_singleton.mp hp]
    dsimp only
    rw [repeatGap_apply]
    exact sStrtoul_getD herr
  | _ =>
    obtain rfl := h
    intro p hp
    exact absurd hp List.not_mem_nil

/-! ## 3. All values of a line -/

/-- A line of a raw code, all of whose tokens are signals. -/
def isSignalLine : List (List Char) → Bool
  | [] => false
  | [_] => true
  | key :: _ :: _ =>
    !(isKey "include" key || isKey "begin" key || isKey "end" key || isKey "name" key)

/-- The durations, gaps and signals of a line, each with the value that is
    stored for it; `s'` is the state behind the line. -/
def lineValues (s s' : Parser) (toks : List (List Char)) : List (List Char × Int) :=
  match s.mode, toks, s'.rem with
  | .remote, key :: vals, some rem => vals.zip ((fieldsOf key).map fun f => f rem.ir)
  | .rawName, toks, _ =>
    if isSignalLine toks then toks.zip (s'.signals.2.drop s.signals.2.length) else []
  | _, _, _ => []

theorem addSignals_reads {vals : List (List Char)} {s : Parser}
    (herr : (addSignals vals s).parseError = false) :
    ∃ ts, (addSignals vals s).signals.2 = s.signals.2 ++ ts ∧
      List.Forall₂ (fun val t => sStrtolircT val = some t) vals ts := by
  induction vals generalizing s with
  | nil => exact ⟨[], (List.append_nil _).symm, .nil⟩
  | cons val vals ih =>
    rw [addSignals] at herr ⊢
    cases hval : sStrtolircT val with
    | none =>
      rw [hval] at herr
      exact absurd herr.symm Bool.false_ne_true
    | some t =>
      rw [hval] at herr
      obtain ⟨ts, hts, hall⟩ := ih herr
      refine ⟨t :: ts, ?_, .cons hval hall⟩
      change (addSignals vals _).signals.2 = _
      rw [hts, List.append_assoc]
      rfl

theorem parseTokens_signals {incl : List Char → Parser → Option Parser} {s : Parser}
    {toks : List (List Char)} (hmode : s.mode = .rawName) (hline : isSignalLine toks = true) :
    parseTokens incl toks s = some (addSignals toks s) := by
  cases toks with
  | nil => exact absurd hline Bool.false_ne_true
  | cons key toks =>
    cases toks with
    | nil =>
      unfold parseTokens
      dsimp only
      rw [if_pos hmode]
    | cons val vals =>
      unfold isSignalLine at hline
      rw [Bool.not_eq_true', Bool.or_eq_false_iff, Bool.or_eq_false_iff,
        Bool.or_eq_false_iff] at hline
      obtain ⟨⟨⟨hincl, hbegin⟩, hend⟩, hname⟩ := hline
      unfold parseTokens sectionLine
      dsimp only
      rw [hincl, hbegin, hend, hmode]
      dsimp only
      rw [hname, if_neg Bool.false_ne_true, if_neg Bool.false_ne_true,
        if_neg Bool.false_ne_true, if_neg Bool.false_ne_true, if_neg Directive.noConfusion]

/-- The values of a line of a remote block. -/
theorem remoteLine_read {incl : List Char → Parser → Option Parser} {s s' : Parser}
    {key : List Char} {vals : List (List Char)} {rem' : ConfigRemote} (hmode : s.mode = .remote)
    (hstep : parseTokens incl (key :: vals) s = some s') (herr : s'.parseError = false)
    (hrem' : s'.rem = some rem') :
    ∀ p ∈ vals.zip ((fieldsOf key).map fun f => f rem'.ir), sStrtolircT p.1 = some p.2 := by
  -- the keys that are not for `defineRemote`
  have hno : ∀ name : String, isKey name key = true → fieldsOf name.toList = [] →
      ∀ p ∈ vals.zip ((fieldsOf key).map fun f => f rem'.ir), sStrtolircT p.1 = some p.2 := by
    intro name hkey hname p hp
    rw [fieldsOf_isKey name hkey hname, List.map_nil, List.zip_nil_right] at hp
    exact absurd hp List.not_mem_nil
  cases vals with
  | nil => exact fun p hp => absurd hp List.not_mem_nil
  | cons val vals =>
    unfold parseTokens at hstep
    dsimp only at hstep
    by_cases hincl : isKey "include" key = true
    · exact hno "include" hincl rfl
    · by_cases hbegin : isKey "begin" key = true
      · exact hno "begin" hbegin rfl
      · by_cases hend : isKey "end" key = true
        · exact hno "end" hend rfl
        · rw [if_neg hincl, if_neg hbegin, if_neg hend, sectionLine, hmode] at hstep
          dsimp only at hstep
          split at hstep
          · exact absurd hstep.symm (Option.some_ne_none _)
          · next rem hrem =>
            injection hstep with hstep
            rw [← hstep] at herr hrem'
            injection hrem' with hrem'
            rw [← hrem']
            unfold defineRemote at herr ⊢
            cases hs : settingOf key with
            | none =>
              rw [hs] at herr
              exact absurd herr.symm Bool.false_ne_true
            | some setting =>
              rw [hs] at herr
              have hstores := stores_settingOf hs
              cases setting with
              | name =>
                have hnil : fieldsOf key = [] := hstores
                rw [hnil]
                exact fun p hp => absurd hp List.not_mem_nil
              | _ => exact Setting.apply_reads hstores herr

/-- **What a line stores** is what `s_strtolirc_t` makes of its values. -/
theorem lineValues_read {incl : List Char → Parser → Option Parser} {s s' : Parser}
    {toks : List (List Char)} (hstep : parseTokens incl toks s = some s')
    (herr : s'.parseError = false) : ∀ p ∈ lineValues s s' toks, sStrtolircT p.1 = some p.2 := by
  unfold lineValues
  cases hmode : s.mode with
  | remote =>
    cases toks with
    | nil => exact fun p hp => absurd hp List.not_mem_nil
    | cons key vals =>
      cases hrem : s'.rem with
      | none => exact fun p hp => absurd hp List.not_mem_nil
      | some rem => exact remoteLine_read hmode hstep herr hrem
  | rawName =>
    dsimp only
    by_cases hline : isSignalLine toks = true
    · rw [if_pos hline]
      have hsignals : s' = addSignals toks s :=
        Option.some.inj (hstep.symm.trans (parseTokens_signals hmode hline))
      rw [hsignals] at herr ⊢
      obtain ⟨ts, hts, hall⟩ := addSignals_reads herr
      rw [hts, List.drop_left]
      exact fun p hp => (List.forall₂_iff_zip.mp hall).2 hp
    · rw [if_neg hline]
      exact fun p hp => absurd hp List.not_mem_nil
  | _ => exact fun p hp => absurd hp List.not_mem_nil

/-- **What is stored** for a duration, a gap or a signal is the number of the
    file exactly if that is a non-negative int. -/
theorem stored_exactly_iff (incl : List Char → Parser → Option Parser) (s s' : Parser)
    (toks : List (List Char)) (hstep : parseTokens incl toks s = some s')
    (herr : s'.parseError = false) (val : List Char) (stored : Int)
    (hmem : (val, stored) ∈ lineValues s s' toks) : Exact val stored ↔ InRange val :=
  exact_iff (lineValues_read hstep herr (val, stored) hmem)

/-- A remote block, open. -/
def openBlock (r : IrRemote) : Parser := { mode := .remote, rem := some { ir := r } }

theorem stored_exactly_iff_gap : Exact "108000".toList 108000 := by
  have hstep : parseTokens (fun _ s => some s) ["gap".toList, "108000".toList] (openBlock {}) =
      some (openBlock { gap := 108000 }) := by
    decide +kernel
  have hmem : ("108000".toList, 108000) ∈ lineValues (openBlock {}) (openBlock { gap := 108000 })
      ["gap".toList, "108000".toList] := by
    decide +kernel
  have hwritten : written "108000".toList = some ((108000 : Nat) : Int) := by decide +kernel
  exact (stored_exactly_iff _ _ _ _ hstep rfl _ _ hmem).mpr ⟨108000, hwritten, by decide⟩

/-- A gap of more than 2147483647 microseconds, and negative signals. -/
theorem stored_negative :
    (parseTokens (fun _ s => some s) ["gap".toList, "3000000000".toList] (openBlock {}) =
        some (openBlock { gap := -1294967296 }) ∧
      written "3000000000".toList = some 3000000000) ∧
    parseTokens (fun _ s => some s) ["header".toList, "4294967296".toList, "-500".toList]
        (openBlock {}) = some (openBlock { phead := -1, shead := -500 }) ∧
      written "4294967296".toList = some 4294967296 ∧ written "-500".toList = some (-500) := by
  decide +kernel

end WinLirc
