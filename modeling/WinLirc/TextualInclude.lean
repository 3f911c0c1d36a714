/-
  File:      WinLirc/TextualInclude.lean
  Subject:   `include` against the text that it stands for.

  * Post-processing a second time changes nothing (`postProcess_again`), and
    sorting is stable, so the list of an included file may be processed and
    sorted early (`Alike`).
  * `expand` replaces the `include` lines of a file. The run over the expanded
    lines follows the run over the files (`Follows`), and counts what the
    latter loses (`Kept`).
-/
import WinLirc.Signal.StableSort
import WinLirc.ConfigSafety

namespace WinLirc

open Signal

/-! ## 1. Post-processing a second time -/

theorem reverseCodes_bitCount {rem rem' : ConfigRemote} (h : reverseCodes rem = some rem') :
    bitCount rem'.ir = bitCount rem.ir := by
  unfold reverseCodes at h
  split at h
  · split at h
    · exact absurd h.symm (Option.some_ne_none _)
    · injection h with h
      rw [← h]
      rfl
  · injection h with h
    rw [h]

theorem postProcess_bitCount {rem rem' : ConfigRemote} (h : postProcess rem = some rem') :
    bitCount rem'.ir = bitCount rem.ir := by
  obtain ⟨x, hx, rfl⟩ := Option.map_eq_some_iff.mp h
  have hw := sameWords_settings x
  rw [← reverseCodes_bitCount hx]
  unfold bitCount
  rw [hw.bits, hw.preDataBits, hw.postDataBits]

/-- Nothing is left to be turned around. -/
theorem reverseCodes_done {rem rem' : ConfigRemote} (h : reverseCodes rem = some rem') :
    (!isRaw rem'.ir && hasFlag rem'.ir REVERSE) = false := by
  unfold reverseCodes at h
  split at h
  · split at h
    · exact absurd h.symm (Option.some_ne_none _)
    · injection h with h
      have hflag : hasFlag rem'.ir REVERSE = false := by
        rw [← h]
        unfold hasFlag
        dsimp only
        rw [reversed_flags]
        rfl
      rw [hflag, Bool.and_false]
  · next hno =>
    injection h with h
    rw [← h]
    exact Bool.eq_false_iff.mpr hno

theorem setRc6Mask_idle {rem : ConfigRemote} (h : ¬ rem.toggleBit > 0) : setRc6Mask rem = rem :=
  if_neg fun hc => h hc.2.2

theorem setToggleBitMask_idle {rem : ConfigRemote} (h : ¬ rem.toggleBit > 0) :
    setToggleBitMask rem = rem := if_neg h

theorem toggleBit_setToggleBitMask (rem : ConfigRemote) :
    ¬ (setToggleBitMask rem).toggleBit > 0 := by
  unfold setToggleBitMask
  split
  · exact Int.lt_irrefl 0
  · next h => exact h

theorem toggleBit_setToggleState (rem : ConfigRemote) :
    (setToggleState rem).toggleBit = rem.toggleBit := by
  unfold setToggleState
  split
  · rfl
  · dsimp only
    split <;> rfl

/-- The length of a bit is set where it can be. -/
def BaudSet (r : IrRemote) : Prop :=
  r.baud > 0 → (r.pzero = 0 ∧ r.szero = 0 → ((1000000 / r.baud : Nat) : Int) = 0) ∧
    (r.pone = 0 ∧ r.sone = 0 → ((1000000 / r.baud : Nat) : Int) = 0)

theorem baudSet_setBaud (r : IrRemote) : BaudSet (setBaud r) := by
  unfold setBaud
  split
  · intro _
    dsimp only
    generalize ((1000000 / r.baud : Nat) : Int) = base
    constructor
    · intro ⟨h1, h2⟩
      by_cases hc : r.pzero = 0 ∧ r.szero = 0
      · rwa [if_pos hc] at h1
      · rw [if_neg hc] at h1
        exact absurd ⟨h1, h2⟩ hc
    · intro ⟨h1, h2⟩
      by_cases hc : r.pone = 0 ∧ r.sone = 0
      · rwa [if_pos hc] at h2
      · rw [if_neg hc] at h2
        exact absurd ⟨h1, h2⟩ hc
  · next h => exact fun hb => absurd hb h

theorem BaudSet.idle {r : IrRemote} (h : BaudSet r) : setBaud r = r := by
  unfold setBaud
  split
  · next hb =>
    obtain ⟨h1, h2⟩ := h hb
    dsimp only
    generalize ((1000000 / r.baud : Nat) : Int) = base at h1 h2
    have hz : (if r.pzero = 0 ∧ r.szero = 0 then base else r.pzero) = r.pzero := by
      split
      · next hc => rw [h1 hc, hc.1]
      · rfl
    have ho : (if r.pone = 0 ∧ r.sone = 0 then base else r.sone) = r.sone := by
      split
      · next hc => rw [h2 hc, hc.2]
      · rfl
    rw [hz, ho]
  · rfl

theorem setBitsInByte_idle {r : IrRemote} (h : r.bitsInByte ≠ 0) : setBitsInByte r = r := if_neg h

theorem bitsInByte_setBitsInByte (r : IrRemote) : (setBitsInByte r).bitsInByte ≠ 0 := by
  unfold setBitsInByte
  split
  · exact Nat.succ_ne_zero 7
  · next h => exact h

/-- A remote whose serial settings are made. -/
def SerialSet (r : IrRemote) : Prop := isSerial r = true → BaudSet r ∧ r.bitsInByte ≠ 0

theorem serialSet_setSerial (r : IrRemote) : SerialSet (setSerial r) := by
  unfold setSerial
  split
  · intro _
    refine ⟨?_, bitsInByte_setBitsInByte _⟩
    have h := baudSet_setBaud r
    unfold setBitsInByte
    split
    · exact h
    · exact h
  · next hno => exact fun h => absurd h hno

theorem SerialSet.idle {r : IrRemote} (h : SerialSet r) : setSerial r = r := by
  unfold setSerial
  split
  · next hs =>
    obtain ⟨h1, h2⟩ := h hs
    rw [h1.idle, setBitsInByte_idle h2]
  · rfl

theorem SerialSet.setMinCodeRepeat {r : IrRemote} (h : SerialSet r) :
    SerialSet (setMinCodeRepeat r) := by
  unfold WinLirc.setMinCodeRepeat
  split
  · exact h
  · exact h

theorem setMinCodeRepeat_again (r : IrRemote) :
    setMinCodeRepeat (setMinCodeRepeat r) = setMinCodeRepeat r := by
  by_cases hc : r.minCodeRepeat > 0 ∧
      (!hasRepeat r ∨ (r.minCodeRepeat : Int) > r.minRepeat % 2 ^ 32)
  · have h : setMinCodeRepeat r = { r with minCodeRepeat := 0 } := if_pos hc
    rw [h]
    exact if_neg fun h0 => absurd h0.1 (Nat.lt_irrefl 0)
  · have h : setMinCodeRepeat r = r := if_neg hc
    rw [h, h]

/-- The fields that `setToggleState` reads. -/
theorem setToggleState_again {x y : ConfigRemote} (hcodes : y.codes = (setToggleState x).codes)
    (hflags : y.ir.flags = (setToggleState x).ir.flags)
    (hmask : y.ir.toggleBitMask = (setToggleState x).ir.toggleBitMask)
    (hstate : y.ir.toggleBitMaskState = (setToggleState x).ir.toggleBitMaskState) :
    setToggleState y = y := by
  have hw := SameWords.setToggleState x
  have hmask' : (setToggleState x).ir.toggleBitMask = x.ir.toggleBitMask := by
    unfold setToggleState
    split
    · rfl
    · dsimp only
      split <;> rfl
  rw [hw.codes] at hcodes
  rw [hmask'] at hmask
  have hraw : isRaw y.ir = isRaw x.ir := by
    unfold isRaw protocol
    rw [hflags, hw.flags]
  have hhas : hasToggleBitMask y.ir = hasToggleBitMask x.ir := by
    unfold hasToggleBitMask
    rw [hmask]
  unfold setToggleState at hstate ⊢
  rw [hcodes]
  cases hx : x.codes with
  | none => rfl
  | some table =>
    rw [hx] at hstate
    dsimp only at hstate ⊢
    rw [hraw, hhas, hmask]
    by_cases hc : (hasToggleBitMask x.ir && !isRaw x.ir) = true
    · rw [if_pos hc] at hstate ⊢
      unfold onIr at hstate ⊢
      dsimp only at hstate ⊢
      rw [← hstate]
    · rw [if_neg hc]

/-- **Post-processing a second time changes nothing.** -/
theorem postProcess_again {rem rem' : ConfigRemote} (h : postProcess rem = some rem') :
    postProcess rem' = some rem' := by
  obtain ⟨x, hx, hrem'⟩ := Option.map_eq_some_iff.mp h
  have hw := sameWords_settings x
  rw [hrem'] at hw
  have hdone := reverseCodes_done hx
  have hrev : reverseCodes rem' = some rem' := by
    unfold reverseCodes
    refine if_neg ?_
    unfold isRaw protocol hasFlag at hdone ⊢
    rw [hw.flags, hdone]
    exact Bool.false_ne_true
  -- the steps behind it, one after the other
  have htoggle : ¬ rem'.toggleBit > 0 := by
    have he : rem'.toggleBit =
        (setToggleState (setToggleBitMask (setRc6Mask x))).toggleBit := by
      rw [← hrem']
      rfl
    rw [he, toggleBit_setToggleState]
    exact toggleBit_setToggleBitMask _
  have hstate : setToggleState rem' = rem' := by
    generalize hz : setToggleBitMask (setRc6Mask x) = z at hrem'
    have hws := (SameWords.setSerial (setToggleState z)).trans (SameWords.setMinCodeRepeat _)
    obtain ⟨hm1, hs1⟩ := setMinCodeRepeat_toggles (setSerial (setToggleState z).ir)
    obtain ⟨hm2, hs2⟩ := setSerial_toggles (setToggleState z).ir
    refine setToggleState_again (x := z) ?_ ?_ ?_ ?_
    · rw [← hrem']
      exact hws.codes
    · rw [← hrem']
      exact hws.flags
    · rw [← hrem']
      exact hm1.trans hm2
    · rw [← hrem']
      exact hs1.trans hs2
  have hir : setMinCodeRepeat (setSerial rem'.ir) = rem'.ir := by
    generalize setToggleState (setToggleBitMask (setRc6Mask x)) = z at hrem'
    have he : rem'.ir = setMinCodeRepeat (setSerial z.ir) := by
      rw [← hrem']
      rfl
    rw [he, (serialSet_setSerial z.ir).setMinCodeRepeat.idle, setMinCodeRepeat_again]
  unfold postProcess
  rw [hrev, Option.map_some, setRc6Mask_idle htoggle, setToggleBitMask_idle htoggle, hstate]
  unfold onIr
  dsimp only
  rw [hir]

/-! ## 2. Lists that are processed alike -/

def bitKey (rem : ConfigRemote) : Int := bitCount rem.ir

theorem insertByBitCount_eq (rem : ConfigRemote) (top : List ConfigRemote) :
    insertByBitCount rem top = insertByKey bitKey rem top := by
  induction top with
  | nil => rfl
  | cons scan top ih =>
    rw [insertByBitCount, insertByKey, ih]
    rfl

/-- `sort_by_bit_count` is the stable sort by the number of bits. -/
theorem sortByBitCount_eq (rems : List ConfigRemote) :
    sortByBitCount rems = sortByKey bitKey rems := by
  unfold sortByBitCount sortByKey
  congr 1
  funext top rem
  exact insertByBitCount_eq rem top

/-- For each number of bits, post-processing gives the same remotes in the same
    order. -/
def Alike (rems rems' : List ConfigRemote) : Prop :=
  ∀ k, (ofKey bitKey k rems).map postProcess = (ofKey bitKey k rems').map postProcess

theorem Alike.append {a a' b b' : List ConfigRemote} (h : Alike a a') (h' : Alike b b') :
    Alike (a ++ b) (a' ++ b') := by
  intro k
  rw [ofKey_append, ofKey_append, List.map_append, List.map_append, h k, h' k]

theorem Alike.length {a b : List ConfigRemote} (h : Alike a b) : a.length = b.length := by
  refine length_eq_of_ofKey bitKey fun k => ?_
  have hk := congrArg List.length (h k)
  rwa [List.length_map, List.length_map] at hk

/-- The remotes of each number of bits after post-processing. -/
theorem ofKey_postProcessAll {rems rems' : List ConfigRemote}
    (h : postProcessAll rems = some rems') (k : Int) :
    (ofKey bitKey k rems).map postProcess = (ofKey bitKey k rems').map some := by
  induction rems generalizing rems' with
  | nil =>
    injection h with h
    rw [← h]
    rfl
  | cons rem rems ih =>
    rw [postProcessAll] at h
    cases h1 : postProcess rem with
    | none =>
      rw [h1] at h
      exact absurd h.symm (Option.some_ne_none _)
    | some rem' =>
      rw [h1] at h
      dsimp only at h
      obtain ⟨xs, hxs, rfl⟩ := Option.map_eq_some_iff.mp h
      have hkey : bitKey rem' = bitKey rem := postProcess_bitCount h1
      by_cases hk : bitKey rem = k
      · rw [ofKey_cons_of_eq bitKey hk, ofKey_cons_of_eq bitKey (hkey.trans hk), List.map_cons,
          List.map_cons, ih hxs, h1]
      · have hk' : bitKey rem' ≠ k := by rwa [hkey]
        rw [ofKey_cons_of_ne bitKey hk, ofKey_cons_of_ne bitKey hk', ih hxs]

/-- Remotes that are processed already. -/
theorem map_postProcess_of_fixed {rems : List ConfigRemote}
    (h : ∀ rem ∈ rems, postProcess rem = some rem) (k : Int) :
    (ofKey bitKey k rems).map postProcess = (ofKey bitKey k rems).map some :=
  List.map_congr_left fun rem hrem => h rem (List.mem_filter.mp hrem).1

theorem postProcessAll_fixed {rems rems' : List ConfigRemote}
    (h : postProcessAll rems = some rems') : ∀ rem ∈ rems', postProcess rem = some rem := by
  intro rem hrem
  obtain ⟨rem0, -, h0⟩ := mem_postProcessAll h hrem
  exact postProcess_again h0

theorem postProcessAll_length {rems rems' : List ConfigRemote}
    (h : postProcessAll rems = some rems') : rems'.length = rems.length :=
  (Alike.length fun k => by
    rw [ofKey_postProcessAll h, map_postProcess_of_fixed (postProcessAll_fixed h)]).symm

/-- A list may be processed and sorted before. -/
theorem Alike.processed {rems rems' done : List ConfigRemote} (h : Alike rems rems')
    (hp : postProcessAll rems' = some done) : Alike rems (sortByBitCount done) := by
  intro k
  rw [h k, ofKey_postProcessAll hp, sortByBitCount_eq, ofKey_sortByKey,
    map_postProcess_of_fixed (postProcessAll_fixed hp)]

theorem postProcessAll_some {rems : List ConfigRemote}
    (h : ∀ rem ∈ rems, ∃ rem', postProcess rem = some rem') :
    ∃ rems', postProcessAll rems = some rems' := by
  induction rems with
  | nil => exact ⟨[], rfl⟩
  | cons rem rems ih =>
    obtain ⟨rem', h1⟩ := h rem List.mem_cons_self
    obtain ⟨rems', h2⟩ := ih fun x hx => h x (List.mem_cons_of_mem _ hx)
    refine ⟨rem' :: rems', ?_⟩
    rw [postProcessAll, h1]
    dsimp only
    rw [h2]
    rfl

/-- **A list alike to a result** is processed and sorted to it. -/
theorem Alike.result {rems result : List ConfigRemote} (h : Alike rems result)
    (hfixed : ∀ rem ∈ result, postProcess rem = some rem) (hsorted : SortedByKey bitKey result) :
    ∃ done, postProcessAll rems = some done ∧ sortByBitCount done = result := by
  have hall : ∀ rem ∈ rems, ∃ rem', postProcess rem = some rem' := by
    intro rem hrem
    have hmem : postProcess rem ∈ (ofKey bitKey (bitKey rem) rems).map postProcess :=
      List.mem_map_of_mem (List.mem_filter.mpr ⟨hrem, decide_eq_true rfl⟩)
    rw [h, map_postProcess_of_fixed hfixed] at hmem
    obtain ⟨rem', -, he⟩ := List.mem_map.mp hmem
    exact ⟨rem', he.symm⟩
  obtain ⟨done, hdone⟩ := postProcessAll_some hall
  refine ⟨done, hdone, ?_⟩
  rw [sortByBitCount_eq]
  refine eq_of_ofKey_eq bitKey (sorted_sortByKey bitKey done) hsorted fun k => ?_
  rw [ofKey_sortByKey]
  have he : (ofKey bitKey k done).map some = (ofKey bitKey k result).map some := by
    rw [← ofKey_postProcessAll hdone, h k, map_postProcess_of_fixed hfixed]
  exact List.map_injective_iff.mpr (Option.some_injective _) he

/-- The list of the text and that of the files: alike as long as `p` holds, that
    is nothing is lost, and longer afterwards. -/
structure Kept (p : Prop) (text files : List ConfigRemote) : Prop where
  alike : p → Alike text files
  lost : ¬ p → files.length < text.length

theorem Kept.same (rems : List ConfigRemote) : Kept True rems rems :=
  ⟨fun _ _ => rfl, fun h => absurd trivial h⟩

theorem Kept.le {p : Prop} {a b : List ConfigRemote} (h : Kept p a b) : b.length ≤ a.length := by
  by_cases hp : p
  · exact Nat.le_of_eq (h.alike hp).length.symm
  · exact Nat.le_of_lt (h.lost hp)

theorem Kept.congr {p q : Prop} {a b : List ConfigRemote} (h : Kept p a b) (hpq : q ↔ p) :
    Kept q a b := ⟨fun hq => h.alike (hpq.mp hq), fun hq => h.lost (mt hpq.mpr hq)⟩

theorem Kept.append {p q : Prop} {a a' b b' : List ConfigRemote} (h : Kept p a a')
    (h' : Kept q b b') : Kept (p ∧ q) (a ++ b) (a' ++ b') := by
  refine ⟨fun hpq => (h.alike hpq.1).append (h'.alike hpq.2), fun hpq => ?_⟩
  have h1 := h.le
  have h2 := h'.le
  rw [List.length_append, List.length_append]
  by_cases hp : p
  · have h3 := h'.lost fun hq => hpq ⟨hp, hq⟩
    omega
  · have h3 := h.lost hp
    omega

/-- What is dropped at the end of the list is lost. -/
theorem Kept.drop {p : Prop} {a b c : List ConfigRemote} (h : Kept p a (b ++ c)) :
    Kept (p ∧ c = []) a b := by
  refine ⟨fun ⟨hp, hc⟩ => ?_, fun hpc => ?_⟩
  · have h1 := h.alike hp
    rwa [hc, List.append_nil] at h1
  · have h1 := h.le
    rw [List.length_append] at h1
    by_cases hc : c = []
    · have h2 := h.lost fun hp => hpc ⟨hp, hc⟩
      rw [List.length_append] at h2
      omega
    · have h2 := List.length_pos_of_ne_nil hc
      omega

theorem Kept.processed {p : Prop} {a b done : List ConfigRemote} (h : Kept p a b)
    (hp : postProcessAll b = some done) : Kept p a (sortByBitCount done) := by
  refine ⟨fun hq => (h.alike hq).processed hp, fun hq => ?_⟩
  rw [(perm_sortByBitCount done).length_eq, postProcessAll_length hp]
  exact h.lost hq

/-! ## 3. The text of the files -/

/-- A line of a file: an `include` line stands for what is below it. -/
def expandLine (fs : FileSystem) (name : Option (List Char))
    (below : Option (List Char) → List (List Char) → List (List Char)) (buf : List Char) :
    List (List Char) :=
  match tokens buf with
  | key :: val :: _ =>
    if isKey "include" key then
      match openInclude fs name val with
      | .file path text => below (some path) (fgetsAll [] text)
      | _ => []
    else [buf]
  | _ => [buf]

/-- The lines of a file with every `include` line replaced by the lines of the
    file that it includes. -/
def expand (fs : FileSystem) :
    Nat → Option (List Char) → List (List Char) → List (List Char)
  | 0, _, bufs => bufs
  | levels + 1, name, bufs => bufs.flatMap (expandLine fs name (expand fs levels))

/-- `include` comes outside remote blocks. -/
def Outside (s : Parser) (toks : List (List Char)) : Prop := isInclude toks = true → s.mode = .none

/-- No remotes of an earlier `include` are behind the one that the next is
    linked to, where a remote begins. -/
def Linked (s : Parser) (toks : List (List Char)) : Prop :=
  isBeginOf "remote" toks = true → s.mode = .none → s.after = []

/-- The same where a file is included. -/
def LinkedBelow (s : Parser) : Prop := s.after = []

instance (s : Parser) (toks : List (List Char)) : Decidable (Outside s toks) :=
  inferInstanceAs (Decidable (isInclude toks = true → s.mode = .none))

instance (s : Parser) (toks : List (List Char)) : Decidable (Linked s toks) :=
  inferInstanceAs (Decidable (isBeginOf "remote" toks = true → s.mode = .none → s.after = []))

instance : DecidablePred LinkedBelow := fun s => inferInstanceAs (Decidable (s.after = []))

/-- The text is read in `t`, behind the remotes `base`, as the file in `s`: what
    the lines read next is the same, and the lists are `Kept`. -/
structure Follows (p : Prop) (base : List ConfigRemote) (s t : Parser) : Prop where
  mode : t.mode = s.mode
  error : t.parseError = s.parseError
  memory : t.memory = s.memory
  after : t.after = []
  closed : s.mode = .none → ∃ rems, t.done ++ t.rem.toList = base ++ rems ∧
    Kept p rems (s.done ++ s.rem.toList ++ s.after)
  opened : s.mode ≠ .none → t.rem = s.rem ∧ s.after = [] ∧
    ∃ rems, t.done = base ++ rems ∧ Kept p rems s.done
  codes : s.mode = .codes → t.codesList = s.codesList
  raws : s.mode = .rawCodes ∨ s.mode = .rawName → t.rawCodes = s.rawCodes ∧ t.rawCode = s.rawCode
  raw : s.mode = .rawName → t.rawName = s.rawName ∧ t.signals = s.signals

theorem Follows.congr {p q : Prop} {base : List ConfigRemote} {s t : Parser}
    (h : Follows p base s t) (hpq : q ↔ p) : Follows q base s t where
  mode := h.mode
  error := h.error
  memory := h.memory
  after := h.after
  closed := fun hm => by
    obtain ⟨rems, h1, h2⟩ := h.closed hm
    exact ⟨rems, h1, h2.congr hpq⟩
  opened := fun hm => by
    obtain ⟨h1, h2, rems, h3, h4⟩ := h.opened hm
    exact ⟨h1, h2, rems, h3, h4.congr hpq⟩
  codes := h.codes
  raws := h.raws
  raw := h.raw

/-- A step inside a block. -/
theorem Follows.inside {p : Prop} {base : List ConfigRemote} {s t s' t' : Parser}
    (h : Follows p base s t) (hm : s.mode ≠ .none) (mode : t'.mode = s'.mode)
    (error : t'.parseError = s'.parseError) (memory : t'.memory = s'.memory)
    (hm' : s'.mode ≠ .none) (rem : t'.rem = s'.rem) (sdone : s'.done = s.done)
    (tdone : t'.done = t.done) (safter : s'.after = s.after) (tafter : t'.after = t.after)
    (codes : s'.mode = .codes → t'.codesList = s'.codesList)
    (raws : s'.mode = .rawCodes ∨ s'.mode = .rawName →
      t'.rawCodes = s'.rawCodes ∧ t'.rawCode = s'.rawCode)
    (raw : s'.mode = .rawName → t'.rawName = s'.rawName ∧ t'.signals = s'.signals) :
    Follows p base s' t' where
  mode := mode
  error := error
  memory := memory
  after := tafter.trans h.after
  closed := fun h0 => absurd h0 hm'
  opened := fun _ => by
    obtain ⟨-, h2, rems, h3, h4⟩ := h.opened hm
    exact ⟨rem, safter.trans h2, rems, tdone.trans h3, sdone ▸ h4⟩
  codes := codes
  raws := raws
  raw := raw

/-! ## 4. A line in both -/

/-- What a line makes of the two states, unless it is a `parse_error`. -/
def Both (p : Prop) (base : List ConfigRemote) (o o' : Option Parser) : Prop :=
  ∀ s', o = some s' → s'.parseError = false → ∃ t', o' = some t' ∧ Follows p base s' t'

theorem Both.fail {p : Prop} {base : List ConfigRemote} {s : Parser} {o' : Option Parser} :
    Both p base (some s.fail) o' := by
  intro s' hs' herr
  injection hs' with hs'
  rw [← hs'] at herr
  exact absurd herr.symm Bool.false_ne_true

theorem Both.congr {p q : Prop} {base : List ConfigRemote} {o o' : Option Parser}
    (h : Both p base o o') (hpq : q ↔ p) : Both q base o o' := by
  intro s' hs' herr
  obtain ⟨t', ht', hf⟩ := h s' hs' herr
  exact ⟨t', ht', hf.congr hpq⟩

theorem addSignals_pair (vals : List (List Char)) {s t : Parser} (hsig : t.signals = s.signals)
    (herr : t.parseError = s.parseError) :
    (addSignals vals t).signals = (addSignals vals s).signals ∧
      (addSignals vals t).parseError = (addSignals vals s).parseError := by
  induction vals generalizing s t with
  | nil => exact ⟨hsig, herr⟩
  | cons val vals ih =>
    rw [addSignals, addSignals]
    cases sStrtolircT val with
    | none => exact ⟨hsig, rfl⟩
    | some v =>
      refine ih ?_ herr
      dsimp only
      rw [hsig]

theorem addRawCode_pair {s t : Parser} (hname : t.rawName = s.rawName)
    (hsig : t.signals = s.signals) (hcodes : t.rawCodes = s.rawCodes)
    (hcode : t.rawCode = s.rawCode) (herr : t.parseError = s.parseError) :
    (addRawCode t).rawCodes = (addRawCode s).rawCodes ∧
      (addRawCode t).parseError = (addRawCode s).parseError ∧
      (addRawCode t).rawCode = s.rawCode ∧ (addRawCode s).rawCode = s.rawCode := by
  unfold addRawCode
  rw [hname]
  cases s.rawName with
  | none => exact ⟨hcodes, herr, hcode, rfl⟩
  | some name =>
    dsimp only
    rw [hsig, hcodes, hcode, herr]
    exact ⟨rfl, rfl, rfl, rfl⟩

section Line

variable {p : Prop} {base : List ConfigRemote} {s t : Parser}

theorem Follows.signals (h : Follows p base s t) (hm : s.mode = .rawName)
    (vals : List (List Char)) :
    Both p base (some (addSignals vals s)) (some (addSignals vals t)) := by
  intro s' hs' _
  injection hs' with hs'
  have hne : s.mode ≠ .none := by
    rw [hm]
    decide
  obtain ⟨h1, h2⟩ := addSignals_pair vals (h.raw hm).2 h.error
  obtain ⟨ts, err, hs⟩ := addSignals_eq vals s
  obtain ⟨tt, err', ht⟩ := addSignals_eq vals t
  refine ⟨_, rfl, ?_⟩
  rw [← hs']
  rw [hs, ht] at h1 h2 ⊢
  exact h.inside hne h.mode h2 h.memory hne (h.opened hne).1 rfl rfl rfl rfl h.codes h.raws
    fun h0 => ⟨(h.raw h0).1, h1⟩

theorem Follows.beginCodes (h : Follows p base s t) :
    Both p base (beginCodes s) (beginCodes t) := by
  intro s' hs' herr
  rcases beginCodes_cases hs' with rfl | ⟨hm, rem, hr, hcodes, rfl⟩
  · exact Both.fail s.fail rfl herr
  · have hne : s.mode ≠ .none := by
      rw [hm]
      decide
    unfold WinLirc.beginCodes
    rw [h.mode, if_neg (not_not.mpr hm), (h.opened hne).1, hr]
    dsimp only
    rw [hcodes, h.memory]
    refine ⟨_, rfl, h.inside hne rfl h.error rfl nofun rfl rfl rfl rfl rfl
      (fun _ => rfl) ?_ nofun⟩
    rintro (h0 | h0) <;> cases h0

theorem Follows.beginRawCodes (h : Follows p base s t) :
    Both p base (beginRawCodes s) (beginRawCodes t) := by
  intro s' hs' herr
  rcases beginRawCodes_cases hs' with rfl | ⟨hm, rem, hr, hcodes, rfl⟩
  · exact Both.fail s.fail rfl herr
  · have hne : s.mode ≠ .none := by
      rw [hm]
      decide
    unfold WinLirc.beginRawCodes
    rw [h.mode, if_neg (not_not.mpr hm), (h.opened hne).1, hr]
    dsimp only
    rw [hcodes, h.memory]
    exact ⟨_, rfl, h.inside hne rfl h.error rfl nofun rfl rfl rfl rfl rfl nofun
      (fun _ => ⟨rfl, rfl⟩) nofun⟩

theorem Follows.beginRemote (h : Follows p base s t) :
    Both (p ∧ (s.mode = .none → s.after = [])) base (some (beginRemote s))
      (some (beginRemote t)) := by
  intro s' hs' herr
  unfold WinLirc.beginRemote at hs' ⊢
  rw [h.mode]
  injection hs' with hs'
  split at hs'
  · exact Both.fail s' (congrArg some hs') herr
  · next hm =>
    have hm : s.mode = .none := not_not.mp hm
    obtain ⟨rems, h1, h2⟩ := h.closed hm
    refine ⟨_, rfl, ?_⟩
    rw [if_neg (not_not.mpr hm), ← hs']
    refine ⟨rfl, h.error, h.memory, rfl, nofun, fun _ => ?_, nofun, ?_, nofun⟩
    · refine ⟨rfl, rfl, rems, h1, h2.drop.congr ?_⟩
      exact and_congr_right fun _ => ⟨fun ha => ha hm, fun ha _ => ha⟩
    · rintro (h0 | h0) <;> cases h0

theorem Follows.endCodes (h : Follows p base s t) : Both p base (endCodes s) (endCodes t) := by
  intro s' hs' herr
  rcases endCodes_cases hs' with rfl | ⟨hm, rem, hr, rfl⟩
  · exact Both.fail s.fail rfl herr
  · have hne : s.mode ≠ .none := by
      rw [hm]
      decide
    unfold WinLirc.endCodes
    rw [h.mode, if_neg (not_not.mpr hm), (h.opened hne).1, hr]
    dsimp only
    rw [h.codes hm]
    refine ⟨_, rfl, h.inside hne rfl h.error h.memory nofun rfl rfl rfl rfl rfl nofun ?_ nofun⟩
    rintro (h0 | h0) <;> cases h0

theorem Follows.endRemote (h : Follows p base s t) :
    Both p base (endRemote s) (endRemote t) := by
  intro s' hs' herr
  rcases endRemote_cases hs' with rfl | ⟨hm, rem, rem', hr, hsane, rfl⟩
  · exact Both.fail s.fail rfl herr
  · have hne : s.mode ≠ .none := by
      rw [hm]
      decide
    obtain ⟨hrem, -, rems, h1, h2⟩ := h.opened hne
    unfold WinLirc.endRemote
    rw [h.mode, if_neg (not_not.mpr hm), hrem, hr]
    dsimp only
    rw [hsane]
    refine ⟨_, rfl, rfl, h.error, h.memory, rfl, fun _ => ?_, fun h0 => absurd rfl h0, nofun,
      ?_, nofun⟩
    · refine ⟨rems ++ [rem'], ?_, ?_⟩
      · rw [← List.append_assoc, ← h1]
        rfl
      · rw [List.append_nil]
        exact (h2.append (Kept.same [rem'])).congr (and_iff_left trivial).symm
    · rintro (h0 | h0) <;> cases h0

theorem Follows.code (h : Follows p base s t) (hm : s.mode = .codes) (key val : List Char)
    (vals : List (List Char)) :
    Both p base (some (defineCode key val vals s)) (some (defineCode key val vals t)) := by
  intro s' hs' _
  injection hs' with hs'
  have hne : s.mode ≠ .none := by
    rw [hm]
    decide
  refine ⟨_, rfl, ?_⟩
  rw [← hs']
  unfold defineCode
  rw [h.memory, h.codes hm]
  exact h.inside hne h.mode rfl rfl hne (h.opened hne).1 rfl rfl rfl rfl (fun _ => rfl) h.raws h.raw

theorem Follows.setting (h : Follows p base s t) (hm : s.mode = .remote) (key val : List Char)
    (vals : List (List Char)) :
    Both p base (sectionLine key val vals s) (sectionLine key val vals t) := by
  intro s' hs' herr
  have hne : s.mode ≠ .none := by
    rw [hm]
    decide
  obtain ⟨rem, hr, rfl⟩ := sectionLine_remote hm hs'
  unfold sectionLine
  rw [h.mode, hm, (h.opened hne).1, hr, h.memory]
  refine ⟨_, rfl, h.inside hne rfl rfl rfl nofun rfl rfl rfl rfl rfl nofun ?_ nofun⟩
  rintro (h0 | h0) <;> cases h0

/-- A raw code is put into its table where the next begins or the table ends. -/
theorem Follows.addRaw (h : Follows p base s t) (hm : s.mode = .rawName) :
    Follows p base { addRawCode s with mode := .rawCodes }
      { addRawCode t with mode := .rawCodes } := by
  have hne : s.mode ≠ .none := by
    rw [hm]
    decide
  obtain ⟨hcodes, hcode⟩ := h.raws (Or.inr hm)
  obtain ⟨hname, hsig⟩ := h.raw hm
  obtain ⟨h1, h2, h3, h4⟩ := addRawCode_pair hname hsig hcodes hcode h.error
  obtain ⟨-, sdone, srem, safter, smem⟩ := addRawCode_frame s
  obtain ⟨-, tdone, trem, tafter, tmem⟩ := addRawCode_frame t
  refine h.inside hne rfl h2 (tmem.trans (h.memory.trans smem.symm)) nofun
    (trem.trans ((h.opened hne).1.trans srem.symm)) sdone tdone safter tafter nofun ?_ nofun
  exact fun _ => ⟨h1, h3.trans h4.symm⟩

theorem Follows.startRaw (h : Follows p base s t) (hm : s.mode = .rawCodes) (val : List Char) :
    Follows p base (startRawCode val s) (startRawCode val t) := by
  have hne : s.mode ≠ .none := by
    rw [hm]
    decide
  have hno : s.mode ≠ .rawName := by
    rw [hm]
    decide
  obtain ⟨hcodes, hcode⟩ := h.raws (Or.inl hm)
  unfold startRawCode
  rw [h.mode, if_neg hno, if_neg hno]
  dsimp only
  rw [h.memory, hcode]
  exact h.inside hne rfl h.error rfl nofun (h.opened hne).1 rfl rfl rfl rfl nofun
    (fun _ => ⟨hcodes, rfl⟩) fun _ => ⟨rfl, rfl⟩

theorem startRawCode_rawName (hm : s.mode = .rawName) (val : List Char) :
    startRawCode val s = startRawCode val { addRawCode s with mode := .rawCodes } := by
  unfold startRawCode
  rw [if_pos hm, if_neg nofun]

theorem Follows.rawCode (h : Follows p base s t) (hm : s.mode = .rawCodes ∨ s.mode = .rawName)
    (val : List Char) :
    Both p base (some (startRawCode val s)) (some (startRawCode val t)) := by
  intro s' hs' _
  injection hs' with hs'
  refine ⟨_, rfl, ?_⟩
  rw [← hs']
  rcases hm with hm | hm
  · exact h.startRaw hm val
  · rw [startRawCode_rawName hm, startRawCode_rawName (h.mode.trans hm)]
    exact (h.addRaw hm).startRaw rfl val

theorem endRawCodes_rawName (hm : s.mode = .rawName) :
    endRawCodes s = endRawCodes { addRawCode s with mode := .rawCodes } := by
  have hno : ({ addRawCode s with mode := .rawCodes } : Parser).mode ≠ .rawName := nofun
  unfold WinLirc.endRawCodes
  rw [if_pos hm, if_neg hno]

theorem Follows.endRaw (h : Follows p base s t) (hno : s.mode ≠ .rawName) :
    Both p base (endRawCodes s) (endRawCodes t) := by
  intro s' hs' herr
  unfold WinLirc.endRawCodes at hs' ⊢
  rw [h.mode, if_neg hno]
  rw [if_neg hno] at hs'
  dsimp only at hs' ⊢
  rw [h.mode]
  split at hs'
  · exact Both.fail s' hs' herr
  · next hm =>
    have hm : s.mode = .rawCodes := not_not.mp hm
    have hne : s.mode ≠ .none := by
      rw [hm]
      decide
    rw [if_neg (not_not.mpr hm), (h.opened hne).1]
    cases hr : s.rem with
    | none =>
      rw [hr] at hs'
      exact absurd hs'.symm (Option.some_ne_none _)
    | some rem =>
      rw [hr] at hs'
      dsimp only at hs' ⊢
      injection hs' with hs'
      rw [← hs', (h.raws (Or.inl hm)).1]
      refine ⟨_, rfl, h.inside hne rfl h.error h.memory nofun rfl rfl rfl rfl rfl nofun ?_ nofun⟩
      rintro (h0 | h0) <;> cases h0

theorem Follows.endRawCodes (h : Follows p base s t) :
    Both p base (endRawCodes s) (endRawCodes t) := by
  by_cases hm : s.mode = .rawName
  · rw [endRawCodes_rawName hm, endRawCodes_rawName (h.mode.trans hm)]
    exact (h.addRaw hm).endRaw nofun
  · exact h.endRaw hm

/-- **A line that includes nothing.** -/
theorem Follows.line {incl : List Char → Parser → Option Parser}
    (incl' : List Char → Parser → Option Parser) {toks : List (List Char)}
    (h : Follows p base s t) (hno : isInclude toks = false) :
    Both (p ∧ Linked s toks) base (parseTokens incl toks s) (parseTokens incl' toks t) := by
  have outside : ∀ d : Directive, d ≠ .none → s.mode = .none → s.mode ≠ d :=
    fun d hd h0 he => hd (he.symm.trans h0)
  have other : ∀ {o o' : Option Parser}, (s.mode = .none → o = some s.fail) → Both p base o o' →
      Both (p ∧ Linked s toks) base o o' := by
    intro o o' hfail ho
    by_cases hm : s.mode = .none
    · rw [hfail hm]
      exact Both.fail
    · exact ho.congr (and_iff_left fun _ h0 => absurd h0 hm)
  refine parseTokens_pair (P := Both (p ∧ Linked s toks) base) h.mode hno ?_ ?_ ?_ ?_ ?_ ?_ ?_ ?_
    ?_ ?_ ?_ ?_
  · intro hbegin s' hs' _
    injection hs' with hs'
    refine ⟨t, rfl, ?_⟩
    rw [← hs']
    exact h.congr (and_iff_left fun h0 => absurd (hbegin.symm.trans h0) Bool.false_ne_true)
  · exact Both.fail
  · intro vals hm
    exact other (fun h0 => Directive.noConfusion (hm.symm.trans h0)) (h.signals hm vals)
  · exact other (fun h0 => if_pos (outside .remote nofun h0)) h.beginCodes
  · exact other (fun h0 => if_pos (outside .remote nofun h0)) h.beginRawCodes
  · intro hbegin
    refine h.beginRemote.congr (and_congr_right fun _ => ?_)
    exact ⟨fun hl => hl hbegin, fun hl _ => hl⟩
  · exact other (fun h0 => if_pos (outside .codes nofun h0)) h.endCodes
  · refine other (fun h0 => ?_) h.endRawCodes
    unfold WinLirc.endRawCodes
    rw [if_neg (outside .rawName nofun h0)]
    exact if_pos (outside .rawCodes nofun h0)
  · exact other (fun h0 => if_pos (outside .remote nofun h0)) h.endRemote
  · intro key val vals hm
    exact other (fun h0 => Directive.noConfusion (hm.symm.trans h0)) (h.code hm key val vals)
  · intro val hm
    refine other (fun h0 => ?_) (h.rawCode hm val)
    rw [h0] at hm
    rcases hm with hm | hm <;> cases hm
  · intro key val vals hm
    exact other (fun h0 => Directive.noConfusion (hm.symm.trans h0)) (h.setting hm key val vals)

end Line

/-! ## 5. An `include` line -/

theorem isBegin_of_include {key : List Char} (h : isKey "include" key = true) :
    isKey "begin" key = false := by
  refine Bool.eq_false_iff.mpr fun hb => ?_
  have h1 := (eq_of_beq h).trans (eq_of_beq hb).symm
  exact absurd h1 (by decide)

theorem isInclude_begin {toks : List (List Char)} (h : isInclude toks = true) (part : String) :
    isBeginOf part toks = false := by
  match toks, h with
  | key :: val :: _, h =>
    rw [isBeginOf, isBegin_of_include h]
    rfl

/-- The lines `bufs` of the text are spliced in for a file that is read with the
    result `r`: they put the same remotes behind those that are there. -/
def Spliced (p : Prop) (incl : List Char → Parser → Option Parser) (bufs : List (List Char))
    (m : Memory) (r : ReadResult) : Prop :=
  ∀ t : Parser, t.mode = .none → t.parseError = false → t.after = [] → t.memory = m →
    ∃ t', parseLines incl bufs t = some t' ∧ t'.mode = .none ∧ t'.parseError = false ∧
      t'.after = [] ∧ t'.memory = r.memory ∧
      ∃ rems, t'.done ++ t'.rem.toList = (t.done ++ t.rem.toList) ++ rems ∧
        Kept p rems r.remotes

theorem topRem_included (s : Parser) (r : ReadResult) :
    (s.included r).done ++ (s.included r).rem.toList ++ (s.included r).after =
      s.done ++ s.rem.toList ++ r.remotes := by
  unfold Parser.included
  cases r.remotes with
  | nil => rfl
  | cons rem rems =>
    dsimp only
    rw [List.append_assoc]
    rfl

theorem included_frame (s : Parser) (r : ReadResult) : (s.included r).mode = s.mode ∧
    (s.included r).parseError = r.parseError ∧ (s.included r).memory = r.memory := by
  unfold Parser.included
  cases r.remotes <;> exact ⟨rfl, rfl, rfl⟩

/-- What was behind the remote that the file is linked to is lost. -/
theorem Follows.included {p q : Prop} {base : List ConfigRemote} {s t : Parser}
    (h : Follows p base s t) (hm : s.mode = .none) (herr : s.parseError = false)
    {incl : List Char → Parser → Option Parser} {bufs : List (List Char)} {r : ReadResult}
    (hr : r.parseError = false) (hsplice : Spliced q incl bufs s.memory r) :
    ∃ t', parseLines incl bufs t = some t' ∧
      Follows (p ∧ LinkedBelow s ∧ q) base (s.included r) t' := by
  obtain ⟨t', hrun, hmode', herr', hafter', hmem', rems, happ, hkept⟩ :=
    hsplice t (h.mode.trans hm) (h.error.trans herr) h.after h.memory
  obtain ⟨hmode, herror, hmem⟩ := included_frame s r
  have hnone : (s.included r).mode = .none := hmode.trans hm
  have hin : ∀ d : Directive, d ≠ .none → (s.included r).mode ≠ d :=
    fun d hd h0 => hd (h0.symm.trans hnone)
  refine ⟨t', hrun, hmode'.trans hnone.symm, herr'.trans (herror.trans hr).symm,
    hmem'.trans hmem.symm, hafter', fun _ => ?_, fun h0 => absurd hnone h0,
    fun h0 => absurd h0 (hin _ nofun), ?_, fun h0 => absurd h0 (hin _ nofun)⟩
  · obtain ⟨before, hbefore, hkept0⟩ := h.closed hm
    refine ⟨before ++ rems, ?_, ?_⟩
    · rw [happ, hbefore, List.append_assoc]
    · rw [topRem_included]
      exact (hkept0.drop.append hkept).congr and_assoc.symm
  · rintro (h0 | h0)
    · exact absurd h0 (hin _ nofun)
    · exact absurd h0 (hin _ nofun)

/-! ## 6. The lines of a file -/

/-- **The run over the text follows the run over the files**, if the text of each
    line does. -/
theorem Follows.lines {incl incl' : List Char → Parser → Option Parser}
    {C L : Parser → List (List Char) → Prop} {f : List Char → List (List Char)}
    {base : List ConfigRemote}
    (step : ∀ {p : Prop} {s t s' : Parser} (buf : List Char), Follows p base s t →
      s.parseError = false → C s (tokens buf) → parseTokens incl (tokens buf) s = some s' →
      s'.parseError = false → ∃ t', parseLines incl' (f buf) t = some t' ∧
        Follows (p ∧ L s (tokens buf)) base s' t')
    {p : Prop} {bufs : List (List Char)} {s t s' : Parser} (h : Follows p base s t)
    (hs : s.parseError = false) (hC : LinesMeet C incl bufs s)
    (hrun : parseLines incl bufs s = some s') (herr : s'.parseError = false) :
    ∃ t', parseLines incl' (bufs.flatMap f) t = some t' ∧
      Follows (p ∧ LinesMeet L incl bufs s) base s' t' := by
  induction bufs generalizing p s t with
  | nil =>
    injection hrun with hrun
    exact ⟨t, rfl, hrun ▸ h.congr (and_iff_left trivial)⟩
  | cons buf bufs ih =>
    obtain ⟨hC1, hC2⟩ := hC
    obtain ⟨s1, hstep, h1, hrun⟩ := parseLines_ok hrun herr
    obtain ⟨t1, ht1, hf1⟩ := step buf h hs hC1 hstep h1
    obtain ⟨t', ht', hf'⟩ := ih hf1 h1 (hC2 s1 hstep h1) hrun
    refine ⟨t', ?_, hf'.congr ?_⟩
    · rw [List.flatMap_cons, parseLines_append _ _ _ _ ht1 (hf1.error.trans h1)]
      exact ht'
    · rw [LinesMeet, and_assoc]
      refine and_congr_right fun _ => and_congr_right fun _ => ?_
      exact ⟨fun hl => hl s1 hstep h1,
        fun hl s2 h2 _ => Option.some.inj (hstep.symm.trans h2) ▸ hl⟩

theorem cleanUp_ok {s s' : Parser} (h : cleanUp s = some s') (herr : s'.parseError = false) :
    s.mode = .none ∧ s' = s := by
  unfold cleanUp at h
  split at h
  · next hm =>
    injection h with h
    exact ⟨hm, h.symm⟩
  · injection h with h
    rw [← h] at herr
    exact absurd herr.symm Bool.false_ne_true
  · obtain ⟨rem, -, rfl⟩ := Option.map_eq_some_iff.mp h
    exact absurd herr.symm Bool.false_ne_true
  · obtain ⟨rem, -, rfl⟩ := Option.map_eq_some_iff.mp h
    exact absurd herr.symm Bool.false_ne_true
  · obtain ⟨rem, -, rfl⟩ := Option.map_eq_some_iff.mp h
    exact absurd herr.symm Bool.false_ne_true

/-- What is known at the end of a file that is no error. -/
theorem finishFile_ok {s : Parser} {r : ReadResult} (h : finishFile s = some r)
    (hr : r.parseError = false) : s.mode = .none ∧ s.parseError = false ∧
      r.memory = s.memory ∧ ∃ done, postProcessAll s.topRem = some done ∧
        r.remotes = sortByBitCount done := by
  unfold finishFile at h
  cases hc : cleanUp s with
  | none =>
    rw [hc] at h
    exact absurd h.symm (Option.some_ne_none _)
  | some s' =>
    rw [hc] at h
    dsimp only at h
    split at h
    · injection h with h
      rw [← h] at hr
      exact absurd hr.symm Bool.false_ne_true
    · next hno =>
      have herr : s'.parseError = false := Bool.eq_false_iff.mpr hno
      obtain ⟨hm, rfl⟩ := cleanUp_ok hc herr
      obtain ⟨done, hdone, rfl⟩ := Option.map_eq_some_iff.mp h
      exact ⟨hm, herr, rfl, done, hdone, rfl⟩

/-- A file whose lines are followed by their text is spliced in by the text. -/
theorem spliced_readFile {incl incl' : List Char → Parser → Option Parser}
    {C L : Parser → List (List Char) → Prop} {f : List Char → List (List Char)}
    (step : ∀ {p : Prop} {base : List ConfigRemote} {s t s' : Parser} (buf : List Char),
      Follows p base s t → s.parseError = false → C s (tokens buf) →
      parseTokens incl (tokens buf) s = some s' → s'.parseError = false →
      ∃ t', parseLines incl' (f buf) t = some t' ∧ Follows (p ∧ L s (tokens buf)) base s' t')
    {bufs : List (List Char)} {m : Memory} {r : ReadResult}
    (hC : LinesMeet C incl bufs { memory := m }) (h : readFile incl bufs m = some r)
    (hr : r.parseError = false) :
    Spliced (LinesMeet L incl bufs { memory := m }) incl' (bufs.flatMap f) m r := by
  intro t htm hterr htafter htmem
  obtain ⟨s, hrun, hfin⟩ := Option.bind_eq_some_iff.mp h
  obtain ⟨hm, herr, hmem, done, hdone, hrems⟩ := finishFile_ok hfin hr
  have hstart : Follows True (t.done ++ t.rem.toList) { memory := m } t :=
    ⟨htm, hterr, htmem, htafter, fun _ => ⟨[], (List.append_nil _).symm, Kept.same []⟩,
      fun h0 => absurd rfl h0, nofun, fun h0 => h0.elim nofun nofun, nofun⟩
  obtain ⟨t', ht', hf⟩ := hstart.lines step rfl hC hrun herr
  obtain ⟨rems, happ, hkept⟩ := hf.closed hm
  refine ⟨t', ht', hf.mode.trans hm, hf.error.trans herr, hf.after, hf.memory.trans hmem.symm,
    rems, happ, ?_⟩
  rw [hrems]
  exact (hkept.processed hdone).congr (and_iff_right trivial).symm

/-! ## 7. The tree of files -/

theorem parseLines_single {incl : List Char → Parser → Option Parser} {buf : List Char}
    {t t' : Parser} (h : parseTokens incl (tokens buf) t = some t') :
    parseLines incl [buf] t = some t' := by
  rw [parseLines, h]
  dsimp only
  split
  · rfl
  · rfl

theorem include_line {toks : List (List Char)} (h : isInclude toks = true) :
    ∃ key val vals, toks = key :: val :: vals ∧ isKey "include" key = true := by
  match toks, h with
  | key :: val :: vals, h => exact ⟨key, val, vals, rfl, h⟩

theorem expandLine_plain (fs : FileSystem) (name : Option (List Char))
    (below : Option (List Char) → List (List Char) → List (List Char)) {buf : List Char}
    (h : isInclude (tokens buf) = false) : expandLine fs name below buf = [buf] := by
  unfold expandLine
  split
  · next key val vals htoks =>
    rw [htoks] at h
    exact if_neg (Bool.eq_false_iff.mp h)
  · rfl

theorem expandLine_include (fs : FileSystem) (name : Option (List Char))
    (below : Option (List Char) → List (List Char) → List (List Char)) {buf key val : List Char}
    {vals : List (List Char)} (h : tokens buf = key :: val :: vals)
    (hkey : isKey "include" key = true) : expandLine fs name below buf =
      match openInclude fs name val with
      | .file path text => below (some path) (fgetsAll [] text)
      | _ => [] := by
  unfold expandLine
  rw [h]
  exact if_pos hkey

theorem BelowMeets.plain {D : Parser → Prop}
    {M : Option (List Char) → List (List Char) → Memory → Prop} {fs : FileSystem}
    {name : Option (List Char)} {s : Parser} {toks : List (List Char)}
    (h : isInclude toks = false) : BelowMeets D M fs name s toks := by
  match toks with
  | [] => trivial
  | [_] => trivial
  | key :: val :: vals => exact fun hkey => absurd (h.symm.trans hkey) Bool.false_ne_true

theorem parseTokens_include (incl : List Char → Parser → Option Parser) {key : List Char}
    (val : List Char) (vals : List (List Char)) (s : Parser) (hkey : isKey "include" key = true) :
    parseTokens incl (key :: val :: vals) s = incl val s := if_pos hkey

/-- The text of a line follows the line, in a file that may include others. -/
theorem Follows.textOf {fs : FileSystem} {levels : Nat} {name : Option (List Char)}
    {incl' : List Char → Parser → Option Parser}
    (ih : ∀ (name : Option (List Char)) (bufs : List (List Char)) (m : Memory) (r : ReadResult),
      readConfigRecursive fs levels name bufs m = some r → r.parseError = false →
      FileMeets Outside (fun _ => True) fs levels name bufs m →
      Spliced (FileMeets Linked LinkedBelow fs levels name bufs m) incl'
        (expand fs levels name bufs) m r)
    {p : Prop} {base : List ConfigRemote} {s t s' : Parser} (buf : List Char)
    (h : Follows p base s t) (hs : s.parseError = false)
    (hC : Outside s (tokens buf) ∧ BelowMeets (fun _ => True)
      (FileMeets Outside (fun _ => True) fs levels) fs name s (tokens buf))
    (hstep : parseTokens (includeLine fs (readConfigRecursive fs levels) name) (tokens buf) s =
      some s') (herr : s'.parseError = false) :
    ∃ t', parseLines incl' (expandLine fs name (expand fs levels) buf) t = some t' ∧
      Follows (p ∧ Linked s (tokens buf) ∧ BelowMeets LinkedBelow
        (FileMeets Linked LinkedBelow fs levels) fs name s (tokens buf)) base s' t' := by
  obtain ⟨hout, hbelow⟩ := hC
  cases hinc : isInclude (tokens buf) with
  | false =>
    obtain ⟨t', ht', hf⟩ := h.line incl' hinc s' hstep herr
    rw [expandLine_plain fs name _ hinc]
    refine ⟨t', parseLines_single ht', hf.congr (and_congr_right fun _ => ?_)⟩
    exact and_iff_left (BelowMeets.plain hinc)
  | true =>
    obtain ⟨key, val, vals, htoks, hkey⟩ := include_line hinc
    have hmode : s.mode = .none := hout hinc
    have hlinked : Linked s (tokens buf) := fun hb =>
      absurd ((isInclude_begin hinc "remote").symm.trans hb) Bool.false_ne_true
    rw [expandLine_include fs name _ htoks hkey]
    rw [htoks] at hbelow hlinked hstep ⊢
    rw [parseTokens_include _ val vals s hkey] at hstep
    unfold includeLine at hstep
    cases hopen : openInclude fs name val with
    | malformed =>
      rw [hopen] at hstep
      injection hstep with hstep
      rw [← hstep] at herr
      exact absurd herr.symm Bool.false_ne_true
    | missing =>
      rw [hopen] at hstep
      injection hstep with hstep
      refine ⟨t, rfl, hstep ▸ h.congr (and_iff_left ⟨hlinked, fun _ path text h0 => ?_⟩)⟩
      exact Include.noConfusion (hopen.symm.trans h0)
    | file path text =>
      rw [hopen] at hstep
      obtain ⟨r, hread, rfl⟩ := Option.map_eq_some_iff.mp hstep
      obtain ⟨-, hfile⟩ := hbelow hkey path text hopen
      have hr : r.parseError = false := (included_frame s r).2.1.symm.trans herr
      obtain ⟨t', ht', hf⟩ := h.included hmode hs hr (ih _ _ _ r hread hr hfile)
      refine ⟨t', ht', hf.congr (and_congr_right fun _ => ?_)⟩
      refine ⟨fun hm => hm.2 hkey path text hopen, fun hm => ⟨hlinked, fun _ path' text' h0 => ?_⟩⟩
      injection hopen.symm.trans h0 with h1 h2
      rw [← h1, ← h2]
      exact hm

/-- **The text of a file is spliced in for the file.** -/
theorem spliced_expand (fs : FileSystem) (incl' : List Char → Parser → Option Parser)
    (levels : Nat) (name : Option (List Char)) (bufs : List (List Char)) (m : Memory)
    (r : ReadResult) (h : readConfigRecursive fs levels name bufs m = some r)
    (hr : r.parseError = false) (hC : FileMeets Outside (fun _ => True) fs levels name bufs m) :
    Spliced (FileMeets Linked LinkedBelow fs levels name bufs m) incl'
      (expand fs levels name bufs) m r := by
  induction levels generalizing name bufs m r with
  | zero =>
    have hsplice : Spliced (FileMeets Linked LinkedBelow fs 0 name bufs m) incl'
        (bufs.flatMap fun buf => [buf]) m r := by
      refine spliced_readFile (fun buf hf _ _ hstep herr => ?_) hC h hr
      cases hinc : isInclude (tokens buf) with
      | false =>
        obtain ⟨t', ht', hf'⟩ := hf.line incl' hinc _ hstep herr
        exact ⟨t', parseLines_single ht', hf'⟩
      | true =>
        obtain ⟨key, val, vals, htoks, hkey⟩ := include_line hinc
        rw [htoks, parseTokens_include _ val vals _ hkey] at hstep
        injection hstep with hstep
        rw [← hstep] at herr
        exact absurd herr.symm Bool.false_ne_true
    rwa [List.flatMap_singleton'] at hsplice
  | succ levels ih =>
    exact spliced_readFile (fun buf hf hs hout hstep herr => hf.textOf ih buf hs hout hstep herr)
      hC h hr

/-! ## 8. `read_config` -/

/-- The result of a file is processed and sorted. -/
theorem readConfigRecursive_sorted {fs : FileSystem} {levels : Nat} {name : Option (List Char)}
    {bufs : List (List Char)} {m : Memory} {r : ReadResult}
    (h : readConfigRecursive fs levels name bufs m = some r) (hr : r.parseError = false) :
    SortedByKey bitKey r.remotes ∧ ∀ rem ∈ r.remotes, postProcess rem = some rem := by
  have hfin : ∃ s, finishFile s = some r := by
    cases levels with
    | zero =>
      obtain ⟨s, -, hs⟩ := Option.bind_eq_some_iff.mp h
      exact ⟨s, hs⟩
    | succ levels =>
      obtain ⟨s, -, hs⟩ := Option.bind_eq_some_iff.mp h
      exact ⟨s, hs⟩
  obtain ⟨s, hs⟩ := hfin
  obtain ⟨-, -, -, done, hdone, hrems⟩ := finishFile_ok hs hr
  rw [hrems]
  refine ⟨?_, fun rem hrem => ?_⟩
  · rw [sortByBitCount_eq]
    exact sorted_sortByKey bitKey done
  · exact postProcessAll_fixed hdone rem ((perm_sortByBitCount done).mem_iff.mp hrem)

/-- **`include` is textual inclusion** exactly where nothing is lost: where a
    remote begins or a file is included, no remotes of an earlier `include` are
    left behind the one that is linked to. -/
theorem readConfig_expand (fs : FileSystem) (name : Option (List Char))
    (bufs : List (List Char)) (r : ReadResult) (h : readConfig fs name bufs = some r)
    (hr : r.parseError = false)
    (hout : FileMeets Outside (fun _ => True) fs (MAX_INCLUDES + 1) name bufs {}) :
    (∃ r', readConfig fs name (expand fs (MAX_INCLUDES + 1) name bufs) = some r' ∧
      r'.parseError = false ∧ r'.remotes = r.remotes) ↔
    FileMeets Linked LinkedBelow fs (MAX_INCLUDES + 1) name bufs {} := by
  obtain ⟨hsorted, hfixed⟩ := readConfigRecursive_sorted h hr
  obtain ⟨t, hrun, hm, herr, hafter, -, rems, happ, hkept⟩ :=
    spliced_expand fs (includeLine fs (readConfigRecursive fs MAX_INCLUDES) name) _ name bufs {} r
      h hr hout {} rfl rfl rfl rfl
  have htop : t.topRem = rems := by
    unfold Parser.topRem
    rw [happ, hafter, List.append_nil]
    rfl
  have hread : readConfig fs name (expand fs (MAX_INCLUDES + 1) name bufs) =
      (postProcessAll rems).map fun remotes =>
        { remotes := sortByBitCount remotes, parseError := false, memory := t.memory } := by
    have hfin : finishFile t = (postProcessAll t.topRem).map fun remotes =>
        { remotes := sortByBitCount remotes, parseError := false, memory := t.memory } := by
      unfold finishFile cleanUp
      rw [hm]
      dsimp only
      rw [herr, if_neg Bool.false_ne_true]
    rw [← htop, ← hfin]
    exact congrArg (·.bind finishFile) hrun
  rw [hread]
  constructor
  · rintro ⟨r', hr', -, hsame⟩
    by_contra hlost
    obtain ⟨done, hdone, rfl⟩ := Option.map_eq_some_iff.mp hr'
    have hlen : r.remotes.length = rems.length := by
      rw [← hsame, (perm_sortByBitCount done).length_eq, postProcessAll_length hdone]
    exact absurd (hkept.lost hlost) (Nat.not_lt_of_le (Nat.le_of_eq hlen.symm))
  · intro hlinked
    obtain ⟨done, hdone, hsame⟩ := (hkept.alike hlinked).result hfixed hsorted
    rw [hdone]
    exact ⟨_, rfl, rfl, hsame⟩

def remoteText (name : String) : String :=
  "begin remote\nname " ++ name ++ "\nbits 8\nbegin codes\nUP 0x01\nend codes\nend remote\n"

/-- `one.conf` has one remote, `two.conf` has two. -/
def confFiles : FileSystem := fun path =>
  if path = "one.conf".toList then some (remoteText "ONE").toList
  else if path = "two.conf".toList then some (remoteText "ONE" ++ remoteText "TWO").toList
  else none

/-- An `include` line and a remote behind it. -/
def includeFile (path : String) : List (List Char) :=
  fgetsAll [] ("include <" ++ path ++ ">\n" ++ remoteText "TOP").toList

theorem readConfig_expand_oneConf :
    FileMeets Outside (fun _ => True) confFiles (MAX_INCLUDES + 1) none (includeFile "one.conf")
      {} ∧
    ∃ r r', readConfig confFiles none (includeFile "one.conf") = some r ∧ r.remotes.length = 2 ∧
      readConfig confFiles none
        (expand confFiles (MAX_INCLUDES + 1) none (includeFile "one.conf")) = some r' ∧
      r'.parseError = false ∧ r'.remotes = r.remotes := by
  have hout : FileMeets Outside (fun _ => True) confFiles (MAX_INCLUDES + 1) none
      (includeFile "one.conf") {} := by
    decide +kernel
  have hlinked : FileMeets Linked LinkedBelow confFiles (MAX_INCLUDES + 1) none
      (includeFile "one.conf") {} := by
    decide +kernel
  have hread : (readConfig confFiles none (includeFile "one.conf")).map
      (fun r => (r.parseError, r.remotes.length)) = some (false, 2) := by
    decide +kernel
  obtain ⟨r, hr, hpair⟩ := Option.map_eq_some_iff.mp hread
  obtain ⟨herr, hlen⟩ := Prod.mk.inj hpair
  obtain ⟨r', hr', herr', hsame⟩ := (readConfig_expand _ _ _ r hr herr hout).mpr hlinked
  exact ⟨hout, r, r', hr, hlen, hr', herr', hsame⟩

/-- The remote behind the `include` line takes the place of the second that was
    included. -/
theorem readConfig_expand_loses :
    FileMeets Outside (fun _ => True) confFiles (MAX_INCLUDES + 1) none (includeFile "two.conf")
      {} ∧
    ∃ r r', readConfig confFiles none (includeFile "two.conf") = some r ∧ r.parseError = false ∧
      r.remotes.length = 2 ∧
      readConfig confFiles none
        (expand confFiles (MAX_INCLUDES + 1) none (includeFile "two.conf")) = some r' ∧
      r'.parseError = false ∧ r'.remotes.length = 3 := by
  have hout : FileMeets Outside (fun _ => True) confFiles (MAX_INCLUDES + 1) none
      (includeFile "two.conf") {} := by
    decide +kernel
  have hread : (readConfig confFiles none (includeFile "two.conf")).map
      (fun r => (r.parseError, r.remotes.length)) = some (false, 2) := by
    decide +kernel
  have htext : (readConfig confFiles none
      (expand confFiles (MAX_INCLUDES + 1) none (includeFile "two.conf"))).map
      (fun r => (r.parseError, r.remotes.length)) = some (false, 3) := by
    decide +kernel
  obtain ⟨r, hr, hpair⟩ := Option.map_eq_some_iff.mp hread
  obtain ⟨r', hr', hpair'⟩ := Option.map_eq_some_iff.mp htext
  obtain ⟨herr, hlen⟩ := Prod.mk.inj hpair
  obtain ⟨herr', hlen'⟩ := Prod.mk.inj hpair'
  exact ⟨hout, r, r', hr, herr, hlen, hr', herr', hlen'⟩

end WinLirc
