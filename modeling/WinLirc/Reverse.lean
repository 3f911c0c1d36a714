/-
  File:      WinLirc/Reverse.lean
  Subject:   winlirc/config.cpp: the flag `REVERSE`, from the line `end remote`
             to the code that `set_code` reports.

  `held` is what `read_config` makes of a remote behind its block
  (`readConfig_held`). The words of its codes are turned around, and `set_code`
  turns the whole word around, so that the fields come out as they are written,
  in the other order (`reversed_report`). The nodes of a sequence are only cut
  to their width (`turnedAround_iff`).
-/
import WinLirc.Regroup
import WinLirc.Repeats
import WinLirc.TextualInclude
import WinLirc.WellFormed

namespace WinLirc

open Signal

/-! ## 1. Turning a word around -/

theorem getLsbD_reverse_int (v : IrCode) {bits : Int} (h : bits ≤ 64) (j : Nat) :
    (reverse v bits).getLsbD j =
      (decide (j < bits.toNat) && v.getLsbD (bits.toNat - 1 - j)) := by
  have hloop : reverse v bits = reverse v (bits.toNat : Int) := by
    rcases Int.lt_or_le bits 0 with hneg | hpos
    · have h0 : bits.toNat = 0 := by omega
      unfold reverse
      rw [h0]
      rfl
    · rw [Int.toNat_of_nonneg hpos]
  rw [hloop]
  exact getLsbD_reverse v bits.toNat (by omega) j

/-- The bits beyond the width are not looked at. -/
theorem reverse_masked (v : IrCode) {bits : Int} (h : bits ≤ 64) :
    reverse (v &&& genMask bits) bits = reverse v bits := by
  refine BitVec.eq_of_getLsbD_eq fun j _ => ?_
  rw [getLsbD_reverse_int _ h, getLsbD_reverse_int _ h, getLsbD_genMask]
  by_cases hj : j < bits.toNat
  · have hin : bits.toNat - 1 - j < bits.toNat := by omega
    rw [decide_eq_true hin, Bool.true_and]
  · rw [decide_eq_false hj, Bool.false_and, Bool.false_and]

/-- A field that is turned around only where it is there. -/
theorem turned_field (v : IrCode) (bits : Int) :
    (if decide (bits > 0) then reverse (v &&& genMask bits) bits else v &&& genMask bits) =
      reverse (v &&& genMask bits) bits := by
  by_cases hpos : bits > 0
  · rw [decide_eq_true hpos, if_pos rfl]
  · have h0 : bits.toNat = 0 := by omega
    have hrev : reverse 0 bits = 0 := by
      unfold reverse
      rw [h0]
      rfl
    rw [decide_eq_false hpos, if_neg Bool.false_ne_true, genMask_of_nonpos hpos, hrev]

/-- The remote with its outer fields exchanged. -/
def swapEnds (r : IrRemote) : IrRemote :=
  { r with preDataBits := r.postDataBits, postDataBits := r.preDataBits }

theorem FitsWord.swapEnds {r : IrRemote} (hw : FitsWord r) : FitsWord (swapEnds r) := by
  obtain ⟨h1, h2, h3, h4⟩ := hw
  refine ⟨h3, h2, h1, ?_⟩
  unfold bitCount WinLirc.swapEnds at *
  dsimp only
  omega

/-- **Reversal goes over into the fields**, whose order it turns around. -/
theorem reverse_genIrCode {r : IrRemote} (hraw : isRaw r = false) (hw : FitsWord r)
    (pre code post : IrCode) :
    reverse (genIrCode r (reverse pre r.preDataBits) (reverse code r.bits)
        (reverse post r.postDataBits)) (bitCount r) =
      genIrCode (swapEnds r) post code pre := by
  obtain ⟨h1, h2, h3⟩ := hw.width_le
  have hcount : (bitCount r).toNat =
      r.preDataBits.toNat + r.bits.toNat + r.postDataBits.toNat := hw.wordBits.symm
  have hcount' : (bitCount (swapEnds r)).toNat = (bitCount r).toNat := by
    have hs : (bitCount (swapEnds r)).toNat =
        r.postDataBits.toNat + r.bits.toNat + r.preDataBits.toNat := hw.swapEnds.wordBits.symm
    omega
  refine BitVec.eq_of_getLsbD_eq fun j _ => ?_
  rw [getLsbD_reverse_int _ hw.count, getLsbD_genIrCode hraw hw,
    @getLsbD_genIrCode (swapEnds r) hraw hw.swapEnds, hcount']
  change _ = if j < r.preDataBits.toNat then pre.getLsbD j
    else if j < r.preDataBits.toNat + r.bits.toNat then code.getLsbD (j - r.preDataBits.toNat)
    else if j < (bitCount r).toNat then
      post.getLsbD (j - (r.preDataBits.toNat + r.bits.toNat))
    else false
  by_cases hj : j < (bitCount r).toNat
  · rw [decide_eq_true hj, Bool.true_and]
    -- the field that bit `j` lies in, seen from the other end
    by_cases hpre : j < r.preDataBits.toNat
    · rw [if_neg (by omega), if_neg (by omega), if_pos (by omega), if_pos hpre,
        getLsbD_reverse_int _ h1, decide_eq_true (by omega), Bool.true_and]
      congr 1
      omega
    · by_cases hcode : j < r.preDataBits.toNat + r.bits.toNat
      · rw [if_neg (by omega), if_pos (by omega), if_neg hpre, if_pos hcode,
          getLsbD_reverse_int _ h2, decide_eq_true (by omega), Bool.true_and]
        congr 1
        omega
      · rw [if_pos (by omega), if_neg hpre, if_neg hcode, if_pos hj,
          getLsbD_reverse_int _ h3, decide_eq_true (by omega), Bool.true_and]
        congr 1
        omega
  · rw [decide_eq_false hj, Bool.false_and, if_neg (by omega), if_neg (by omega), if_neg hj]

/-! ## 2. The remote behind its block -/

/-- What `read_config` makes of a remote at its line `end remote` and once the
    file is read. -/
def held (rem : ConfigRemote) : Option ConfigRemote :=
  (sanityChecks rem).bind fun x => if x.1 then postProcess x.2 else none

/-- The code of an entry as it is held. -/
def turnCode (bits : Int) (c : ConfigCode) : ConfigCode :=
  { maskCode bits c with code := reverse (c.code &&& genMask bits) bits }

/-- `rem'` is the remote `rem` turned around. -/
structure HeldReversed (rem rem' : ConfigRemote) : Prop where
  bits : rem'.ir.bits = rem.ir.bits
  preDataBits : rem'.ir.preDataBits = rem.ir.preDataBits
  postDataBits : rem'.ir.postDataBits = rem.ir.postDataBits
  preData : rem'.ir.preData =
    reverse (rem.ir.preData &&& genMask rem.ir.preDataBits) rem.ir.preDataBits
  postData : rem'.ir.postData =
    reverse (rem.ir.postData &&& genMask rem.ir.postDataBits) rem.ir.postDataBits
  flags : rem'.ir.flags = rem.ir.flags &&& ~~~REVERSE ||| COMPAT_REVERSE
  entries : rem'.entries = rem.entries.map (turnCode rem.ir.bits)

section Held

variable {rem rem' : ConfigRemote}

/-- **The remote that is held** has its words turned around, those of the nodes
    apart. -/
theorem turned_of_held (hraw : isRaw rem.ir = false) (hrev : hasFlag rem.ir REVERSE = true)
    (hheld : held rem = some rem') : HeldReversed rem rem' := by
  obtain ⟨⟨ok, rem1⟩, hs, hp⟩ := Option.bind_eq_some_iff.mp hheld
  unfold sanityChecks at hs
  split at hs
  · -- without a name the remote is refused
    injection hs with hs
    injection hs with hok hrem1
    subst hok
    exact absurd hp.symm (Option.some_ne_none _)
  · rw [hraw, if_neg Bool.false_ne_true] at hs
    cases hcodes : rem.codes with
    | none =>
      rw [hcodes] at hs
      exact absurd hs.symm (Option.some_ne_none _)
    | some table =>
      rw [hcodes] at hs
      injection hs with hs
      injection hs with hok hrem1
      subst hok
      obtain ⟨x, hx, rfl⟩ := Option.map_eq_some_iff.mp hp
      have hw := sameWords_settings x
      unfold reverseCodes at hx
      have hcond : (!isRaw rem1.ir && hasFlag rem1.ir REVERSE) = true := by
        have hflags : rem1.ir.flags = rem.ir.flags := by rw [← hrem1]
        unfold isRaw protocol at hraw ⊢
        unfold hasFlag at hrev ⊢
        rw [hflags, hraw, hrev]
        rfl
      rw [if_pos hcond, ← hrem1] at hx
      injection hx with hx
      have hbits' : x.ir.bits = rem.ir.bits := by rw [← hx]
      refine ⟨hw.bits.trans hbits', hw.preDataBits.trans (by rw [← hx]),
        hw.postDataBits.trans (by rw [← hx]), ?_, ?_,
        hw.flags.trans (by rw [← hx]), ?_⟩
      · rw [hw.preData, ← hx]
        exact turned_field _ _
      · rw [hw.postData, ← hx]
        exact turned_field _ _
      · unfold ConfigRemote.entries
        rw [hw.codes, ← hx, hcodes]
        change List.map _ (List.map _ _) = List.map _ _
        rw [List.map_map]
        rfl

end Held

/-! ## 3. `set_code` -/

/-- `set_code` turns around the word that `gen_ir_code` makes of the fields. -/
theorem reportedCode_compat {r : IrRemote} {found : IrNcode} (hraw : isRaw r = false)
    (hpre : InBits r.preData r.preDataBits) (hcode : InBits found.code r.bits)
    (hpost : InBits r.postData r.postDataBits) (hflag : hasFlag r COMPAT_REVERSE = true) :
    reportedCode r found =
      reverse (genIrCode r r.preData found.code r.postData) (bitCount r) := by
  have hgen : genIrCode r r.preData found.code r.postData =
      (r.preData <<< r.bits.toNat ||| found.code) <<< r.postDataBits.toNat ||| r.postData := by
    unfold genIrCode
    unfold InBits at hpre hcode hpost
    rw [hraw, if_neg Bool.false_ne_true, hpre, hcode, hpost]
  -- a field of no width is 0
  have habsent : ∀ {v : IrCode} {width : Int}, InBits v width → ¬ width > 0 → v = 0 := by
    intro v width hv hw
    unfold InBits at hv
    rw [← hv, genMask_of_nonpos hw]
  have hpre' : (if hasPre r then r.preData <<< r.bits.toNat else 0 : IrCode) =
      r.preData <<< r.bits.toNat := by
    by_cases h : hasPre r = true
    · rw [if_pos h]
    · have h0 : r.preData = 0 := habsent hpre fun hw => h (decide_eq_true hw)
      rw [if_neg h, h0]
      exact (BitVec.zero_shiftLeft _).symm
  unfold reportedCode
  dsimp only
  rw [if_pos hflag, hpre', hgen]
  by_cases h : hasPost r = true
  · rw [if_pos h]
  · have hno : ¬ r.postDataBits > 0 := fun hw => h (decide_eq_true hw)
    have h0 : r.postData = 0 := habsent hpost hno
    have hz : r.postDataBits.toNat = 0 := by omega
    rw [if_neg h, h0, hz, BitVec.shiftLeft_zero]
    exact congrArg (reverse · _) BitVec.or_zero.symm

/-- The fields of `r` as they are written, `post || code || pre`. -/
def mirrorWord (r : IrRemote) (code : IrCode) : IrCode :=
  ((r.postData &&& genMask r.postDataBits) <<< r.bits.toNat ||| code &&& genMask r.bits) <<<
      r.preDataBits.toNat |||
    r.preData &&& genMask r.preDataBits

theorem genIrCode_swapEnds {r : IrRemote} (hraw : isRaw r = false) (code : IrCode) :
    genIrCode (swapEnds r) r.postData code r.preData = mirrorWord r code := by
  have hraw' : isRaw (swapEnds r) = false := hraw
  unfold genIrCode
  rw [hraw', if_neg Bool.false_ne_true]
  rfl

/-- What is reported for a code of the remote that is held. -/
theorem HeldReversed.reported {rem rem' : ConfigRemote} (h : HeldReversed rem rem')
    (hraw : isRaw rem.ir = false) (hw : FitsWord rem.ir) {found : IrNcode} {code : IrCode}
    (hfound : found.code = reverse (code &&& genMask rem.ir.bits) rem.ir.bits) :
    reportedCode rem'.toIrRemote found = mirrorWord rem.ir code := by
  obtain ⟨h1, h2, h3⟩ := hw.width_le
  have hbits : rem'.toIrRemote.bits = rem.ir.bits := h.bits
  have hpbits : rem'.toIrRemote.preDataBits = rem.ir.preDataBits := h.preDataBits
  have hqbits : rem'.toIrRemote.postDataBits = rem.ir.postDataBits := h.postDataBits
  have hpre : rem'.toIrRemote.preData = reverse rem.ir.preData rem.ir.preDataBits :=
    h.preData.trans (reverse_masked _ h1)
  have hpost : rem'.toIrRemote.postData = reverse rem.ir.postData rem.ir.postDataBits :=
    h.postData.trans (reverse_masked _ h3)
  have hflags : rem'.toIrRemote.flags = rem.ir.flags &&& ~~~REVERSE ||| COMPAT_REVERSE := h.flags
  have hraw' : isRaw rem'.toIrRemote = false := by
    unfold isRaw protocol at hraw ⊢
    rw [hflags, reversed_protocol]
    exact hraw
  have hflag : hasFlag rem'.toIrRemote COMPAT_REVERSE = true := by
    have hne : COMPAT_REVERSE ≠ 0 := by decide
    unfold hasFlag
    rw [hflags, BitVec.and_comm, BitVec.and_or_distrib_left, BitVec.and_self]
    exact bne_iff_ne.mpr fun h0 => hne (BitVec.or_eq_zero_iff.mp h0).2
  have hpreIn : InBits rem'.toIrRemote.preData rem'.toIrRemote.preDataBits := by
    rw [hpre, hpbits]
    exact InBits.reversed _ _
  have hcodeIn : InBits found.code rem'.toIrRemote.bits := by
    rw [hfound, hbits]
    exact InBits.reversed _ _
  have hpostIn : InBits rem'.toIrRemote.postData rem'.toIrRemote.postDataBits := by
    rw [hpost, hqbits]
    exact InBits.reversed _ _
  have hcount : bitCount rem'.toIrRemote = bitCount rem.ir := by
    unfold bitCount
    rw [hpbits, hbits, hqbits]
  -- the widths are those of `rem`, so the words are put together alike
  have hgen : genIrCode rem'.toIrRemote rem'.toIrRemote.preData found.code
      rem'.toIrRemote.postData =
        genIrCode rem.ir (reverse rem.ir.preData rem.ir.preDataBits)
          (reverse code rem.ir.bits) (reverse rem.ir.postData rem.ir.postDataBits) := by
    unfold genIrCode
    rw [hpre, hpost, hfound, hpbits, hbits, hqbits, hraw, hraw', reverse_masked _ h2]
  rw [reportedCode_compat hraw' hpreIn hcodeIn hpostIn hflag, hgen, hcount,
    reverse_genIrCode hraw hw, genIrCode_swapEnds hraw]

/-- **The code that is reported** for a remote with `REVERSE` is put together of
    the fields as they are written, the last of them in front. -/
theorem reversed_report (rem rem' : ConfigRemote) (remote : IrRemote)
    (hraw : isRaw rem.ir = false) (hrev : hasFlag rem.ir REVERSE = true) (hw : FitsWord rem.ir)
    (hheld : held rem = some rem') (hsame : SameConfig rem'.toIrRemote remote)
    (hcodes : remote.codes.map IrNcode.code = rem'.toIrRemote.codes.map IrNcode.code)
    (i : Nat) (c : ConfigCode) (found : IrNcode) (hc : rem.entries[i]? = some c)
    (hfound : remote.codes[i]? = some found) (now : MyTimeval) (sameDecoded : Bool) (t : IrCode)
    (d : Decoded) :
    (setCode now sameDecoded remote i found t d).1 = mirrorWord rem.ir c.code := by
  have hturned := turned_of_held hraw hrev hheld
  -- the word of the entry in the remote that is held
  have hword : found.code = reverse (c.code &&& genMask rem.ir.bits) rem.ir.bits := by
    have hl : (remote.codes.map IrNcode.code)[i]? = some found.code := by
      rw [List.getElem?_map, hfound]
      rfl
    have hr : (rem'.toIrRemote.codes.map IrNcode.code)[i]? =
        some (reverse (c.code &&& genMask rem.ir.bits) rem.ir.bits) := by
      have he : rem'.toIrRemote.codes = rem'.entries.map ConfigCode.toIrNcode := rfl
      rw [he, hturned.entries, List.getElem?_map, List.getElem?_map, List.getElem?_map, hc]
      rfl
    rw [hcodes] at hl
    exact Option.some.inj (hl.symm.trans hr)
  calc (setCode now sameDecoded remote i found t d).1
      = reportedCode (setCode now sameDecoded remote i found t d).2 found :=
        setCode_code now sameDecoded remote i found t d
    _ = reportedCode rem'.toIrRemote found :=
        (hsame.trans (setCode_sameConfig now sameDecoded remote i found t d)).reportedCode found
    _ = mirrorWord rem.ir c.code := hturned.reported hraw hw hword

/-- A remote of a file, with the fields 0x3, 0x16 and 0x1. -/
def mirrorRemote : ConfigRemote where
  name := some ⟨1, "TV".toList⟩
  codes := some ⟨2, [⟨⟨3, "UP".toList⟩, 0x16, none, []⟩]⟩
  ir := { flags := SPACE_ENC ||| REVERSE, preDataBits := 4, preData := 0x3, bits := 8,
          postDataBits := 3, postData := 0x1 }

/-- What `receive_decode` takes from its frame. -/
def mirrorDecoded : Decoded := ⟨0xc, 0x68, 0x4, false, 0, 0⟩

theorem reversed_report_mirrorRemote : ∃ rem', held mirrorRemote = some rem' ∧
    (setCode ⟨0, 0⟩ false rem'.toIrRemote 0 { name := "UP", code := 0x68 } 0
      mirrorDecoded).1 = 0x1163 := by
  have hheld : ∃ rem', held mirrorRemote = some rem' ∧
      rem'.toIrRemote.codes = [{ name := "UP", code := 0x68 }] := by
    have h : (held mirrorRemote).map (fun rem' => rem'.toIrRemote.codes) =
        some [{ name := "UP", code := 0x68 }] := by
      decide +kernel
    exact Option.map_eq_some_iff.mp h
  obtain ⟨rem', hheld, hcodes⟩ := hheld
  refine ⟨rem', hheld, ?_⟩
  have hw : FitsWord mirrorRemote.ir := ⟨by decide, by decide, by decide, by decide⟩
  have hfound : rem'.toIrRemote.codes[0]? = some { name := "UP", code := 0x68 } := by
    rw [hcodes]
    rfl
  have hword : mirrorWord mirrorRemote.ir 0x16 = 0x1163 := by decide +kernel
  rw [← hword]
  exact reversed_report mirrorRemote rem' rem'.toIrRemote (by decide) (by decide) hw hheld rfl rfl
    0 ⟨⟨3, "UP".toList⟩, 0x16, none, []⟩ _ rfl hfound ⟨0, 0⟩ false 0 mirrorDecoded

/-! ## 4. The words of a table -/

/-- `w` has the bits of `v` below `bits`, the last of them first. -/
def Mirrored (bits : Int) (v w : IrCode) : Prop :=
  ∀ j, j < 64 → w.getLsbD j = (decide (j < bits.toNat) && v.getLsbD (bits.toNat - 1 - j))

/-- The code of an entry and all its nodes are turned around. -/
def TurnedAround (bits : Int) (c c' : ConfigCode) : Prop :=
  Mirrored bits c.code c'.code ∧ List.Forall₂ (Mirrored bits) c.next c'.next

/-- `v` reads the same from both ends of its width. -/
def Palindrome (bits : Int) (v : IrCode) : Prop :=
  ∀ j, j < bits.toNat → v.getLsbD j = v.getLsbD (bits.toNat - 1 - j)

theorem mirrored_masked_iff (v : IrCode) {bits : Int} (h : bits ≤ 64) :
    Mirrored bits v (v &&& genMask bits) ↔ Palindrome bits v := by
  constructor
  · intro hm j hj
    have hbit := hm j (by omega)
    rw [getLsbD_genMask, decide_eq_true hj, Bool.true_and, Bool.true_and] at hbit
    exact hbit
  · intro hp j _
    rw [getLsbD_genMask]
    by_cases hj : j < bits.toNat
    · rw [decide_eq_true hj, Bool.true_and, Bool.true_and]
      exact hp j hj
    · rw [decide_eq_false hj, Bool.false_and, Bool.false_and]

theorem turnedAround_turnCode (c : ConfigCode) {bits : Int} (h : bits ≤ 64) :
    TurnedAround bits c (turnCode bits c) ↔ ∀ node ∈ c.next, Palindrome bits node := by
  have hnext : (turnCode bits c).next = c.next.map (· &&& genMask bits) := rfl
  have hcode : Mirrored bits c.code (turnCode bits c).code := by
    have hturn : (turnCode bits c).code = reverse c.code bits := reverse_masked c.code h
    rw [hturn]
    exact fun j _ => getLsbD_reverse_int c.code h j
  unfold TurnedAround
  rw [hnext, List.forall₂_map_right_iff, List.forall₂_same]
  constructor
  · rintro ⟨-, hall⟩ node hmem
    exact (mirrored_masked_iff node h).mp (hall node hmem)
  · intro hall
    exact ⟨hcode, fun node hmem => (mirrored_masked_iff node h).mpr (hall node hmem)⟩

/-- **Where `REVERSE` reaches all words**: the nodes of a sequence have to read
    the same from both ends. -/
theorem turnedAround_iff (rem rem' : ConfigRemote) (hraw : isRaw rem.ir = false)
    (hrev : hasFlag rem.ir REVERSE = true) (hbits : rem.ir.bits ≤ 64)
    (hheld : held rem = some rem') :
    List.Forall₂ (TurnedAround rem.ir.bits) rem.entries rem'.entries ↔
      ∀ c ∈ rem.entries, ∀ node ∈ c.next, Palindrome rem.ir.bits node := by
  rw [(turned_of_held hraw hrev hheld).entries, List.forall₂_map_right_iff, List.forall₂_same]
  exact forall₂_congr fun c _ => turnedAround_turnCode c hbits

/-- A remote of 8 bits with one code. -/
def twoWordRemote (code : IrCode) (next : List IrCode) : ConfigRemote where
  name := some ⟨0, "TV".toList⟩
  codes := some ⟨1, [⟨⟨2, "UP".toList⟩, code, none, next⟩]⟩
  ir := { flags := SPACE_ENC ||| REVERSE, bits := 8 }

/-- The second word of this sequence is 00011000. -/
theorem turnedAround_iff_twoWord : ∃ rem', held (twoWordRemote 0x01 [0x18]) = some rem' ∧
    List.Forall₂ (TurnedAround 8) (twoWordRemote 0x01 [0x18]).entries rem'.entries := by
  have h : (held (twoWordRemote 0x01 [0x18])).isSome = true := by decide +kernel
  obtain ⟨rem', hheld⟩ := Option.isSome_iff_exists.mp h
  refine ⟨rem', hheld, ?_⟩
  refine (turnedAround_iff _ rem' (by decide) (by decide) (by decide) hheld).mpr
    fun c hc node hnode => ?_
  obtain rfl := List.mem_singleton.mp hc
  obtain rfl := List.mem_singleton.mp hnode
  intro j hj
  have h8 : ∀ j, j < 8 → (0x18 : IrCode).getLsbD j = (0x18 : IrCode).getLsbD (8 - 1 - j) := by
    decide +kernel
  exact h8 j hj

/-- A code of two words; the second keeps its 0x02. -/
def twoWordFile : List (List Char) :=
  fgetsAll [] ("begin remote\nname TV\nbits 8\nflags SPACE_ENC|REVERSE\nbegin codes\n".toList ++
    "UP 0x01 0x02\nend codes\nend remote\n".toList)

theorem node_not_turned : ∃ rem', held (twoWordRemote 0x01 [0x02]) = some rem' ∧
    (readConfig (fun _ => none) none twoWordFile).map ReadResult.remotes = some [rem'] ∧
    rem'.entries.map ConfigCode.next = [[0x02]] ∧
    ¬ List.Forall₂ (TurnedAround 8) (twoWordRemote 0x01 [0x02]).entries rem'.entries := by
  have h : (held (twoWordRemote 0x01 [0x02])).map (fun rem' =>
      (decide ((readConfig (fun _ => none) none twoWordFile).map ReadResult.remotes = some [rem']),
        rem'.entries.map ConfigCode.next)) = some (true, [[0x02]]) := by
    decide +kernel
  obtain ⟨rem', hheld, he⟩ := Option.map_eq_some_iff.mp h
  injection he with hread hnext
  refine ⟨rem', hheld, of_decide_eq_true hread, hnext, fun hall => ?_⟩
  have hnexts : List.Forall₂ (List.Forall₂ (Mirrored 8))
      ((twoWordRemote 0x01 [0x02]).entries.map ConfigCode.next)
      (rem'.entries.map ConfigCode.next) :=
    List.forall₂_map_left_iff.mpr (List.forall₂_map_right_iff.mpr (hall.imp fun _ _ h => h.2))
  rw [hnext] at hnexts
  cases hnexts with
  | cons hword _ =>
    cases hword with
    | cons hbit _ => exact absurd (hbit 1 (by decide)) (by decide)

/-! ## 5. The remotes that `read_config` returns -/

/-- Either the remote is still to be turned around, or it comes from an included
    file. -/
def BlockEnded (rem : ConfigRemote) : Prop :=
  ∃ rem0, sanityChecks rem0 = some (true, rem) ∨ held rem0 = some rem

theorem BlockEnded.postProcess {rem rem' : ConfigRemote} (h : BlockEnded rem)
    (hp : postProcess rem = some rem') : ∃ rem0, held rem0 = some rem' := by
  obtain ⟨rem0, hs | hh⟩ := h
  · refine ⟨rem0, ?_⟩
    unfold held
    rw [hs]
    exact hp
  · -- what is held is processed already
    obtain ⟨⟨ok, rem1⟩, hs, hp1⟩ := Option.bind_eq_some_iff.mp hh
    have hok : ok = true := by
      cases ok with
      | true => rfl
      | false => exact absurd hp1.symm (Option.some_ne_none _)
    subst hok
    have hagain : WinLirc.postProcess rem = some rem := postProcess_again hp1
    have hsame : rem = rem' := Option.some.inj (hagain.symm.trans hp)
    exact ⟨rem0, hsame ▸ hh⟩

/-- The remotes whose block is closed. -/
structure BlocksEnded (s : Parser) : Prop where
  done : ∀ rem ∈ s.done, BlockEnded rem
  closed : s.mode = .none → ∀ rem ∈ s.rem.toList ++ s.after, BlockEnded rem

theorem BlocksEnded.inside {s s' : Parser} (h : BlocksEnded s) (hdone : s'.done = s.done)
    (hmode : s'.mode ≠ .none) : BlocksEnded s' :=
  ⟨fun rem hmem => h.done rem (hdone ▸ hmem), fun hm => absurd hm hmode⟩

theorem BlocksEnded.included {s : Parser} (h : BlocksEnded s) (hm : s.mode = .none) {r : ReadResult}
    (hr : ∀ rem ∈ r.remotes, BlockEnded rem) : BlocksEnded (s.included r) := by
  have hrem : ∀ rem ∈ s.rem.toList, BlockEnded rem :=
    fun rem hmem => h.closed hm rem (List.mem_append_left _ hmem)
  unfold Parser.included
  cases hl : r.remotes with
  | nil =>
    refine ⟨h.done, fun _ rem hmem => ?_⟩
    rw [List.append_nil] at hmem
    exact hrem rem hmem
  | cons first others =>
    rw [hl] at hr
    refine ⟨fun rem hmem => ?_, fun _ => hr⟩
    rcases List.mem_append.mp hmem with hmem | hmem
    · exact h.done rem hmem
    · exact hrem rem hmem

/-- **A line** leaves the closed remotes as they are, and closes one at most. -/
theorem BlocksEnded.step {incl : List Char → Parser → Option Parser} {s s' : Parser}
    {toks : List (List Char)} (h : BlocksEnded s) (hstep : parseTokens incl toks s = some s')
    (herr : s'.parseError = false)
    (hincl : ∀ key val vals, toks = key :: val :: vals → isKey "include" key = true →
      incl val s = some s' → BlocksEnded s') : BlocksEnded s' := by
  have heffect := parseTokens_effect incl toks s
  rw [hstep] at heffect
  generalize ho : some s' = o at heffect
  cases heffect with
  | skip =>
    injection ho with ho
    exact ho ▸ h
  | fail => exact absurd herr (not_failed ho.symm)
  | signals vals hmode =>
    obtain ⟨ts, err, he⟩ := addSignals_eq vals s
    injection ho with ho
    rw [ho, he]
    refine h.inside rfl ?_
    change s.mode ≠ .none
    rw [hmode]
    exact Directive.noConfusion
  | «include» key val vals hline hkey => exact hincl key val vals hline hkey ho.symm
  | beginCodes =>
    rcases beginCodes_cases ho.symm with rfl | ⟨-, -, -, -, rfl⟩
    · exact absurd herr (not_failed rfl)
    · exact h.inside rfl Directive.noConfusion
  | beginRawCodes =>
    rcases beginRawCodes_cases ho.symm with rfl | ⟨-, -, -, -, rfl⟩
    · exact absurd herr (not_failed rfl)
    · exact h.inside rfl Directive.noConfusion
  | beginRemote =>
    rcases beginRemote_cases s with he | ⟨hm, he⟩
    · rw [he] at ho
      exact absurd herr (not_failed ho.symm)
    · rw [Option.some.inj ho, he]
      refine ⟨fun rem hmem => ?_, fun he => Directive.noConfusion he⟩
      rcases List.mem_append.mp hmem with hmem | hmem
      · exact h.done rem hmem
      · exact h.closed hm rem (List.mem_append_left _ hmem)
  | endCodes _ =>
    rcases endCodes_cases ho.symm with rfl | ⟨-, -, -, rfl⟩
    · exact absurd herr (not_failed rfl)
    · exact h.inside rfl Directive.noConfusion
  | endRawCodes =>
    have hdone : s.rawClosed.done = s.done := by
      unfold Parser.rawClosed
      split
      · exact (addRawCode_frame s).2.1
      · rfl
    rcases endRawCodes_cases ho.symm with rfl | ⟨-, -, -, rfl⟩
    · exact absurd herr (not_failed rfl)
    · exact h.inside hdone Directive.noConfusion
  | endRemote _ =>
    rcases endRemote_cases ho.symm with rfl | ⟨-, rem, rem', -, hs, rfl⟩
    · exact absurd herr (not_failed rfl)
    · refine ⟨h.done, fun _ r hr => ?_⟩
      rw [List.mem_singleton.mp hr]
      exact ⟨rem, Or.inl hs⟩
  | code key val vals hmode =>
    injection ho with ho
    rw [ho]
    refine h.inside rfl ?_
    change s.mode ≠ .none
    rw [hmode]
    exact Directive.noConfusion
  | rawCode val hmode =>
    injection ho with ho
    rw [ho]
    obtain ⟨h1, h2, -, -⟩ := startRawCode_frame val s
    refine h.inside h2 ?_
    rw [h1]
    exact Directive.noConfusion
  | setting key val vals hline hmode =>
    obtain ⟨-, -, rfl⟩ := sectionLine_remote hmode ho.symm
    exact h.inside rfl Directive.noConfusion

theorem finishFile_held {s : Parser} {r : ReadResult} (h : s.parseError = false → BlocksEnded s)
    (hr : finishFile s = some r) : ∀ rem ∈ r.remotes, ∃ rem0, held rem0 = some rem := by
  cases herr : r.parseError with
  | true =>
    intro rem hmem
    rw [finishFile_error hr herr] at hmem
    exact absurd hmem List.not_mem_nil
  | false =>
    obtain ⟨hm, hs, -, done, hdone, hsort⟩ := finishFile_ok hr herr
    have hall := h hs
    intro rem hmem
    rw [hsort] at hmem
    obtain ⟨rem0, hmem0, hp⟩ := mem_postProcessAll hdone
      ((perm_sortByBitCount done).mem_iff.mp hmem)
    refine BlockEnded.postProcess ?_ hp
    unfold Parser.topRem at hmem0
    rw [List.append_assoc] at hmem0
    rcases List.mem_append.mp hmem0 with hmem0 | hmem0
    · exact hall.done rem0 hmem0
    · exact hall.closed hm rem0 hmem0

theorem readConfigRecursive_held {fs : FileSystem} {levels : Nat} {name : Option (List Char)}
    {bufs : List (List Char)} {m : Memory} {r : ReadResult}
    (h : FileMeets Outside (fun _ => True) fs levels name bufs m)
    (hr : readConfigRecursive fs levels name bufs m = some r) :
    ∀ rem ∈ r.remotes, ∃ rem0, held rem0 = some rem := by
  have hinit : BlocksEnded { memory := m } :=
    ⟨fun _ hm => absurd hm List.not_mem_nil, fun _ _ hm => absurd hm List.not_mem_nil⟩
  induction levels generalizing name bufs m r with
  | zero =>
    obtain ⟨s, hs, hr⟩ := Option.bind_eq_some_iff.mp hr
    refine finishFile_held (fun herr => ?_) hr
    refine parseLines_meets (fun t toks t' ht _ hstep he => ?_) h hinit hs herr
    exact ht.step hstep he fun _ _ _ _ _ hf => absurd he (not_failed hf)
  | succ levels ih =>
    obtain ⟨s, hs, hr⟩ := Option.bind_eq_some_iff.mp hr
    refine finishFile_held (fun herr => ?_) hr
    refine parseLines_meets (fun t toks t' ht hC hstep he => ?_) h hinit hs herr
    obtain ⟨hout, hbelow⟩ := hC
    refine ht.step hstep he fun key val vals hline hkey => ?_
    rw [hline] at hbelow
    refine includeLine_cases (P := fun o => o = some t' → BlocksEnded t')
      (fun hf => absurd he (not_failed hf)) (fun hsame => Option.some.inj hsame ▸ ht)
      fun path text hopen hinc => ?_
    obtain ⟨-, hfile⟩ := hbelow hkey path text hopen
    obtain ⟨r', hr', rfl⟩ := Option.map_eq_some_iff.mp hinc
    have hmode : t.mode = .none := hout (by rw [hline]; exact hkey)
    have hnew : BlocksEnded { memory := t.memory } :=
      ⟨fun _ hm => absurd hm List.not_mem_nil, fun _ _ hm => absurd hm List.not_mem_nil⟩
    refine ht.included hmode fun rem hmem => ?_
    obtain ⟨rem0, h0⟩ := ih hfile hr' hnew rem hmem
    exact ⟨rem0, Or.inr h0⟩

/-- **Every remote of `read_config`** is what `held` makes of one at its line
    `end remote`, if no `include` line is inside a block. -/
theorem readConfig_held (fs : FileSystem) (name : Option (List Char)) (bufs : List (List Char))
    (r : ReadResult) (h : FileMeets Outside (fun _ => True) fs (MAX_INCLUDES + 1) name bufs {})
    (hr : readConfig fs name bufs = some r) : ∀ rem ∈ r.remotes, ∃ rem0, held rem0 = some rem :=
  readConfigRecursive_held h hr

end WinLirc
