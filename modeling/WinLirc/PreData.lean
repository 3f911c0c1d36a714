/-
  File:      WinLirc/PreData.lean
  Subject:   IRRecord/irrecord.cpp: `get_pre_data` and `get_post_data`.

  Both fold a mask of the bits in which the values agree over the codes. Of
  the first code they take the value alone, of the others the nodes too.

  * `maskLoop_agree`: which bits the mask keeps;
  * `countHigh_shared`, `countLow_shared`: how many of them are extracted;
  * `preData_lossless`: every value is put together again exactly if the nodes
    of the first code share the bits that are extracted.
-/
import WinLirc.Fields

namespace WinLirc

open Signal

/-! ## 1. The two functions -/

/-- The values of a code: its own and those of its nodes. -/
def IrNcode.values (c : IrNcode) : List IrCode := c.code :: c.next

/-- A code whose values are changed in place. -/
def IrNcode.mapValues (f : IrCode → IrCode) (c : IrNcode) : IrNcode :=
  { c with
    code := f c.code
    next := c.next.map f
    current := c.current.map f
    transmitState := c.transmitState.map f }

/-- The loop over the codes behind the first: `mask` and `last`. -/
def maskLoop : IrCode → IrCode → List IrCode → IrCode × IrCode
  | mask, last, [] => (mask, last)
  | mask, last, v :: vs => maskLoop (mask &&& ~~~(last ^^^ v)) v vs

/-- `while(mask&0x8000000000000000LL)`: the mask is 0 after 64 turns. -/
def countHigh : Nat → IrCode → Nat
  | 0, _ => 0
  | n + 1, mask => if mask.getLsbD 63 then countHigh n (mask <<< 1) + 1 else 0

/-- `while(mask&0x1)`. -/
def countLow : Nat → IrCode → Nat
  | 0, _ => 0
  | n + 1, mask => if mask.getLsbD 0 then countLow n (mask >>> 1) + 1 else 0

/-- Only "even" numbers go to pre and post data. -/
def evenCount (count bits : Int) : Int :=
  if count.tmod 8 ≠ 0 ∧ (bits - count).tmod 8 ≠ 0 then count - count.tmod 8 else count

def getPreData (remote : IrRemote) : IrRemote :=
  if remote.bits = 0 then remote
  else
    match remote.codes with
    | first :: c :: codes => -- at least 2 codes needed
      let (mask, last) := maskLoop (-1) first.code ((c :: codes).flatMap (·.values))
      let count := evenCount (countHigh 64 mask - (64 - remote.bits)) remote.bits
      if count > 0 then
        let bits := remote.bits - count
        let mask := genMaskLoop count.toNat <<< bits.toNat
        { remote with
          bits := bits
          preDataBits := count
          preData := (last &&& mask) >>> bits.toNat
          codes := remote.codes.map (·.mapValues (· &&& ~~~mask)) }
      else remote
    | _ => remote

def getPostData (remote : IrRemote) : IrRemote :=
  if remote.bits = 0 then remote
  else
    match remote.codes with
    | first :: c :: codes => -- at least 2 codes needed
      let (mask, last) := maskLoop (-1) first.code ((c :: codes).flatMap (·.values))
      let count := evenCount (countLow 64 mask) remote.bits
      if count > 0 then
        { remote with
          bits := remote.bits - count
          postDataBits := count
          postData := last &&& genMaskLoop count.toNat
          codes := remote.codes.map (·.mapValues (· >>> count.toNat)) }
      else remote
    | _ => remote

/-! ## 2. The bits in which values agree -/

/-- The values agree in bit `i`. -/
def AgreeAt (vs : List IrCode) (i : Nat) : Prop := ∀ v ∈ vs, ∀ u ∈ vs, v.getLsbD i = u.getLsbD i

/-- The values agree in the bits from `i` on. -/
def AgreeFrom (vs : List IrCode) (i : Nat) : Prop := ∀ v ∈ vs, ∀ u ∈ vs, v >>> i = u >>> i

/-- The values agree in the lowest `k` bits. -/
def AgreeBelow (vs : List IrCode) (k : Nat) : Prop :=
  ∀ v ∈ vs, ∀ u ∈ vs, v &&& lowMask 64 k = u &&& lowMask 64 k

-- by the list: there is also an instance that tries all words
instance (vs : List IrCode) (i : Nat) : Decidable (AgreeFrom vs i) :=
  decidable_of_iff (vs.all fun v => vs.all fun u => v >>> i == u >>> i) (by simp [AgreeFrom])

instance (vs : List IrCode) (k : Nat) : Decidable (AgreeBelow vs k) :=
  decidable_of_iff (vs.all fun v => vs.all fun u => v &&& lowMask 64 k == u &&& lowMask 64 k)
    (by simp [AgreeBelow])

/-- How many of the highest of `bits` bits the values share. -/
def sharedHigh (vs : List IrCode) (bits : Nat) : Nat :=
  Nat.findGreatest (fun k => AgreeFrom vs (bits - k)) bits

/-- How many of the lowest bits. -/
def sharedLow (vs : List IrCode) (bits : Nat) : Nat := Nat.findGreatest (AgreeBelow vs) bits

theorem shiftRight_eq_iff {u v : IrCode} {i : Nat} :
    u >>> i = v >>> i ↔ ∀ j, i ≤ j → u.getLsbD j = v.getLsbD j := by
  constructor
  · intro h j hj
    have hbit := congrArg (fun x => x.getLsbD (j - i)) h
    simp only [BitVec.getLsbD_ushiftRight] at hbit
    rw [Nat.add_sub_cancel' hj] at hbit
    exact hbit
  · intro h
    apply BitVec.eq_of_getLsbD_eq
    intro j _
    rw [BitVec.getLsbD_ushiftRight, BitVec.getLsbD_ushiftRight]
    exact h _ (Nat.le_add_right i j)

theorem and_lowMask_eq_iff {u v : IrCode} {k : Nat} :
    u &&& lowMask 64 k = v &&& lowMask 64 k ↔ ∀ j, j < k → u.getLsbD j = v.getLsbD j := by
  constructor
  · intro h j hj
    have hbit := congrArg (fun x => x.getLsbD j) h
    simp only [BitVec.getLsbD_and, getLsbD_lowMask, hj, decide_true, Bool.and_true] at hbit
    by_cases h64 : j < 64
    · simpa [h64] using hbit
    · rw [BitVec.getLsbD_of_ge u j (Nat.le_of_not_lt h64),
        BitVec.getLsbD_of_ge v j (Nat.le_of_not_lt h64)]
  · intro h
    apply BitVec.eq_of_getLsbD_eq
    intro j _
    rw [BitVec.getLsbD_and, BitVec.getLsbD_and, getLsbD_lowMask]
    by_cases hj : j < k
    · rw [h j hj]
    · simp [hj]

theorem agreeFrom_iff {vs : List IrCode} {i : Nat} : AgreeFrom vs i ↔ ∀ j, i ≤ j → AgreeAt vs j := by
  unfold AgreeFrom AgreeAt
  constructor
  · intro h j hj v hv u hu
    exact shiftRight_eq_iff.mp (h v hv u hu) j hj
  · intro h v hv u hu
    exact shiftRight_eq_iff.mpr fun j hj => h j hj v hv u hu

theorem agreeBelow_iff {vs : List IrCode} {k : Nat} : AgreeBelow vs k ↔ ∀ j, j < k → AgreeAt vs j := by
  unfold AgreeBelow AgreeAt
  constructor
  · intro h j hj v hv u hu
    exact and_lowMask_eq_iff.mp (h v hv u hu) j hj
  · intro h v hv u hu
    exact and_lowMask_eq_iff.mpr fun j hj => h j hj v hv u hu

/-- **The mask keeps the bits in which the values agree.** -/
theorem maskLoop_agree (mask last : IrCode) (vs : List IrCode) (i : Nat) (hi : i < 64) :
    (maskLoop mask last vs).1.getLsbD i = true ↔
      mask.getLsbD i = true ∧ ∀ v ∈ vs, v.getLsbD i = last.getLsbD i := by
  induction vs generalizing mask last with
  | nil => simp [maskLoop]
  | cons v vs ih =>
    rw [maskLoop, ih]
    simp only [BitVec.getLsbD_and, BitVec.getLsbD_not, BitVec.getLsbD_xor, hi, decide_true,
      Bool.true_and, Bool.and_eq_true, Bool.not_eq_true', bne_eq_false_iff_eq,
      List.forall_mem_cons]
    constructor
    · rintro ⟨⟨hm, hv⟩, hvs⟩
      exact ⟨hm, hv.symm, fun u hu => (hvs u hu).trans hv.symm⟩
    · rintro ⟨hm, hv, hvs⟩
      exact ⟨⟨hm, hv.symm⟩, fun u hu => (hvs u hu).trans hv.symm⟩

theorem maskLoop_last (mask last : IrCode) (vs : List IrCode) :
    (maskLoop mask last vs).2 ∈ last :: vs := by
  induction vs generalizing mask last with
  | nil => exact List.mem_singleton.mpr rfl
  | cons v vs ih => exact List.mem_cons_of_mem _ (ih _ _)

/-- The mask of both functions. -/
theorem maskLoop_iff (first : IrCode) (vs : List IrCode) (i : Nat) (hi : i < 64) :
    (maskLoop (-1) first vs).1.getLsbD i = true ↔ AgreeAt (first :: vs) i := by
  have hone : (-1 : IrCode).getLsbD i = true := by
    rw [show (-1 : IrCode) = BitVec.allOnes 64 by decide, BitVec.getLsbD_allOnes]
    exact decide_eq_true hi
  rw [maskLoop_agree _ _ _ _ hi, hone]
  unfold AgreeAt
  constructor
  · rintro ⟨-, h⟩
    have hall : ∀ v ∈ first :: vs, v.getLsbD i = first.getLsbD i := by
      intro v hv
      rcases List.mem_cons.mp hv with rfl | hv
      · rfl
      · exact h v hv
    exact fun v hv u hu => (hall v hv).trans (hall u hu).symm
  · intro h
    exact ⟨rfl, fun v hv => h v (List.mem_cons_of_mem _ hv) first List.mem_cons_self⟩

/-- The leading ones of a mask. -/
theorem countHigh_spec (n : Nat) (hn : n ≤ 64) (mask : IrCode) :
    countHigh n mask ≤ n ∧ (∀ i, i < countHigh n mask → mask.getLsbD (63 - i) = true) ∧
      (countHigh n mask < n → mask.getLsbD (63 - countHigh n mask) = false) := by
  induction n generalizing mask with
  | zero => exact ⟨Nat.le_refl _, fun i hi => absurd hi (Nat.not_lt_zero i), fun h => absurd h (Nat.lt_irrefl 0)⟩
  | succ n ih =>
    rw [countHigh]
    by_cases hb : mask.getLsbD 63 = true
    · obtain ⟨hle, hone, hzero⟩ := ih (by omega) (mask <<< 1)
      have hshift : ∀ i, i < 63 → (mask <<< 1).getLsbD (63 - i) = mask.getLsbD (63 - (i + 1)) := by
        intro i hi
        have h1 : 63 - i < 64 := by omega
        have h2 : ¬ 63 - i < 1 := by omega
        have h3 : 63 - i - 1 = 63 - (i + 1) := by omega
        rw [BitVec.getLsbD_shiftLeft, h3]
        simp [h1, h2]
      rw [if_pos hb]
      refine ⟨by omega, fun i hi => ?_, fun h => ?_⟩
      · cases i with
        | zero => exact hb
        | succ i =>
          rw [← hshift i (by omega)]
          exact hone i (by omega)
      · rw [← hshift _ (by omega)]
        exact hzero (by omega)
    · rw [if_neg hb]
      exact ⟨Nat.zero_le _, fun i hi => absurd hi (Nat.not_lt_zero i),
        fun _ => Bool.eq_false_iff.mpr hb⟩

/-- The trailing ones of a mask. -/
theorem countLow_spec (n : Nat) (mask : IrCode) :
    countLow n mask ≤ n ∧ (∀ i, i < countLow n mask → mask.getLsbD i = true) ∧
      (countLow n mask < n → mask.getLsbD (countLow n mask) = false) := by
  induction n generalizing mask with
  | zero => exact ⟨Nat.le_refl _, fun i hi => absurd hi (Nat.not_lt_zero i), fun h => absurd h (Nat.lt_irrefl 0)⟩
  | succ n ih =>
    rw [countLow]
    by_cases hb : mask.getLsbD 0 = true
    · obtain ⟨hle, hone, hzero⟩ := ih (mask >>> 1)
      have hshift : ∀ i, (mask >>> 1).getLsbD i = mask.getLsbD (i + 1) := by
        intro i
        rw [BitVec.getLsbD_ushiftRight, Nat.add_comm]
      rw [if_pos hb]
      refine ⟨by omega, fun i hi => ?_, fun h => ?_⟩
      · cases i with
        | zero => exact hb
        | succ i =>
          rw [← hshift i]
          exact hone i (by omega)
      · rw [← hshift]
        exact hzero (by omega)
    · rw [if_neg hb]
      exact ⟨Nat.zero_le _, fun i hi => absurd hi (Nat.not_lt_zero i),
        fun _ => Bool.eq_false_iff.mpr hb⟩

/-! ## 3. How many bits are extracted -/

section Count

variable {vs : List IrCode} {bits k : Nat} {mask : IrCode}

theorem agree_of_lt (hlt : ∀ v ∈ vs, v.toNat < 2 ^ bits) {i : Nat} (hi : bits ≤ i) : AgreeAt vs i := by
  intro v hv u hu
  rw [getLsbD_of_lt (hlt v hv) hi, getLsbD_of_lt (hlt u hu) hi]

/-- The leading ones are the bits above the width and the shared ones. -/
theorem countHigh_shared (hbits : bits ≤ 64) (hlt : ∀ v ∈ vs, v.toNat < 2 ^ bits)
    (hmask : ∀ i, i < 64 → (mask.getLsbD i = true ↔ AgreeAt vs i)) :
    countHigh 64 mask = 64 - bits + sharedHigh vs bits := by
  obtain ⟨hle, hone, hzero⟩ := countHigh_spec 64 (Nat.le_refl 64) mask
  generalize countHigh 64 mask = k at hle hone hzero
  have habove : 64 - bits ≤ k := by
    by_contra hlow
    have hfalse := hzero (by omega)
    rw [(hmask _ (by omega)).mpr (agree_of_lt hlt (by omega))] at hfalse
    exact nomatch hfalse
  have hshared : sharedHigh vs bits = k - (64 - bits) := by
    unfold sharedHigh
    rw [Nat.findGreatest_eq_iff]
    refine ⟨by omega, fun _ => ?_, fun n hn hnb hagree => ?_⟩
    · rw [agreeFrom_iff]
      intro j hj
      by_cases h64 : j < 64
      · refine (hmask j h64).mp ?_
        have h := hone (63 - j) (by omega)
        rw [show 63 - (63 - j) = j by omega] at h
        exact h
      · exact agree_of_lt hlt (by omega)
    · have hfalse := hzero (by omega)
      rw [(hmask _ (by omega)).mpr (agreeFrom_iff.mp hagree _ (by omega))] at hfalse
      exact nomatch hfalse
  omega

/-- The shared low bits agree. -/
theorem sharedLow_agree (vs : List IrCode) (bits : Nat) : AgreeBelow vs (sharedLow vs bits) := by
  have h0 : AgreeBelow vs 0 := agreeBelow_iff.mpr fun j hj => absurd hj (Nat.not_lt_zero j)
  exact Nat.findGreatest_spec (P := AgreeBelow vs) (Nat.zero_le bits) h0

/-- The shared high bits agree. -/
theorem sharedHigh_agree (hlt : ∀ v ∈ vs, v.toNat < 2 ^ bits) :
    AgreeFrom vs (bits - sharedHigh vs bits) := by
  have h0 : AgreeFrom vs (bits - 0) := agreeFrom_iff.mpr fun j hj => agree_of_lt hlt hj
  exact Nat.findGreatest_spec (P := fun k => AgreeFrom vs (bits - k)) (Nat.zero_le bits) h0

/-- The next bit below them does not. -/
theorem sharedHigh_next (hlt : ∀ v ∈ vs, v.toNat < 2 ^ bits) (h : sharedHigh vs bits < bits) :
    ¬ AgreeAt vs (bits - sharedHigh vs bits - 1) := by
  intro hagree
  refine Nat.findGreatest_is_greatest (P := fun k => AgreeFrom vs (bits - k))
    (Nat.lt_succ_self (sharedHigh vs bits)) h (agreeFrom_iff.mpr fun j hj => ?_)
  by_cases he : j = bits - sharedHigh vs bits - 1
  · rw [he]
    exact hagree
  · exact agreeFrom_iff.mp (sharedHigh_agree hlt) j (by omega)

/-- Agreeing bits up to one in which the values do not agree. -/
theorem sharedLow_eq (hk : k < bits) (hall : ∀ i, i < k → AgreeAt vs i) (hno : ¬ AgreeAt vs k) :
    sharedLow vs bits = k := by
  unfold sharedLow
  rw [Nat.findGreatest_eq_iff]
  refine ⟨Nat.le_of_lt hk, fun _ => agreeBelow_iff.mpr hall, fun n hn _ hagree => ?_⟩
  exact hno (agreeBelow_iff.mp hagree k hn)

/-- The trailing ones are the shared low bits, where some bit is not shared. -/
theorem countLow_shared {ws : List IrCode} {i : Nat} (hbits : bits ≤ 64) (hi : i < bits)
    (hno : ¬ AgreeAt vs i) (hws : ∀ j, j ≤ i → (AgreeAt ws j ↔ AgreeAt vs j))
    (hmask : ∀ j, j < 64 → (mask.getLsbD j = true ↔ AgreeAt ws j)) :
    countLow 64 mask = sharedLow vs bits ∧ sharedLow vs bits ≤ i := by
  obtain ⟨hle, hone, hzero⟩ := countLow_spec 64 mask
  generalize countLow 64 mask = k at hle hone hzero
  have hki : k ≤ i := by
    by_contra hlt
    exact hno ((hws i (Nat.le_refl i)).mp ((hmask i (by omega)).mp (hone i (by omega))))
  have hshared : sharedLow vs bits = k := by
    refine sharedLow_eq (by omega) (fun j hj => ?_) fun hagree => ?_
    · exact (hws j (by omega)).mp ((hmask j (by omega)).mp (hone j hj))
    · have hfalse := hzero (by omega)
      rw [(hmask k (by omega)).mpr ((hws k hki).mpr hagree)] at hfalse
      exact nomatch hfalse
  exact ⟨hshared.symm, by omega⟩

theorem evenCount_bounds {count : Int} (width : Int) (h0 : 0 ≤ count) :
    0 ≤ evenCount count width ∧ evenCount count width ≤ count := by
  unfold evenCount
  rw [Int.tmod_eq_emod_of_nonneg h0]
  split
  · omega
  · omega

/-- All of the bits are taken, or not all are shared. -/
theorem evenCount_lt {count width : Int} (hle : count ≤ width)
    (hlt : evenCount count width < width) : count < width := by
  rcases Int.lt_or_eq_of_le hle with h | h
  · exact h
  · unfold evenCount at hlt
    rw [h, Int.sub_self] at hlt
    simp at hlt

end Count

/-! ## 4. What is left of the values -/

/-- The values that decide what is extracted. -/
def decisive (first c : IrNcode) (codes : List IrNcode) : List IrCode :=
  first.code :: (c :: codes).flatMap (·.values)

/-- How many bits go to the pre data, and how many to the post data. -/
def preCount (vs : List IrCode) (bits : Int) : Int := evenCount (sharedHigh vs bits.toNat) bits

def postCount (vs : List IrCode) (bits : Int) : Int :=
  evenCount (sharedLow vs bits.toNat) (bits - preCount vs bits)

/-- **The nodes of the first code share the extracted bits** with its value. -/
def FirstNodesAgree (remote : IrRemote) : Prop :=
  match remote.codes with
  | first :: c :: codes =>
    let vs := decisive first c codes
    ∀ n ∈ first.next,
      n >>> (remote.bits - preCount vs remote.bits).toNat =
          first.code >>> (remote.bits - preCount vs remote.bits).toNat ∧
        n &&& lowMask 64 (postCount vs remote.bits).toNat =
          first.code &&& lowMask 64 (postCount vs remote.bits).toNat
  | _ => True

/-- Every value, put together again, is the original one. -/
def Lossless (remote r : IrRemote) : Prop :=
  r.preDataBits + r.bits + r.postDataBits = remote.bits ∧
    r.codes.map (fun c => c.values.map (genIrCode r r.preData · r.postData)) =
      remote.codes.map (·.values)

@[simp] theorem values_mapValues (f : IrCode → IrCode) (c : IrNcode) :
    (c.mapValues f).values = c.values.map f := rfl

theorem mapValues_id (c : IrNcode) : c.mapValues id = c := by
  unfold IrNcode.mapValues
  simp

theorem mapValues_mapValues (f g : IrCode → IrCode) (c : IrNcode) :
    (c.mapValues f).mapValues g = c.mapValues (fun v => g (f v)) := by
  unfold IrNcode.mapValues
  simp [Function.comp_def]

theorem decisive_mapValues (f : IrCode → IrCode) (first c : IrNcode) (codes : List IrNcode) :
    decisive (first.mapValues f) (c.mapValues f) (codes.map (·.mapValues f)) =
      (decisive first c codes).map f := by
  unfold decisive
  simp only [List.map_cons, List.map_flatMap, List.flatMap_cons, List.flatMap_map,
    List.map_append, values_mapValues]
  rfl

/-- A remote whose fields have been cut down: `a` high bits and `b` low bits of
    `ref` are its pre and post data, `f` cuts its values. -/
structure CutDown (remote r : IrRemote) (f : IrCode → IrCode) (ref : IrCode) (a b : Int) : Prop where
  codes : r.codes = remote.codes.map (·.mapValues f)
  flags : r.flags = remote.flags
  bits : r.bits = remote.bits - a - b
  preDataBits : r.preDataBits = a
  postDataBits : r.postDataBits = b
  value : ∀ v, v.toNat < 2 ^ remote.bits.toNat → ∀ i,
    (f v).getLsbD i = (decide (i + b.toNat < (remote.bits - a).toNat) && v.getLsbD (i + b.toNat))
  pre : ∀ i, i < a.toNat → r.preData.getLsbD i = ref.getLsbD ((remote.bits - a).toNat + i)
  post : ∀ i, i < b.toNat → r.postData.getLsbD i = ref.getLsbD i

/-- Nothing is cut off. -/
theorem cutDown_refl {remote : IrRemote} (hpre : remote.preDataBits = 0)
    (hpost : remote.postDataBits = 0) (ref : IrCode) : CutDown remote remote id ref 0 0 where
  codes := by simp [mapValues_id]
  flags := rfl
  bits := by omega
  preDataBits := hpre
  postDataBits := hpost
  value := by
    intro v hv i
    by_cases hi : i < remote.bits.toNat
    · simp [hi]
    · simp [hi, getLsbD_of_lt hv (Nat.le_of_not_lt hi)]
  pre := fun i hi => absurd hi (Nat.not_lt_zero i)
  post := fun i hi => absurd hi (Nat.not_lt_zero i)

/-- **A value that was cut down** is put together again exactly if it shares
    the bits that were cut off. -/
theorem CutDown.value_iff {remote r : IrRemote} {f : IrCode → IrCode} {ref : IrCode} {a b : Int}
    (h : CutDown remote r f ref a b) (hraw : isRaw remote = false) (ha : 0 ≤ a) (hb : 0 ≤ b)
    (hab : a + b ≤ remote.bits) (h64 : remote.bits ≤ 64) (href : ref.toNat < 2 ^ remote.bits.toNat)
    {v : IrCode} (hv : v.toNat < 2 ^ remote.bits.toNat) :
    genIrCode r r.preData (f v) r.postData = v ↔
      v >>> (remote.bits - a).toNat = ref >>> (remote.bits - a).toNat ∧
        v &&& lowMask 64 b.toNat = ref &&& lowMask 64 b.toNat := by
  have hrawr : isRaw r = false := by
    unfold isRaw protocol at hraw ⊢
    rw [h.flags]
    exact hraw
  have hcount : bitCount r = remote.bits := by
    unfold bitCount
    rw [h.preDataBits, h.bits, h.postDataBits]
    omega
  have hfits : FitsWord r := by
    refine ⟨?_, ?_, ?_, by omega⟩
    · rw [h.preDataBits]
      exact ha
    · rw [h.bits]
      omega
    · rw [h.postDataBits]
      exact hb
  have hbit : ∀ j, (genIrCode r r.preData (f v) r.postData).getLsbD j =
      if j < b.toNat ∨ (remote.bits - a).toNat ≤ j then ref.getLsbD j else v.getLsbD j := by
    intro j
    rw [getLsbD_genIrCode hrawr hfits, hcount, h.postDataBits, h.bits]
    by_cases h1 : j < b.toNat
    · rw [if_pos h1, if_pos (.inl h1), h.post j h1]
    · by_cases h2 : j < b.toNat + (remote.bits - a - b).toNat
      · have h3 : ¬ (remote.bits - a).toNat ≤ j := by omega
        have h4 : j - b.toNat + b.toNat = j := by omega
        have h5 : j < (remote.bits - a).toNat := by omega
        rw [if_neg h1, if_pos h2, if_neg (not_or_intro h1 h3), h.value v hv, h4]
        simp [h5]
      · have h3 : (remote.bits - a).toNat ≤ j := by omega
        have hor : j < b.toNat ∨ (remote.bits - a).toNat ≤ j := .inr h3
        rw [if_neg h1, if_neg h2]
        by_cases h4 : j < remote.bits.toNat
        · have h5 : (remote.bits - a).toNat + (j - (b.toNat + (remote.bits - a - b).toNat)) = j := by
            omega
          rw [if_pos h4, if_pos hor, h.pre _ (by omega), h5]
        · rw [if_neg h4, if_pos hor, getLsbD_of_lt href (Nat.le_of_not_lt h4)]
  rw [shiftRight_eq_iff, and_lowMask_eq_iff]
  constructor
  · intro he
    refine ⟨fun j hj => ?_, fun j hj => ?_⟩
    · rw [← he, hbit, if_pos (.inr hj)]
    · rw [← he, hbit, if_pos (.inl hj)]
  · rintro ⟨hhigh, hlow⟩
    apply BitVec.eq_of_getLsbD_eq
    intro j _
    rw [hbit]
    split
    · next hj =>
      rcases hj with hj | hj
      · exact (hlow j hj).symm
      · exact (hhigh j hj).symm
    · rfl

/-! ## 5. The two steps -/

section Steps

variable {remote : IrRemote} {first c : IrNcode} {codes : List IrNcode}

theorem getLsbD_genMaskLoop (n i : Nat) (hn : n ≤ 64) :
    (genMaskLoop n).getLsbD i = decide (i < n) := by
  rw [genMaskLoop_eq, getLsbD_lowMask]
  by_cases hi : i < n
  · have h64 : i < 64 := by omega
    simp [hi, h64]
  · simp [hi]

/-- The values that the loop looks at. -/
theorem mem_decisive (hcodes : remote.codes = first :: c :: codes) {v : IrCode}
    (hv : v ∈ decisive first c codes) : ∃ e ∈ remote.codes, v ∈ e.values := by
  rw [hcodes]
  rcases List.mem_cons.mp hv with rfl | hv
  · exact ⟨first, List.mem_cons_self, List.mem_cons_self⟩
  · obtain ⟨e, he, hve⟩ := List.mem_flatMap.mp hv
    exact ⟨e, List.mem_cons_of_mem _ he, hve⟩

/-- The bits of pre data: those that all values share at the high end. -/
theorem preCount_bounds (remote : IrRemote) (vs : List IrCode) :
    0 ≤ preCount vs remote.bits ∧ preCount vs remote.bits ≤ sharedHigh vs remote.bits.toNat ∧
      sharedHigh vs remote.bits.toNat ≤ remote.bits.toNat := by
  have h := evenCount_bounds remote.bits
    (Int.natCast_nonneg (sharedHigh vs remote.bits.toNat))
  exact ⟨h.1, h.2, Nat.findGreatest_le _⟩

/-- **`get_pre_data`** cuts the shared high bits off. -/
theorem getPreData_cutDown (hcodes : remote.codes = first :: c :: codes) (hpos : 1 ≤ remote.bits)
    (h64 : remote.bits ≤ 64) (hpre : remote.preDataBits = 0) (hpost : remote.postDataBits = 0)
    (hlt : ∀ e ∈ remote.codes, ∀ v ∈ e.values, v.toNat < 2 ^ remote.bits.toNat) :
    ∃ f, CutDown remote (getPreData remote) f first.code
      (preCount (decisive first c codes) remote.bits) 0 := by
  have hvs : ∀ v ∈ decisive first c codes, v.toNat < 2 ^ remote.bits.toNat := by
    intro v hv
    obtain ⟨e, he, hve⟩ := mem_decisive hcodes hv
    exact hlt e he v hve
  have hmask := maskLoop_iff first.code ((c :: codes).flatMap (·.values))
  have hlast := maskLoop_last (-1) first.code ((c :: codes).flatMap (·.values))
  obtain ⟨ha0, hah, hhb⟩ := preCount_bounds remote (decisive first c codes)
  have hagree := sharedHigh_agree hvs
  unfold getPreData
  rw [if_neg (by omega), hcodes]
  dsimp only
  generalize maskLoop (-1) first.code ((c :: codes).flatMap (·.values)) = ml at hmask hlast ⊢
  obtain ⟨mask, last⟩ := ml
  dsimp only at hmask hlast ⊢
  have hhigh := countHigh_shared (by omega) hvs hmask
  have hcount : evenCount (countHigh 64 mask - (64 - remote.bits)) remote.bits =
      preCount (decisive first c codes) remote.bits := by
    unfold preCount
    congr 1
    omega
  rw [hcount]
  generalize preCount (decisive first c codes) remote.bits = a at ha0 hah ⊢
  split
  · next hgt =>
    refine ⟨(· &&& ~~~(genMaskLoop a.toNat <<< (remote.bits - a).toNat)), ?_⟩
    refine ⟨by rw [hcodes], rfl, by dsimp only; omega, rfl, hpost, ?_, ?_, ?_⟩
    · intro v hv i
      rw [BitVec.getLsbD_and, BitVec.getLsbD_not, BitVec.getLsbD_shiftLeft,
        getLsbD_genMaskLoop _ _ (by omega)]
      by_cases h1 : i < (remote.bits - a).toNat
      · have h2 : i < 64 := by omega
        simp [h1, h2]
      · by_cases h2 : i < remote.bits.toNat
        · have h3 : i < 64 := by omega
          have h4 : i - (remote.bits - a).toNat < a.toNat := by omega
          simp [h1, h3, h4]
        · simp [h1, getLsbD_of_lt hv (Nat.le_of_not_lt h2)]
    · intro i hi
      have h1 : (remote.bits - a).toNat + i < 64 := by omega
      have h2 : ¬ (remote.bits - a).toNat + i < (remote.bits - a).toNat := by omega
      dsimp only
      rw [BitVec.getLsbD_ushiftRight, BitVec.getLsbD_and, BitVec.getLsbD_shiftLeft,
        getLsbD_genMaskLoop _ _ (by omega)]
      have hsame : last.getLsbD ((remote.bits - a).toNat + i) =
          first.code.getLsbD ((remote.bits - a).toNat + i) :=
        agreeFrom_iff.mp hagree _ (by omega) last hlast first.code List.mem_cons_self
      rw [hsame, decide_eq_true h1, decide_eq_false h2, Nat.add_sub_cancel_left, decide_eq_true hi]
      simp
    · exact fun i hi => absurd hi (Nat.not_lt_zero i)
  · next hle =>
    obtain rfl : a = 0 := by omega
    exact ⟨id, cutDown_refl hpre hpost _⟩

/-- **`get_post_data`** then cuts the shared low bits off. -/
theorem getPostData_cutDown {r : IrRemote} {f : IrCode → IrCode}
    (hcodes : remote.codes = first :: c :: codes) (h64 : remote.bits ≤ 64)
    (hlt : ∀ e ∈ remote.codes, ∀ v ∈ e.values, v.toNat < 2 ^ remote.bits.toNat)
    (hr : CutDown remote r f first.code (preCount (decisive first c codes) remote.bits) 0)
    (hleft : preCount (decisive first c codes) remote.bits < remote.bits) :
    0 ≤ postCount (decisive first c codes) remote.bits ∧
      preCount (decisive first c codes) remote.bits +
        postCount (decisive first c codes) remote.bits ≤ remote.bits ∧
      ∃ g, CutDown remote (getPostData r) g first.code
        (preCount (decisive first c codes) remote.bits)
        (postCount (decisive first c codes) remote.bits) := by
  have hvs : ∀ v ∈ decisive first c codes, v.toNat < 2 ^ remote.bits.toNat := by
    intro v hv
    obtain ⟨e, he, hve⟩ := mem_decisive hcodes hv
    exact hlt e he v hve
  obtain ⟨ha0, hah, hhb⟩ := preCount_bounds remote (decisive first c codes)
  have hhigh : (sharedHigh (decisive first c codes) remote.bits.toNat : Int) < remote.bits :=
    evenCount_lt (by omega) hleft
  have hno := sharedHigh_next hvs (by omega)
  have hmask := maskLoop_iff (f first.code)
    (((c :: codes).map (·.mapValues f)).flatMap (·.values))
  have hlast := maskLoop_last (-1) (f first.code)
    (((c :: codes).map (·.mapValues f)).flatMap (·.values))
  have hdec : f first.code :: ((c :: codes).map (·.mapValues f)).flatMap (·.values) =
      (decisive first c codes).map f := decisive_mapValues f first c codes
  rw [hdec] at hlast
  simp only [hdec] at hmask
  unfold postCount
  generalize preCount (decisive first c codes) remote.bits = a at ha0 hah hleft hr ⊢
  generalize hvs' : decisive first c codes = vs at *
  have hbit : ∀ v ∈ vs, ∀ j, (f v).getLsbD j =
      (decide (j < (remote.bits - a).toNat) && v.getLsbD j) := by
    intro v hv j
    exact hr.value v (hvs v hv) j
  have hws : ∀ j, j ≤ remote.bits.toNat - sharedHigh vs remote.bits.toNat - 1 →
      (AgreeAt (vs.map f) j ↔ AgreeAt vs j) := by
    intro j hj
    have hja : j < (remote.bits - a).toNat := by omega
    unfold AgreeAt
    simp only [List.forall_mem_map]
    constructor
    · intro h v hv u hu
      have he := h v hv u hu
      rw [hbit v hv, hbit u hu] at he
      simpa [hja] using he
    · intro h v hv u hu
      rw [hbit v hv, hbit u hu, h v hv u hu]
  unfold getPostData
  have hrbits : r.bits = remote.bits - a := by
    rw [hr.bits]
    omega
  rw [if_neg (by omega), hr.codes, hcodes]
  simp only [List.map_cons] at hmask hlast ⊢
  rw [show (first.mapValues f).code = f first.code from rfl]
  generalize maskLoop (-1) (f first.code)
    ((c.mapValues f :: codes.map (·.mapValues f)).flatMap (·.values)) = ml at hmask hlast ⊢
  obtain ⟨mask, last⟩ := ml
  dsimp only at hmask hlast ⊢
  have hcount : countLow 64 mask = sharedLow vs remote.bits.toNat ∧
      sharedLow vs remote.bits.toNat ≤ _ :=
    countLow_shared (by omega) (by omega) hno hws hmask
  obtain ⟨hlow, hle⟩ := hcount
  rw [hlow, hrbits]
  have hb := evenCount_bounds (remote.bits - a)
    (Int.natCast_nonneg (sharedLow vs remote.bits.toNat))
  have hagree : AgreeBelow vs (sharedLow vs remote.bits.toNat) := sharedLow_agree _ _
  generalize evenCount (sharedLow vs remote.bits.toNat) (remote.bits - a) = b at hb ⊢
  refine ⟨hb.1, by omega, ?_⟩
  split
  · next hgt =>
    refine ⟨fun v => f v >>> b.toNat, ?_⟩
    refine ⟨?_, hr.flags, rfl, hr.preDataBits, rfl, ?_, ?_, ?_⟩
    · dsimp only
      rw [hcodes]
      simp [mapValues_mapValues]
    · intro v hv i
      have hval := hr.value v hv (i + b.toNat)
      rw [BitVec.getLsbD_ushiftRight, Nat.add_comm, hval]
      simp
    · exact hr.pre
    · intro i hi
      dsimp only
      rw [BitVec.getLsbD_and, getLsbD_genMaskLoop _ _ (by omega)]
      obtain ⟨v, hv, rfl⟩ := List.mem_map.mp hlast
      have hi' : i < (remote.bits - a).toNat := by omega
      rw [hbit v hv]
      have hsame : v.getLsbD i = first.code.getLsbD i :=
        agreeBelow_iff.mp hagree i (by omega) v hv first.code (by
          rw [← hvs']
          exact List.mem_cons_self)
      simp [hi, hi', hsame]
  · next hngt =>
    obtain rfl : b = 0 := by omega
    exact ⟨f, hr⟩

/-- All values, from those of each code. -/
theorem lossless_iff {r : IrRemote} {f : IrCode → IrCode} {v0 : IrCode} {a b : Int}
    (h : CutDown remote r f v0 a b) :
    Lossless remote r ↔
      ∀ e ∈ remote.codes, ∀ v ∈ e.values, genIrCode r r.preData (f v) r.postData = v := by
  have hbits : r.preDataBits + r.bits + r.postDataBits = remote.bits := by
    rw [h.preDataBits, h.bits, h.postDataBits]
    omega
  unfold Lossless
  rw [h.codes, List.map_map, List.map_inj_left]
  constructor
  · rintro ⟨-, h⟩ e he v hv
    have hmap := h e he
    simp only [Function.comp_apply, values_mapValues, List.map_map] at hmap
    rw [← List.map_id e.values, List.map_map] at hmap
    exact List.map_inj_left.mp hmap v hv
  · intro h
    refine ⟨hbits, fun e he => ?_⟩
    simp only [Function.comp_apply, values_mapValues, List.map_map]
    conv_rhs => rw [← List.map_id e.values]
    exact List.map_inj_left.mpr fun v hv => h e he v hv

/-- Of a remote with fewer than two codes nothing is extracted. -/
theorem lossless_refl (hraw : isRaw remote = false) (hpos : 1 ≤ remote.bits)
    (h64 : remote.bits ≤ 64) (hpre : remote.preDataBits = 0) (hpost : remote.postDataBits = 0)
    (hlt : ∀ e ∈ remote.codes, ∀ v ∈ e.values, v.toNat < 2 ^ remote.bits.toNat) :
    Lossless remote remote := by
  have h0 : (0 : IrCode).toNat < 2 ^ remote.bits.toNat := Nat.two_pow_pos _
  have hcut : CutDown remote remote id (0 : IrCode) 0 0 := cutDown_refl hpre hpost 0
  refine (lossless_iff hcut).mpr fun e he v hv => ?_
  have hv' := hlt e he v hv
  rw [hcut.value_iff hraw (Int.le_refl 0) (Int.le_refl 0) (by omega) h64 h0 hv', shiftRight_eq_iff,
    and_lowMask_eq_iff]
  refine ⟨fun j hj => ?_, fun j hj => absurd hj (Nat.not_lt_zero j)⟩
  rw [getLsbD_of_lt hv' (by omega), getLsbD_of_lt h0 (by omega)]

/-- Both steps. If all bits are pre data there is nothing left to cut off. -/
theorem extracted_cutDown (hcodes : remote.codes = first :: c :: codes) (hpos : 1 ≤ remote.bits)
    (h64 : remote.bits ≤ 64) (hpre : remote.preDataBits = 0) (hpost : remote.postDataBits = 0)
    (hlt : ∀ e ∈ remote.codes, ∀ v ∈ e.values, v.toNat < 2 ^ remote.bits.toNat) :
    ∃ f b, CutDown remote (getPostData (getPreData remote)) f first.code
        (preCount (decisive first c codes) remote.bits) b ∧
      0 ≤ b ∧ preCount (decisive first c codes) remote.bits + b ≤ remote.bits ∧
      (preCount (decisive first c codes) remote.bits < remote.bits →
        b = postCount (decisive first c codes) remote.bits) ∧
      (preCount (decisive first c codes) remote.bits = remote.bits → b = 0) := by
  obtain ⟨f, hf⟩ := getPreData_cutDown hcodes hpos h64 hpre hpost hlt
  obtain ⟨ha0, hah, hhb⟩ := preCount_bounds remote (decisive first c codes)
  rcases Int.lt_or_eq_of_le (show preCount (decisive first c codes) remote.bits ≤ remote.bits by
    omega) with hleft | hall
  · obtain ⟨hb0, hab, g, hg⟩ := getPostData_cutDown hcodes h64 hlt hf hleft
    exact ⟨g, _, hg, hb0, hab, fun _ => rfl, fun h => by omega⟩
  · have hsame : getPostData (getPreData remote) = getPreData remote := by
      have h0 : (getPreData remote).bits = 0 := by
        rw [hf.bits]
        omega
      unfold getPostData
      rw [if_pos h0]
    rw [hsame]
    exact ⟨f, 0, hf, Int.le_refl 0, by omega, fun h => by omega, fun _ => rfl⟩

/-- The values that decide share what is extracted. -/
theorem decisive_share {vs : List IrCode} {b : Int} (hpos : 1 ≤ remote.bits)
    (hvs : ∀ v ∈ vs, v.toNat < 2 ^ remote.bits.toNat)
    (hb : b = postCount vs remote.bits ∨ b = 0) {v u : IrCode} (hv : v ∈ vs) (hu : u ∈ vs) :
    v >>> (remote.bits - preCount vs remote.bits).toNat =
        u >>> (remote.bits - preCount vs remote.bits).toNat ∧
      v &&& lowMask 64 b.toNat = u &&& lowMask 64 b.toNat := by
  obtain ⟨ha0, hah, hhb⟩ := preCount_bounds remote vs
  have hhigh := agreeFrom_iff.mp (sharedHigh_agree hvs)
  have hlow := agreeBelow_iff.mp (sharedLow_agree vs remote.bits.toNat)
  have hle : b.toNat ≤ sharedLow vs remote.bits.toNat := by
    rcases hb with rfl | rfl
    · have h := evenCount_bounds (remote.bits - preCount vs remote.bits)
        (Int.natCast_nonneg (sharedLow vs remote.bits.toNat))
      unfold postCount
      omega
    · exact Nat.zero_le _
  rw [shiftRight_eq_iff, and_lowMask_eq_iff]
  refine ⟨fun j hj => hhigh j (by omega) v hv u hu, fun j hj => hlow j (by omega) v hv u hu⟩

/-- **Extracting pre and post data loses nothing** exactly if the nodes of the
    first code share the bits that are extracted. -/
theorem preData_lossless (remote : IrRemote) (hraw : isRaw remote = false) (hpos : 1 ≤ remote.bits)
    (h64 : remote.bits ≤ 64) (hpre : remote.preDataBits = 0) (hpost : remote.postDataBits = 0)
    (hlt : ∀ e ∈ remote.codes, ∀ v ∈ e.values, v.toNat < 2 ^ remote.bits.toNat) :
    Lossless remote (getPostData (getPreData remote)) ↔ FirstNodesAgree remote := by
  have hrefl := lossless_refl hraw hpos h64 hpre hpost hlt
  have hne : remote.bits ≠ 0 := by omega
  match hcodes : remote.codes with
  | [] =>
    have he : getPostData (getPreData remote) = remote := by
      simp [getPreData, getPostData, hne, hcodes]
    simpa [he, FirstNodesAgree, hcodes] using hrefl
  | [first] =>
    have he : getPostData (getPreData remote) = remote := by
      simp [getPreData, getPostData, hne, hcodes]
    simpa [he, FirstNodesAgree, hcodes] using hrefl
  | first :: c :: codes =>
    obtain ⟨f, b, hcut, hb0, hab, hpart, hwhole⟩ :=
      extracted_cutDown hcodes hpos h64 hpre hpost hlt
    obtain ⟨ha0, hah, hhb⟩ := preCount_bounds remote (decisive first c codes)
    have hvs : ∀ v ∈ decisive first c codes, v.toNat < 2 ^ remote.bits.toNat := by
      intro v hv
      obtain ⟨e, he, hve⟩ := mem_decisive hcodes hv
      exact hlt e he v hve
    have hmem : first.code ∈ decisive first c codes := List.mem_cons_self
    have hb : b = postCount (decisive first c codes) remote.bits ∨ b = 0 := by
      rcases Int.lt_or_eq_of_le (show preCount (decisive first c codes) remote.bits ≤ remote.bits by
        omega) with h | h
      · exact .inl (hpart h)
      · exact .inr (hwhole h)
    have hvalue := fun e he v hv => hcut.value_iff hraw ha0 hb0 hab h64 (hvs _ hmem) (hlt e he v hv)
    rw [lossless_iff hcut, FirstNodesAgree, hcodes]
    rw [hcodes] at hvalue
    dsimp only
    constructor
    · intro h n hn
      have hn' : n ∈ first.values := List.mem_cons_of_mem _ hn
      obtain ⟨h1, h2⟩ := (hvalue first List.mem_cons_self n hn').mp (h first List.mem_cons_self n hn')
      refine ⟨h1, ?_⟩
      rcases Int.lt_or_eq_of_le (show preCount (decisive first c codes) remote.bits ≤ remote.bits by
        omega) with hlt' | hall
      · rw [← hpart hlt']
        exact h2
      · -- all bits are shared: the node is the value
        rw [hall, Int.sub_self] at h1
        rw [shiftRight_eq_iff] at h1
        rw [and_lowMask_eq_iff]
        exact fun j _ => h1 j (Nat.zero_le j)
    · intro h e he v hv
      rw [hvalue e he v hv]
      have hcases : v ∈ first.next ∨ v ∈ decisive first c codes := by
        rcases List.mem_cons.mp he with rfl | he
        · rcases List.mem_cons.mp hv with rfl | hv
          · exact .inr hmem
          · exact .inl hv
        · exact .inr (List.mem_cons_of_mem _ (List.mem_flatMap.mpr ⟨e, he, hv⟩))
      rcases hcases with hn | hv
      · obtain ⟨h1, h2⟩ := h v hn
        refine ⟨h1, ?_⟩
        rcases hb with hb | hb
        · rw [hb]
          exact h2
        · rw [and_lowMask_eq_iff, hb]
          exact fun j hj => absurd hj (Nat.not_lt_zero j)
      · exact decisive_share hpos hvs hb hv hmem

end Steps

/-- A remote of 16 bits with two codes, the first one of two parts. -/
def twoPartRemote (node : IrCode) : IrRemote where
  bits := 16
  flags := SPACE_ENC
  codes := [{ name := "SOURCE", code := 0x1101, next := [node] }, { name := "MUTE", code := 0x1102 }]

theorem preData_lossless_twoPartRemote :
    Lossless (twoPartRemote 0x1103) (getPostData (getPreData (twoPartRemote 0x1103))) :=
  (preData_lossless (twoPartRemote 0x1103) (by decide) (by decide) (by decide) (by decide) (by decide)
    (by simp [twoPartRemote, IrNcode.values])).mpr (by
      unfold FirstNodesAgree
      simp only [twoPartRemote, List.forall_mem_singleton]
      exact ⟨by decide +kernel, by decide +kernel⟩)

/-- **The node of the first code is not looked at**: its upper byte is not that
    of the values, and is lost. -/
theorem preData_lossless_strayNode :
    (getPostData (getPreData (twoPartRemote 0x2203))).preData = 0x11 ∧
    (getPostData (getPreData (twoPartRemote 0x2203))).codes.map (·.values) = [[1, 3], [2]] ∧
    ¬ Lossless (twoPartRemote 0x2203) (getPostData (getPreData (twoPartRemote 0x2203))) := by
  refine ⟨by decide +kernel, by decide +kernel, fun h => ?_⟩
  exact absurd h.2 (by decide +kernel)

end WinLirc
